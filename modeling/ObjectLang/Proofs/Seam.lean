import ObjectLang.Proofs.ReadErrors

/-!
Reading text line by line. A text that is read leaves no list and no string open, and a line break
ends the comment or the atom that it may stop in. So the text below is read as it is alone, but
after the forms that are there and with its lines further down.
-/

namespace ObjectLang

def ReadError.below (n : Nat) : ReadError → ReadError
  | .unclosedList line => .unclosedList (line + n)
  | .unexpectedClose line => .unexpectedClose (line + n)
  | .unterminatedString line => .unterminatedString (line + n)

namespace Reader

def lower {α β : Type} (n : Nat) (f : α → β) : Except ReadError α → Except ReadError β
  | .ok a => .ok (f a)
  | .error e => .error (e.below n)

theorem lower_bind {α α' β β' : Type} {n : Nat} {f : α → α'} {f' : β → β'}
    {g : α → Except ReadError β} {g' : α' → Except ReadError β'}
    (h : ∀ a, g' (f a) = lower n f' (g a)) (x : Except ReadError α) :
    (lower n f x).bind g' = lower n f' (x.bind g) := by
  cases x with
  | error e => rfl
  | ok a => exact h a

variable {r s : Reader} {fs : List Form}

def Mode.below (n : Nat) : Mode → Mode
  | .string line read => .string (line + n) read
  | mode => mode

def resumed (n : Nat) (done : List Form) (r : Reader) : Reader where
  line := r.line + n
  mode := r.mode.below n
  opened := r.opened.map fun l => { l with line := l.line + n }
  done := r.done ++ done

variable (n : Nat) (done : List Form) (c : Char)

theorem add_resumed (r : Reader) (f : Form) :
    add (r.resumed n done) f = (add r f).resumed n done := by
  cases ho : r.opened <;> simp [add, resumed, ho]

theorem close_resumed (r : Reader) :
    (r.resumed n done).close = lower n (resumed n done) r.close := by
  cases ho : r.opened with
  | nil => simp [close, resumed, ho, lower, ReadError.below]
  | cons l ls =>
    simp only [close, ho, lower, ← add_resumed]
    simp [resumed, ho]

theorem lead_resumed (hr : r.mode = .between) :
    (r.resumed n done).lead c = lower n (resumed n done) (r.lead c) := by
  have hmode : (r.resumed n done).mode = .between := by simp [resumed, hr, Mode.below]
  unfold lead
  split_ifs with hnl hhash hblank hopen hclose hquote
  · simp [lower, resumed, Nat.add_right_comm]
  · simp [lower, resumed, Mode.below]
  · rfl
  · simp [lower, resumed]
  · exact close_resumed n done r
  · simp [lower, resumed, Mode.below]
  · simp [lower, resumed, Mode.below]

theorem step_resumed (r : Reader) :
    (r.resumed n done).step c = lower n (resumed n done) (r.step c) := by
  have hbetween : { r.resumed n done with mode := .between } =
      { r with mode := .between }.resumed n done := rfl
  unfold Reader.step
  cases hm : r.mode with
  | between =>
    have hmode : (r.resumed n done).mode = .between := by simp [resumed, hm, Mode.below]
    simp only [hmode]
    exact lead_resumed n done c hm
  | comment =>
    have hmode : (r.resumed n done).mode = .comment := by simp [resumed, hm, Mode.below]
    simp only [hmode, hbetween]
    split_ifs
    · exact lead_resumed n done c rfl
    · rfl
  | atom read =>
    have hmode : (r.resumed n done).mode = .atom read := by simp [resumed, hm, Mode.below]
    simp only [hmode, hbetween, add_resumed]
    split_ifs
    · exact lead_resumed n done c (add_mode _ _)
    · rfl
  | string line read =>
    have hmode : (r.resumed n done).mode = .string (line + n) read := by
      simp [resumed, hm, Mode.below]
    simp only [hmode, hbetween, add_resumed]
    split_ifs
    · rfl
    · simp [lower, resumed, Mode.below, Nat.add_right_comm]
    · rfl

theorem read_resumed (r : Reader) (cs : List Char) :
    (r.resumed n done).read cs = lower n (resumed n done) (r.read cs) := by
  induction cs generalizing r with
  | nil => rfl
  | cons c cs ih =>
    simp only [Reader.read, List.foldlM_cons] at ih ⊢
    rw [step_resumed]
    exact lower_bind ih _

theorem finishLists_resumed (r : Reader) :
    (r.resumed n done).finishLists = lower n (done.reverse ++ ·) r.finishLists := by
  cases ho : r.opened.getLast? with
  | none => simp [finishLists, resumed, ho, lower]
  | some l => simp [finishLists, resumed, ho, lower, ReadError.below]

theorem finish_resumed (r : Reader) :
    (r.resumed n done).finish = lower n (done.reverse ++ ·) r.finish := by
  cases hm : r.mode with
  | between => simpa [finish, resumed, hm, Mode.below] using finishLists_resumed n done r
  | comment => simpa [finish, resumed, hm, Mode.below] using finishLists_resumed n done r
  | atom read =>
    have hlists := finishLists_resumed n done (add r (token read))
    rw [← add_resumed] at hlists
    simpa [finish, resumed, hm, Mode.below] using hlists
  | string line read => simp [finish, resumed, hm, Mode.below, lower, ReadError.below]

/- The seam. -/

theorem finishLists_eq_ok (h : r.finishLists = .ok fs) : r.opened = [] ∧ r.done = fs.reverse := by
  unfold finishLists at h
  split at h
  · cases h
  · next hnone =>
    cases h
    exact ⟨by simpa using hnone, by simp⟩

/-- After a text that could end here, a line break leaves nothing pending. -/
theorem step_newline (h : r.finish = .ok fs) :
    r.step '\n' = .ok ⟨r.line + 1, .between, [], fs.reverse⟩ := by
  unfold Reader.step
  cases hm : r.mode with
  | between =>
    simp only [finish, hm] at h
    obtain ⟨hopened, hdone⟩ := finishLists_eq_ok h
    simp [lead, hm, hopened, hdone]
  | comment =>
    simp only [finish, hm] at h
    obtain ⟨hopened, hdone⟩ := finishLists_eq_ok h
    simp [lead, hopened, hdone]
  | atom read =>
    simp only [finish, hm] at h
    obtain ⟨hopened, hdone⟩ := finishLists_eq_ok h
    have hnone : r.opened = [] := by
      cases ho : r.opened <;> simp [add, ho] at hopened
      rfl
    simp only [add, hnone] at hdone
    simp [endsAtom, Text.isBlank, lead, add, hnone, hdone]
  | string line read => simp [finish, hm] at h

end Reader

namespace Form

variable {s t : String} {fs : List Form}

/-- Reading is compositional. Below a text that is read, with a line break between the two, another
text gives what it gives alone: its forms after those of the first text, or its error, as many lines
further down as there are above it. -/
theorem parse_below (h : parse s = .ok fs) :
    parse (s ++ "\n" ++ t) =
      match parse t with
      | .ok gs => .ok (fs ++ gs)
      | .error e => .error (e.below (1 + s.toList.count '\n')) := by
  obtain ⟨r, hread, hfinish⟩ := except_bind_eq_ok.mp h
  have hline : r.line = 1 + s.toList.count '\n' := (Reader.stands_of_read hread).line
  have hseam : r.step '\n' =
      .ok (Reader.start.resumed (1 + s.toList.count '\n') fs.reverse) := by
    rw [Reader.step_newline hfinish, hline]
    simp [Reader.resumed, Reader.start, Reader.Mode.below, Nat.add_comm]
  have hboth : Reader.start.read (s ++ "\n" ++ t).toList =
      (Reader.start.resumed (1 + s.toList.count '\n') fs.reverse).read t.toList := by
    have htext : (s ++ "\n" ++ t).toList = s.toList ++ '\n' :: t.toList := by simp
    rw [htext, Reader.read_append hread, Reader.read_cons hseam]
  calc parse (s ++ "\n" ++ t)
      = (Reader.start.read (s ++ "\n" ++ t).toList).bind Reader.finish := rfl
    _ = Reader.lower (1 + s.toList.count '\n') (fs ++ ·) (parse t) := by
      rw [hboth, Reader.read_resumed]
      refine Reader.lower_bind (fun r => ?_) _
      simpa using Reader.finish_resumed _ fs.reverse r
    _ = _ := by cases parse t <;> rfl

/-- The first text stops in an atom and in a comment; the second is read or is not. -/
theorem parse_below_pending :
    parse "(a)\nb\n(c d)" = .ok [.list [.atom "a"], .atom "b", .list [.atom "c", .atom "d"]] ∧
    parse "(a) # (\n\n  (c" = .error (.unclosedList 3) := by
  have hatom : parse "(a)\nb" = .ok [.list [.atom "a"], .atom "b"] := by rfl
  have hcomment : parse "(a) # (" = .ok [.list [.atom "a"]] := by rfl
  exact ⟨parse_below (t := "(c d)") hatom, parse_below (t := "\n  (c") hcomment⟩

end Form

end ObjectLang
