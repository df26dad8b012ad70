import ObjectLang.Proofs.Parentheses
import ObjectLang.Proofs.Reading

/-!
Read errors. The reader knows the line it is on and, of the text before it, the lists that are open,
with the lines that they were opened on. So it stops at the first fault of the text, and when it
comes to the end it blames the earliest list with no partner.
-/

namespace ObjectLang

open Text (lineAfter Nested Piece Clear Balanced Opened StrayClose StrayOpen EndlessString)

namespace Reader

variable {r r' s : Reader} {c : Char} {cs ds before : List Char} {f : Form} {e : ReadError}

def lines (r : Reader) : List Nat := r.opened.map OpenList.line

@[simp] theorem lines_add (r : Reader) (f : Form) : (add r f).lines = r.lines := by
  simp only [add, lines]
  cases r.opened <;> rfl

@[simp] theorem line_add (r : Reader) (f : Form) : (add r f).line = r.line := by
  simp only [add]
  cases r.opened <;> rfl

def Pending (before : List Char) : Mode → List Char → Prop
  | .between, tail | .atom _, tail => tail = []
  | .comment, tail => ∃ body, tail = '#' :: body ∧ '\n' ∉ body
  | .string line _, tail => (∃ inner, tail = '"' :: inner ∧ '"' ∉ inner) ∧ line = lineAfter before

structure Stands (cs : List Char) (r : Reader) : Prop where
  line : r.line = lineAfter cs
  text : ∃ before tail, cs = before ++ tail ∧ Nested before r.lines ∧ Pending before r.mode tail

theorem lineAfter_concat (cs : List Char) (c : Char) :
    lineAfter (cs ++ [c]) = if c = '\n' then lineAfter cs + 1 else lineAfter cs := by
  by_cases hc : c = '\n'
  · simp [lineAfter, hc, Nat.add_assoc]
  · simp [lineAfter, hc]

theorem piece_of_blank (hc : Text.isBlank c = true) : Piece [c] := by
  refine .other ?_ ?_ ?_ ?_ <;>
  · rintro rfl
    simp [Text.isBlank] at hc

theorem stands_start : Stands [] start := ⟨rfl, [], [], rfl, .top .nil, rfl⟩

/-- At rest nothing is pending. -/
theorem Rests.pending_iff (h : Rests r s) {tail : List Char} :
    Pending before r.mode tail ↔ tail = [] := by
  cases h with
  | between h => rw [h, Pending]
  | atom h => rw [h, Pending]

theorem Rests.stands (h : Rests r s) (hline : r.line = lineAfter cs) (hn : Nested cs r.lines) :
    Stands cs r :=
  ⟨hline, cs, [], by simp, hn, h.pending_iff.mpr rfl⟩

theorem Rests.nested (h : Rests r s) (hr : Stands cs r) :
    s.line = lineAfter cs ∧ Nested cs s.lines := by
  obtain ⟨hline, before, tail, rfl, hn, hp⟩ := hr
  obtain rfl := h.pending_iff.mp hp
  rw [List.append_nil] at *
  cases h with
  | between => exact ⟨hline, hn⟩
  | atom => exact ⟨(line_add _ _).trans hline, (lines_add _ _).symm ▸ hn⟩

theorem Stands.between (hmode : r.mode = .between) (hline : r.line = lineAfter cs)
    (hn : Nested cs r.lines) : Stands cs r :=
  Rests.stands (.between hmode) hline hn

/-- What a character leads to that belongs to nothing begun before it. -/
theorem Stands.lead (hmode : r.mode = .between) (hline : r.line = lineAfter cs)
    (hn : Nested cs r.lines) (hc : r.lead c = .ok r') : Stands (cs ++ [c]) r' := by
  have hnext := lineAfter_concat cs c
  by_cases hnl : c = '\n'
  · subst hnl
    cases hc
    refine .between hmode ?_ (hn.piece (.other ?_ ?_ ?_ ?_))
    · rw [hnext, hline]
      rfl
    all_goals decide
  · rw [if_neg hnl, ← hline] at hnext
    unfold Reader.lead at hc
    rw [if_neg hnl] at hc
    split_ifs at hc with hhash hblank hopen hclose hquote
    · cases hc
      exact ⟨hnext.symm, cs, [c], rfl, hn, [], by simp [hhash], by simp⟩
    · cases hc
      exact .between hmode hnext.symm (hn.piece (piece_of_blank hblank))
    · cases hc
      refine .between hmode hnext.symm ?_
      rw [lines, List.map_cons, hline, hopen]
      exact hn.opens
    · cases ho : r.opened with
      | nil => simp [close, ho] at hc
      | cons l ls =>
        simp only [close, ho, Except.ok.injEq] at hc
        rw [lines, ho] at hn
        subst hc hclose
        exact .between (by simp [hmode]) (by simp [hnext])
          (by rw [lines_add]; exact hn.closes)
    · cases hc
      exact ⟨hnext.symm, cs, [c], rfl, hn, ⟨[], by simp [hquote], by simp⟩, hline⟩
    · cases hc
      exact Rests.stands (.atom rfl) hnext.symm (hn.piece (.other hquote hhash hopen hclose))

theorem Stands.step (hr : Stands cs r) (hc : r.step c = .ok r') : Stands (cs ++ [c]) r' := by
  unfold Reader.step at hc
  cases hm : r.mode with
  | between =>
    obtain ⟨hline, hn⟩ := (Rests.between hm).nested hr
    simp only [hm] at hc
    exact .lead hm hline hn hc
  | comment =>
    obtain ⟨hline, before, tail, rfl, hn, hp⟩ := hr
    rw [hm] at hp
    obtain ⟨body, rfl, hbody⟩ := hp
    simp only [hm] at hc
    split_ifs at hc with hnl
    · subst hnl
      cases hc
      refine .between rfl ?_ ?_
      · rw [lineAfter_concat, ← hline]
        rfl
      · simpa [lines] using hn.piece (.comment hbody)
    · cases hc
      refine ⟨?_, before, '#' :: (body ++ [c]), by simp, hn, ?_⟩
      · rw [lineAfter_concat, if_neg hnl, hline]
      · rw [hm]
        exact ⟨body ++ [c], rfl, by simp [hbody, Ne.symm hnl]⟩
  | atom read =>
    obtain ⟨hline, hn⟩ := (Rests.atom hm).nested hr
    simp only [hm] at hc
    split_ifs at hc with hend
    · exact .lead (by simp) hline hn hc
    · cases hc
      obtain ⟨hblank, hopen, hclose, hquote, hhash⟩ :=
        endsAtom_eq_false_iff.mp (Bool.eq_false_iff.mpr hend)
      simp only [line_add, lines_add] at hline hn
      refine Rests.stands (.atom rfl) ?_ (hn.piece (.other hquote hhash hopen hclose))
      rw [lineAfter_concat, if_neg (fun h => by simp [h, Text.isBlank] at hblank)]
      exact hline
  | string line read =>
    obtain ⟨hline, before, tail, rfl, hn, hp⟩ := hr
    rw [hm] at hp
    obtain ⟨⟨inner, rfl, hinner⟩, hopened⟩ := hp
    simp only [hm] at hc
    by_cases hquote : c = '"'
    · subst hquote
      cases hc
      refine .between (by simp) ?_ ?_
      · rw [lineAfter_concat, line_add]
        exact hline
      · rw [lines_add]
        simpa [lines] using hn.piece (.string hinner)
    · rw [if_neg hquote] at hc
      cases hc
      refine ⟨?_, before, '"' :: (inner ++ [c]), by simp, hn, ⟨inner ++ [c], rfl, ?_⟩, hopened⟩
      · rw [lineAfter_concat, ← hline]
      · simp [hinner, Ne.symm hquote]

theorem Stands.read (hr : Stands cs r) (h : r.read ds = .ok r') : Stands (cs ++ ds) r' := by
  induction ds generalizing cs r with
  | nil =>
    cases h
    simpa using hr
  | cons d ds ih =>
    obtain ⟨s, hs, h⟩ := except_bind_eq_ok.mp h
    simpa using ih (hr.step hs) h

theorem stands_of_read (h : start.read cs = .ok r) : Stands cs r := stands_start.read h

theorem read_append_eq_ok (h : r.read (cs ++ ds) = .ok r') :
    ∃ s, r.read cs = .ok s ∧ s.read ds = .ok r' := by
  rw [Reader.read, List.foldlM_append] at h
  exact except_bind_eq_ok.mp h

theorem read_eq_error (h : r.read cs = .error e) :
    ∃ before c after s, cs = before ++ c :: after ∧ r.read before = .ok s ∧
      s.step c = .error e := by
  induction cs generalizing r with
  | nil => cases h
  | cons c cs ih =>
    rw [Reader.read, List.foldlM_cons] at h
    cases hc : r.step c with
    | error e' =>
      rw [hc] at h
      cases h
      exact ⟨[], c, cs, r, rfl, rfl, hc⟩
    | ok s =>
      rw [hc] at h
      obtain ⟨before, d, after, t, rfl, ht, hd⟩ := ih h
      exact ⟨c :: before, d, after, t, rfl, (read_cons hc before).trans ht, hd⟩

/-- Outside of strings and comments the reader is at rest. -/
theorem Stands.rests (hr : Stands cs r) (hcs : Clear cs) :
    ∃ s, Rests r s ∧ s.line = lineAfter cs ∧ Nested cs s.lines := by
  have hrest : ∃ s, Rests r s := by
    obtain ⟨-, before, tail, rfl, hn, hp⟩ := hr
    cases hm : r.mode with
    | between => exact ⟨_, .between hm⟩
    | atom read => exact ⟨_, .atom hm⟩
    | comment =>
      rw [hm] at hp
      obtain ⟨body, rfl, hbody⟩ := hp
      exact absurd hcs (Text.Tail.not_clear_append (.comment hbody) hn.clear)
    | string line read =>
      rw [hm] at hp
      obtain ⟨⟨inner, rfl, hinner⟩, -⟩ := hp
      exact absurd hcs (Text.Tail.not_clear_append (.string hinner) hn.clear)
  obtain ⟨s, hs⟩ := hrest
  exact ⟨s, hs, hs.nested hr⟩

/-- Only a `)` stops the reader, and only when no list is open. -/
theorem lead_eq_error (h : r.lead c = .error e) :
    c = ')' ∧ r.lines = [] ∧ e = .unexpectedClose r.line := by
  unfold Reader.lead at h
  split_ifs at h with hnl hhash hblank hopen hclose hquote
  cases ho : r.opened with
  | nil =>
    simp only [close, ho, Except.error.injEq] at h
    exact ⟨hclose, by simp [lines, ho], h.symm⟩
  | cons l ls => simp [close, ho] at h

theorem step_eq_error (h : r.step c = .error e) : ∃ s, Rests r s ∧ s.lead c = .error e := by
  unfold Reader.step at h
  cases hm : r.mode with
  | between =>
    simp only [hm] at h
    exact ⟨r, .between hm, h⟩
  | comment =>
    simp only [hm] at h
    split_ifs at h with hnl
    subst hnl
    cases h
  | atom read =>
    simp only [hm] at h
    split_ifs at h with hend
    exact ⟨_, .atom hm, h⟩
  | string line read =>
    simp only [hm] at h
    split at h <;> cases h

theorem Stands.step_eq_error (hr : Stands cs r) (h : r.step c = .error e) :
    c = ')' ∧ Balanced cs ∧ e = .unexpectedClose (lineAfter cs) ∧ ∃ s, Rests r s := by
  obtain ⟨s, hs, h⟩ := Reader.step_eq_error h
  obtain ⟨hline, hn⟩ := hs.nested hr
  obtain ⟨rfl, hlines, rfl⟩ := lead_eq_error h
  rw [hlines] at hn
  exact ⟨rfl, hn.balanced, by rw [hline], s, hs⟩

theorem Stands.opened (hr : Stands cs r) (hcs : Clear cs) (h : r.step ')' = .ok r') :
    Opened cs := by
  obtain ⟨s, hs, -, hn⟩ := hr.rests hcs
  rw [hs.step rfl] at h
  cases ho : s.opened with
  | nil => simp [Reader.lead, close, ho, Text.isBlank] at h
  | cons l ls =>
    rw [lines, ho] at hn
    exact hn.isOpened

/- Faults in what has been read. -/

theorem not_strayClose (h : start.read cs = .ok r) : ¬ StrayClose cs before := by
  rintro ⟨hcounts, ⟨after, rfl⟩, halone⟩
  obtain ⟨s, hs, h⟩ := read_append_eq_ok h
  obtain ⟨t, ht, -⟩ := except_bind_eq_ok.mp h
  exact halone ((stands_of_read hs).opened hcounts ht)

/-- After the quote of a string that does not end the reader stays in it. -/
theorem mode_of_endlessString (h : start.read cs = .ok r) (hstring : EndlessString cs before) :
    ∃ read, r.mode = .string (lineAfter before) read := by
  obtain ⟨hcounts, inner, rfl, hinner⟩ := hstring
  obtain ⟨s, hs, h⟩ := read_append_eq_ok h
  obtain ⟨t, hrest, hline, -⟩ := (stands_of_read hs).rests hcounts
  have hquote : s.step '"' = .ok { t with mode := .string t.line ['"'] } := by
    rw [hrest.step rfl]
    simp [Reader.lead, Text.isBlank]
  obtain ⟨last, hread⟩ := read_string (r := { t with mode := .string t.line ['"'] }) rfl hinner
  rw [read_cons hquote, hread] at h
  cases h
  exact ⟨_, congrArg (Mode.string · _) hline⟩

/- Where the text ends. -/

theorem finishLists_cases (r : Reader) :
    (r.lines = [] ∧ ∃ forms, r.finishLists = .ok forms) ∨
      ∃ line, r.lines.getLast? = some line ∧ r.finishLists = .error (.unclosedList line) := by
  cases ho : r.opened.getLast? with
  | none => exact .inl ⟨by simpa [lines] using ho, r.done.reverse, by simp only [finishLists, ho]⟩
  | some l => exact .inr ⟨l.line, by simp [lines, ho], by simp only [finishLists, ho]⟩

theorem finish_of_string {line : Nat} {read : List Char} (hm : r.mode = .string line read) :
    r.finish = .error (.unterminatedString line) := by
  simp only [finish, hm]

/-- Outside of strings a text ends with its open lists. -/
theorem finish_cases (hm : ∀ line read, r.mode ≠ .string line read) :
    (r.lines = [] ∧ ∃ forms, r.finish = .ok forms) ∨
      ∃ line, r.lines.getLast? = some line ∧ r.finish = .error (.unclosedList line) := by
  cases hr : r.mode with
  | string line read => exact absurd hr (hm line read)
  | between => simpa only [finish, hr] using finishLists_cases r
  | comment => simpa only [finish, hr] using finishLists_cases r
  | atom read =>
    have hlists := finishLists_cases (add r (token read))
    rw [lines_add] at hlists
    simpa only [finish, hr] using hlists

theorem Stands.endlessString (hr : Stands cs r) {line : Nat} {read : List Char}
    (hm : r.mode = .string line read) :
    ∃ before, EndlessString cs before ∧ line = lineAfter before := by
  obtain ⟨-, before, tail, rfl, hn, hp⟩ := hr
  rw [hm] at hp
  obtain ⟨⟨inner, rfl, hinner⟩, rfl⟩ := hp
  exact ⟨before, ⟨hn.clear, inner, rfl, hinner⟩, rfl⟩

theorem Stands.tail (hr : Stands cs r) (hm : ∀ line read, r.mode ≠ .string line read) :
    ∃ before tail, cs = before ++ tail ∧ Nested before r.lines ∧ (tail = [] ∨ Text.Tail tail) := by
  obtain ⟨-, before, tail, rfl, hn, hp⟩ := hr
  refine ⟨before, tail, rfl, hn, ?_⟩
  cases hmode : r.mode with
  | string line read => exact absurd hmode (hm line read)
  | between =>
    rw [hmode] at hp
    exact .inl hp
  | atom read =>
    rw [hmode] at hp
    exact .inl hp
  | comment =>
    rw [hmode] at hp
    obtain ⟨body, rfl, hbody⟩ := hp
    exact .inr (.comment hbody)

end Reader

namespace Text

variable {cs ds before before' : List Char} {e e' : ReadError}

inductive Fault (cs : List Char) : List Char → ReadError → Prop
  | close {before : List Char} (h : StrayClose cs before) :
      Fault cs before (.unexpectedClose (lineAfter before))
  | string {before : List Char} (h : EndlessString cs before) :
      Fault cs before (.unterminatedString (lineAfter before))

/-- The error that the text deserves: its first fault, or with no fault in it the earliest list that
has no partner. -/
inductive Blamed (cs : List Char) : ReadError → Prop
  | fault {before : List Char} {e : ReadError} (h : Fault cs before e)
      (hfirst : ∀ before' e', Fault cs before' e' → before.length ≤ before'.length) : Blamed cs e
  | list {before : List Char} (hnone : ∀ before e, ¬ Fault cs before e) (h : StrayOpen cs before)
      (hfirst : ∀ before', StrayOpen cs before' → before.length ≤ before'.length) :
      Blamed cs (.unclosedList (lineAfter before))

/-- A text has one first fault. -/
theorem Fault.eq_of_length (h : Fault cs before e) (h' : Fault cs before' e')
    (hlength : before.length = before'.length) : e = e' := by
  cases h with
  | close h =>
    obtain ⟨-, ⟨after, rfl⟩, -⟩ := h
    cases h' with
    | close h' =>
      obtain ⟨-, ⟨after', heq⟩, -⟩ := h'
      rw [(List.append_inj heq hlength).1]
    | string h' =>
      obtain ⟨-, inner, heq, -⟩ := h'
      exact absurd (List.append_inj heq hlength).2 (by simp)
  | string h =>
    obtain ⟨-, inner, rfl, -⟩ := h
    cases h' with
    | close h' =>
      obtain ⟨-, ⟨after', heq⟩, -⟩ := h'
      exact absurd (List.append_inj heq hlength).2 (by simp)
    | string h' =>
      obtain ⟨-, inner', heq, -⟩ := h'
      rw [(List.append_inj heq hlength).1]

theorem StrayOpen.eq_of_length (h : StrayOpen cs before) (h' : StrayOpen cs before')
    (hlength : before.length = before'.length) : before = before' := by
  obtain ⟨-, rest, rfl, -⟩ := h
  obtain ⟨-, rest', heq, -⟩ := h'
  exact (List.append_inj heq hlength).1

theorem Blamed.unique (h : Blamed cs e) (h' : Blamed cs e') : e = e' := by
  cases h with
  | fault h hfirst =>
    cases h' with
    | fault h' hfirst' => exact h.eq_of_length h' (Nat.le_antisymm (hfirst _ _ h') (hfirst' _ _ h))
    | list hnone => exact absurd h (hnone _ _)
  | list hnone h hfirst =>
    cases h' with
    | fault h' => exact absurd h' (hnone _ _)
    | list _ h' hfirst' =>
      rw [h.eq_of_length h' (Nat.le_antisymm (hfirst _ h') (hfirst' _ h))]

/-- A fault that comes before the end of the first part is a fault of that part alone. -/
theorem Fault.of_append (h : Fault (cs ++ ds) before e) (hlength : before.length < cs.length) :
    Fault cs before e := by
  cases h with
  | close h =>
    obtain ⟨hcounts, ⟨after, heq⟩, halone⟩ := h
    obtain ⟨l, hl, -⟩ | ⟨l, rfl, -⟩ := split_cases heq
    · exact .close ⟨hcounts, ⟨l, hl⟩, halone⟩
    · simp only [List.length_append] at hlength
      omega
  | string h =>
    obtain ⟨hcounts, inner, heq, hinner⟩ := h
    obtain ⟨l, hl, rfl⟩ | ⟨l, rfl, -⟩ := split_cases heq
    · exact .string ⟨hcounts, l, hl, fun hmem => hinner (List.mem_append_left _ hmem)⟩
    · simp only [List.length_append] at hlength
      omega

end Text

open Text (Fault Blamed)

namespace Reader

variable {r s : Reader} {cs before : List Char} {e : ReadError}

/-- What has been read has no fault, but for a string that the reader is in. -/
theorem not_fault (h : start.read cs = .ok r) (hm : ∀ line read, r.mode ≠ .string line read) :
    ¬ Fault cs before e := by
  rintro (hclose | hstring)
  · exact not_strayClose h hclose
  · obtain ⟨read, hmode⟩ := mode_of_endlessString h hstring
    exact hm _ _ hmode

theorem Rests.not_string (h : Rests r s) (line : Nat) (read : List Char) :
    r.mode ≠ .string line read := by
  cases h with
  | between h => simp [h]
  | atom h => simp [h]

/-- Where the reader stops is the first fault. -/
theorem blamed_of_read (h : start.read cs = .error e) : Blamed cs e := by
  obtain ⟨before, c, after, r, rfl, hread, hc⟩ := read_eq_error h
  obtain ⟨rfl, hbalanced, rfl, s, hs⟩ := (stands_of_read hread).step_eq_error hc
  refine .fault (.close ⟨hbalanced.clear, ⟨after, rfl⟩, hbalanced.not_opened⟩) ?_
  intro before' e' hfault
  refine Nat.le_of_not_lt fun hlt => ?_
  exact not_fault hread hs.not_string (hfault.of_append hlt)

/-- A text that is read to its end deserves what the reader says there. -/
theorem blamed_of_finish (h : start.read cs = .ok r) :
    (∃ e, r.finish = .error e ∧ Blamed cs e) ∨
      (∃ forms, r.finish = .ok forms) ∧ (∀ before e, ¬ Fault cs before e) ∧
        ∀ before, ¬ Text.StrayOpen cs before := by
  have hr := stands_of_read h
  by_cases hm : ∃ line read, r.mode = .string line read
  · obtain ⟨line, read, hm⟩ := hm
    obtain ⟨before, hstring, rfl⟩ := hr.endlessString hm
    refine .inl ⟨_, finish_of_string hm, .fault (.string hstring) ?_⟩
    rintro before' e' (hclose | hstring')
    · exact absurd hclose (not_strayClose h)
    · exact Nat.le_of_eq (congrArg List.length (hstring.unique hstring'))
  · replace hm : ∀ line read, r.mode ≠ .string line read := fun line read hr => hm ⟨line, read, hr⟩
    have hnone : ∀ before e, ¬ Fault cs before e := fun _ _ => not_fault h hm
    obtain ⟨before, tail, htext, hn, ht⟩ := hr.tail hm
    subst htext
    obtain ⟨hlines, hok⟩ | ⟨line, hline, herror⟩ := finish_cases hm
    · exact .inr ⟨hok, hnone, fun _ => hn.not_strayOpen ht hlines⟩
    · obtain ⟨outer, hlist, rfl, hfirst⟩ := hn.first_strayOpen ht hline
      exact .inl ⟨_, herror, .list hnone hlist hfirst⟩

end Reader

namespace Form

theorem parse_cases (source : String) :
    (∃ e, parse source = .error e ∧ Blamed source.toList e) ∨
      (∃ forms, parse source = .ok forms) ∧ (∀ before e, ¬ Fault source.toList before e) ∧
        ∀ before, ¬ Text.StrayOpen source.toList before := by
  have hparse : parse source = (Reader.start.read source.toList).bind Reader.finish := rfl
  cases hread : Reader.start.read source.toList with
  | error e => exact .inl ⟨e, by rw [hparse, hread]; rfl, Reader.blamed_of_read hread⟩
  | ok r =>
    rw [hread] at hparse
    exact hparse ▸ Reader.blamed_of_finish hread

/-- Errors are exact. A text fails with the error of its first fault, be it a `)` with no list open
or a string that does not end. Without such a fault it fails with the line of its earliest `(` that
has no partner, and it is read when there is none. -/
theorem parse_blames_the_first_fault (source : String) :
    (∀ e, parse source = .error e ↔ Blamed source.toList e) ∧
      ((∃ forms, parse source = .ok forms) ↔
        (∀ before e, ¬ Fault source.toList before e) ∧
          ∀ before, ¬ Text.StrayOpen source.toList before) := by
  obtain ⟨e, herror, hblamed⟩ | ⟨⟨forms, hok⟩, hnone, hlists⟩ := parse_cases source
  · refine ⟨fun e' => ⟨fun h => ?_, fun h => ?_⟩, fun h => ?_, fun h => ?_⟩
    · rw [herror] at h
      cases h
      exact hblamed
    · rw [herror, hblamed.unique h]
    · obtain ⟨forms, hok⟩ := h
      rw [herror] at hok
      cases hok
    · cases hblamed with
      | fault hfault => exact absurd hfault (h.1 _ _)
      | list _ hlist => exact absurd hlist (h.2 _)
  · refine ⟨fun e => ⟨fun h => ?_, fun h => ?_⟩, fun _ => ⟨hnone, hlists⟩, fun _ => ⟨forms, hok⟩⟩
    · rw [hok] at h
      cases h
    · cases h with
      | fault hfault => exact absurd hfault (hnone _ _)
      | list _ hlist => exact absurd hlist (hlists _)

/-- Neither the parenthesis in the string nor the one in the comment closes the list of line 2. -/
example : parse "a\n((b)\n \")\" # )\n" = .error (.unclosedList 2) := by rfl

end Form

end ObjectLang
