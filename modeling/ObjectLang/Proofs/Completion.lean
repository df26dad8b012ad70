import ObjectLang.Proofs.Outcome

/-!
Completions: when a statement raises, in terms of what its parts give.
-/

namespace ObjectLang

def Store.message (s : Store) (frame : FrameId) : Value :=
  ((s.get? frame exceptionName).map Variable.value).getD (.string "")

def Machine.message (m : Machine) : Value := m.store.message m.control.ambient

namespace Eval

variable {eval : Form → Eval Operand} {exec : Form → Eval Completion} {m m₁ s : Machine}
  {f : Form} {v : Value}

theorem withValue_of_marks {k : Value → Eval Completion} (h : Marks (eval f) m s) :
    withValue eval f k m = .ok .raised s := by
  obtain ⟨a, ha, hv⟩ := h
  rw [withValue, bind_ok ha, hv]
  rfl

theorem withValue_of_yields {k : Value → Eval Completion} (h : Yields (eval f) m v m₁) :
    withValue eval f k m = k v m₁ := by
  obtain ⟨a, ha, rfl, hx⟩ := h
  rw [withValue, bind_ok ha]
  cases hv : a.value <;> simp_all [Value.isException]

theorem withValue_eq_ok {k : Value → Eval Completion} {done : Completion} :
    withValue eval f k m = .ok done s ↔
      (Marks (eval f) m s ∧ done = .raised) ∨
      ∃ v m₁, Yields (eval f) m v m₁ ∧ k v m₁ = .ok done s := by
  constructor
  · intro h
    obtain ⟨a, m₁, ha, -⟩ := bind_eq_ok.mp h
    cases marks_or_yields ha with
    | inl hv =>
      rw [withValue_of_marks hv] at h
      cases h
      exact .inl ⟨hv, rfl⟩
    | inr hv =>
      rw [withValue_of_yields hv] at h
      exact .inr ⟨_, _, hv, h⟩
  · intro h
    obtain ⟨hv, rfl⟩ | ⟨v, m₁, hv, h⟩ := h
    · exact withValue_of_marks hv
    · rw [withValue_of_yields hv, h]

theorem condition_eq_none {form : Conditional} :
    condition eval form f m = .ok none s ↔ Marks (eval f) m s := by
  unfold condition
  rw [bind_eq_ok]
  constructor
  · intro h
    obtain ⟨a, m₁, ha, hk⟩ := h
    cases hv : a.value <;> rw [hv] at hk <;> cases hk
    exact ⟨a, ha, hv⟩
  · intro h
    obtain ⟨a, ha, hv⟩ := h
    exact ⟨a, s, ha, by rw [hv]; rfl⟩

/- Lists of statements and of operands. -/

theorem block_cons (exec : Form → Eval Completion) {fs : List Form}
    (h : exec f m = .ok .normal m₁) : block exec (f :: fs) m = block exec fs m₁ :=
  bind_ok h _

theorem block_append {before : List Form} (h : block exec before m = .ok .normal m₁)
    (rest : List Form) : block exec (before ++ rest) m = block exec rest m₁ := by
  induction before generalizing m with
  | nil =>
    cases h
    rfl
  | cons f fs ih =>
    obtain ⟨done, m₂, hf, hk⟩ := bind_eq_ok.mp h
    cases done with
    | normal => exact (block_cons exec hf).trans (ih hk)
    | returned v => cases hk
    | raised => cases hk

theorem block_eq_raised {fs : List Form} :
    block exec fs m = .ok .raised s ↔
      ∃ before g rest m₁, fs = before ++ g :: rest ∧ block exec before m = .ok .normal m₁ ∧
        exec g m₁ = .ok .raised s := by
  constructor
  · intro h
    induction fs generalizing m with
    | nil => cases h
    | cons f fs ih =>
      obtain ⟨done, m₁, hf, hk⟩ := bind_eq_ok.mp h
      cases done with
      | normal =>
        obtain ⟨before, g, rest, m₂, rfl, hb, hg⟩ := ih hk
        exact ⟨f :: before, g, rest, m₂, rfl, (block_cons exec hf).trans hb, hg⟩
      | returned v => cases hk
      | raised =>
        cases hk
        exact ⟨[], f, fs, m, rfl, rfl, hf⟩
  · intro h
    obtain ⟨before, g, rest, m₁, rfl, hb, hg⟩ := h
    rw [block_append hb]
    exact (bind_ok hg _).trans rfl

theorem printLine_eq_raised {line : String} {fs : List Form} :
    printLine eval line fs m = .ok .raised s ↔
      ∃ before g rest vs m₁, fs = before ++ g :: rest ∧
        arguments eval before m = .ok (some vs) m₁ ∧
        (∀ v ∈ vs, ∃ text, printed v = .ok text) ∧ Marks (eval g) m₁ s := by
  constructor
  · intro h
    induction fs generalizing m line with
    | nil => cases h
    | cons f fs ih =>
      cases withValue_eq_ok.mp h with
      | inl h =>
        obtain ⟨hv, -⟩ := h
        exact ⟨[], f, fs, [], m, rfl, rfl, by simp, hv⟩
      | inr h =>
        obtain ⟨v, m₁, hv, hk⟩ := h
        cases hp : printed v with
        | error e =>
          rw [hp] at hk
          cases hk
        | ok text =>
          rw [hp] at hk
          obtain ⟨before, g, rest, vs, m₂, rfl, hb, hvs, hg⟩ := ih hk
          exact ⟨f :: before, g, rest, v :: vs, m₂, rfl,
            arguments_cons_eq_some.mpr ⟨v, vs, m₁, hv, hb, rfl⟩, by simpa [hp] using hvs, hg⟩
  · intro h
    obtain ⟨before, g, rest, vs, m₁, rfl, hb, hvs, hg⟩ := h
    induction before generalizing m vs line with
    | nil =>
      cases hb
      exact withValue_of_marks hg
    | cons f fs ih =>
      obtain ⟨v, ws, m₂, hv, hws, rfl⟩ := arguments_cons_eq_some.mp hb
      obtain ⟨text, ht⟩ := hvs v (by simp)
      refine (withValue_of_yields hv).trans ?_
      rw [ht]
      exact ih ws hws fun w hw => hvs w (List.mem_cons_of_mem _ hw)

/- Branches and loops. -/

theorem branch_eq_raised {test consequent : Form} {alternative : Option Form} :
    branch eval exec test consequent alternative m = .ok .raised s ↔
      Marks (eval test) m s ∨
      (∃ m₁, condition eval .branch test m = .ok (some true) m₁ ∧
        exec consequent m₁ = .ok .raised s) ∨
      ∃ m₁ g, condition eval .branch test m = .ok (some false) m₁ ∧ alternative = some g ∧
        exec g m₁ = .ok .raised s := by
  unfold branch
  rw [bind_eq_ok]
  constructor
  · intro h
    obtain ⟨b, m₁, hb, hk⟩ := h
    match b, alternative with
    | none, _ =>
      cases hk
      exact .inl (condition_eq_none.mp hb)
    | some true, _ => exact .inr (.inl ⟨m₁, hb, hk⟩)
    | some false, some g => exact .inr (.inr ⟨m₁, g, hb, rfl, hk⟩)
    | some false, none => cases hk
  · intro h
    obtain hv | ⟨m₁, hc, hk⟩ | ⟨m₁, g, hc, rfl, hk⟩ := h
    · exact ⟨none, s, condition_eq_none.mpr hv, rfl⟩
    · exact ⟨some true, m₁, hc, hk⟩
    · exact ⟨some false, m₁, hc, hk⟩

theorem loop_cons {test body : Form} {m₂ : Machine} (j : Nat)
    (hc : condition eval .loop test m = .ok (some true) m₁) (hb : exec body m₁ = .ok .normal m₂) :
    loop eval exec test body (j + 1) m = loop eval exec test body j m₂ := by
  rw [loop, bind_ok hc]
  exact bind_ok hb _

theorem loop_eq_raised {n j : Nat} {test body : Form} :
    loop (ObjectLang.eval n) (ObjectLang.exec n) test body j m = .ok .raised s ↔
      ∃ k m₁, Rounds n test body k m m₁ ∧ k < j ∧ (Marks (ObjectLang.eval n test) m₁ s ∨
        ∃ m₂, condition (ObjectLang.eval n) .loop test m₁ = .ok (some true) m₂ ∧
          ObjectLang.exec n body m₂ = .ok .raised s) := by
  constructor
  · intro h
    induction j generalizing m with
    | zero => cases h
    | succ j ih =>
      obtain ⟨b, m₁, hb, hk⟩ := bind_eq_ok.mp h
      match b with
      | none =>
        cases hk
        exact ⟨0, m, .none m, j.succ_pos, .inl (condition_eq_none.mp hb)⟩
      | some false => cases hk
      | some true =>
        obtain ⟨done, m₂, hd, hk⟩ := bind_eq_ok.mp hk
        cases done with
        | normal =>
          obtain ⟨k, m₃, hr, hj, hm⟩ := ih hk
          exact ⟨k + 1, m₃, .more hb hd hr, Nat.succ_lt_succ hj, hm⟩
        | returned v => cases hk
        | raised =>
          cases hk
          exact ⟨0, m, .none m, j.succ_pos, .inr ⟨m₁, hb, hd⟩⟩
  · intro h
    obtain ⟨k, m₁, hr, hj, hm⟩ := h
    induction hr generalizing j with
    | none m =>
      obtain ⟨j, rfl⟩ := Nat.exists_eq_succ_of_ne_zero (Nat.ne_of_gt hj)
      cases hm with
      | inl hv => exact (bind_ok (condition_eq_none.mpr hv) _).trans rfl
      | inr hm =>
        obtain ⟨m₂, hc, hb⟩ := hm
        exact (bind_ok hc _).trans ((bind_ok hb _).trans rfl)
    | more htest hbody _ ih =>
      obtain ⟨j, rfl⟩ := Nat.exists_eq_succ_of_ne_zero (Nat.ne_of_gt (Nat.zero_lt_of_lt hj))
      rw [loop_cons j htest hbody]
      exact ih (Nat.lt_of_succ_lt_succ hj) hm

/- Local declarations and the block that they are for. -/

/-- A local declaration ends with the marker if its initial value does. -/
theorem initial_eq_none {l : Local} :
    initial eval l m = .ok none s ↔
      ∃ g m₁, l.init = some g ∧ building (Registry.resolveType l.type) m = .ok () m₁ ∧
        Marks (eval g) m₁ s := by
  unfold initial
  rw [bind_eq_ok]
  constructor
  · intro h
    obtain ⟨⟨⟩, m₁, hb, hk⟩ := h
    cases hi : l.init with
    | none =>
      rw [hi] at hk
      cases hk
    | some g =>
      rw [hi] at hk
      obtain ⟨a, m₂, ha, hk⟩ := bind_eq_ok.mp hk
      cases hv : a.value <;> rw [hv] at hk
      case exception =>
        cases hk
        exact ⟨g, m₁, rfl, hb, a, ha, hv⟩
      all_goals
        obtain ⟨x, m₃, -, hx⟩ := bind_eq_ok.mp hk
        cases hx
  · intro h
    obtain ⟨g, m₁, hi, hb, a, ha, hv⟩ := h
    refine ⟨(), m₁, hb, ?_⟩
    rw [hi]
    refine (bind_ok ha _).trans ?_
    rw [hv]
    rfl

theorem locals_cons_eq_ok {frame : Frame} {d : Form} {ds : List Form} {r : Option Frame} :
    locals eval frame (d :: ds) m = .ok r s ↔
      ∃ l x m₁, Local.ofForm d = .ok l ∧ initial eval l m = .ok x m₁ ∧
        ((x = none ∧ r = none ∧ s = m₁) ∨ ∃ y frame', x = some y ∧
          frame.define? l.name y = some frame' ∧ locals eval frame' ds m₁ = .ok r s) := by
  rw [locals, bind_eq_ok]
  constructor
  · intro h
    obtain ⟨l, m₀, hl, hk⟩ := h
    cases hd : Local.ofForm d with
    | error e =>
      rw [hd] at hl
      cases hl
    | ok l' =>
      rw [hd] at hl
      cases hl
      obtain ⟨x, m₁, hx, hk⟩ := bind_eq_ok.mp hk
      refine ⟨l, x, m₁, rfl, hx, ?_⟩
      cases x with
      | none =>
        cases hk
        exact .inl ⟨rfl, rfl, rfl⟩
      | some y =>
        cases hf : frame.define? l.name y with
        | none =>
          simp only [hf] at hk
          cases hk
        | some frame' =>
          simp only [hf] at hk
          exact .inr ⟨y, frame', rfl, hf, hk⟩
  · intro h
    obtain ⟨l, x, m₁, hd, hx, h⟩ := h
    refine ⟨l, m, by rw [hd]; rfl, ?_⟩
    rw [bind_ok hx]
    cases h with
    | inl h =>
      obtain ⟨rfl, rfl, rfl⟩ := h
      rfl
    | inr h =>
      obtain ⟨y, frame', rfl, hf, hk⟩ := h
      simpa only [hf] using hk

theorem locals_eq_none {frame : Frame} {ds : List Form} :
    locals eval frame ds m = .ok none s ↔
      ∃ before d rest frame' m₁ l, ds = before ++ d :: rest ∧
        locals eval frame before m = .ok (some frame') m₁ ∧ Local.ofForm d = .ok l ∧
        initial eval l m₁ = .ok none s := by
  constructor
  · intro h
    induction ds generalizing m frame with
    | nil => cases h
    | cons d ds ih =>
      obtain ⟨l, x, m₁, hd, hx, h⟩ := locals_cons_eq_ok.mp h
      cases h with
      | inl h =>
        obtain ⟨rfl, -, rfl⟩ := h
        exact ⟨[], d, ds, frame, m, l, rfl, rfl, hd, hx⟩
      | inr h =>
        obtain ⟨y, frame', rfl, hf, hk⟩ := h
        obtain ⟨before, e, rest, frame'', m₂, l', rfl, hb, he, hi⟩ := ih hk
        exact ⟨d :: before, e, rest, frame'', m₂, l', rfl,
          locals_cons_eq_ok.mpr ⟨l, _, m₁, hd, hx, .inr ⟨y, frame', rfl, hf, hb⟩⟩, he, hi⟩
  · intro h'
    obtain ⟨before, d, rest, frame', m₁, l, rfl, hb, hd, hi⟩ := h'
    induction before generalizing m frame with
    | nil =>
      cases hb
      exact locals_cons_eq_ok.mpr ⟨l, none, s, hd, hi, .inl ⟨rfl, rfl, rfl⟩⟩
    | cons e ds ih =>
      obtain ⟨l', x, m₂, he, hx, h⟩ := locals_cons_eq_ok.mp hb
      cases h with
      | inl h =>
        obtain ⟨-, h, -⟩ := h
        cases h
      | inr h =>
        obtain ⟨y, frame'', rfl, hf, hk⟩ := h
        exact locals_cons_eq_ok.mpr ⟨l', _, m₂, he, hx, .inr ⟨y, frame'', rfl, hf, ih hk⟩⟩

theorem letBlock_eq_raised (hexec : ∀ f, Restores (exec f)) {decls body : List Form} :
    letBlock eval exec decls body m = .ok .raised s ↔
      locals eval (.empty .locals) decls m = .ok none s ∨
      ∃ frame m₁ t, locals eval (.empty .locals) decls m = .ok (some frame) m₁ ∧
        block exec body (m₁.enterLet frame) = .ok .raised t ∧
        s = { t with control := m₁.control } := by
  unfold letBlock
  rw [bind_eq_ok]
  constructor
  · intro h
    obtain ⟨r, m₁, hr, hk⟩ := h
    cases r with
    | none =>
      cases hk
      exact .inl hr
    | some frame =>
      obtain ⟨id, m₂, hid, hk⟩ := bind_eq_ok.mp hk
      cases hid
      obtain ⟨t, ht, rfl⟩ := (Restores.pervasive.block hexec body).inScope_eq_ok.mp hk
      exact .inr ⟨frame, m₁, t, hr, ht, rfl⟩
  · intro h
    obtain hr | ⟨frame, m₁, t, hr, ht, rfl⟩ := h
    · exact ⟨none, s, hr, rfl⟩
    · refine ⟨some frame, m₁, hr, bind_eq_ok.mpr ⟨m₁.store.next, _, rfl, ?_⟩⟩
      exact (Restores.pervasive.block hexec body).inScope_eq_ok.mpr ⟨t, ht, rfl⟩

/- A `try` raises if its handler does, after the message of the handler is written once more. -/

theorem messageIn_eq (frame : FrameId) (m : Machine) :
    messageIn frame m = .ok (m.store.message frame) m := by
  refine (bind_ok (x := get) rfl _).trans ?_
  unfold Store.message
  cases m.store.get? frame exceptionName <;> rfl

section

variable (hexec : ∀ f, Restores (exec f)) {body handler : Form}

include hexec in
theorem guarded_eq_raised :
    guarded exec body handler m = .ok .raised s ↔
      ∃ m₁ m₂, exec body m = .ok .raised m₁ ∧ exec handler m₁.enterHandler = .ok .raised m₂ ∧
        s = { m₂ with control := m₁.control } := by
  refine bind_eq_ok.trans ?_
  constructor
  · intro h
    obtain ⟨done, m₁, hbody, hk⟩ := h
    cases done with
    | raised =>
      obtain ⟨m₂, hm₂, rfl⟩ := (hexec handler).inHandler_eq_ok.mp hk
      exact ⟨m₁, m₂, hbody, hm₂, rfl⟩
    | normal => cases hk
    | returned v => cases hk
  · intro h
    obtain ⟨m₁, m₂, hbody, hm₂, rfl⟩ := h
    exact ⟨.raised, m₁, hbody, (hexec handler).inHandler_eq_ok.mpr ⟨m₂, hm₂, rfl⟩⟩

theorem rethrown_eq_raised {frame : FrameId} {done : Completion} :
    rethrown frame done m = .ok .raised s ↔
      done = .raised ∧ raise (m.store.message frame) m = .ok () s := by
  cases done with
  | raised =>
    refine (bind_ok (messageIn_eq frame m) _).congr_left.trans (bind_eq_ok.trans ?_)
    constructor
    · intro h
      obtain ⟨_, m₁, hr, hk⟩ := h
      cases hk
      exact ⟨rfl, hr⟩
    · intro h
      obtain ⟨-, hr⟩ := h
      exact ⟨(), s, hr, rfl⟩
  | normal => exact ⟨nofun, nofun⟩
  | returned v => exact ⟨nofun, nofun⟩

include hexec in
theorem attempt_eq_raised :
    attempt exec body handler m = .ok .raised s ↔
      ∃ m₁ m₂, exec body m.enterTry = .ok .raised m₁ ∧
        exec handler m₁.enterHandler = .ok .raised m₂ ∧
        raise m₂.message { m₂ with control := m.control } = .ok () s := by
  have hguarded := Restores.guarded hexec body handler
  have hambient : ∀ {m₁ m₂}, exec body m.enterTry = .ok .raised m₁ →
      exec handler m₁.enterHandler = .ok .raised m₂ → m₂.control.ambient = m.store.next := by
    intro m₁ m₂ hbody hhandler
    rw [(hexec handler).of_ok hhandler]
    exact congrArg Control.ambient ((hexec body).of_ok hbody)
  rw [attempt_eq, bind_eq_ok]
  constructor
  · intro h
    obtain ⟨done, t, htry, hk⟩ := h
    obtain ⟨t', ht', rfl⟩ := hguarded.inTry_eq_ok.mp htry
    obtain ⟨rfl, hr⟩ := rethrown_eq_raised.mp hk
    obtain ⟨m₁, m₂, hbody, hhandler, rfl⟩ := (guarded_eq_raised hexec).mp ht'
    rw [← hambient hbody hhandler] at hr
    exact ⟨m₁, m₂, hbody, hhandler, hr⟩
  · intro h
    obtain ⟨m₁, m₂, hbody, hhandler, hr⟩ := h
    have ht := (guarded_eq_raised hexec).mpr ⟨m₁, m₂, hbody, hhandler, rfl⟩
    refine ⟨.raised, _, hguarded.inTry_eq_ok.mpr ⟨_, ht, rfl⟩, rethrown_eq_raised.mpr ⟨rfl, ?_⟩⟩
    rw [← hambient hbody hhandler]
    exact hr

end

end Eval

theorem exec_eq {n : Nat} {f : Form} (hf : Statement.ofForm f = e) :
    exec (n + 1) f = Eval.statement n (eval n) (exec n) e := by
  rw [exec, hf]

end ObjectLang
