import ObjectLang.Proofs.Completion
import ObjectLang.Proofs.Task

/-!
The parts of a task, by the shape of its form: which tasks an expression, a statement or a call starts
itself, on which machines.
-/

namespace ObjectLang

section

variable {n : Nat} {m : Machine} {u : Task}

def Operands (n : Nat) (m : Machine) (fs : List Form) (u : Task) : Prop :=
  ∃ before g rest vs m₁, fs = before ++ g :: rest ∧
    Eval.arguments (eval n) before m = .ok (some vs) m₁ ∧ u = ⟨n, .eval g, m₁⟩

theorem operands_cons {f : Form} {fs : List Form} :
    Operands n m (f :: fs) u ↔ u = ⟨n, .eval f, m⟩ ∨
      ∃ a s, eval n f m = .ok a s ∧ a.value.isException = false ∧ Operands n s fs u := by
  constructor
  · rintro ⟨before, g, rest, vs, m₁, hfs, hvs, rfl⟩
    cases before with
    | nil =>
      cases hfs
      cases hvs
      exact .inl rfl
    | cons b before =>
      cases hfs
      obtain ⟨_, ws, m₂, ⟨a, ha, rfl, hx⟩, hws, -⟩ := Eval.arguments_cons_eq_some.mp hvs
      exact .inr ⟨a, m₂, ha, hx, before, g, rest, ws, m₁, rfl, hws, rfl⟩
  · rintro (rfl | ⟨a, s, ha, hx, before, g, rest, ws, m₁, rfl, hws, rfl⟩)
    · exact ⟨[], f, fs, [], m, rfl, rfl, rfl⟩
    · exact ⟨f :: before, g, rest, a.value :: ws, m₁, rfl,
        Eval.arguments_cons_eq_some.mpr ⟨_, ws, s, ⟨a, ha, rfl, hx⟩, hws, rfl⟩, rfl⟩

def Printed (n : Nat) (m : Machine) (fs : List Form) (u : Task) : Prop :=
  ∃ before g rest vs m₁, fs = before ++ g :: rest ∧
    Eval.arguments (eval n) before m = .ok (some vs) m₁ ∧
    (∀ v ∈ vs, ∃ text, Eval.printed v = .ok text) ∧ u = ⟨n, .eval g, m₁⟩

theorem printed_cons {f : Form} {fs : List Form} :
    Printed n m (f :: fs) u ↔ u = ⟨n, .eval f, m⟩ ∨
      ∃ a s, eval n f m = .ok a s ∧ a.value.isException = false ∧
        (∃ text, Eval.printed a.value = .ok text) ∧ Printed n s fs u := by
  constructor
  · rintro ⟨before, g, rest, vs, m₁, hfs, hvs, hp, rfl⟩
    cases before with
    | nil =>
      cases hfs
      cases hvs
      exact .inl rfl
    | cons b before =>
      cases hfs
      obtain ⟨_, ws, m₂, ⟨a, ha, rfl, hx⟩, hws, rfl⟩ := Eval.arguments_cons_eq_some.mp hvs
      rw [List.forall_mem_cons] at hp
      exact .inr ⟨a, m₂, ha, hx, hp.1, before, g, rest, ws, m₁, rfl, hws, hp.2, rfl⟩
  · rintro (rfl | ⟨a, s, ha, hx, htext, before, g, rest, ws, m₁, rfl, hws, hp, rfl⟩)
    · exact ⟨[], f, fs, [], m, rfl, rfl, by simp, rfl⟩
    · exact ⟨f :: before, g, rest, a.value :: ws, m₁, rfl,
        Eval.arguments_cons_eq_some.mpr ⟨_, ws, s, ⟨a, ha, rfl, hx⟩, hws, rfl⟩,
        List.forall_mem_cons.mpr ⟨htext, hp⟩, rfl⟩

def Sequence (n : Nat) (m : Machine) (fs : List Form) (u : Task) : Prop :=
  ∃ before g rest m₁, fs = before ++ g :: rest ∧
    Eval.block (exec n) before m = .ok .normal m₁ ∧ u = ⟨n, .exec g, m₁⟩

theorem sequence_cons {f : Form} {fs : List Form} :
    Sequence n m (f :: fs) u ↔ u = ⟨n, .exec f, m⟩ ∨
      ∃ s, exec n f m = .ok .normal s ∧ Sequence n s fs u := by
  constructor
  · rintro ⟨before, g, rest, m₁, hfs, hb, rfl⟩
    cases before with
    | nil =>
      cases hfs
      cases hb
      exact .inl rfl
    | cons b before =>
      cases hfs
      obtain ⟨done, s, hdone, hrest⟩ := bind_eq_ok.mp hb
      cases done with
      | normal => exact .inr ⟨s, hdone, before, g, rest, m₁, rfl, hrest, rfl⟩
      | returned v => cases hrest
      | raised => cases hrest
  · rintro (rfl | ⟨s, hs, before, g, rest, m₁, rfl, hb, rfl⟩)
    · exact ⟨[], f, fs, m, rfl, rfl, rfl⟩
    · exact ⟨f :: before, g, rest, m₁, rfl, (bind_ok hs _).trans hb, rfl⟩

/-- The test of a loop is evaluated, or its body executed, in one of the rounds. -/
def Turns (n : Nat) (test body : Form) (rounds : Nat) (m : Machine) (u : Task) : Prop :=
  ∃ k m₁, Rounds n test body k m m₁ ∧ k < rounds ∧
    (u = ⟨n, .eval test, m₁⟩ ∨
      ∃ m₂, Eval.condition (eval n) .loop test m₁ = .ok (some true) m₂ ∧ u = ⟨n, .exec body, m₂⟩)

theorem turns_succ {test body : Form} {rounds : Nat} :
    Turns n test body (rounds + 1) m u ↔ u = ⟨n, .eval test, m⟩ ∨
      ∃ s, Eval.condition (eval n) .loop test m = .ok (some true) s ∧
        (u = ⟨n, .exec body, s⟩ ∨
          ∃ t, exec n body s = .ok .normal t ∧ Turns n test body rounds t u) := by
  constructor
  · rintro ⟨k, m₁, hr, hk, hu⟩
    cases hr with
    | none =>
      refine hu.imp_right ?_
      rintro ⟨m₂, hc, rfl⟩
      exact ⟨m₂, hc, .inl rfl⟩
    | more htest hbody hr =>
      exact .inr ⟨_, htest, .inr ⟨_, hbody, _, m₁, hr, Nat.lt_of_succ_lt_succ hk, hu⟩⟩
  · rintro (rfl | ⟨s, hs, rfl | ⟨t, ht, k, m₁, hr, hk, hu⟩⟩)
    · exact ⟨0, m, .none m, Nat.succ_pos _, .inl rfl⟩
    · exact ⟨0, m, .none m, Nat.succ_pos _, .inr ⟨s, hs, rfl⟩⟩
    · exact ⟨k + 1, m₁, .more hs ht hr, Nat.succ_lt_succ hk, hu⟩

def Initializer (n : Nat) (m : Machine) (l : Local) (u : Task) : Prop :=
  ∃ g m₁, l.init = some g ∧ Eval.building (Registry.resolveType l.type) m = .ok () m₁ ∧
    u = ⟨n, .eval g, m₁⟩

def Initializers (n : Nat) (m : Machine) (frame : Frame) (ds : List Form) (u : Task) : Prop :=
  ∃ before d rest frame' m₁ l, ds = before ++ d :: rest ∧
    Eval.locals (eval n) frame before m = .ok (some frame') m₁ ∧ Local.ofForm d = .ok l ∧
    Initializer n m₁ l u

theorem initializers_cons {frame : Frame} {d : Form} {ds : List Form} {l : Local}
    (hd : Local.ofForm d = .ok l) :
    Initializers n m frame (d :: ds) u ↔ Initializer n m l u ∨
      ∃ x s frame', Eval.initial (eval n) l m = .ok (some x) s ∧
        frame.define? l.name x = some frame' ∧ Initializers n s frame' ds u := by
  constructor
  · rintro ⟨before, e, rest, frame', m₁, l', hds, hb, he, hu⟩
    cases before with
    | nil =>
      cases hds
      cases hb
      rw [hd] at he
      cases he
      exact .inl hu
    | cons b before =>
      cases hds
      obtain ⟨l₁, r, s, hl₁, hr, h⟩ := Eval.locals_cons_eq_ok.mp hb
      rw [hd] at hl₁
      cases hl₁
      obtain ⟨-, h, -⟩ | ⟨x, frame₁, rfl, hdefine, h⟩ := h
      · cases h
      · exact .inr ⟨x, s, frame₁, hr, hdefine, before, e, rest, frame', m₁, l', rfl, h, he, hu⟩
  · rintro (hu | ⟨x, s, frame₁, hx, hdefine, before, e, rest, frame', m₁, l', rfl, hb, he, hu⟩)
    · exact ⟨[], d, ds, frame, m, l, rfl, rfl, hd, hu⟩
    · exact ⟨d :: before, e, rest, frame', m₁, l', rfl,
        Eval.locals_cons_eq_ok.mpr ⟨l, some x, s, hd, hx, .inr ⟨x, frame₁, rfl, hdefine, hb⟩⟩,
        he, hu⟩

theorem exists_ofForm_of_initializers {frame : Frame} {d : Form} {ds : List Form}
    (h : Initializers n m frame (d :: ds) u) : ∃ l, Local.ofForm d = .ok l := by
  obtain ⟨before, e, rest, frame', m₁, l, hds, hb, he, -⟩ := h
  cases before with
  | nil =>
    cases hds
    exact ⟨l, he⟩
  | cons b before =>
    cases hds
    obtain ⟨l', -, -, hl', -⟩ := Eval.locals_cons_eq_ok.mp hb
    exact ⟨l', hl'⟩

def Expression.Parts (n : Nat) (m : Machine) (u : Task) : Expression → Prop
  | .call target method args =>
    (∃ g, target = .value g ∧ u = ⟨n, .eval g, m⟩) ∨
      ∃ v m₁, target.Gives n m m₁ v ∧ (Operands n m₁ args u ∨
        ∃ vs m₂, Eval.arguments (eval n) args m₁ = .ok (some vs) m₂ ∧ u = ⟨n, .call v method vs, m₂⟩)
  | .negation g => u = ⟨n, .eval g, m⟩
  | .binary _ left right =>
    u = ⟨n, .eval left, m⟩ ∨
      ∃ a s, eval n left m = .ok a s ∧ a.value.isException = false ∧ u = ⟨n, .eval right, s⟩
  | .literal _ | .self | .name _ | .create _ | .invalid _ => False

theorem Starts.eval_parts {f : Form} (h : Starts ⟨n + 1, .eval f, m⟩ u) :
    (Expression.ofForm f).Parts n m u := by
  obtain h | h | h := h
  · cases h with
    | receiver hf =>
      rw [hf]
      exact Or.inl ⟨_, rfl, rfl⟩
    | argument hf hv hvs =>
      rw [hf]
      exact Or.inr ⟨_, _, hv, .inl ⟨_, _, _, _, _, rfl, hvs, rfl⟩⟩
    | invocation hf hv hvs =>
      rw [hf]
      exact Or.inr ⟨_, _, hv, .inr ⟨_, _, hvs, rfl⟩⟩
    | operand hf =>
      rw [hf]
      exact rfl
    | left hf =>
      rw [hf]
      exact Or.inl rfl
    | right hf ha hx =>
      rw [hf]
      exact Or.inr ⟨_, _, ha, hx, rfl⟩
  · cases h
  · cases h

theorem Expression.Parts.starts {f : Form} (h : (Expression.ofForm f).Parts n m u) :
    Starts ⟨n + 1, .eval f, m⟩ u := by
  cases hf : Expression.ofForm f with
  | call target name args =>
    rw [hf] at h
    obtain ⟨g, rfl, rfl⟩ | ⟨v, m₁, hv, h⟩ := h
    · exact .awaits (.receiver hf)
    · obtain ⟨before, g, rest, vs, m₂, rfl, hvs, rfl⟩ | ⟨vs, m₂, hvs, rfl⟩ := h
      · exact .awaits (.argument hf hv hvs)
      · exact .awaits (.invocation hf hv hvs)
  | negation g =>
    rw [hf] at h
    cases h
    exact .awaits (.operand hf)
  | binary op left right =>
    rw [hf] at h
    obtain rfl | ⟨a, s, ha, hx, rfl⟩ := h
    · exact .awaits (.left hf)
    · exact .awaits (.right hf ha hx)
  | _ =>
    rw [hf] at h
    cases h

theorem starts_eval {f : Form} :
    Starts ⟨n + 1, .eval f, m⟩ u ↔ (Expression.ofForm f).Parts n m u :=
  ⟨Starts.eval_parts, Expression.Parts.starts⟩

def Statement.Parts (n : Nat) (m : Machine) (u : Task) : Statement → Prop
  | .print operands => Printed n m operands u
  | .assign name value => Eval.checkVisible name m = .ok () m ∧ u = ⟨n, .eval value, m⟩
  | .block body => Sequence n m body u
  | .branch test consequent alternative =>
    u = ⟨n, .eval test, m⟩ ∨
      (∃ s, Eval.condition (eval n) .branch test m = .ok (some true) s ∧
        u = ⟨n, .exec consequent, s⟩) ∨
      ∃ s g, Eval.condition (eval n) .branch test m = .ok (some false) s ∧
        alternative = some g ∧ u = ⟨n, .exec g, s⟩
  | .loop test body => Turns n test body n m u
  | .bind decls body =>
    Initializers n m (.empty .locals) decls u ∨
      ∃ frame s, Eval.locals (eval n) (.empty .locals) decls m = .ok (some frame) s ∧
        Sequence n (s.enterLet frame) body u
  | .result value =>
    ∃ g a, value = some g ∧ m.control.activation = some a ∧ u = ⟨n, .eval g, m⟩
  | .attempt body handler =>
    u = ⟨n, .exec body, m.enterTry⟩ ∨
      ∃ s, exec n body m.enterTry = .ok .raised s ∧ u = ⟨n, .exec handler, s.enterHandler⟩
  | .throw g | .expression g => u = ⟨n, .eval g, m⟩
  | .input _ _ | .invalid _ => False

theorem Starts.exec_parts {f : Form} (h : Starts ⟨n + 1, .exec f, m⟩ u) :
    (Statement.ofForm f).Parts n m u := by
  obtain h | h | h := h
  · cases h with
    | printed hf hvs hp =>
      rw [hf]
      exact ⟨_, _, _, _, _, rfl, hvs, hp, rfl⟩
    | assigned hf hv =>
      rw [hf]
      exact ⟨hv, rfl⟩
    | inBlock hf hb =>
      rw [hf]
      exact ⟨_, _, _, _, rfl, hb, rfl⟩
    | test hf =>
      rw [hf]
      exact Or.inl rfl
    | consequent hf hc =>
      rw [hf]
      exact Or.inr (.inl ⟨_, hc, rfl⟩)
    | alternative hf hc =>
      rw [hf]
      exact Or.inr (.inr ⟨_, _, hc, rfl, rfl⟩)
    | loopTest hf hr hk =>
      rw [hf]
      exact ⟨_, _, hr, hk, .inl rfl⟩
    | loopBody hf hr hk hc =>
      rw [hf]
      exact ⟨_, _, hr, hk, .inr ⟨_, hc, rfl⟩⟩
    | initializer hf hb hd hi ht =>
      rw [hf]
      exact Or.inl ⟨_, _, _, _, _, _, rfl, hb, hd, _, _, hi, ht, rfl⟩
    | inLet hf hd hb =>
      rw [hf]
      exact Or.inr ⟨_, _, hd, _, _, _, _, rfl, hb, rfl⟩
    | result hf ha =>
      rw [hf]
      exact ⟨_, _, rfl, ha, rfl⟩
    | message hf =>
      rw [hf]
      exact rfl
    | expression hf =>
      rw [hf]
      exact rfl
  · cases h with
    | body hf =>
      rw [hf]
      exact Or.inl rfl
  · cases h with
    | handler hf hb =>
      rw [hf]
      exact Or.inr ⟨_, hb, rfl⟩

theorem Statement.Parts.starts {f : Form} (h : (Statement.ofForm f).Parts n m u) :
    Starts ⟨n + 1, .exec f, m⟩ u := by
  cases hf : Statement.ofForm f with
  | print operands =>
    rw [hf] at h
    obtain ⟨before, g, rest, vs, m₁, rfl, hvs, hp, rfl⟩ := h
    exact .awaits (.printed hf hvs hp)
  | assign name value =>
    rw [hf] at h
    obtain ⟨hv, rfl⟩ := h
    exact .awaits (.assigned hf hv)
  | block body =>
    rw [hf] at h
    obtain ⟨before, g, rest, m₁, rfl, hb, rfl⟩ := h
    exact .awaits (.inBlock hf hb)
  | branch test consequent alternative =>
    rw [hf] at h
    obtain rfl | ⟨s, hc, rfl⟩ | ⟨s, g, hc, rfl, rfl⟩ := h
    · exact .awaits (.test hf)
    · exact .awaits (.consequent hf hc)
    · exact .awaits (.alternative hf hc)
  | loop test body =>
    rw [hf] at h
    obtain ⟨k, m₁, hr, hk, rfl | ⟨m₂, hc, rfl⟩⟩ := h
    · exact .awaits (.loopTest hf hr hk)
    · exact .awaits (.loopBody hf hr hk hc)
  | bind decls body =>
    rw [hf] at h
    obtain ⟨before, d, rest, frame, m₁, l, rfl, hb, hd, g, m₂, hi, ht, rfl⟩ |
      ⟨frame, s, hd, before, g, rest, m₁, rfl, hb, rfl⟩ := h
    · exact .awaits (.initializer hf hb hd hi ht)
    · exact .awaits (.inLet hf hd hb)
  | result value =>
    rw [hf] at h
    obtain ⟨g, a, rfl, ha, rfl⟩ := h
    exact .awaits (.result hf ha)
  | attempt body handler =>
    rw [hf] at h
    obtain rfl | ⟨s, hb, rfl⟩ := h
    · exact .guards (.body hf)
    · exact .handles (.handler hf hb)
  | throw g =>
    rw [hf] at h
    cases h
    exact .awaits (.message hf)
  | expression g =>
    rw [hf] at h
    cases h
    exact .awaits (.expression hf)
  | input kind name =>
    rw [hf] at h
    cases h
  | invalid e =>
    rw [hf] at h
    cases h

theorem starts_exec {f : Form} :
    Starts ⟨n + 1, .exec f, m⟩ u ↔ (Statement.ofForm f).Parts n m u :=
  ⟨Starts.exec_parts, Statement.Parts.starts⟩

theorem starts_call {receiver : View} {name : String} {vs : List Value} :
    Starts ⟨n, .call receiver name vs, m⟩ u ↔ ∃ view method bindings,
      m.registry.selectMethod? receiver name (vs.map Value.runtimeType) = some (view, method) ∧
      m.atLimit? = none ∧ bindArguments method.params vs = .ok bindings ∧
      u = ⟨n, .exec method.body, m.enterCall view method bindings⟩ := by
  constructor
  · rintro (h | h | h)
    · cases h with
      | body hs hl hb => exact ⟨_, _, _, hs, hl, hb, rfl⟩
    · cases h
    · cases h
  · rintro ⟨view, method, bindings, hs, hl, hb, rfl⟩
    exact .awaits (.body hs hl hb)

end

end ObjectLang
