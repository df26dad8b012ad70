import ObjectLang.Proofs.Memory
import ObjectLang.Proofs.Task

/-!
Outcomes: what the operations on the machine and the expressions give, in terms of what their parts
give.
-/

namespace ObjectLang

/- The marker, and the values that carry neither it nor an object. -/

theorem Value.isException_iff {v : Value} : v.isException = true ↔ v = .exception := by
  cases v <;> simp [isException]

theorem Value.isException_eq_false {v : Value} : v.isException = false ↔ v ≠ .exception := by
  cases v <;> simp [isException]

def Value.isPlain : Value → Bool
  | .object _ | .exception => false
  | _ => true

namespace Value

@[simp] theorem isPlain_ofLiteral (l : Literal) : (ofLiteral l).isPlain = true := by
  cases l <;> rfl

@[simp] theorem isPlain_zero (t : TypeTag) : (zero t).isPlain = true := by
  cases t <;> rfl

theorem ne_exception_of_isPlain {v : Value} (h : v.isPlain = true) : v ≠ .exception := by
  intro h'
  subst h'
  cases h

def isScalar : Value → Bool
  | int _ | bool _ | string _ => true
  | _ => false

theorem isPlain_of_isScalar {v : Value} (h : v.isScalar = true) : v.isPlain = true := by
  cases v <;> first | rfl | cases h

theorem retag_eq (t : TypeTag) (v : Value) : v.retag t = v ∨ (v.retag t).isPlain = true := by
  cases v <;> simp [retag, isPlain]

end Value

theorem Variable.create_value {t : TypeTag} {v : Value} {x : Variable} (h : create t v = .ok x) :
    x.value = v ∨ x.value.isPlain = true := by
  unfold create assign at h
  split at h <;> cases h
  cases v <;> simp [Value.retag, Value.isPlain]

theorem Eval.tagNull_eq (t : TypeTag) (v : Value) :
    tagNull t v = v ∨ (tagNull t v).isPlain = true := by
  unfold tagNull
  split
  · exact .inr rfl
  · exact .inl rfl

theorem Eval.isScalar_received {line : String} {kind : InputKind} {v : Value}
    (h : received line kind = .ok v) : v.isScalar = true := by
  unfold received at h
  split at h
  · cases h
    rfl
  · split at h <;> cases h
    rfl

/- Operators compute; they never give back a reference. -/

theorem Operator.isScalar_onIntegers {op : Operator} {a b : Int64} {v : Value}
    (h : op.onIntegers a b = .ok v) : v.isScalar = true := by
  have hmap : ∀ r : Except Error Int64, r.map Value.int = .ok v → v.isScalar = true := by
    intro r hr
    cases r <;> cases hr
    rfl
  cases op with
  | add | sub | mul | div | mod => exact hmap _ h
  | eq | ne | lt | le | gt | ge =>
    cases h
    rfl
  | and | or => cases h

theorem Operator.isScalar_apply {op : Operator} {a b v : Value} (h : op.apply a b = .ok v) :
    v.isScalar = true := by
  unfold apply at h
  split at h
  · exact isScalar_onIntegers h
  · cases op <;> cases h <;> rfl
  · cases op <;> cases h <;> rfl
  · cases h

theorem Operator.isScalar_negate {a v : Value} (h : negate a = .ok v) : v.isScalar = true := by
  cases a <;> cases h
  rfl

theorem Registry.isScalar_operate {r : Registry} {op : Operator} {a b : Operand} {v : Value}
    (h : r.operate op a b = .ok v) : v.isScalar = true := by
  unfold operate at h
  split at h
  · exact Operator.isScalar_apply h
  · split at h
    · unfold compare at h
      split at h <;> cases h
      rfl
    · cases h

def Variable.text : Variable → String
  | ⟨_, .string text⟩ => text
  | _ => ""

def Yields (x : Eval Operand) (m : Machine) (v : Value) (s : Machine) : Prop :=
  ∃ a, x m = .ok a s ∧ a.value = v ∧ v.isException = false

theorem marks_or_yields {x : Eval Operand} {m s : Machine} {a : Operand} (h : x m = .ok a s) :
    Marks x m s ∨ Yields x m a.value s := by
  cases ha : a.value.isException with
  | true => exact .inl ⟨a, h, Value.isException_iff.mp ha⟩
  | false => exact .inr ⟨a, h, rfl, ha⟩

namespace Eval

variable {eval : Form → Eval Operand} {exec : Form → Eval Completion} {m m₁ s : Machine}
  {f : Form} {v : Value}

/- The operations on the machine. -/

theorem ofExcept_eq_ok {α : Type} {r : Except Error α} {a : α} :
    ofExcept r m = .ok a s ↔ r = .ok a ∧ s = m := by
  constructor
  · intro h
    cases r with
    | ok b =>
      cases h
      exact ⟨rfl, rfl⟩
    | error e => cases h
  · intro h
    obtain ⟨rfl, rfl⟩ := h
    rfl

theorem building_eq_ok {α : Type} {b : Build α} {a : α} :
    building b m = .ok a s ↔ ∃ r, b m.registry = .ok a r ∧ s = { m with registry := r } := by
  unfold building
  cases h : b m.registry with
  | ok b r =>
    simp only [EStateM.Result.ok.injEq]
    constructor
    · intro h
      obtain ⟨rfl, rfl⟩ := h
      exact ⟨r, ⟨rfl, rfl⟩, rfl⟩
    · intro h
      obtain ⟨r', ⟨rfl, rfl⟩, rfl⟩ := h
      exact ⟨rfl, rfl⟩
  | error e r => simp

theorem ambientMessage_of_get? {x : Variable}
    (h : m.store.get? m.control.ambient exceptionName = some x) :
    ambientMessage m = .ok x.text m := by
  refine (bind_ok (x := get) rfl _).trans ((bind_ok (x := get) rfl _).trans ?_)
  obtain ⟨t, v⟩ := x
  rw [h]
  cases v <;> rfl

theorem checkAccess_eq_ok {name : String} :
    checkAccess name m = .ok () s ↔
      (name = exceptionName → m.control.handling = true) ∧ s = m := by
  by_cases h : name = exceptionName → m.control.handling = true
  · have hok : checkAccess name m = .ok () m := by
      have hb : (name == exceptionName && !m.control.handling) = false := by simpa using h
      refine (bind_ok (x := get) rfl _).trans ?_
      rw [hb]
      rfl
    rw [hok]
    constructor
    · intro heq
      cases heq
      exact ⟨h, rfl⟩
    · intro h
      obtain ⟨-, rfl⟩ := h
      rfl
  · have herror : checkAccess name m = .error (.failed .exceptionOutsideHandler) m := by
      have hb : (name == exceptionName && !m.control.handling) = true := by simpa using h
      refine (bind_ok (x := get) rfl _).trans ?_
      rw [hb]
      rfl
    simp [herror, h]

theorem checkVisible_eq_ok {name : String} :
    checkVisible name m = .ok () s ↔ (name = exceptionName → m.control.handling = true) ∧
      m.store.contains m.control.scopes name = true ∧ s = m := by
  refine bind_eq_ok.trans ?_
  constructor
  · intro h
    obtain ⟨_, m₁, h, hk⟩ := h
    obtain ⟨hname, rfl⟩ := checkAccess_eq_ok.mp h
    cases hc : m₁.store.contains m₁.control.scopes name with
    | false =>
      have hk' := (bind_ok (x := get) rfl _).symm.trans hk
      simp only [hc] at hk'
      cases hk'
    | true =>
      have hk' := (bind_ok (x := get) rfl _).symm.trans hk
      simp only [hc] at hk'
      cases hk'
      exact ⟨hname, rfl, rfl⟩
  · intro h
    obtain ⟨hname, hc, rfl⟩ := h
    refine ⟨(), s, checkAccess_eq_ok.mpr ⟨hname, rfl⟩, (bind_ok (x := get) rfl _).trans ?_⟩
    rw [hc]
    rfl

theorem lookup_eq_ok {name : String} {x : Variable} :
    lookup name m = .ok x s ↔ (name = exceptionName → m.control.handling = true) ∧
      m.store.lookup m.control.scopes name = some x ∧ s = m := by
  refine bind_eq_ok.trans ?_
  constructor
  · intro h
    obtain ⟨_, m₁, h, hk⟩ := h
    obtain ⟨hname, rfl⟩ := checkAccess_eq_ok.mp h
    have hk' := (bind_ok (x := get) rfl _).symm.trans hk
    cases hx : m₁.store.lookup m₁.control.scopes name with
    | none =>
      simp only [hx] at hk'
      cases hk'
    | some y =>
      simp only [hx] at hk'
      cases hk'
      exact ⟨hname, rfl, rfl⟩
  · intro h
    obtain ⟨hname, hx, rfl⟩ := h
    refine ⟨(), s, checkAccess_eq_ok.mpr ⟨hname, rfl⟩, (bind_ok (x := get) rfl _).trans ?_⟩
    rw [hx]
    rfl

theorem activation_eq_ok {shape : Shape} {a : Activation} :
    activation shape m = .ok a s ↔ m.control.activation = some a ∧ s = m := by
  refine bind_eq_ok.trans ?_
  constructor
  · intro h'
    obtain ⟨m', m₁, hm, hk⟩ := h'
    cases hm
    cases h : m.control.activation with
    | none =>
      rw [h] at hk
      cases hk
    | some b =>
      rw [h] at hk
      cases hk
      exact ⟨rfl, rfl⟩
  · intro h
    obtain ⟨h, rfl⟩ := h
    exact ⟨s, s, rfl, by rw [h]; rfl⟩

theorem superView_eq_ok {v : View} :
    superView m = .ok v s ↔
      ∃ a, m.control.activation = some a ∧ a.receiver.parent? = some v ∧ s = m := by
  refine bind_eq_ok.trans ?_
  constructor
  · intro h
    obtain ⟨a, m₁, h, hk⟩ := h
    obtain ⟨ha, rfl⟩ := activation_eq_ok.mp h
    cases hp : a.receiver.parent? with
    | none =>
      simp only [hp] at hk
      cases hk
    | some w =>
      simp only [hp] at hk
      cases hk
      exact ⟨a, ha, hp, rfl⟩
  · intro h
    obtain ⟨a, ha, hp, rfl⟩ := h
    refine ⟨a, s, activation_eq_ok.mpr ⟨ha, rfl⟩, ?_⟩
    simp only [hp]
    rfl

theorem checkDepth_eq_ok : checkDepth m = .ok () s ↔ m.atLimit? = none ∧ s = m := by
  refine bind_eq_ok.trans ?_
  constructor
  · intro h'
    obtain ⟨m', m₁, hm, hk⟩ := h'
    cases hm
    cases h : m.atLimit? with
    | some limit =>
      rw [h] at hk
      cases hk
    | none =>
      rw [h] at hk
      cases hk
      exact ⟨rfl, rfl⟩
  · intro h
    obtain ⟨h, rfl⟩ := h
    exact ⟨s, s, rfl, by rw [h]; rfl⟩

/- The arguments of a call: the marker comes from one of them, after those before it have gone
well. -/

theorem arguments_cons_of_marks {fs : List Form} (h : Marks (eval f) m s) :
    arguments eval (f :: fs) m = .ok none s := by
  obtain ⟨a, ha, hv⟩ := h
  rw [arguments, bind_ok ha, hv]
  rfl

theorem arguments_cons_of_yields {fs : List Form} (h : Yields (eval f) m v m₁) :
    arguments eval (f :: fs) m = (do return (← arguments eval fs).map (v :: ·)) m₁ := by
  obtain ⟨a, ha, rfl, hx⟩ := h
  rw [arguments, bind_ok ha]
  cases hv : a.value <;> simp_all [Value.isException]

theorem arguments_cons_eq_some {fs : List Form} {vs : List Value} :
    arguments eval (f :: fs) m = .ok (some vs) s ↔
      ∃ v ws m₁, Yields (eval f) m v m₁ ∧ arguments eval fs m₁ = .ok (some ws) s ∧
        vs = v :: ws := by
  constructor
  · intro h
    obtain ⟨a, m₁, ha, -⟩ := bind_eq_ok.mp h
    cases marks_or_yields ha with
    | inl hv =>
      rw [arguments_cons_of_marks hv] at h
      cases h
    | inr hv =>
      rw [arguments_cons_of_yields hv] at h
      obtain ⟨r, m₂, hr, hk⟩ := bind_eq_ok.mp h
      cases r with
      | none => cases hk
      | some ws =>
        cases hk
        exact ⟨_, ws, m₁, hv, hr, rfl⟩
  · intro h
    obtain ⟨v, ws, m₁, hv, hws, rfl⟩ := h
    rw [arguments_cons_of_yields hv, bind_ok hws]
    rfl

theorem arguments_eq_none {fs : List Form} :
    arguments eval fs m = .ok none s ↔
      ∃ before g rest vs m₁, fs = before ++ g :: rest ∧
        arguments eval before m = .ok (some vs) m₁ ∧ Marks (eval g) m₁ s := by
  constructor
  · intro h
    induction fs generalizing m with
    | nil => cases h
    | cons f fs ih =>
      obtain ⟨a, m₁, ha, -⟩ := bind_eq_ok.mp h
      cases marks_or_yields ha with
      | inl hv =>
        rw [arguments_cons_of_marks hv] at h
        cases h
        exact ⟨[], f, fs, [], m, rfl, rfl, hv⟩
      | inr hv =>
        rw [arguments_cons_of_yields hv] at h
        obtain ⟨r, m₂, hr, hk⟩ := bind_eq_ok.mp h
        cases r with
        | some vs => cases hk
        | none =>
          cases hk
          obtain ⟨before, g, rest, vs, m₃, rfl, hb, hg⟩ := ih hr
          exact ⟨f :: before, g, rest, a.value :: vs, m₃, rfl,
            arguments_cons_eq_some.mpr ⟨_, vs, m₁, hv, hb, rfl⟩, hg⟩
  · intro h
    obtain ⟨before, g, rest, vs, m₁, rfl, hb, hg⟩ := h
    induction before generalizing m vs with
    | nil =>
      cases hb
      exact arguments_cons_of_marks hg
    | cons f fs ih =>
      obtain ⟨v, ws, m₂, hv, hws, rfl⟩ := arguments_cons_eq_some.mp hb
      rw [List.cons_append, arguments_cons_of_yields hv, bind_ok (ih ws hws)]
      rfl

/- Calls: the receiver, the arguments, the choice of the method, its body and the check of what the
body gives. -/

/-- A method call, from the choice of the method to the check of what its body gives. -/
theorem callMethod_eq_ok (hexec : ∀ f, Restores (exec f)) {receiver : View} {name : String}
    {vs : List Value} :
    callMethod exec receiver name vs m = .ok v s ↔
      ∃ view method bindings done t,
        m.registry.selectMethod? receiver name (vs.map Value.runtimeType) = some (view, method) ∧
        m.atLimit? = none ∧ bindArguments method.params vs = .ok bindings ∧
        exec method.body (m.enterCall view method bindings) = .ok done t ∧
        t.registry.returnValue method done = .ok v ∧ s = { t with control := m.control } := by
  refine bind_eq_ok.trans ?_
  constructor
  · intro h
    obtain ⟨m', m₁, hm, hk⟩ := h
    cases hm
    cases hs : m.registry.selectMethod? receiver name (vs.map Value.runtimeType) with
    | none =>
      rw [hs] at hk
      cases hk
    | some chosen =>
      obtain ⟨view, method⟩ := chosen
      simp only [hs] at hk
      obtain ⟨_, m₂, hd, hk₁⟩ := bind_eq_ok.mp hk
      obtain ⟨hl, rfl⟩ := checkDepth_eq_ok.mp hd
      obtain ⟨bindings, m₃, he, hk₂⟩ := bind_eq_ok.mp hk₁
      obtain ⟨hb, rfl⟩ := ofExcept_eq_ok.mp he
      obtain ⟨frame, m₄, hf, hk₃⟩ := bind_eq_ok.mp hk₂
      cases hf
      obtain ⟨done, m₅, hc, hk₄⟩ := bind_eq_ok.mp hk₃
      obtain ⟨t, ht, rfl⟩ := (hexec _).inCall_eq_ok.mp hc
      obtain ⟨hv, rfl⟩ := ofExcept_eq_ok.mp hk₄
      exact ⟨view, method, bindings, done, t, rfl, hl, hb, ht, hv, rfl⟩
  · intro h
    obtain ⟨view, method, bindings, done, t, hs, hl, hb, ht, hv, rfl⟩ := h
    refine ⟨m, m, rfl, ?_⟩
    simp only [hs]
    rw [bind_ok (checkDepth_eq_ok.mpr ⟨hl, rfl⟩), bind_ok (ofExcept_eq_ok.mpr ⟨hb, rfl⟩)]
    refine bind_eq_ok.mpr ⟨m.store.next, _, rfl, ?_⟩
    rw [bind_ok ((hexec _).inCall_eq_ok.mpr ⟨t, ht, rfl⟩)]
    exact ofExcept_eq_ok.mpr ⟨hv, rfl⟩

theorem callWith_eq_ok {receiver : View} {name : String} {args : List Form} :
    callWith eval exec receiver name args m = .ok v s ↔
      (arguments eval args m = .ok none s ∧ v = .exception) ∨
      ∃ vs m₁, arguments eval args m = .ok (some vs) m₁ ∧
        callMethod exec receiver name vs m₁ = .ok v s := by
  refine bind_eq_ok.trans ?_
  constructor
  · intro h
    obtain ⟨r, m₁, hr, hk⟩ := h
    cases r with
    | none =>
      cases hk
      exact .inl ⟨hr, rfl⟩
    | some vs => exact .inr ⟨vs, m₁, hr, hk⟩
  · intro h
    obtain ⟨hr, rfl⟩ | ⟨vs, m₁, hr, hk⟩ := h
    · exact ⟨none, s, hr, rfl⟩
    · exact ⟨some vs, m₁, hr, hk⟩

theorem call_eq_ok {n : Nat} {target : Target} {name : String} {args : List Form} :
    call (ObjectLang.eval n) (ObjectLang.exec n) target name args m = .ok v s ↔
      (∃ g, target = .value g ∧ Marks (ObjectLang.eval n g) m s ∧ v = .exception) ∨
      ∃ w m₁, target.Gives n m m₁ w ∧
        callWith (ObjectLang.eval n) (ObjectLang.exec n) w name args m₁ = .ok v s := by
  cases target with
  | super =>
    refine bind_eq_ok.trans ?_
    simp [Target.Gives]
  | value g =>
    refine bind_eq_ok.trans ?_
    constructor
    · intro h
      obtain ⟨a, m₁, ha, hk⟩ := h
      cases hv : a.value <;> rw [hv] at hk
      case object w => exact .inr ⟨w, m₁, ⟨a, ha, hv⟩, hk⟩
      case exception =>
        cases hk
        exact .inl ⟨g, rfl, ⟨a, ha, hv⟩, rfl⟩
      all_goals cases hk
    · intro h
      obtain ⟨g', hg, ⟨a, ha, hv⟩, rfl⟩ | ⟨w, m₁, ⟨a, ha, hv⟩, hk⟩ := h
      · cases hg
        exact ⟨a, s, ha, by rw [hv]; rfl⟩
      · exact ⟨a, m₁, ha, by rw [hv]; exact hk⟩

/- Operators give the marker only if an operand is one. -/

theorem marks_of_negation {operand : Form}
    (h : negation eval operand m = .ok .exception s) : Marks (eval operand) m s := by
  obtain ⟨a, m₁, ha, hk⟩ := bind_eq_ok.mp h
  cases hx : a.value.isException with
  | true =>
    simp only [hx] at hk
    cases hk
    exact ⟨a, ha, Value.isException_iff.mp hx⟩
  | false =>
    simp only [hx] at hk
    obtain ⟨hv, -⟩ := ofExcept_eq_ok.mp hk
    cases Operator.isScalar_negate hv

theorem marks_of_binary {op : Operator} {left right : Form}
    (h : binary eval op left right m = .ok .exception s) :
    Marks (eval left) m s ∨
      ∃ a m₁, eval left m = .ok a m₁ ∧ a.value.isException = false ∧ Marks (eval right) m₁ s := by
  obtain ⟨a, m₁, ha, hk⟩ := bind_eq_ok.mp h
  cases hx : a.value.isException with
  | true =>
    simp only [hx] at hk
    cases hk
    exact .inl ⟨a, ha, Value.isException_iff.mp hx⟩
  | false =>
    simp only [hx] at hk
    obtain ⟨b, m₂, hb, hk⟩ := bind_eq_ok.mp hk
    refine .inr ⟨a, m₁, ha, hx, ?_⟩
    cases hy : b.value.isException with
    | true =>
      simp only [hy] at hk
      cases hk
      exact ⟨b, hb, Value.isException_iff.mp hy⟩
    | false =>
      simp only [hy] at hk
      obtain ⟨m₃, m₄, hget, hk⟩ := bind_eq_ok.mp hk
      obtain ⟨hv, -⟩ := ofExcept_eq_ok.mp hk
      cases Registry.isScalar_operate hv

end Eval

/-- What a method gives: the marker if its body raises, or else what the body returns or the zero of
the declared type, if that type admits it. -/
theorem Registry.returnValue_eq_ok {r : Registry} {method : Method} {done : Completion} {v : Value}
    (h : r.returnValue method done = .ok v) :
    (done = .raised ∧ v = .exception) ∨
      ∃ w, (done = .returned w ∨ w = .zero method.returns) ∧
        r.returnable method.returns w = true ∧ v = w.retag method.returns := by
  have hcheck : ∀ w, r.checkReturn method w = .ok v →
      r.returnable method.returns w = true ∧ v = w.retag method.returns := by
    intro w hw
    unfold checkReturn at hw
    split at hw <;> cases hw
    exact ⟨by assumption, rfl⟩
  unfold returnValue at h
  split at h
  · cases h
    exact .inl ⟨rfl, rfl⟩
  · exact .inr ⟨_, .inr rfl, hcheck _ h⟩
  · exact .inr ⟨_, .inr rfl, hcheck _ h⟩
  · exact .inr ⟨_, .inl rfl, hcheck _ h⟩

/-- An expression that is not read from a variable gives the marker if its computation does. -/
theorem marks_temporary {x : Eval Value} {m s : Machine} :
    Marks (do return .temporary (← x)) m s ↔ x m = .ok .exception s := by
  constructor
  · intro h
    obtain ⟨a, ha, hv⟩ := h
    obtain ⟨v, m₁, hx, hk⟩ := bind_eq_ok.mp ha
    cases hk
    exact hx.trans (congrArg (EStateM.Result.ok · _) hv)
  · intro hx
    exact ⟨.temporary .exception, (bind_ok hx _).trans rfl, rfl⟩

theorem marks_eval {n : Nat} {f : Form} {m s : Machine} (hf : Expression.ofForm f = e) :
    Marks (eval (n + 1) f) m s ↔ Marks (Eval.expression (eval n) (exec n) e) m s := by
  rw [eval, hf]

end ObjectLang
