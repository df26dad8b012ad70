import ObjectLang.Proofs.Lineage
import ObjectLang.Proofs.Underway

/-!
Equality. Two operands can be compared or not whichever comes first, `==` and `!=` have an answer on
the same operands, and the answer is that of equality on the values, whether these are references or
not. Variables of class types of which one is derived from the other can be compared unless the one of
the derived type holds null and the other an object that is no instance of that type.
-/

namespace ObjectLang

def Value.alike : Value → Value → Bool
  | .int _, .int _ | .bool _, .bool _ | .string _, .string _ => true
  | _, _ => false

def Registry.equatable (r : Registry) (a b : Operand) : Bool :=
  a.value.alike b.value || (a.value.isReference && b.value.isReference && r.comparable a b)

def Operator.answer (op : Operator) (same : Bool) : Value := .bool (if op = .eq then same else !same)

def Operator.form (op : Operator) (left right : Form) : Form := .list [.atom op.symbol, left, right]

/- The order of the operands. -/

theorem View.same_comm (v w : View) : v.same w = w.same v := by
  simp only [same, Bool.beq_comm]

namespace Value

theorem same_comm (v w : Value) : v.same w = w.same v := by
  cases v with
  | int a => cases w <;> simp only [same, Bool.beq_comm]
  | bool a => cases w <;> simp only [same, Bool.beq_comm]
  | string a => cases w <;> simp only [same, Bool.beq_comm]
  | object v =>
    cases w with
    | object w => exact v.same_comm w
    | _ => rfl
  | _ => cases w <;> rfl

theorem alike_comm (v w : Value) : v.alike w = w.alike v := by
  cases v <;> cases w <;> rfl

theorem isReference_of_alike {v w : Value} (h : v.alike w = true) : v.isReference = false := by
  cases v with
  | null tag => cases h
  | object v => cases h
  | _ => rfl

theorem same_self (v : Value) : v.same v = true := by
  cases v <;> simp [same, View.same]

end Value

theorem Registry.comparable_of_ne_null {r : Registry} {a b : Operand}
    (h : a.value.runtimeType ≠ .null ∨ b.value.runtimeType ≠ .null) :
    r.comparable a b = (a.value.runtimeType == b.value.runtimeType ||
      a.value.isInstanceOf b.declared || b.value.isInstanceOf a.declared) := by
  obtain ⟨v, t⟩ := a
  obtain ⟨w, u⟩ := b
  cases v with
  | null tag =>
    cases w with
    | null tag' => simp [Value.runtimeType] at h
    | _ => rfl
  | _ => cases w <;> rfl

theorem Registry.comparable_comm (r : Registry) (a b : Operand) :
    r.comparable a b = r.comparable b a := by
  by_cases h : a.value.runtimeType ≠ .null ∨ b.value.runtimeType ≠ .null
  · rw [comparable_of_ne_null h, comparable_of_ne_null h.symm, Bool.beq_comm, Bool.or_right_comm]
  · simp only [not_or, ne_eq, Decidable.not_not] at h
    obtain ⟨v, t⟩ := a
    obtain ⟨w, u⟩ := b
    cases v <;> cases h.1
    cases w <;> cases h.2
    exact Bool.or_comm _ _

theorem Registry.equatable_comm (r : Registry) (a b : Operand) :
    r.equatable a b = r.equatable b a := by
  rw [equatable, equatable, Value.alike_comm, r.comparable_comm a b, Bool.and_comm a.value.isReference]

/- What the two operators answer. -/

namespace Operator

variable {op : Operator} {v w : Value}

theorem eq_or_ne (h : op.isEquality = true) : op = .eq ∨ op = .ne := by
  simpa [isEquality] using h

theorem apply_of_alike (hop : op.isEquality = true) (h : v.alike w = true) :
    op.apply v w = .ok (op.answer (v.same w)) := by
  unfold Value.alike at h
  split at h
  · obtain rfl | rfl := eq_or_ne hop <;>
      simp [apply, onIntegers, answer, Value.same, bne, Int64.toInt_inj]
  · obtain rfl | rfl := eq_or_ne hop <;> rfl
  · obtain rfl | rfl := eq_or_ne hop <;> rfl
  · cases h

theorem apply_of_not_alike (h : v.alike w = false) : op.apply v w = op.mismatch v w := by
  cases v <;> cases w <;> first | rfl | cases h

end Operator

namespace Registry

variable {r : Registry} {op : Operator} {a b : Operand}

theorem equatable_of_isReference (ha : a.value.isReference = true)
    (hb : b.value.isReference = true) : r.equatable a b = r.comparable a b := by
  have halike : a.value.alike b.value = false := by
    refine Bool.eq_false_iff.mpr fun h => ?_
    rw [Value.isReference_of_alike h] at ha
    cases ha
  rw [equatable, halike, ha, hb]
  rfl

/-- Two nulls are compared by their types alone. -/
theorem equatable_of_nulls {tag tag' : Option TypeTag} (ha : a.value = .null tag)
    (hb : b.value = .null tag') : r.equatable a b =
      (r.classAccepts a.declared b.declared || r.classAccepts b.declared a.declared) := by
  rw [equatable_of_isReference (by rw [ha]; rfl) (by rw [hb]; rfl), comparable, ha, hb]

/-- An object and null are compared if the object is an instance of the null's type. -/
theorem equatable_of_object_null {v : View} {tag : Option TypeTag} (ha : a.value = .object v)
    (hb : b.value = .null tag) : r.equatable a b = v.isInstanceOf b.declared := by
  have hne : a.value.runtimeType ≠ .null := by
    rw [ha]
    nofun
  rw [equatable_of_isReference (by rw [ha]; rfl) (by rw [hb]; rfl), comparable_of_ne_null (.inl hne),
    ha, hb]
  simp [Value.runtimeType, Value.isInstanceOf]

/-- An object is compared with what is of a type of which it is an instance. -/
theorem equatable_of_isInstanceOf {w : View} (ha : a.value.isReference = true)
    (hb : b.value = .object w) (h : w.isInstanceOf a.declared = true) : r.equatable a b = true := by
  have hne : b.value.runtimeType ≠ .null := by
    rw [hb]
    nofun
  rw [equatable_of_isReference ha (by rw [hb]; rfl), comparable_of_ne_null (.inr hne), hb]
  exact Bool.or_eq_true_iff.mpr (.inr h)

theorem operate_of_isReference (hop : op.isEquality = true) (ha : a.value.isReference = true)
    (hb : b.value.isReference = true) : r.operate op a b = r.compare op a b := by
  simp [operate, ha, hb, hop]

theorem operate_of_equatable (hop : op.isEquality = true) (h : r.equatable a b = true) :
    r.operate op a b = .ok (op.answer (a.value.same b.value)) := by
  obtain halike | hrefs := Bool.or_eq_true_iff.mp h
  · have hb : b.value.alike a.value = true := by rwa [Value.alike_comm]
    rw [operate, Value.isReference_of_alike halike, Value.isReference_of_alike hb]
    exact Operator.apply_of_alike hop halike
  · simp only [Bool.and_eq_true] at hrefs
    obtain ⟨⟨ha, hb⟩, hcomparable⟩ := hrefs
    rw [operate_of_isReference hop ha hb, compare, if_pos hcomparable]
    rfl

/-- References that cannot be compared are reported by the types they are read at. -/
theorem operate_of_incomparable (hop : op.isEquality = true) (ha : a.value.isReference = true)
    (hb : b.value.isReference = true) (h : r.equatable a b = false) :
    r.operate op a b = .error (.operandMismatch op a.declared b.declared) := by
  rw [equatable_of_isReference ha hb] at h
  rw [operate_of_isReference hop ha hb, compare, h]
  rfl

theorem operate_of_not_equatable (hop : op.isEquality = true) (h : r.equatable a b = false) :
    ∃ t u, r.operate op a b = .error (.operandMismatch op t u) := by
  cases ha : a.value.isReference with
  | false =>
    rw [operate, ha]
    cases b.value.isReference with
    | false => exact ⟨_, _, Operator.apply_of_not_alike (Bool.or_eq_false_iff.mp h).1⟩
    | true => exact ⟨_, _, rfl⟩
  | true =>
    cases hb : b.value.isReference with
    | false =>
      rw [operate, ha, hb]
      exact ⟨_, _, rfl⟩
    | true => exact ⟨_, _, operate_of_incomparable hop ha hb h⟩

end Registry

/- Evaluation. -/

theorem ofForm_operator (op : Operator) (left right : Form) :
    Expression.ofForm (op.form left right) = .binary op left right := by
  cases op <;> rfl

/-- Operands that are not markers go to the operator. -/
theorem eval_operator {n : Nat} (op : Operator) {left right : Form} {a b : Operand}
    {m m₁ m₂ : Machine} (ha : eval n left m = .ok a m₁) (ha' : a.value ≠ .exception)
    (hb : eval n right m₁ = .ok b m₂) (hb' : b.value ≠ .exception) :
    eval (n + 1) (op.form left right) m =
      match m₂.registry.operate op a b with
      | .ok v => .ok (.temporary v) m₂
      | .error e => .error (.failed e) m₂ := by
  have hbinary : Eval.binary (eval n) op left right m =
      Eval.ofExcept (m₂.registry.operate op a b) m₂ := by
    refine (bind_ok ha _).trans ?_
    rw [Value.isException_eq_false.mpr ha']
    refine (bind_ok hb _).trans ?_
    rw [Value.isException_eq_false.mpr hb']
    rfl
  rw [eval, ofForm_operator]
  cases h : m₂.registry.operate op a b with
  | ok v => exact bind_ok (hbinary.trans (by rw [h]; rfl)) _
  | error e => exact bind_error (hbinary.trans (by rw [h]; rfl)) _

/- Variables of class types. -/

/-- One variable holds an object, and the other holds null and is of a type of which the object is no
instance. -/
def Variable.Mismatches (x y : Variable) : Prop :=
  ∃ w tag, x.value = .object w ∧ y.value = .null tag ∧ w.isInstanceOf y.declared = false

section Runs

variable {forms : List Form} {r : Registry} {sink : Sink} {source : Source} {limit : Option Nat}
  {m : Machine} (hload : Registry.load forms = .ok r)
  (hm : Reachable (Machine.start r sink source limit) m) {token token' : String} {x y : Variable}

include hload hm

theorem Reachable.ne_exception (hx : m.Finds token x) : x.value ≠ .exception :=
  (hm.typed hload hx.found).unmarked

/-- Read from a variable, a value is compared by the declared type, for that is a null's tag too. -/
theorem Reachable.operand_declared {cls : String} (hx : m.Finds token x)
    (hcls : x.declared = .ofClass cls) :
    (Operand.typed x.value x.declared).declared = .ofClass cls := by
  obtain hv | ⟨w, hv, -⟩ := hm.class_cases hload hx.found hcls
  · rw [hv]
    rfl
  · rw [hv]
    exact hcls

/-- Whichever of the two hold objects and which null. -/
theorem Reachable.equatable_iff (hx : m.Finds token x) (hy : m.Finds token' y) {sup sub : String}
    (hsup : x.declared = .ofClass sup) (hsub : y.declared = .ofClass sub) {k : Nat}
    (habove : m.registry.Above sup sub k) :
    m.registry.equatable (.typed x.value x.declared) (.typed y.value y.declared) = true ↔
      ¬ x.Mismatches y := by
  have hx' := hm.operand_declared hload hx hsup
  have hy' := hm.operand_declared hload hy hsub
  obtain hw | ⟨w, hw, hclass, haccepts⟩ := hm.class_cases hload hy.found hsub
  · obtain hv | ⟨v, hv, -⟩ := hm.class_cases hload hx.found hsup
    · refine iff_of_true ?_ ?_
      · rw [Registry.equatable_of_nulls hv hw, hx', hy']
        exact Bool.or_eq_true_iff.mpr (.inr habove.classAccepts)
      · rintro ⟨v, tag, hobject, -⟩
        cases hv.symm.trans hobject
    · rw [Registry.equatable_of_object_null hv hw, hy']
      constructor
      · rintro hinstance ⟨v', tag, hobject, -, hno⟩
        cases hv.symm.trans hobject
        rw [hsub, hinstance] at hno
        cases hno
      · intro hmatch
        refine Bool.of_not_eq_false fun hno => hmatch ⟨v, _, hv, hw, ?_⟩
        rw [hsub]
        exact hno
  · have hinstance : w.isInstanceOf (.ofClass sup) = true :=
      habove.accepts (hm.orderly (Registry.orderly_load hload)) hclass haccepts
    refine iff_of_true (Registry.equatable_of_isInstanceOf ?_ hw (hx' ▸ hinstance)) ?_
    · change x.value.isReference = true
      obtain hv | ⟨v, hv, -⟩ := hm.class_cases hload hx.found hsup <;> rw [hv] <;> rfl
    · rintro ⟨v, tag, -, hnull, -⟩
      cases hw.symm.trans hnull

end Runs

/-- While a run goes on, the types of all variables are registered. -/
theorem Underway.above_self {forms : List Form} {r : Registry} {sink : Sink} {source : Source}
    {limit : Option Nat} {m : Machine} {token : String} {x : Variable} {cls : String}
    (hm : Underway (Machine.start r sink source limit) m) (hload : Registry.load forms = .ok r)
    (hx : m.Finds token x) (hcls : x.declared = .ofClass cls) : m.registry.Above cls cls 0 := by
  obtain ⟨c, hc⟩ := Option.isSome_iff_exists.mp (hm.knows_declared hload hx.found cls hcls)
  exact .self hc

/-- `==` gives the same on two operands in both orders: either a truth value, which is that of equality
on the values, or else a type error. Where it gives a truth value, `!=` gives its negation, and where
it does not, nor does `!=`. Once two operands of an expression are evaluated, this is what it gives.
While a run goes on in which the program has been loaded, a variable of a class type equals itself. -/
theorem equality_is_coherent {forms : List Form} {r : Registry}
    (hload : Registry.load forms = .ok r) :
    (∀ (r' : Registry) (a b : Operand),
      (r'.operate .eq a b = .ok (.bool (a.value.same b.value)) ∧
        r'.operate .eq b a = .ok (.bool (a.value.same b.value)) ∧
        r'.operate .ne a b = .ok (.bool !(a.value.same b.value)) ∧
        r'.operate .ne b a = .ok (.bool !(a.value.same b.value))) ∨
      ∀ op, op.isEquality = true →
        (∃ e, r'.operate op a b = .error e ∧ e.kind = .type) ∧
        ∃ e, r'.operate op b a = .error e ∧ e.kind = .type) ∧
    (∀ (n : Nat) (op : Operator) (left right : Form) (a b : Operand) (m m₁ m₂ : Machine),
      eval n left m = .ok a m₁ → a.value ≠ .exception → eval n right m₁ = .ok b m₂ →
      b.value ≠ .exception → eval (n + 1) (op.form left right) m =
        match m₂.registry.operate op a b with
        | .ok v => .ok (.temporary v) m₂
        | .error e => .error (.failed e) m₂) ∧
    ∀ (sink : Sink) (source : Source) (limit : Option Nat) (m : Machine),
      Underway (Machine.start r sink source limit) m →
      ∀ token x cls, m.Finds token x → x.declared = .ofClass cls → ∀ fuel,
        eval (fuel + 2) (Operator.eq.form (.atom token) (.atom token)) m =
          .ok (.temporary (.bool true)) m := by
  refine ⟨?_, fun n op left right a b m m₁ m₂ => eval_operator op, ?_⟩
  · intro r' a b
    cases h : r'.equatable a b with
    | true =>
      have h' : r'.equatable b a = true := by rwa [Registry.equatable_comm]
      rw [Registry.operate_of_equatable rfl h, Registry.operate_of_equatable rfl h,
        Registry.operate_of_equatable rfl h', Registry.operate_of_equatable rfl h',
        Value.same_comm b.value]
      exact .inl ⟨rfl, rfl, rfl, rfl⟩
    | false =>
      have h' : r'.equatable b a = false := by rwa [Registry.equatable_comm]
      refine .inr fun op hop => ⟨?_, ?_⟩
      · obtain ⟨t, u, herror⟩ := Registry.operate_of_not_equatable hop h
        exact ⟨_, herror, rfl⟩
      · obtain ⟨t, u, herror⟩ := Registry.operate_of_not_equatable hop h'
        exact ⟨_, herror, rfl⟩
  · intro sink source limit m hm token x cls hx hcls fuel
    have hne := hm.reachable.ne_exception hload hx
    have habove := hm.above_self hload hx hcls
    have hmatch : ¬ x.Mismatches x := by
      rintro ⟨w, tag, hobject, hnull, -⟩
      cases hobject.symm.trans hnull
    have hequatable := (hm.reachable.equatable_iff hload hx hx hcls hcls habove).mpr hmatch
    rw [eval_operator _ (hx.eval fuel) hne (hx.eval fuel) hne,
      Registry.operate_of_equatable rfl hequatable, Value.same_self]
    rfl

theorem Sample.underway_entered : Underway start entered := by
  have hmain : Awaits ⟨8, .call ⟨1, cls, []⟩ "main" [], after (Eval.create cls) start⟩
      ⟨8, .exec running.body, entered⟩ := .body rfl rfl rfl
  exact .started ⟨cls, _, start, _, rfl, rfl, rfl⟩ (.single (.awaits hmain))

/-- In the sample, the field holds null and equals itself. -/
theorem sample_null_equals_itself :
    Registry.load Sample.forms = .ok Sample.start.registry ∧
      Underway Sample.start Sample.entered ∧
      Sample.entered.Finds "next" ⟨.ofClass "main", .null (some (.ofClass "main"))⟩ ∧
      eval 2 (Operator.eq.form (.atom "next") (.atom "next")) Sample.entered =
        .ok (.temporary (.bool true)) Sample.entered := by
  have hload : Registry.load Sample.forms = .ok Sample.start.registry := rfl
  have hnext : Sample.entered.Finds "next" ⟨.ofClass "main", .null (some (.ofClass "main"))⟩ :=
    ⟨rfl, nofun, rfl⟩
  obtain ⟨-, -, hself⟩ := equality_is_coherent hload
  exact ⟨hload, Sample.underway_entered, hnext,
    hself _ _ _ _ Sample.underway_entered _ _ _ hnext rfl 0⟩

/-- Two variables of class types, of which one is derived from the other or the same, are compared by
`==` and `!=` in both orders, unless the one of the derived type holds null and the other an object
that is no instance of that type; then both orders are type errors. While a run goes on in which the
program has been loaded, all types of variables are registered, so that this is so of any two variables
of one class type too. -/
theorem related_variables_are_compared {forms : List Form} {r : Registry}
    (hload : Registry.load forms = .ok r) {sink : Sink} {source : Source} {limit : Option Nat}
    {m : Machine} (hm : Reachable (Machine.start r sink source limit) m) :
    (∀ token token' x y, m.Finds token x → m.Finds token' y →
      ∀ sup sub, x.declared = .ofClass sup → y.declared = .ofClass sub →
      ∀ k, m.registry.Above sup sub k → ∀ op, op.isEquality = true → ∀ fuel,
        (¬ x.Mismatches y → ∃ answer,
          eval (fuel + 2) (op.form (.atom token) (.atom token')) m =
            .ok (.temporary (.bool answer)) m ∧
          eval (fuel + 2) (op.form (.atom token') (.atom token)) m =
            .ok (.temporary (.bool answer)) m) ∧
        (x.Mismatches y →
          eval (fuel + 2) (op.form (.atom token) (.atom token')) m =
            .error (.failed (.operandMismatch op (.ofClass sup) (.ofClass sub))) m ∧
          eval (fuel + 2) (op.form (.atom token') (.atom token)) m =
            .error (.failed (.operandMismatch op (.ofClass sub) (.ofClass sup))) m)) ∧
    (Underway (Machine.start r sink source limit) m →
      ∀ token x cls, m.Finds token x → x.declared = .ofClass cls → m.registry.Above cls cls 0) := by
  refine ⟨?_, fun hunderway token x cls => hunderway.above_self hload⟩
  intro token token' x y hx hy sup sub hsup hsub k habove op hop fuel
  have hx' := hm.ne_exception hload hx
  have hy' := hm.ne_exception hload hy
  have hiff := hm.equatable_iff hload hx hy hsup hsub habove
  have hforth := eval_operator op (hx.eval fuel) hx' (hy.eval fuel) hy'
  have hback := eval_operator op (hy.eval fuel) hy' (hx.eval fuel) hx'
  constructor
  · intro hmatch
    have h := hiff.mpr hmatch
    refine ⟨if op = .eq then x.value.same y.value else !(x.value.same y.value), ?_, ?_⟩
    · rw [hforth, Registry.operate_of_equatable hop h]
      rfl
    · rw [hback, Registry.operate_of_equatable hop (by rwa [Registry.equatable_comm] at h)]
      change _ = EStateM.Result.ok (Operand.temporary (op.answer (x.value.same y.value))) m
      rw [Value.same_comm]
      rfl
  · intro hmismatch
    have h := Bool.eq_false_iff.mpr (mt hiff.mp (not_not_intro hmismatch))
    have h' := h
    rw [Registry.equatable_comm] at h'
    obtain ⟨w, tag, hv, hw, -⟩ := hmismatch
    have hxref : x.value.isReference = true := by rw [hv]; rfl
    have hyref : y.value.isReference = true := by rw [hw]; rfl
    rw [hforth, hback, Registry.operate_of_incomparable hop hxref hyref h,
      Registry.operate_of_incomparable hop hyref hxref h', hm.operand_declared hload hx hsup,
      hm.operand_declared hload hy hsub]
    exact ⟨rfl, rfl⟩

/- A program that compares its object with a null of a derived type. -/

namespace Sample

def comparing : Method :=
  ⟨"main", .void, [], .list [.atom "let",
    .list [.list [.atom "main", .atom "x", .atom "me"], .list [.atom "sub", .atom "y"]],
    .list [.atom "print", Operator.eq.form (.atom "x") (.atom "y")]]⟩

def elder : Class := ⟨⟨"main", [], [comparing]⟩, []⟩

def younger : Class := ⟨⟨"sub", [], []⟩, elder.line⟩

def kinForms : List Form :=
  [.list [.atom "class", .atom "main",
      .list [.atom "method", .atom "void", .atom "main", .list [], comparing.body]],
    .list [.atom "class", .atom "sub", .atom "inherits", .atom "main"]]

def kin : Machine := Machine.start ⟨[elder, younger], []⟩ (.buffer "") (.queue []) none

def met : Machine :=
  ((after (Eval.create elder) kin).enterCall ⟨1, elder, []⟩ comparing []).enterLet
    ⟨.locals, [("x", ⟨.ofClass "main", .object ⟨1, elder, []⟩⟩),
      ("y", ⟨.ofClass "sub", .null (some (.ofClass "sub"))⟩)]⟩

theorem underway_met : Underway kin met := by
  have hmain : Awaits ⟨8, .call ⟨1, elder, []⟩ "main" [], after (Eval.create elder) kin⟩
      ⟨8, .exec comparing.body,
        (after (Eval.create elder) kin).enterCall ⟨1, elder, []⟩ comparing []⟩ := .body rfl rfl rfl
  have hform : Statement.ofForm comparing.body =
      .bind [.list [.atom "main", .atom "x", .atom "me"], .list [.atom "sub", .atom "y"]]
        ([] ++ .list [.atom "print", Operator.eq.form (.atom "x") (.atom "y")] :: []) := rfl
  have hlet : Awaits ⟨8, .exec comparing.body,
        (after (Eval.create elder) kin).enterCall ⟨1, elder, []⟩ comparing []⟩
      ⟨7, .exec (.list [.atom "print", Operator.eq.form (.atom "x") (.atom "y")]), met⟩ :=
    .inLet hform rfl rfl
  exact .started ⟨elder, _, kin, _, rfl, rfl, rfl⟩
    ((Relation.ReflTransGen.single (.awaits hmain)).tail (.awaits hlet))

theorem above_younger : met.registry.Above "main" "sub" 1 :=
  .of_parent (c := younger) rfl rfl (by decide)

end Sample

/-- The program of the sample ends with a type error, for its object is no instance of the type of the
null. -/
theorem object_and_null_are_not_compared :
    ∃ x y, Registry.load Sample.kinForms = .ok Sample.kin.registry ∧
      Underway Sample.kin Sample.met ∧ Sample.met.Finds "x" x ∧ Sample.met.Finds "y" y ∧
      x.declared = .ofClass "main" ∧ y.declared = .ofClass "sub" ∧
      Sample.met.registry.Above "main" "sub" 1 ∧
      eval 2 (Operator.eq.form (.atom "x") (.atom "y")) Sample.met =
        .error (.failed (.operandMismatch .eq (.ofClass "main") (.ofClass "sub"))) Sample.met ∧
      ∃ s, Eval.run 9 Sample.kin =
        .error (.failed (.operandMismatch .eq (.ofClass "main") (.ofClass "sub"))) s := by
  exact ⟨_, _, rfl, Sample.underway_met, ⟨rfl, nofun, rfl⟩, ⟨rfl, nofun, rfl⟩, rfl, rfl,
    Sample.above_younger, rfl, _, rfl⟩

/-- In the sample, the object is compared with itself, and not with the null. -/
theorem sample_object_is_compared :
    Registry.load Sample.kinForms = .ok Sample.kin.registry ∧
      Reachable Sample.kin Sample.met ∧
      ∃ x y, Sample.met.Finds "x" x ∧ Sample.met.Finds "y" y ∧ x.Mismatches y ∧
        (∃ answer, eval 2 (Operator.ne.form (.atom "x") (.atom "x")) Sample.met =
          .ok (.temporary (.bool answer)) Sample.met) ∧
        eval 2 (Operator.ne.form (.atom "y") (.atom "x")) Sample.met =
          .error (.failed (.operandMismatch .ne (.ofClass "sub") (.ofClass "main"))) Sample.met := by
  have hload : Registry.load Sample.kinForms = .ok Sample.kin.registry := rfl
  have hx : Sample.met.Finds "x" ⟨.ofClass "main", .object ⟨1, Sample.elder, []⟩⟩ :=
    ⟨rfl, nofun, rfl⟩
  have hy : Sample.met.Finds "y" ⟨.ofClass "sub", .null (some (.ofClass "sub"))⟩ :=
    ⟨rfl, nofun, rfl⟩
  obtain ⟨hcompared, hself⟩ :=
    related_variables_are_compared hload Sample.underway_met.reachable
  have hmismatch : Variable.Mismatches ⟨.ofClass "main", .object ⟨1, Sample.elder, []⟩⟩
      ⟨.ofClass "sub", .null (some (.ofClass "sub"))⟩ := ⟨_, _, rfl, rfl, rfl⟩
  obtain ⟨-, hrefused⟩ := hcompared _ _ _ _ hx hy _ _ rfl rfl 1 Sample.above_younger .ne rfl 0
  obtain ⟨hanswered, -⟩ := hcompared _ _ _ _ hx hx _ _ rfl rfl 0
    (hself Sample.underway_met _ _ _ hx rfl) .ne rfl 0
  obtain ⟨answer, hanswer, -⟩ := hanswered (by rintro ⟨w, tag, -, hnull, -⟩; cases hnull)
  exact ⟨hload, Sample.underway_met.reachable, _, _, hx, hy, hmismatch, ⟨answer, hanswer⟩,
    (hrefused hmismatch).2⟩

end ObjectLang
