import ObjectLang.Proofs.Origin
import ObjectLang.Proofs.Part
import ObjectLang.Proofs.Watch

/-!
The limit on nested calls. A run with the limit does what the run without it does, up to the first
call that finds the limit reached. That call ends the run with an error, which nothing handles. So a
task is cut if and only if one of the calls that are part of it without the limit goes beyond it.
-/

namespace ObjectLang

variable {α : Type}

/- One level of the evaluator is watched if the code inside it is. -/

def Eval.invoke (exec : Form → Eval Completion) (view : View) (method : Method) (vs : List Value) :
    Eval Value := do
  let bindings ← ofExcept (bindArguments method.params vs)
  let frame ← alloc ⟨.arguments, bindings⟩
  let done ← inCall view method frame (exec method.body)
  ofExcept ((← get).registry.returnValue method done)

section Levels

variable {limit n : Nat} {m : Machine}
  (heval : ∀ f m, m.limit = none → Watched limit m (· = ⟨n, .eval f, m⟩) (eval n f))
  (hexec : ∀ f m, m.limit = none → Watched limit m (· = ⟨n, .exec f, m⟩) (exec n f))
  (hcall : ∀ receiver name vs m, m.limit = none →
    Watched limit m (· = ⟨n, .call receiver name vs, m⟩)
      (Eval.callMethod (exec n) receiver name vs))

namespace Watched

include hexec in
theorem invoke (view : View) (method : Method) (vs : List Value) (hm : m.limit = none) :
    Watched limit m
      (fun u => ∃ bindings, bindArguments method.params vs = .ok bindings ∧
        u = ⟨n, .exec method.body, m.enterCall view method bindings⟩)
      (Eval.invoke (exec n) view method vs) := by
  refine ofExcept_bind (shallow_bindArguments _ _) (fun bindings hb => ?_) ?_ hm
  · refine ((operates.alloc _ m hm).first
      (fun _ _ u => u = ⟨n, .exec method.body, m.enterCall view method bindings⟩)
      fun frame s hs hlimit => ?_).iff ?_
    · cases hs
      refine last (bracket (hexec method.body _ hlimit)) fun done t _ ht => ?_
      exact get_bind (ofExcept (Registry.shallow_returnValue _ _ _) ht) rfl
    · intro u
      constructor
      · rintro ⟨bindings', hb', rfl⟩
        rw [hb] at hb'
        cases hb'
        exact ⟨_, _, rfl, rfl⟩
      · rintro ⟨_, _, _, rfl⟩
        exact ⟨bindings, hb, rfl⟩
  · rintro u ⟨bindings, hb, -⟩
    exact ⟨bindings, hb⟩

include heval in
theorem arguments (fs : List Form) (hm : m.limit = none) :
    Watched limit m (Operands n m fs) (Eval.arguments (eval n) fs) := by
  induction fs generalizing m with
  | nil =>
    exact of_calm (pure _ hm) (by simp [Operands])
  | cons f fs ih =>
    refine ((heval f m hm).bind
      (fun a s u => a.value.isException = false ∧ Operands n s fs u)
      fun a s _ hs => ?_).iff fun u => operands_cons
    split
    · rename_i hv
      exact of_calm (pure _ hs) (by simp [hv, Value.isException])
    · rename_i hv
      refine ((ih hs).last fun r t _ ht => pure _ ht).iff fun u => ?_
      simp [Value.isException_eq_false.mpr hv]

include heval hcall in
theorem callWith (receiver : View) (name : String) (args : List Form) (hm : m.limit = none) :
    Watched limit m
      (fun u => Operands n m args u ∨ ∃ vs s, Eval.arguments (eval n) args m = .ok (some vs) s ∧
        u = ⟨n, .call receiver name vs, s⟩)
      (Eval.callWith (eval n) (exec n) receiver name args) := by
  refine ((arguments heval args hm).bind
    (fun r s u => ∃ vs, r = some vs ∧ u = ⟨n, .call receiver name vs, s⟩)
    fun r s _ hs => ?_).iff ?_
  · cases r with
    | none => exact of_calm (pure _ hs) (by simp)
    | some vs => exact (hcall receiver name vs s hs).iff fun u => by simp
  · intro u
    refine or_congr_right ?_
    constructor
    · rintro ⟨vs, s, hvs, rfl⟩
      exact ⟨some vs, s, hvs, vs, rfl, rfl⟩
    · rintro ⟨_, s, hvs, vs, rfl, rfl⟩
      exact ⟨vs, s, hvs, rfl⟩

include heval hcall in
theorem call (target : Target) (method : String) (args : List Form) (hm : m.limit = none) :
    Watched limit m (fun u => Expression.Parts n m u (.call target method args))
      (Eval.call (eval n) (exec n) target method args) := by
  cases target with
  | super =>
    refine ((operates.superView m hm).first _ fun v s _ hs =>
      callWith heval hcall v method args hs).iff ?_
    intro u
    simp [Expression.Parts, Target.Gives]
  | value f =>
    refine ((heval f m hm).bind
      (fun a s u => ∃ v, a.value = .object v ∧ (Operands n s args u ∨
        ∃ vs t, Eval.arguments (eval n) args s = .ok (some vs) t ∧ u = ⟨n, .call v method vs, t⟩))
      fun a s _ hs => ?_).iff ?_
    · split
      · rename_i v hv
        exact (callWith heval hcall v method args hs).iff fun u => by simp [hv]
      · rename_i hv
        exact of_calm (pure _ hs) (by simp [hv])
      · rename_i hv
        exact of_calm (fail (by simp)) (by simp [hv])
      · rename_i hv
        exact of_calm (fail (by simp)) (by simp [hv])
      · rename_i hv _ _ _
        refine of_calm (fail (by simp)) ?_
        rintro u ⟨v, hobject, -⟩
        exact hv v hobject
    · intro u
      constructor
      · rintro (⟨g, hg, rfl⟩ | ⟨v, m₁, ⟨a, ha, hv⟩, h⟩)
        · cases hg
          exact .inl rfl
        · exact .inr ⟨a, m₁, ha, v, hv, h⟩
      · rintro (rfl | ⟨a, m₁, ha, v, hv, h⟩)
        · exact .inl ⟨f, rfl, rfl⟩
        · exact .inr ⟨v, m₁, ⟨a, ha, hv⟩, h⟩

include heval in
theorem binary (op : Operator) (left right : Form) (hm : m.limit = none) :
    Watched limit m (fun u => Expression.Parts n m u (.binary op left right))
      (Eval.binary (eval n) op left right) := by
  refine ((heval left m hm).bind
    (fun a s u => a.value.isException = false ∧ u = ⟨n, .eval right, s⟩)
    fun a s _ hs => ?_).iff fun u => Iff.rfl
  split
  · rename_i hv
    exact of_calm (pure _ hs) (by simp [hv])
  · rename_i hv
    refine ((heval right s hs).last fun b t _ ht => ?_).iff fun u => by simp [hv]
    split
    · exact pure _ ht
    · exact get_bind (ofExcept (Registry.shallow_operate _ _ _ _) ht) rfl

include heval in
theorem negation (operand : Form) (hm : m.limit = none) :
    Watched limit m (· = ⟨n, .eval operand, m⟩) (Eval.negation (eval n) operand) := by
  refine (heval operand m hm).last fun a s _ hs => ?_
  simp only
  split
  · exact pure _ hs
  · exact ofExcept (Operator.shallow_negate _) hs

include heval hcall in
theorem expression {e : Expression} (he : ∀ k, e ≠ .invalid (.callDepthExceeded k))
    (hm : m.limit = none) :
    Watched limit m (fun u => e.Parts n m u) (Eval.expression (eval n) (exec n) e) := by
  cases e with
  | literal l => exact pure _ hm
  | self => exact (operates.self m hm).last fun _ _ _ hs => pure _ hs
  | name token => exact (operates.lookup token m hm).last fun _ _ _ hs => pure _ hs
  | call target method args =>
    exact (call heval hcall target method args hm).last fun _ _ _ hs => pure _ hs
  | create cls => exact (operates.newObject cls m hm).last fun _ _ _ hs => pure _ hs
  | negation operand => exact (negation heval operand hm).last fun _ _ _ hs => pure _ hs
  | binary op left right =>
    exact (binary heval op left right hm).last fun _ _ _ hs => pure _ hs
  | invalid e =>
    refine fail ?_
    rintro k rfl
    exact he k rfl

include heval in
/-- The marker ends the statement, and any other value is handed on. -/
theorem withValue (f : Form) {k : Value → Eval Completion} (next : Value → Machine → Task → Prop)
    (hm : m.limit = none)
    (hk : ∀ v s, v.isException = false → s.limit = none → Watched limit s (next v s) (k v)) :
    Watched limit m
      (fun u => u = ⟨n, .eval f, m⟩ ∨
        ∃ a s, eval n f m = .ok a s ∧ a.value.isException = false ∧ next a.value s u)
      (Eval.withValue (eval n) f k) := by
  refine (heval f m hm).bind
    (fun a s u => a.value.isException = false ∧ next a.value s u) fun a s _ hs => ?_
  split
  · rename_i hv
    exact of_calm (pure _ hs) (by simp [hv, Value.isException])
  · rename_i hv
    have hx := Value.isException_eq_false.mpr hv
    exact (hk _ s hx hs).iff fun u => by simp [hx]

include heval in
theorem withValue_calm (f : Form) {k : Value → Eval Completion} (hm : m.limit = none)
    (hk : ∀ v s, s.limit = none → Calm limit s (k v)) :
    Watched limit m (· = ⟨n, .eval f, m⟩) (Eval.withValue (eval n) f k) :=
  (withValue heval f _ hm fun v s _ hs => hk v s hs).iff (by simp)

include hexec in
theorem block (fs : List Form) (hm : m.limit = none) :
    Watched limit m (Sequence n m fs) (Eval.block (exec n) fs) := by
  induction fs generalizing m with
  | nil => exact of_calm (pure _ hm) (by simp [Sequence])
  | cons f fs ih =>
    refine ((hexec f m hm).bind (fun done s u => done = .normal ∧ Sequence n s fs u)
      fun done s _ hs => ?_).iff ?_
    · cases done with
      | normal => exact (ih hs).iff (by simp)
      | returned v => exact of_calm (pure _ hs) (by simp)
      | raised => exact of_calm (pure _ hs) (by simp)
    · intro u
      refine sequence_cons.trans (or_congr_right ?_)
      constructor
      · rintro ⟨s, hs, hu⟩
        exact ⟨_, s, hs, rfl, hu⟩
      · rintro ⟨_, s, hs, rfl, hu⟩
        exact ⟨s, hs, hu⟩

include heval in
theorem printLine (line : String) (fs : List Form) (hm : m.limit = none) :
    Watched limit m (Printed n m fs) (Eval.printLine (eval n) line fs) := by
  induction fs generalizing m line with
  | nil =>
    exact of_calm ((operates.println line m hm).last fun _ _ _ hs => pure _ hs) (by simp [Printed])
  | cons f fs ih =>
    refine (withValue heval f
      (fun v s u => (∃ text, Eval.printed v = .ok text) ∧ Printed n s fs u) hm
      fun v s _ hs => ?_).iff fun u => printed_cons
    refine ofExcept_bind (Eval.shallow_printed v) (fun text htext => ?_) ?_ hs
    · exact (ih _ hs).iff fun u => by simp [htext]
    · rintro u ⟨htext, -⟩
      exact htext

include heval in
theorem condition (form : Conditional) (f : Form) (hm : m.limit = none) :
    Watched limit m (· = ⟨n, .eval f, m⟩) (Eval.condition (eval n) form f) := by
  refine (heval f m hm).last fun a s _ hs => ?_
  split
  · exact pure _ hs
  · exact pure _ hs
  · exact fail nofun

include heval hexec in
theorem branch (test consequent : Form) (alternative : Option Form) (hm : m.limit = none) :
    Watched limit m (fun u => Statement.Parts n m u (.branch test consequent alternative))
      (Eval.branch (eval n) (exec n) test consequent alternative) := by
  refine ((condition heval .branch test hm).bind
    (fun b s u => (b = some true ∧ u = ⟨n, .exec consequent, s⟩) ∨
      ∃ g, b = some false ∧ alternative = some g ∧ u = ⟨n, .exec g, s⟩)
    fun b s _ hs => ?_).iff ?_
  · split
    · exact of_calm (pure _ hs) (by simp)
    · exact (hexec consequent s hs).iff (by simp)
    · split
      · exact (hexec _ s hs).iff (by simp)
      · exact of_calm (pure _ hs) (by simp)
  · intro u
    refine or_congr_right ?_
    constructor
    · rintro (⟨s, hc, rfl⟩ | ⟨s, g, hc, rfl, rfl⟩)
      · exact ⟨_, s, hc, .inl ⟨rfl, rfl⟩⟩
      · exact ⟨_, s, hc, .inr ⟨g, rfl, rfl, rfl⟩⟩
    · rintro ⟨_, s, hc, ⟨rfl, rfl⟩ | ⟨g, rfl, rfl, rfl⟩⟩
      · exact .inl ⟨s, hc, rfl⟩
      · exact .inr ⟨s, g, hc, rfl, rfl⟩

include heval hexec in
theorem loop (test body : Form) (rounds : Nat) (hm : m.limit = none) :
    Watched limit m (Turns n test body rounds m)
      (Eval.loop (eval n) (exec n) test body rounds) := by
  induction rounds generalizing m with
  | zero => exact of_calm (throw nofun) (by simp [Turns])
  | succ rounds ih =>
    refine ((condition heval .loop test hm).bind
      (fun b s u => b = some true ∧ (u = ⟨n, .exec body, s⟩ ∨
        ∃ t, exec n body s = .ok .normal t ∧ Turns n test body rounds t u))
      fun b s _ hs => ?_).iff ?_
    · split
      · exact of_calm (pure _ hs) (by simp)
      · exact of_calm (pure _ hs) (by simp)
      · refine ((hexec body s hs).bind
          (fun done t u => done = .normal ∧ Turns n test body rounds t u)
          fun done t _ ht => ?_).iff ?_
        · cases done with
          | normal => exact (ih ht).iff (by simp)
          | returned v => exact of_calm (pure _ ht) (by simp)
          | raised => exact of_calm (pure _ ht) (by simp)
        · intro u
          constructor
          · rintro ⟨-, rfl | ⟨t, ht, hu⟩⟩
            · exact .inl rfl
            · exact .inr ⟨_, t, ht, rfl, hu⟩
          · rintro (rfl | ⟨_, t, ht, rfl, hu⟩)
            · exact ⟨rfl, .inl rfl⟩
            · exact ⟨rfl, .inr ⟨t, ht, hu⟩⟩
    · intro u
      refine turns_succ.trans (or_congr_right ?_)
      constructor
      · rintro ⟨s, hc, hu⟩
        exact ⟨_, s, hc, rfl, hu⟩
      · rintro ⟨_, s, hc, rfl, hu⟩
        exact ⟨s, hc, hu⟩

include heval in
theorem initial (l : Local) (hm : m.limit = none) :
    Watched limit m (Initializer n m l) (Eval.initial (eval n) l) := by
  refine (first (operates.resolveType l.type m hm)
    (fun _ s u => ∃ g, l.init = some g ∧ u = ⟨n, .eval g, s⟩) fun _ s _ hs => ?_).iff ?_
  · cases hi : l.init with
    | none => exact of_calm (pure _ hs) (by simp)
    | some g =>
      refine ((heval g s hs).last fun a t _ ht => ?_).iff (by simp)
      split
      · exact pure _ ht
      · exact (ofExcept (Variable.shallow_create _ _) ht).last fun _ _ _ h => pure _ h
  · intro u
    constructor
    · rintro ⟨g, s, hi, hs, rfl⟩
      exact ⟨(), s, hs, g, hi, rfl⟩
    · rintro ⟨_, s, hs, g, hi, rfl⟩
      exact ⟨g, s, hi, hs, rfl⟩

include heval in
theorem locals (frame : Frame) (ds : List Form) (hm : m.limit = none) :
    Watched limit m (Initializers n m frame ds) (Eval.locals (eval n) frame ds) := by
  induction ds generalizing m frame with
  | nil => exact of_calm (pure _ hm) (by simp [Initializers])
  | cons d ds ih =>
    refine ofExcept_bind (Local.shallow_ofForm d) (fun l hl => ?_)
      (fun _ => exists_ofForm_of_initializers) hm
    refine ((initial heval l hm).bind
      (fun r s u => ∃ x frame', r = some x ∧ frame.define? l.name x = some frame' ∧
        Initializers n s frame' ds u) fun r s _ hs => ?_).iff ?_
    · cases r with
      | none => exact of_calm (pure _ hs) (by simp)
      | some x =>
        simp only
        split
        · rename_i frame' hdefine
          exact (ih frame' hs).iff (by simp [hdefine])
        · rename_i hdefine
          exact of_calm (fail nofun) (by simp [hdefine])
    · intro u
      refine (initializers_cons hl).trans (or_congr_right ?_)
      constructor
      · rintro ⟨x, s, frame', hx, hdefine, hu⟩
        exact ⟨_, s, hx, x, frame', rfl, hdefine, hu⟩
      · rintro ⟨_, s, hx, x, frame', rfl, hdefine, hu⟩
        exact ⟨x, s, frame', hx, hdefine, hu⟩

include heval hexec in
theorem letBlock (decls body : List Form) (hm : m.limit = none) :
    Watched limit m (fun u => Statement.Parts n m u (.bind decls body))
      (Eval.letBlock (eval n) (exec n) decls body) := by
  refine ((locals heval (.empty .locals) decls hm).bind
    (fun r s u => ∃ frame, r = some frame ∧ Sequence n (s.enterLet frame) body u)
    fun r s _ hs => ?_).iff ?_
  · cases r with
    | none => exact of_calm (pure _ hs) (by simp)
    | some frame =>
      refine (first (operates.alloc frame s hs)
        (fun _ _ u => Sequence n (s.enterLet frame) body u) fun i t ht hlimit => ?_).iff ?_
      · cases ht
        exact bracket (block hexec body hlimit)
      · intro u
        constructor
        · rintro ⟨frame', heq, hu⟩
          cases heq
          exact ⟨_, _, rfl, hu⟩
        · rintro ⟨_, _, _, hu⟩
          exact ⟨frame, rfl, hu⟩
  · intro u
    refine or_congr_right ?_
    constructor
    · rintro ⟨frame, s, hframe, hu⟩
      exact ⟨_, s, hframe, frame, rfl, hu⟩
    · rintro ⟨_, s, hframe, frame, rfl, hu⟩
      exact ⟨frame, s, hframe, hu⟩

include heval in
theorem result (value : Option Form) (hm : m.limit = none) :
    Watched limit m (fun u => Statement.Parts n m u (.result value))
      (Eval.result (eval n) value) := by
  refine (first (operates.activation .resultOutside m hm)
    (fun _ s u => ∃ g, value = some g ∧ u = ⟨n, .eval g, s⟩) fun a s _ hs => ?_).iff ?_
  · cases value with
    | none => exact of_calm (pure _ hs) (by simp)
    | some f =>
      exact (withValue_calm heval f hs fun _ _ ht => pure _ ht).iff (by simp)
  · intro u
    constructor
    · rintro ⟨g, a, rfl, ha, rfl⟩
      exact ⟨a, m, Eval.activation_eq_ok.mpr ⟨ha, rfl⟩, g, rfl, rfl⟩
    · rintro ⟨a, s, hs, g, rfl, rfl⟩
      obtain ⟨ha, rfl⟩ := Eval.activation_eq_ok.mp hs
      exact ⟨g, a, rfl, ha, rfl⟩

include hexec in
theorem attempt (body handler : Form) (hm : m.limit = none) :
    Watched limit m (fun u => Statement.Parts n m u (.attempt body handler))
      (Eval.attempt (exec n) body handler) := by
  have hguarded : ∀ s, s.limit = none → Watched limit s
      (fun u => u = ⟨n, .exec body, s⟩ ∨
        ∃ t, exec n body s = .ok .raised t ∧ u = ⟨n, .exec handler, t.enterHandler⟩)
      (Eval.guarded (exec n) body handler) := by
    intro s hs
    refine ((hexec body s hs).bind
      (fun done t u => done = .raised ∧ u = ⟨n, .exec handler, t.enterHandler⟩)
      fun done t _ ht => ?_).iff ?_
    · cases done with
      | raised => exact (bracket (hexec handler _ ht)).iff (by simp [Machine.enterHandler])
      | normal => exact of_calm (pure _ ht) (by simp)
      | returned v => exact of_calm (pure _ ht) (by simp)
    · intro u
      refine or_congr_right ?_
      constructor
      · rintro ⟨t, ht, rfl⟩
        exact ⟨_, t, ht, rfl, rfl⟩
      · rintro ⟨_, t, ht, rfl, rfl⟩
        exact ⟨t, ht, rfl⟩
  refine (first (operates.alloc .forException m hm)
    (fun _ _ u => Statement.Parts n m u (.attempt body handler))
    fun i s hs hlimit => ?_).iff ?_
  · cases hs
    refine last (bracket (hguarded _ hlimit)) fun done t _ ht => ?_
    split
    · exact (operates.messageIn _ t ht).last fun v s _ hs =>
        (operates.raise v s hs).last fun _ _ _ h => pure _ h
    · exact pure _ ht
  · intro u
    constructor
    · intro hu
      exact ⟨_, _, rfl, hu⟩
    · rintro ⟨_, _, _, hu⟩
      exact hu

include heval hexec in
theorem statement {e : Statement} (he : ∀ k, e ≠ .invalid (.callDepthExceeded k))
    (hm : m.limit = none) :
    Watched limit m (fun u => e.Parts n m u) (Eval.statement n (eval n) (exec n) e) := by
  cases e with
  | print operands => exact printLine heval "" operands hm
  | assign name value =>
    refine (first (operates.checkVisible name m hm) (fun _ s u => u = ⟨n, .eval value, s⟩)
      fun _ s _ hs => ?_).iff ?_
    · exact withValue_calm heval value hs fun v t ht =>
        (operates.assign name v t ht).last fun _ _ _ h => pure _ h
    · intro u
      constructor
      · rintro ⟨hv, rfl⟩
        exact ⟨(), m, hv, rfl⟩
      · rintro ⟨_, s, hv, rfl⟩
        obtain ⟨-, -, rfl⟩ := Eval.checkVisible_eq_ok.mp hv
        exact ⟨hv, rfl⟩
  | block body => exact block hexec body hm
  | branch test consequent alternative =>
    exact branch heval hexec test consequent alternative hm
  | loop test body => exact loop heval hexec test body n hm
  | bind decls body => exact letBlock heval hexec decls body hm
  | input kind name => exact operates.input kind name m hm
  | result value => exact result heval value hm
  | attempt body handler => exact attempt hexec body handler hm
  | throw message =>
    exact withValue_calm heval message hm fun v s hs =>
      (operates.raise v s hs).last fun _ _ _ ht => pure _ ht
  | expression f => exact withValue_calm heval f hm fun _ _ hs => pure _ hs
  | invalid e =>
    refine fail ?_
    rintro k rfl
    exact he k rfl

end Watched

end Levels

/- Tasks under the limit. -/

/-- A call that finds a method, with as many calls under way as the limit allows. -/
def Task.Over (limit : Nat) (t : Task) : Prop :=
  match t.work with
  | .call receiver name vs =>
    (t.machine.registry.selectMethod? receiver name (vs.map Value.runtimeType)).isSome ∧
      limit ≤ t.machine.control.depth
  | .eval _ | .exec _ => False

namespace Watched

variable {limit n : Nat} {m : Machine} {parts : Task → Prop} {x y : Eval α} {t : Task}

theorem congr (h : Watched limit m parts y) (hm : x m = y m)
    (hunder : x (m.under (some limit)) = y (m.under (some limit))) :
    Watched limit m parts x := by
  refine ⟨?_, ?_, ?_, ?_⟩
  · rw [hunder]
    exact h.cut
  · rw [hunder, hm]
    exact h.kept
  · rw [hm]
    exact h.shallow
  · rw [hm]
    exact h.unlimited

theorem cut_iff (h : Watched limit m parts x) :
    Ending.Cut limit (x (m.under (some limit))) ↔ ∃ u, parts u ∧ u.Cut limit := by
  constructor
  · rintro ⟨s, hs⟩
    refine Classical.byContradiction fun hnone => ?_
    have hkept := h.kept fun u hu hcut => hnone ⟨u, hu, hcut⟩
    cases hres : x m with
    | ok a s' =>
      rw [hs, hres] at hkept
      cases hkept
    | error e s' =>
      rw [hs, hres] at hkept
      cases hkept
      exact h.shallow _ s' hres
  · rintro ⟨u, hu, hcut⟩
    exact h.cut u hu hcut

/-- A task is watched as a whole if its parts are. -/
theorem whole (h : Watched limit m parts x)
    (ht : t.Cut limit ↔ Ending.Cut limit (x (m.under (some limit)))) :
    Watched limit m (· = t) x := by
  refine ⟨?_, ?_, h.shallow, h.unlimited⟩
  · rintro u rfl hcut
    exact ht.mp hcut
  · intro hcut
    refine h.kept fun u hu hpart => hcut t rfl (ht.mpr (h.cut u hu hpart))

end Watched

theorem Machine.atLimit?_of_unlimited {m : Machine} (h : m.limit = none) : m.atLimit? = none := by
  simp [atLimit?, h]

theorem Machine.atLimit?_under (m : Machine) (limit : Nat) :
    (m.under (some limit)).atLimit? = if limit ≤ m.control.depth then some limit else none := by
  by_cases h : limit ≤ m.control.depth
  · simp [atLimit?, under, Option.filter, h]
  · simp [atLimit?, under, Option.filter, h]

namespace Eval

variable {exec : Form → Eval Completion} {receiver view : View} {name : String} {vs : List Value}
  {method : Method} {m : Machine}

theorem callMethod_of_none
    (h : m.registry.selectMethod? receiver name (vs.map Value.runtimeType) = none) :
    callMethod exec receiver name vs m =
      .error (.failed (.noMatchingMethod name receiver.cls.name (vs.map Value.runtimeType))) m := by
  refine (bind_ok (x := get) rfl _).trans ?_
  rw [h]
  rfl

theorem callMethod_of_some
    (h : m.registry.selectMethod? receiver name (vs.map Value.runtimeType) = some (view, method)) :
    callMethod exec receiver name vs m =
      (checkDepth >>= fun _ => invoke exec view method vs) m := by
  refine (bind_ok (x := get) rfl _).trans ?_
  rw [h]
  rfl

theorem callMethod_eq_invoke
    (h : m.registry.selectMethod? receiver name (vs.map Value.runtimeType) = some (view, method))
    (hl : m.atLimit? = none) :
    callMethod exec receiver name vs m = invoke exec view method vs m :=
  (callMethod_of_some h).trans (bind_ok (checkDepth_eq_ok.mpr ⟨hl, rfl⟩) _)

theorem callMethod_at_limit {limit : Nat}
    (h : m.registry.selectMethod? receiver name (vs.map Value.runtimeType) = some (view, method))
    (hl : m.atLimit? = some limit) :
    callMethod exec receiver name vs m = .error (.failed (.callDepthExceeded limit)) m := by
  refine (callMethod_of_some h).trans (bind_error ?_ _)
  refine (bind_ok (x := get) rfl _).trans ?_
  rw [hl]
  rfl

end Eval

section Tasks

variable {limit n : Nat} {m : Machine}

/-- A call is cut if it is over the limit itself, or else if the body of its method is. -/
theorem watched_call
    (hexec : ∀ f m, m.limit = none → Watched limit m (· = ⟨n, .exec f, m⟩) (exec n f))
    (receiver : View) (name : String) (vs : List Value) (hm : m.limit = none) :
    Watched limit m (· = ⟨n, .call receiver name vs, m⟩)
        (Eval.callMethod (exec n) receiver name vs) ∧
      (Task.Cut limit ⟨n, .call receiver name vs, m⟩ ↔
        Task.Over limit ⟨n, .call receiver name vs, m⟩ ∨
          ∃ u, Starts ⟨n, .call receiver name vs, m⟩ u ∧ u.Cut limit) := by
  have hlimit := Machine.atLimit?_of_unlimited hm
  cases hs : m.registry.selectMethod? receiver name (vs.map Value.runtimeType) with
  | none =>
    have hcalm : Calm limit m (Eval.callMethod (exec n) receiver name vs) :=
      Watched.congr (Watched.fail (by simp)) (Eval.callMethod_of_none hs)
        (Eval.callMethod_of_none hs)
    refine ⟨hcalm.whole Iff.rfl, hcalm.cut_iff.trans ?_⟩
    simp [Task.Over, starts_call, hs]
  | some chosen =>
    obtain ⟨view, method⟩ := chosen
    have hinvoke := Watched.invoke hexec view method vs hm
    have hplain : Eval.callMethod (exec n) receiver name vs m =
        Eval.invoke (exec n) view method vs m :=
      Eval.callMethod_eq_invoke hs hlimit
    have hstarts : ∀ u, Starts ⟨n, .call receiver name vs, m⟩ u ↔
        ∃ bindings, bindArguments method.params vs = .ok bindings ∧
          u = ⟨n, .exec method.body, m.enterCall view method bindings⟩ := by
      intro u
      simp [starts_call, hs, hlimit]
    have hunder := m.atLimit?_under limit
    by_cases hover : limit ≤ m.control.depth
    · rw [if_pos hover] at hunder
      have hcut : Task.Cut limit ⟨n, .call receiver name vs, m⟩ :=
        ⟨_, Eval.callMethod_at_limit hs hunder⟩
      refine ⟨⟨?_, ?_, ?_, ?_⟩, ?_⟩
      · rintro u rfl hu
        exact hu
      · intro hnone
        exact absurd hcut (hnone _ rfl)
      · rw [hplain]
        exact hinvoke.shallow
      · rw [hplain]
        exact hinvoke.unlimited
      · simp only [hcut, true_iff]
        exact .inl ⟨by simp [hs], hover⟩
    · rw [if_neg hover] at hunder
      have hcall : Watched limit m (Starts ⟨n, .call receiver name vs, m⟩)
          (Eval.callMethod (exec n) receiver name vs) :=
        (hinvoke.congr hplain (Eval.callMethod_eq_invoke hs hunder)).iff hstarts
      refine ⟨hcall.whole Iff.rfl, hcall.cut_iff.trans ?_⟩
      simp [Task.Over, hover]

/-- Induction on the fuel, as for the control. -/
theorem watched_evaluator (limit n : Nat) :
    (∀ f m, m.limit = none → Watched limit m (Starts ⟨n, .eval f, m⟩) (eval n f)) ∧
      ∀ f m, m.limit = none → Watched limit m (Starts ⟨n, .exec f, m⟩) (exec n f) := by
  induction n with
  | zero =>
    refine ⟨fun f m _ => .of_calm (.throw nofun) ?_, fun f m _ => .of_calm (.throw nofun) ?_⟩
    · rintro u (h | h | h) <;> cases h
    · rintro u (h | h | h) <;> cases h
  | succ n ih =>
    have heval : ∀ f m, m.limit = none → Watched limit m (· = ⟨n, .eval f, m⟩) (eval n f) :=
      fun f m hm => (ih.1 f m hm).whole Iff.rfl
    have hexec : ∀ f m, m.limit = none → Watched limit m (· = ⟨n, .exec f, m⟩) (exec n f) :=
      fun f m hm => (ih.2 f m hm).whole Iff.rfl
    refine ⟨fun f m hm => ?_, fun f m hm => ?_⟩
    · refine (Watched.expression heval ?_ (Expression.ofForm_ne_invalid f) hm).iff
        fun u => starts_eval
      exact fun receiver name vs m hm => (watched_call hexec receiver name vs hm).1
    · exact (Watched.statement heval hexec (Statement.ofForm_ne_invalid f) hm).iff
        fun u => starts_exec

theorem watched_eval (limit : Nat) (f : Form) (hm : m.limit = none) :
    Watched limit m (Starts ⟨n, .eval f, m⟩) (eval n f) :=
  (watched_evaluator limit n).1 f m hm

theorem watched_exec (limit : Nat) (f : Form) (hm : m.limit = none) :
    Watched limit m (Starts ⟨n, .exec f, m⟩) (exec n f) :=
  (watched_evaluator limit n).2 f m hm

theorem watched_callMethod (limit : Nat) (receiver : View) (name : String) (vs : List Value)
    (hm : m.limit = none) :
    Watched limit m (· = ⟨n, .call receiver name vs, m⟩)
      (Eval.callMethod (exec n) receiver name vs) :=
  (watched_call (fun f _ h => (watched_exec limit f h).whole Iff.rfl) receiver name vs hm).1

/-- A task is cut if it is over the limit, or if a task that it starts is cut. -/
theorem Task.cut_iff {t : Task} (limit : Nat) (h : t.machine.limit = none) :
    t.Cut limit ↔ t.Over limit ∨ ∃ u, Starts t u ∧ u.Cut limit := by
  obtain ⟨n, work, m⟩ := t
  cases work with
  | eval f =>
    refine (watched_eval limit f h).cut_iff.trans ?_
    simp [Task.Over]
  | exec f =>
    refine (watched_exec limit f h).cut_iff.trans ?_
    simp [Task.Over]
  | call receiver name vs =>
    exact (watched_call (fun f _ h => (watched_exec limit f h).whole Iff.rfl) receiver name vs h).2

end Tasks

theorem Task.exists_ready (t : Task) (k : List Control) : ∃ hand, t.Ready k hand := by
  obtain ⟨n, work, m⟩ := t
  cases work with
  | eval f => exact ⟨[], trivial⟩
  | exec f => exact ⟨[], trivial⟩
  | call receiver name vs =>
    exact ⟨.object receiver :: vs, .inl List.mem_cons_self, List.subset_cons_self _ _⟩

theorem Step.limit {p q : Moment} (h : Step p q) : q.machine.limit = p.machine.limit := by
  cases h <;> rfl

theorem Steps.limit {p q : Moment} (h : Steps p q) : q.machine.limit = p.machine.limit :=
  h.keeps (P := fun q => q.machine.limit = p.machine.limit)
    (fun _ _ hstep heq => hstep.limit.trans heq) rfl

theorem Starts.limit {t u : Task} (h : Starts t u) : u.machine.limit = t.machine.limit := by
  obtain ⟨hand, hready⟩ := t.exists_ready []
  obtain ⟨k', hand', hsteps, -⟩ := h.leads [] hand hready
  exact hsteps.limit

theorem Starts.size_lt {t u : Task} (h : Starts t u) : u.size < t.size := by
  cases h with
  | awaits h => exact h.size_lt
  | guards h =>
    cases h
    simp only [Task.size]
    omega
  | handles h => exact h.size_lt

/-- A task is cut if and only if one of the calls that are part of it without the limit is over
it. -/
theorem Task.cut_iff_reaches {t : Task} (limit : Nat) (h : t.machine.limit = none) :
    t.Cut limit ↔ ∃ u, Reaches t u ∧ u.Over limit := by
  constructor
  · intro hcut
    -- A task that is cut without being over the limit starts a smaller one that is cut.
    induction hn : t.size using Nat.strongRecOn generalizing t with
    | _ n ih =>
      obtain hover | ⟨u, hu, hcut⟩ := (Task.cut_iff limit h).mp hcut
      · exact ⟨t, .refl, hover⟩
      · obtain ⟨v, hv, hover⟩ := ih u.size (hn ▸ hu.size_lt) (hu.limit.trans h) hcut rfl
        exact ⟨v, .head hu hv, hover⟩
  · rintro ⟨u, hreaches, hover⟩
    induction hreaches using Relation.ReflTransGen.head_induction_on with
    | refl => exact (Task.cut_iff limit h).mpr (.inl hover)
    | head hstarts _ ih =>
      exact (Task.cut_iff limit h).mpr (.inr ⟨_, hstarts, ih (hstarts.limit.trans h)⟩)

end ObjectLang
