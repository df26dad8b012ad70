import ObjectLang.Proofs.Reachable
import ObjectLang.Proofs.Transparency

/-!
A run while it goes on: the machines on which its tasks start, and those that they leave when they
end without an error. An error ends the whole run, so none of these machines comes after a class that
could not be resolved. Set beside itself, a run therefore mirrors itself at each of them, and all the
types that its classes, variables and methods name are registered.
-/

namespace ObjectLang

open Movable (moved Fits)
open Pairing (Later)

variable {α : Type} [Movable α] {p : Pairing} {n : Nat} {m s : Machine} {t u : Task}

def Task.Leaves (t : Task) (s : Machine) : Prop :=
  match t.work with
  | .eval f => ∃ a, eval t.fuel f t.machine = .ok a s
  | .exec f => ∃ done, exec t.fuel f t.machine = .ok done s
  | .call receiver name vs => ∃ v, Eval.callMethod (exec t.fuel) receiver name vs t.machine = .ok v s

inductive Underway (start : Machine) : Machine → Prop
  | idle : Underway start start
  | started {fuel : Nat} {launched t : Task} (hl : Launches fuel start launched)
      (h : Reaches launched t) : Underway start t.machine
  | ended {fuel : Nat} {launched t : Task} {s : Machine} (hl : Launches fuel start launched)
      (h : Reaches launched t) (hs : t.Leaves s) : Underway start s

theorem Task.Leaves.eq_final (h : t.Leaves s) : t.final = s := by
  obtain ⟨fuel, work, m⟩ := t
  cases work with
  | eval f =>
    obtain ⟨a, ha⟩ := h
    exact after_of_ok ha
  | exec f =>
    obtain ⟨done, hdone⟩ := h
    exact after_of_ok hdone
  | call receiver name vs =>
    obtain ⟨v, hv⟩ := h
    exact after_of_ok hv

theorem Underway.reachable {start : Machine} (h : Underway start m) : Reachable start m := by
  cases h with
  | idle => exact .idle []
  | started hl h => exact .started ⟨[], _, _, hl, h⟩
  | ended hl h hs =>
    rw [← hs.eq_final]
    exact .ended ⟨[], _, _, hl, h⟩

/- A run beside itself: the counterpart of each place is the place itself. -/

theorem moved_zero_frameId (i : FrameId) : moved 0 i = i := by
  change (if i = 0 then 0 else i) = i
  split
  · exact Eq.symm (by assumption)
  · rfl

theorem moved_zero_value (v : Value) : moved 0 v = v := by
  cases v <;> rfl

theorem moved_zero_frame (f : Frame) : moved 0 f = f := by
  obtain ⟨role, bindings⟩ := f
  have hbindings : bindings.map (moved 0) = bindings := by
    refine (List.map_congr_left fun b _ => ?_).trans (List.map_id bindings)
    obtain ⟨name, x⟩ := b
    exact congrArg (fun v => (name, Variable.mk x.declared v)) (moved_zero_value x.value)
  exact congrArg (Frame.mk role) hbindings

theorem fits_empty (role : FrameRole) (floor : Nat) (r : Registry) :
    Fits floor r (Frame.empty role) :=
  fun _ hb => absurd hb List.not_mem_nil

/-- What ends well leaves the machine as its own counterpart. -/
theorem Agrees.alone {x : Eval α} {a : α} (h : Agrees p m m x x) (hx : x m = .ok a s) :
    p.Mirrors s s ∧ Later m s ∧ Fits p.floor s.registry a := by
  obtain ⟨b, t, t', ht, ht', hm, hl, hb⟩ | ⟨e, t, -, ht, -⟩ := h.cases
  · rw [hx] at ht ht'
    obtain ⟨rfl, rfl⟩ := EStateM.Result.ok.inj ht
    obtain ⟨-, rfl⟩ := EStateM.Result.ok.inj ht'
    exact ⟨hm, hl, hb⟩
  · rw [hx] at ht
    cases ht

namespace Pairing.Mirrors

variable (hp : p.offset = 0) (h : p.Mirrors m m)

include hp h

theorem enterLet {frame : Frame} (hf : Fits p.floor m.registry frame) :
    p.Mirrors (m.enterLet frame) (m.enterLet frame) := by
  have hentered := (h.push hf).enterScope h.stores.floor_le
  rw [hp, moved_zero_frame, moved_zero_frameId] at hentered
  exact hentered

theorem enterTryBlock : p.Mirrors m.enterTry m.enterTry := by
  have hf : Fits p.floor m.registry Frame.forException := by
    intro b hb
    rw [List.mem_singleton.mp hb]
    exact Variable.fits_zeroed (Registry.knows_of_className? rfl)
  have hentered := (h.push hf).enterTry h.stores.floor_le
  rw [hp, moved_zero_frame, moved_zero_frameId] at hentered
  exact hentered

theorem enterMethod {receiver view : View} {name : String} {vs : List Value} {method : Method}
    {bindings : List (String × Variable)} (hreceiver : Fits p.floor m.registry receiver)
    (hvs : Fits p.floor m.registry vs)
    (hs : m.registry.selectMethod? receiver name (vs.map Value.runtimeType) = some (view, method))
    (hb : bindArguments method.params vs = .ok bindings) :
    p.Mirrors (m.enterCall view method bindings) (m.enterCall view method bindings) := by
  obtain ⟨hsame, hmethod, -⟩ := Registry.selectMethod?_spec hs
  have hview := View.fits_of_sameObject hreceiver hsame
  have htypes := (View.fits_own hview).method hmethod
  have hf : Fits p.floor m.registry (Frame.mk .arguments bindings) :=
    fits_bindArguments hb (fun q hq => htypes _ (List.mem_cons_of_mem _ (List.mem_map_of_mem hq)))
      hvs
  have hentered := (h.push hf).enterCall h.stores.floor_le hview (htypes _ List.mem_cons_self)
  rw [hp, moved_zero_frame, moved_zero_frameId] at hentered
  exact hentered

end Pairing.Mirrors

section Parts

variable (h : p.Mirrors m m)

include h

theorem Target.Gives.alone {target : Target} {v : View} (hv : target.Gives n m s v) :
    p.Mirrors s s ∧ Later m s ∧ Fits p.floor s.registry v := by
  cases target with
  | super => exact (Agrees.superView h).alone hv
  | value f =>
    obtain ⟨a, ha, hobject⟩ := hv
    obtain ⟨hs, hl, hfits⟩ := ((agrees_evaluator p n).1 f m m h).alone ha
    have hvalue := hfits.2
    rw [hobject] at hvalue
    exact ⟨hs, hl, hvalue⟩

theorem Rounds.alone {test body : Form} {k : Nat} (hr : Rounds n test body k m s) :
    p.Mirrors s s := by
  induction hr with
  | none => exact h
  | more htest hbody _ ih =>
    obtain ⟨h₁, -⟩ := (Agrees.condition (agrees_evaluator p n).1 h .loop test).alone htest
    obtain ⟨h₂, -⟩ := (agrees_exec p n body h₁).alone hbody
    exact ih h₂

end Parts

/-- The machine on which the task starts is its own counterpart, and so are the object that it calls
and the arguments. -/
def Task.Alone (p : Pairing) (t : Task) : Prop :=
  p.Mirrors t.machine t.machine ∧
    match t.work with
    | .call receiver _ vs =>
      Fits p.floor t.machine.registry receiver ∧ Fits p.floor t.machine.registry vs
    | _ => True

theorem Awaits.alone (hp : p.offset = 0) (h : Awaits t u) (ht : t.Alone p) : u.Alone p := by
  have heval := fun n => (agrees_evaluator p n).1
  have hexec := fun n => (agrees_evaluator p n).2
  obtain ⟨hm, hcall⟩ := ht
  cases h with
  | receiver | operand | left | assigned | test | result | message | expression =>
    exact ⟨hm, trivial⟩
  | argument _ hv hvs =>
    obtain ⟨hm₁, -⟩ := hv.alone hm
    exact ⟨((Agrees.arguments (heval _) hm₁ _).alone hvs).1, trivial⟩
  | invocation _ hv hvs =>
    obtain ⟨hm₁, -, hview⟩ := hv.alone hm
    obtain ⟨hm₂, hl, hfits⟩ := (Agrees.arguments (heval _) hm₁ _).alone hvs
    exact ⟨hm₂, Movable.kept hview hl.kept, hfits _ rfl⟩
  | right _ ha => exact ⟨((heval _ _ _ _ hm).alone ha).1, trivial⟩
  | body hs _ hb => exact ⟨hm.enterMethod hp hcall.1 hcall.2 hs hb, trivial⟩
  | printed _ hvs => exact ⟨((Agrees.arguments (heval _) hm _).alone hvs).1, trivial⟩
  | inBlock _ hb => exact ⟨((Agrees.block (hexec _) hm _).alone hb).1, trivial⟩
  | consequent _ hc | alternative _ hc =>
    exact ⟨((Agrees.condition (heval _) hm _ _).alone hc).1, trivial⟩
  | loopTest _ hr => exact ⟨hr.alone hm, trivial⟩
  | loopBody _ hr _ hc =>
    exact ⟨((Agrees.condition (heval _) (hr.alone hm) _ _).alone hc).1, trivial⟩
  | initializer _ hb _ _ htype =>
    obtain ⟨hm₁, -⟩ := (Agrees.locals (heval _) hm (fits_empty _ _ _) _).alone hb
    exact ⟨((Agrees.resolveType hm₁ _).alone htype).1, trivial⟩
  | inLet _ hd hb =>
    obtain ⟨hm₁, -, hframe⟩ := (Agrees.locals (heval _) hm (fits_empty _ _ _) _).alone hd
    exact ⟨((Agrees.block (hexec _) (hm₁.enterLet hp (hframe _ rfl)) _).alone hb).1, trivial⟩

theorem Starts.alone (hp : p.offset = 0) (h : Starts t u) (ht : t.Alone p) : u.Alone p := by
  cases h with
  | awaits h => exact h.alone hp ht
  | guards h =>
    cases h
    exact ⟨ht.1.enterTryBlock hp, trivial⟩
  | handles h =>
    obtain ⟨-, hb⟩ := h
    have hentered := ht.1.enterTryBlock hp
    obtain ⟨hm₁, hl, -⟩ := (agrees_exec p _ _ hentered).alone hb
    refine ⟨hm₁.enterHandler ?_, trivial⟩
    -- The message of this `try` is in scope, below those further out.
    rw [hl.control]
    refine ⟨Nat.ne_of_gt (Pairing.pos_of_le ht.1.stores.floor_le), .inl (hl.store.get?_isSome ?_)⟩
    simp [Machine.enterTry, Store.get?, Frame.get?, Frame.forException]

theorem Reaches.alone (hp : p.offset = 0) (h : Reaches t u) (ht : t.Alone p) : u.Alone p := by
  induction h with
  | refl => exact ht
  | tail _ h ih => exact h.alone hp ih

theorem Launches.alone {fuel : Nat} (h : Launches fuel m t) (hm : p.Mirrors m m) : t.Alone p := by
  obtain ⟨c, main, m₁, m₂, hc, hmain, rfl⟩ := h
  obtain ⟨hm₁, -, hcls⟩ := (Agrees.resolve hm "main").alone hc
  obtain ⟨hm₂, -, hview⟩ := (Agrees.create hm₁ hcls).alone hmain
  exact ⟨hm₂, hview, fun v hv => absurd hv List.not_mem_nil⟩

theorem Task.Alone.leaves (ht : t.Alone p) (hp : p.offset = 0) (h : t.Leaves s) :
    p.Mirrors s s := by
  obtain ⟨fuel, work, m⟩ := t
  obtain ⟨hm, hcall⟩ := ht
  cases work with
  | eval f =>
    obtain ⟨a, ha⟩ := h
    exact (((agrees_evaluator p fuel).1 f m m hm).alone ha).1
  | exec f =>
    obtain ⟨done, hdone⟩ := h
    exact ((agrees_exec p fuel f hm).alone hdone).1
  | call receiver name vs =>
    obtain ⟨v, hv⟩ := h
    have hagrees := Agrees.callMethod (agrees_evaluator p fuel).2 hm name hcall.1 hcall.2
    have hview : moved 0 receiver = receiver := rfl
    have hvalues : moved 0 vs = vs :=
      (List.map_congr_left fun v _ => moved_zero_value v).trans (List.map_id vs)
    rw [hp, hview, hvalues] at hagrees
    exact (hagrees.alone hv).1

namespace Underway

variable {start : Machine}

/-- Induction on the way to the task, from the machine that has not run yet. -/
theorem mirrors (h : Underway start m) (hidle : start.Idle) (hc : start.registry.Complete) :
    ∃ p : Pairing, p.Mirrors m m := by
  obtain ⟨x, hx, -⟩ := hidle.first
  have hstart := Pairing.mirrors_ofIdle hidle hidle hc (.refl _) (Nat.le_refl _) rfl rfl hx hx
  have hp : (Pairing.ofIdle start start hidle.next_pos x x).offset = 0 := Nat.sub_self _
  cases h with
  | idle => exact ⟨_, hstart⟩
  | started hl h => exact ⟨_, (h.alone hp (hl.alone hstart)).1⟩
  | ended hl h hs => exact ⟨_, (h.alone hp (hl.alone hstart)).leaves hp hs⟩

section Loaded

variable {forms : List Form} {r : Registry} {sink : Sink} {source : Source} {limit : Option Nat}
  (hload : Registry.load forms = .ok r) (h : Underway (Machine.start r sink source limit) m)

include hload h

/-- All types that the registered classes name are registered. -/
theorem complete : m.registry.Complete := by
  obtain ⟨p, hm⟩ := h.mirrors (Machine.idle_start r sink source limit)
    (Registry.complete_of_load hload)
  exact hm.complete

/-- The declared types of the variables in scope are registered. -/
theorem knows_declared {name : String} {x : Variable}
    (hx : m.store.lookup m.control.scopes name = some x) : m.registry.Knows x.declared := by
  obtain ⟨p, hm⟩ := h.mirrors (Machine.idle_start r sink source limit)
    (Registry.complete_of_load hload)
  obtain ⟨i, hi, hx⟩ := List.exists_of_findSome?_eq_some hx
  obtain ⟨hnone, -⟩ | ⟨y, -, hy, -, -, hknown, -⟩ :=
    hm.stores.get?_cases (hm.controls.scopes i hi) name
  · rw [hx] at hnone
    cases hnone
  · rw [hx] at hy
    cases hy
    exact hknown

/-- The type that the running method returns is registered. -/
theorem knows_returns {a : Activation} (ha : m.control.activation = some a) :
    m.registry.Knows a.method.returns := by
  obtain ⟨p, hm⟩ := h.mirrors (Machine.idle_start r sink source limit)
    (Registry.complete_of_load hload)
  exact (hm.controls.activation a ha).2

end Loaded

end Underway

end ObjectLang
