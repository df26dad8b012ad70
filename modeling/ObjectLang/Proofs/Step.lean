import ObjectLang.Proofs.Growth
import ObjectLang.Proofs.Outcome

/-!
Steps: the ways in which a run changes the machine, each with what is known where it happens. A
property of the machines of all runs is one that every step keeps.
-/

namespace ObjectLang

/-- A point of a run: the machine, the controls to which the code under way will return, the nearest
first, and the values that it has at hand. -/
structure Moment where
  machine : Machine
  waiting : List Control
  hand : List Value

def Moment.Receives (p : Moment) (v : View) : Prop :=
  .object v ∈ p.hand ∨
    ∃ a, p.machine.control.activation = some a ∧ a.receiver.parent? = some v

def Variable.Made (x : Variable) : Prop :=
  (∃ type, x.declared = TypeTag.ofName type) ∧
    (x = zeroed x.declared ∨ ∃ v, create x.declared v = .ok x)

def Frame.values (f : Frame) : List Value := f.bindings.map fun b => b.2.value

inductive Step : Moment → Moment → Prop
  | print (line : String) :
      Step ⟨m, k, hand⟩ ⟨{ m with sink := m.sink.println line }, k, hand⟩
  | read : Step ⟨m, k, hand⟩ ⟨{ m with source := m.source.readLine.2 }, k, hand⟩
  | resolve (name : String) :
      Step ⟨m, k, hand⟩ ⟨{ m with registry := after (Registry.resolve name) m.registry }, k, hand⟩
  | plain (hv : v.isPlain = true) : Step ⟨m, k, hand⟩ ⟨m, k, v :: hand⟩
  | look (hx : m.store.get? i name = some x) : Step ⟨m, k, hand⟩ ⟨m, k, x.value :: hand⟩
  | self (ha : m.control.activation = some a) :
      Step ⟨m, k, hand⟩ ⟨m, k, .object a.receiver.mostDerived :: hand⟩
  | create (hc : c ∈ m.registry.classes) (hf : c.fieldFrames = .ok frames) :
      Step ⟨m, k, hand⟩
        ⟨{ m with store := m.store.pushAll frames }, k, .object ⟨m.store.next, c, []⟩ :: hand⟩
  | assign (hv : v ∈ hand) (hname : name = exceptionName → m.control.handling = true)
      (ha : m.store.assignment name v m.control.scopes = .ok (i, x)) :
      Step ⟨m, k, hand⟩ ⟨{ m with store := m.store.set i name x }, k, hand⟩
  | raise (hv : v ∈ hand)
      (ha : m.store.assignment exceptionName v m.control.scopes = .ok (i, x)) :
      Step ⟨m, k, hand⟩ ⟨{ m with store := m.store.set i exceptionName x }, k, hand⟩
  | raiseAmbient (hv : v ∈ hand) (hc : m.store.contains m.control.scopes exceptionName = false)
      (hx : m.store.get? m.control.ambient exceptionName = some x) (ha : x.assign v = .ok y) :
      Step ⟨m, k, hand⟩
        ⟨{ m with store := m.store.set m.control.ambient exceptionName y }, k, hand⟩
  | enterLet (hr : frame.role = .locals) (hm : ∀ b ∈ frame.bindings, b.2.Made)
      (hv : frame.values ⊆ hand) :
      Step ⟨m, k, hand⟩ ⟨m.enterLet frame, m.control :: k, hand⟩
  | enterTry : Step ⟨m, k, hand⟩ ⟨m.enterTry, m.control :: k, hand⟩
  | enterHandler : Step ⟨m, k, hand⟩ ⟨m.enterHandler, m.control :: k, hand⟩
  | enterCall (hr : Moment.Receives ⟨m, k, hand⟩ receiver) (hvs : vs ⊆ hand)
      (hs : m.registry.selectMethod? receiver name (vs.map Value.runtimeType) =
        some (view, method))
      (hl : m.atLimit? = none) (hb : bindArguments method.params vs = .ok bindings) :
      Step ⟨m, k, hand⟩ ⟨m.enterCall view method bindings, m.control :: k, hand⟩
  | leave (c : Control) : Step ⟨m, c :: k, hand⟩ ⟨{ m with control := c }, k, hand⟩

theorem Step.hand_subset (h : Step p q) : p.hand ⊆ q.hand := by
  cases h with
  | plain | look | self | create => exact List.subset_cons_self _ _
  | _ => exact List.Subset.refl _

theorem Step.preserves (h : Step p q) :
    p.machine.store.Preserves q.machine.store := by
  cases h with
  | print | read | resolve | plain | look | self | enterHandler | leave => exact .refl _
  | create => exact .pushAll _ _
  | assign _ _ ha | raise _ ha =>
    obtain ⟨_, _, x, -, -, hx, hy⟩ := Store.assignment_eq_ok ha
    exact .set hx (Variable.assign_declared hy)
  | raiseAmbient _ _ hx ha => exact .set hx (Variable.assign_declared ha)
  | enterLet | enterTry | enterCall => exact .push _ _

def Steps : Moment → Moment → Prop := Relation.ReflTransGen Step

namespace Steps

theorem refl (p : Moment) : Steps p p := Relation.ReflTransGen.refl

theorem trans (h : Steps p q) (h' : Steps q r) : Steps p r := Relation.ReflTransGen.trans h h'

theorem of_step (h : Step p q) : Steps p q := .single h

theorem hand_subset (h : Steps p q) : p.hand ⊆ q.hand := by
  induction h with
  | refl => exact List.Subset.refl _
  | tail _ h ih => exact List.Subset.trans ih h.hand_subset

theorem preserves (h : Steps p q) : p.machine.store.Preserves q.machine.store := by
  induction h with
  | refl => exact .refl _
  | tail _ h ih => exact ih.trans h.preserves

/-- What every step keeps holds at the end of a run. -/
theorem keeps {P : Moment → Prop} (hstep : ∀ p q, Step p q → P p → P q) (h : Steps p q)
    (hp : P p) : P q := by
  induction h with
  | refl => exact hp
  | tail _ h ih => exact hstep _ _ h ih

end Steps

end ObjectLang
