import ObjectLang.Machine
import ObjectLang.Proofs.Computation
import ObjectLang.Proofs.Memory

/-!
Assignments. To look a name up, to ask whether it is in scope and to assign to it are three scans of
the scopes. All three mean the variable of the nearest frame that binds the name, so that an
assignment changes this one variable, in whatever scopes its frame stands, or nothing at all.
-/

namespace ObjectLang

namespace Store

variable {s s' : Store} {scopes : Scopes} {id : FrameId} {name : String} {x y : Variable}

def frameOf? (s : Store) (scopes : Scopes) (name : String) : Option FrameId :=
  scopes.find? fun id => (s.get? id name).isSome

/- The three scans. -/

theorem contains_eq_frameOf? (s : Store) (scopes : Scopes) (name : String) :
    s.contains scopes name = (s.frameOf? scopes name).isSome := by
  rw [contains, frameOf?, List.isSome_find?]

theorem lookup_eq_frameOf? (s : Store) (scopes : Scopes) (name : String) :
    s.lookup scopes name = (s.frameOf? scopes name).bind fun id => s.get? id name := by
  induction scopes with
  | nil => rfl
  | cons id rest ih =>
    cases hx : s.get? id name with
    | none => simpa [lookup, frameOf?, hx] using ih
    | some x => simp [lookup, frameOf?, hx]

theorem exists_frameOf? (h : s.contains scopes name = true) :
    ∃ id x, s.frameOf? scopes name = some id ∧ s.get? id name = some x := by
  rw [contains_eq_frameOf?] at h
  obtain ⟨id, hid⟩ := Option.isSome_iff_exists.mp h
  have hbound : (s.get? id name).isSome = true :=
    List.find?_some (p := fun id => (s.get? id name).isSome) hid
  obtain ⟨x, hx⟩ := Option.isSome_iff_exists.mp hbound
  exact ⟨id, x, hid, hx⟩

theorem lookup_of_frameOf? (h : s.frameOf? scopes name = some id) :
    s.lookup scopes name = s.get? id name := by
  rw [lookup_eq_frameOf?, h, Option.bind_some]

theorem assign_of_frameOf? (h : s.frameOf? scopes name = some id) (hx : s.get? id name = some x)
    (v : Value) :
    s.assign scopes name v =
      if x.declared.admits v then .ok (s.set id name ⟨x.declared, v.retag x.declared⟩)
      else .error (.rejected (.assignmentMismatch x.declared v.runtimeType)) := by
  obtain ⟨-, above, below, rfl, habove⟩ := List.find?_eq_some_iff_append.mp h
  have hnone : ∀ j ∈ above, s.get? j name = none := by
    intro j hj
    simpa using habove j hj
  rw [assign, assignment_append hnone, assignment, hx]
  cases hv : x.declared.admits v with
  | true => simp [Variable.assign, hv, Except.map]
  | false => simp [Variable.assign, hv, Except.map]

theorem assign_of_not_contains (h : s.contains scopes name = false) (v : Value) :
    s.assign scopes name v = .error .undefined := by
  have hscopes := assignment_append (contains_eq_false.mp h) v []
  rw [List.append_nil] at hscopes
  rw [assign, hscopes]
  rfl

/- What an assignment leaves. -/

/-- The second store has `y` in the variable of this name in this frame, and everywhere else it is
the first. -/
structure Replaces (s : Store) (id : FrameId) (name : String) (y : Variable) (s' : Store) :
    Prop where
  get?_eq : ∀ j other, s'.get? j other = if j = id ∧ other = name then some y else s.get? j other
  frame?_eq : ∀ j, j ≠ id → s'.frame? j = s.frame? j
  preserves : s.Preserves s'

theorem replaces_set (hx : s.get? id name = some x) (hy : y.declared = x.declared) :
    s.Replaces id name y (s.set id name y) := by
  refine ⟨?_, fun j hj => frame?_set_of_ne s hj name y, .set hx hy⟩
  intro j other
  by_cases hj : j = id
  · subst hj
    by_cases hother : other = name
    · subst hother
      simpa using get?_set_self hx
    · -- The frame is the same one, with another variable replaced.
      obtain ⟨f, hf, -⟩ := Option.bind_eq_some_iff.mp hx
      simp [get?, hf, Frame.get?_set_of_ne f hother, hother]
  · simpa [hj] using get?_set_of_ne s hj name y other

namespace Replaces

theorem isSome_eq (h : s.Replaces id name y s') (hx : s.get? id name = some x) (j : FrameId)
    (other : String) : (s'.get? j other).isSome = (s.get? j other).isSome := by
  rw [h.get?_eq]
  split
  · rename_i heq
    obtain ⟨rfl, rfl⟩ := heq
    simp [hx]
  · rfl

/-- No name changes its frame. -/
theorem frameOf?_eq (h : s.Replaces id name y s') (hx : s.get? id name = some x)
    (scopes : Scopes) (other : String) : s'.frameOf? scopes other = s.frameOf? scopes other := by
  simp only [frameOf?, h.isSome_eq hx]

/-- Scopes show the change where the name means the variable that has changed. -/
theorem lookup_eq (h : s.Replaces id name y s') (hx : s.get? id name = some x) (scopes : Scopes)
    (other : String) :
    s'.lookup scopes other =
      if other = name ∧ s.frameOf? scopes name = some id then some y
      else s.lookup scopes other := by
  rw [lookup_eq_frameOf?, lookup_eq_frameOf?, h.frameOf?_eq hx]
  by_cases hother : other = name
  · subst hother
    cases hf : s.frameOf? scopes other with
    | none => simp
    | some j => simp [h.get?_eq]
  · simp [h.get?_eq, hother]

end Replaces

end Store

def Eval.ofAssignment (name : String) (m : Machine) :
    Except AssignError Store → EStateM.Result Stop Machine Unit
  | .ok s => .ok () { m with store := s }
  | .error .undefined => .error (.failed (.undefinedVariable name)) m
  | .error (.rejected e) => .error (.failed e) m

theorem Eval.assign_eq (name : String) (v : Value) (m : Machine) :
    assign name v m = ofAssignment name m (m.store.assign m.control.scopes name v) := by
  refine (bind_ok (x := get) rfl _).trans ?_
  unfold Store.assign
  cases m.store.assignment name v m.control.scopes with
  | ok place => rfl
  | error e => cases e <;> rfl

/-- An assignment finds no variable exactly if its name is not in scope. Otherwise it means the same
variable as a lookup of the name, that of the nearest frame. If the variable admits the value, it
has it afterwards under the type that it had, where a null takes this type as its tag; no other name
of the frame and no other frame changes, and other scopes see the change exactly where the name
means this variable. If the variable does not admit the value, the evaluator stops on the machine as
it was. -/
theorem assignment_touches_one_variable (s : Store) (scopes : Scopes) (name : String) (v : Value) :
    (s.assign scopes name v = .error .undefined ↔ s.contains scopes name = false) ∧
    (s.contains scopes name = true → ∃ id x, s.frameOf? scopes name = some id ∧
      s.get? id name = some x ∧ s.lookup scopes name = some x ∧
      ((x.declared.admits v = true ∧ ∃ s', s.assign scopes name v = .ok s' ∧
          s'.lookup scopes name = some ⟨x.declared, v.retag x.declared⟩ ∧
          s.Replaces id name ⟨x.declared, v.retag x.declared⟩ s' ∧
          ∀ others other, s'.lookup others other =
            if other = name ∧ s.frameOf? others name = some id then
              some ⟨x.declared, v.retag x.declared⟩
            else s.lookup others other) ∨
        (x.declared.admits v = false ∧ s.assign scopes name v =
          .error (.rejected (.assignmentMismatch x.declared v.runtimeType))))) ∧
    ∀ m : Machine, Eval.assign name v { m with store := s, control := { m.control with scopes } } =
      Eval.ofAssignment name { m with store := s, control := { m.control with scopes } }
        (s.assign scopes name v) := by
  refine ⟨⟨fun h => ?_, fun h => Store.assign_of_not_contains h v⟩, fun h => ?_,
    fun m => Eval.assign_eq name v _⟩
  · cases hc : s.contains scopes name with
    | false => rfl
    | true =>
      obtain ⟨id, x, hid, hx⟩ := Store.exists_frameOf? hc
      rw [Store.assign_of_frameOf? hid hx] at h
      split at h <;> cases h
  · obtain ⟨id, x, hid, hx⟩ := Store.exists_frameOf? h
    have hassign := Store.assign_of_frameOf? hid hx v
    refine ⟨id, x, hid, hx, (Store.lookup_of_frameOf? hid).trans hx, ?_⟩
    cases hv : x.declared.admits v with
    | true =>
      rw [hv, if_pos rfl] at hassign
      have hreplaces := Store.replaces_set (y := ⟨x.declared, v.retag x.declared⟩) hx rfl
      have hlookup := hreplaces.lookup_eq hx
      exact .inl ⟨rfl, _, hassign, by simp [hlookup, hid], hreplaces, hlookup⟩
    | false =>
      rw [hv, if_neg Bool.false_ne_true] at hassign
      exact .inr ⟨rfl, hassign⟩

namespace Sample

def frames : Store :=
  ⟨#[⟨.locals, [("x", ⟨.int, .int 1⟩)]⟩,
    ⟨.arguments, [("y", ⟨.int, .int 2⟩), ("x", ⟨.ofClass "node", .null none⟩)]⟩]⟩

end Sample

/-- The second frame stands in scope twice, above and below the first one. Scopes that have the
first one above it see no change. -/
theorem sample_x_is_assigned :
    ∃ s, Sample.frames.assign [1, 0, 1] "x" (.null none) = .ok s ∧
      s.lookup [1, 0, 1] "x" = some ⟨.ofClass "node", .null (some (.ofClass "node"))⟩ ∧
      s.get? 1 "y" = some ⟨.int, .int 2⟩ ∧ s.lookup [0, 1] "x" = some ⟨.int, .int 1⟩ := by
  obtain ⟨-, htouched, -⟩ :=
    assignment_touches_one_variable Sample.frames [1, 0, 1] "x" (.null none)
  obtain ⟨id, x, hid, hx, -, hends⟩ := htouched rfl
  cases hid
  cases hx
  obtain ⟨-, s, hs, hlookup, hreplaces, hothers⟩ | ⟨hrefused, -⟩ := hends
  · exact ⟨s, hs, hlookup, hreplaces.get?_eq 1 "y", hothers [0, 1] "x"⟩
  · cases hrefused

end ObjectLang
