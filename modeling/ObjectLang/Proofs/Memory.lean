import ObjectLang.Store

/-!
Memory: what an assignment does to a variable, to the frame that binds it and to the store. Frames
are never removed, and they keep their roles and the types of their variables.
-/

namespace ObjectLang

namespace Variable

theorem assign_eq_ok {x y : Variable} {v : Value} :
    x.assign v = .ok y ↔
      x.declared.admits v = true ∧ y = { x with value := v.retag x.declared } := by
  unfold assign
  constructor
  · intro h
    split at h <;> cases h
    exact ⟨by assumption, rfl⟩
  · intro h
    obtain ⟨h, rfl⟩ := h
    rw [if_pos h]

theorem assign_declared {x y : Variable} {v : Value} (h : x.assign v = .ok y) :
    y.declared = x.declared := by
  obtain ⟨-, rfl⟩ := assign_eq_ok.mp h
  rfl

theorem create_declared {t : TypeTag} {v : Value} {x : Variable}
    (h : create t v = .ok x) : x.declared = t := by
  unfold create assign at h
  split at h <;> cases h
  rfl

end Variable

namespace Frame

theorem define?_eq_some {f f' : Frame} {name : String} {x : Variable} :
    f.define? name x = some f' ↔
      f.binds name = false ∧ f' = { f with bindings := f.bindings ++ [(name, x)] } := by
  unfold define?
  cases f.binds name with
  | true => simp
  | false => simp [eq_comm]

theorem mem_replace {name : String} {x : Variable} {l : List (String × Variable)}
    {b : String × Variable} (h : b ∈ replace name x l) : b ∈ l ∨ b.2 = x := by
  induction l with
  | nil => cases h
  | cons c l ih =>
    unfold replace at h
    split at h
    · cases List.mem_cons.mp h with
      | inl h =>
        subst h
        exact .inr rfl
      | inr h => exact .inl (List.mem_cons_of_mem c h)
    · cases List.mem_cons.mp h with
      | inl h =>
        subst h
        exact .inl List.mem_cons_self
      | inr h => exact (ih h).imp_left (List.mem_cons_of_mem c)

end Frame

namespace Store

theorem lt_next_of_frame? {s : Store} {i : FrameId} {f : Frame} (h : s.frame? i = some f) :
    i < s.next :=
  (Array.getElem?_eq_some_iff.mp h).1

theorem frame?_push_eq_some {s : Store} {f g : Frame} {i : FrameId}
    (h : (s.push f).frame? i = some g) : s.frame? i = some g ∨ i = s.next ∧ g = f := by
  by_cases hi : i = s.next
  · subst hi
    rw [frame?_push_next] at h
    cases h
    exact .inr ⟨rfl, rfl⟩
  · refine .inl ?_
    simpa [push, frame?, Array.getElem?_push, show i ≠ s.frames.size from hi] using h

theorem get?_set_self {s : Store} {i : FrameId} {name : String} {x y : Variable}
    (h : s.get? i name = some x) : (s.set i name y).get? i name = some y := by
  obtain ⟨f, hf, hx⟩ := Option.bind_eq_some_iff.mp h
  simp [get?, hf, Frame.get?_set_self, hx]

theorem get?_set_of_ne (s : Store) {i j : FrameId} (h : j ≠ i) (name : String) (y : Variable)
    (other : String) : (s.set i name y).get? j other = s.get? j other := by
  simp [get?, frame?_set_of_ne s h]

theorem contains_eq_false {s : Store} {scopes : Scopes} {name : String} :
    s.contains scopes name = false ↔ ∀ i ∈ scopes, s.get? i name = none := by
  simp [contains]

/-- An assignment goes to the variable of the nearest frame that binds the name. -/
theorem assignment_eq_ok {s : Store} {name : String} {v : Value} {scopes : Scopes} {i : FrameId}
    {y : Variable} (h : s.assignment name v scopes = .ok (i, y)) :
    ∃ above below x, scopes = above ++ i :: below ∧ (∀ j ∈ above, s.get? j name = none) ∧
      s.get? i name = some x ∧ x.assign v = .ok y := by
  induction scopes with
  | nil => cases h
  | cons j rest ih =>
    unfold assignment at h
    split at h
    · rename_i hj
      obtain ⟨above, below, x, rfl, ha, hx⟩ := ih h
      exact ⟨j :: above, below, x, rfl, List.forall_mem_cons.mpr ⟨hj, ha⟩, hx⟩
    · split at h <;> cases h
      exact ⟨[], rest, _, rfl, by simp, by assumption, by assumption⟩

theorem assignment_append {s : Store} {name : String} {above : Scopes}
    (h : ∀ i ∈ above, s.get? i name = none) (v : Value) (rest : Scopes) :
    s.assignment name v (above ++ rest) = s.assignment name v rest := by
  induction above with
  | nil => rfl
  | cons i above ih =>
    rw [List.forall_mem_cons] at h
    rw [List.cons_append, assignment, h.1]
    exact ih h.2

def All (P : Variable → Prop) (s : Store) : Prop :=
  ∀ i f, s.frame? i = some f → ∀ b ∈ f.bindings, P b.2

namespace All

variable {P Q : Variable → Prop} {s : Store}

theorem mono (h : s.All P) (hpq : ∀ x, P x → Q x) : s.All Q :=
  fun i f hf b hb => hpq b.2 (h i f hf b hb)

theorem push (h : s.All P) {f : Frame} (hf : ∀ b ∈ f.bindings, P b.2) : (s.push f).All P := by
  intro i g hg
  cases frame?_push_eq_some hg with
  | inl hg => exact h i g hg
  | inr h =>
    obtain ⟨-, rfl⟩ := h
    exact hf

theorem pushAll (h : s.All P) {fs : List Frame} (hfs : ∀ f ∈ fs, ∀ b ∈ f.bindings, P b.2) :
    (s.pushAll fs).All P := by
  induction fs generalizing s with
  | nil => exact h
  | cons f fs ih =>
    exact ih (h.push (hfs f List.mem_cons_self)) fun g hg => hfs g (List.mem_cons_of_mem f hg)

theorem set (h : s.All P) {i : FrameId} {name : String} {x : Variable} (hx : P x) :
    (s.set i name x).All P := by
  intro j g hg
  by_cases hj : j = i
  · subst hj
    rw [frame?_set_self] at hg
    obtain ⟨f, hf, rfl⟩ := Option.map_eq_some_iff.mp hg
    intro b hb
    cases Frame.mem_replace hb with
    | inl hb => exact h j f hf b hb
    | inr hb =>
      rwa [hb]
  · rw [frame?_set_of_ne s hj] at hg
    exact h j g hg

theorem get? (h : s.All P) {i : FrameId} {name : String} {x : Variable}
    (hx : s.get? i name = some x) : P x := by
  obtain ⟨f, hf, hx⟩ := Option.bind_eq_some_iff.mp hx
  obtain ⟨l₁, l₂, hl, -⟩ := List.lookup_eq_some_iff.mp hx
  exact h i f hf (name, x) (by simp [hl])

end All

end Store

/- Outlines. -/

structure Outline where
  role : FrameRole
  entries : List (String × TypeTag)

namespace Frame

def outline (f : Frame) : Outline := ⟨f.role, f.bindings.map fun b => (b.1, b.2.declared)⟩

theorem lookup_outline (f : Frame) (name : String) :
    f.outline.entries.lookup name = (f.get? name).map Variable.declared := by
  have hlookup : ∀ l : List (String × Variable),
      (l.map fun b => (b.1, b.2.declared)).lookup name = (l.lookup name).map Variable.declared := by
    intro l
    induction l with
    | nil => rfl
    | cons b l ih =>
      obtain ⟨n, x⟩ := b
      cases h : name == n with
      | true => simp [List.lookup_cons, h]
      | false => simp [List.lookup_cons, h, ih]
  exact hlookup f.bindings

theorem outline_set {f : Frame} {name : String} {x y : Variable} (hx : f.get? name = some x)
    (hy : y.declared = x.declared) : (f.set name y).outline = f.outline := by
  have hreplace : ∀ l : List (String × Variable), l.lookup name = some x →
      (replace name y l).map (fun b => (b.1, b.2.declared)) =
        l.map fun b => (b.1, b.2.declared) := by
    intro l
    induction l with
    | nil => simp
    | cons b l ih =>
      intro hl
      obtain ⟨n, z⟩ := b
      by_cases hb : n = name
      · subst hb
        rw [List.lookup_cons_self] at hl
        cases hl
        simp [replace, hy]
      · have hne : (name == n) = false := by simpa using Ne.symm hb
        rw [List.lookup_cons, hne] at hl
        simp [replace, hb, ih hl]
  simp only [outline, set, hreplace f.bindings hx]

end Frame

namespace Store

def outline? (s : Store) (i : FrameId) : Option Outline := (s.frame? i).map Frame.outline

theorem outline?_push_next (s : Store) (f : Frame) :
    (s.push f).outline? s.next = some f.outline := by
  simp [outline?]

theorem lt_next_of_outline? {s : Store} {i : FrameId} {o : Outline} (h : s.outline? i = some o) :
    i < s.next := by
  obtain ⟨f, hf, -⟩ := Option.map_eq_some_iff.mp h
  exact lt_next_of_frame? hf

theorem exists_outline? {s : Store} {i : FrameId} (h : i < s.next) : ∃ o, s.outline? i = some o := by
  have hf : s.frame? i = some s.frames[i] := Array.getElem?_eq_getElem h
  exact ⟨_, by rw [outline?, hf]; rfl⟩

theorem outline?_next (s : Store) : s.outline? s.next = none := by
  cases h : s.outline? s.next with
  | none => rfl
  | some o => exact absurd (lt_next_of_outline? h) (Nat.lt_irrefl _)

/-- A name in scope is assigned to, or its variable refuses the value. -/
theorem assignment_of_contains {s : Store} {scopes : Scopes} {name : String}
    (h : s.contains scopes name = true) (v : Value) :
    s.assignment name v scopes ≠ .error .undefined := by
  induction scopes with
  | nil => cases h
  | cons i rest ih =>
    unfold assignment
    split
    · rename_i hi
      exact ih (by simpa [contains, hi] using h)
    · split <;> nofun

theorem assignment_eq_rejected {s : Store} {scopes : Scopes} {name : String} {v : Value} {e : Error}
    (h : s.assignment name v scopes = .error (.rejected e)) :
    ∃ x : Variable, e = .assignmentMismatch x.declared v.runtimeType := by
  induction scopes with
  | nil => cases h
  | cons i rest ih =>
    unfold assignment at h
    split at h
    · exact ih h
    · rename_i x _
      unfold Variable.assign at h
      split at h
      · cases h
      · rename_i hx
        split at hx <;> cases hx
        cases h
        exact ⟨x, rfl⟩

def Preserves (s s' : Store) : Prop := ∀ i o, s.outline? i = some o → s'.outline? i = some o

namespace Preserves

theorem refl (s : Store) : s.Preserves s := fun _ _ h => h

theorem trans {s s' s'' : Store} (h : s.Preserves s') (h' : s'.Preserves s'') :
    s.Preserves s'' :=
  fun i o ho => h' i o (h i o ho)

theorem next_le {s s' : Store} (h : s.Preserves s') : s.next ≤ s'.next := by
  cases Nat.lt_or_ge s'.next s.next with
  | inl hlt =>
    obtain ⟨o, ho⟩ := exists_outline? hlt
    exact absurd (lt_next_of_outline? (h _ o ho)) (Nat.lt_irrefl _)
  | inr hle => exact hle

theorem push (s : Store) (f : Frame) : s.Preserves (s.push f) := by
  intro i o ho
  obtain ⟨g, hg, rfl⟩ := Option.map_eq_some_iff.mp ho
  rw [outline?, frame?_push_of_lt s f (lt_next_of_frame? hg), hg]
  rfl

theorem pushAll (s : Store) (fs : List Frame) : s.Preserves (s.pushAll fs) := by
  induction fs generalizing s with
  | nil => exact refl s
  | cons f fs ih => exact (push s f).trans (ih (s.push f))

theorem set {s : Store} {i : FrameId} {name : String} {x y : Variable}
    (hx : s.get? i name = some x) (hy : y.declared = x.declared) :
    s.Preserves (s.set i name y) := by
  intro j o ho
  by_cases hj : j = i
  · subst hj
    obtain ⟨f, hf, rfl⟩ := Option.map_eq_some_iff.mp ho
    have hget : f.get? name = some x := by simpa [Store.get?, hf] using hx
    simp [outline?, hf, Frame.outline_set hget hy]
  · rwa [outline?, frame?_set_of_ne s hj]

/-- The frame has its role still, and its variables have their types. -/
theorem frame? {s s' : Store} (h : s.Preserves s') {i : FrameId} {f : Frame}
    (hf : s.frame? i = some f) :
    ∃ f', s'.frame? i = some f' ∧ f'.role = f.role ∧
      ∀ name x, f.get? name = some x → ∃ x', f'.get? name = some x' ∧ x'.declared = x.declared := by
  have ho := h i f.outline (by simp [outline?, hf])
  obtain ⟨f', hf', houtline⟩ := Option.map_eq_some_iff.mp ho
  refine ⟨f', hf', congrArg Outline.role houtline, ?_⟩
  intro name x hx
  have hlookup := f'.lookup_outline name
  rw [houtline, f.lookup_outline, hx] at hlookup
  obtain ⟨x', hx', hd⟩ := Option.map_eq_some_iff.mp hlookup.symm
  exact ⟨x', hx', hd⟩

theorem get?_isSome {s s' : Store} (h : s.Preserves s') {i : FrameId} {name : String}
    (hx : (s.get? i name).isSome) : (s'.get? i name).isSome := by
  obtain ⟨x, hx⟩ := Option.isSome_iff_exists.mp hx
  obtain ⟨f, hf, hx⟩ := Option.bind_eq_some_iff.mp hx
  obtain ⟨f', hf', -, hget⟩ := h.frame? hf
  obtain ⟨x', hx', -⟩ := hget name x hx
  simp [Store.get?, hf', hx']

theorem contains {s s' : Store} (h : s.Preserves s') {scopes : Scopes} {name : String}
    (hc : s.contains scopes name = true) : s'.contains scopes name = true := by
  simp only [Store.contains, List.any_eq_true] at hc ⊢
  obtain ⟨i, hi, hx⟩ := hc
  exact ⟨i, hi, h.get?_isSome hx⟩

end Preserves

end Store

end ObjectLang
