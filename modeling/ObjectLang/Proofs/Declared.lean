import ObjectLang.Proofs.Growth
import ObjectLang.Registry.Load

/-!
Declared classes: the body of every class of a loaded program, and of every class that is
instantiated while it runs, is read from the forms of a declaration.
-/

namespace ObjectLang

/-- A type that fields and parameters are declared with: one that can be named, other than `void`. -/
def TypeTag.Declarable (t : TypeTag) : Prop := (∃ name, t = ofName name) ∧ t ≠ .void

theorem Field.declarable {cls : String} {form : Form} {f : Field} (h : ofForm cls form = .ok f) :
    f.type.Declarable := by
  have hdeclare : ∀ type name value, declare cls type name value = .ok f → f.type.Declarable := by
    intro type name value hd
    unfold declare at hd
    split at hd
    · cases hd
    · rename_i hvoid
      obtain ⟨init, -, rfl⟩ := except_map_eq_ok.mp hd
      exact ⟨⟨type, rfl⟩, hvoid⟩
  unfold ofForm at h
  split at h
  · exact hdeclare _ _ _ h
  · exact hdeclare _ _ _ h
  · cases h

namespace ClassBody

def Declared (b : ClassBody) : Prop := ∃ name decls, ofForms name decls = .ok b

theorem add_fields {b b' : ClassBody} {form : Form} (h : b.add form = .ok b') :
    ∀ f ∈ b'.fields, f ∈ b.fields ∨ f.type.Declarable := by
  intro f hf
  unfold add at h
  split at h
  · obtain ⟨g, hg, h⟩ := except_bind_eq_ok.mp h
    unfold addField at h
    split at h <;> cases h
    cases List.mem_append.mp hf with
    | inl hf => exact .inl hf
    | inr hf =>
      rw [List.mem_singleton.mp hf]
      exact .inr (Field.declarable hg)
  · obtain ⟨m, -, h⟩ := except_bind_eq_ok.mp h
    unfold addMethod at h
    split at h <;> cases h
    exact .inl hf
  · cases h

theorem Declared.fields_declarable {b : ClassBody} (h : b.Declared) :
    ∀ f ∈ b.fields, f.type.Declarable := by
  obtain ⟨name, decls, h⟩ := h
  refine foldlM_keeps (P := fun b : ClassBody => ∀ f ∈ b.fields, f.type.Declarable) ?_ (by simp) h
  intro b form b' hb hadd f hf
  exact (add_fields hadd f hf).elim (hb f) fun h => h

/-- The fields of a body have types that can be named. -/
theorem Declared.field_type {b : ClassBody} (h : b.Declared) :
    ∀ f ∈ b.fields, ∃ name, f.type = TypeTag.ofName name :=
  fun f hf => (h.fields_declarable f hf).1

end ClassBody

namespace Registry

def Declared (r : Registry) : Prop := ∀ c ∈ r.classes, ∀ b ∈ c.line, b.Declared

theorem Declared.extends {r r' : Registry} (h : r.Declared) (he : r.Extends r') : r'.Declared := by
  obtain ⟨new, hnew, hexp⟩ := he.classes
  intro c hc b hb
  rw [hnew] at hc
  cases List.mem_append.mp hc with
  | inl hc => exact h c hc b hb
  | inr hc =>
    obtain ⟨t, -, args, decls, -, hbody, hanc⟩ := hexp c hc
    rw [Class.line, hanc, List.mem_singleton] at hb
    rw [hb]
    exact ⟨_, decls, hbody⟩

/-- A declaration adds a template, or a class under a new name whose ancestors are the line of a
class already there, if it has any. -/
theorem declare_cases {r r' : Registry} {form : Form} (h : r.declare form = .ok r') :
    (∃ t, r' = { r with templates := r.templates ++ [t] }) ∨
      ∃ name decls c, r.find? name = none ∧ ClassBody.ofForms name decls = .ok c.own ∧
        (c.ancestors = [] ∨ ∃ p ∈ r.classes, c.ancestors = p.line) ∧ r' = r.insert c := by
  have hname : ∀ name, r.checkName name = .ok () → r.find? name = none := by
    intro name hcheck
    unfold checkName at hcheck
    split at hcheck
    · cases hcheck
    · split at hcheck
      · cases hcheck
      · simp_all
  unfold declare at h
  split at h
  · unfold declareClass at h
    split at h
    · obtain ⟨_, hcheck, h⟩ := except_bind_eq_ok.mp h
      unfold addHeir at h
      split at h
      · split at h
        · split at h
          · rename_i p hp
            obtain ⟨body, hbody, rfl⟩ := except_map_eq_ok.mp h
            exact .inr ⟨_, _, ⟨body, p.line⟩, hname _ hcheck, hbody,
              .inr ⟨p, (find?_mem hp).1, rfl⟩, rfl⟩
          · cases h
        · cases h
      · obtain ⟨body, hbody, rfl⟩ := except_map_eq_ok.mp h
        exact .inr ⟨_, _, ⟨body, []⟩, hname _ hcheck, hbody, .inl rfl, rfl⟩
    · cases h
  · unfold declareTemplate at h
    split at h
    · obtain ⟨_, -, h⟩ := except_bind_eq_ok.mp h
      split at h <;> cases h
      exact .inl ⟨_, rfl⟩
    · cases h
  · cases h

theorem Declared.declare {r r' : Registry} {form : Form} (h : r.Declared)
    (hd : r.declare form = .ok r') : r'.Declared := by
  obtain ⟨t, rfl⟩ | ⟨name, decls, c, -, hbody, hanc, rfl⟩ := declare_cases hd
  · exact h
  · intro d hd b hb
    cases List.mem_append.mp hd with
    | inl hd => exact h d hd b hb
    | inr hd =>
      rw [List.mem_singleton.mp hd] at hb
      cases List.mem_cons.mp hb with
      | inl hb =>
        rw [hb]
        exact ⟨name, decls, hbody⟩
      | inr hb =>
        obtain hanc | ⟨p, hp, hanc⟩ := hanc
        · simp [hanc] at hb
        · exact h p hp b (hanc ▸ hb)

theorem declared_load {forms : List Form} {r : Registry} (h : load forms = .ok r) :
    r.Declared := by
  unfold load at h
  split at h
  · cases h
  · rename_i r₀ hr₀
    have hdeclared : r₀.Declared :=
      foldlM_keeps (fun _ _ _ hr hd => Declared.declare hr hd) (by simp [Declared, empty]) hr₀
    split at h
    · rename_i hres
      cases h
      exact hdeclared.extends ((Grows.resolveEach grows_resolveType _).of_ok hres)
    · cases h

end Registry

end ObjectLang
