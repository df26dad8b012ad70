import ObjectLang.Proofs.Growth

/-!
Expansions: the class that a composite name stands for, given the templates and the plain classes of
a registry. Every type that an expansion names is spelled with parts of the composite name and of
the template.
-/

namespace ObjectLang

open CompositeName

namespace Form

mutual

theorem atoms_mapAtoms (g : String → String) (f : Form) : (f.mapAtoms g).atoms = f.atoms.map g := by
  cases f with
  | atom token => simp [mapAtoms, atoms]
  | list items => simpa [mapAtoms, atoms] using atomsOf_mapAtomsOf g items

theorem atomsOf_mapAtomsOf (g : String → String) (fs : List Form) :
    atomsOf (mapAtomsOf g fs) = (atomsOf fs).map g := by
  cases fs with
  | nil => rfl
  | cons f fs => simp [mapAtomsOf, atomsOf, atoms_mapAtoms g f, atomsOf_mapAtomsOf g fs]

end

theorem mem_atomsOf {fs : List Form} {token : String} :
    token ∈ atomsOf fs ↔ ∃ f ∈ fs, token ∈ f.atoms := by
  induction fs with
  | nil => simp [atomsOf]
  | cons f fs ih => simp [atomsOf, ih]

def Within (P : String → Prop) (f : Form) : Prop := ∀ token ∈ f.atoms, P token

theorem within_atom {P : String → Prop} {token : String} : (atom token).Within P ↔ P token := by
  simp [Within, atoms]

theorem within_list {P : String → Prop} {items : List Form} :
    (list items).Within P ↔ ∀ f ∈ items, f.Within P := by
  constructor
  · intro h f hf token htoken
    exact h token (mem_atomsOf.mpr ⟨f, hf, htoken⟩)
  · intro h token htoken
    obtain ⟨f, hf, htoken⟩ := mem_atomsOf.mp htoken
    exact h f hf token htoken

end Form

namespace Substitution

/-- A parameter is replaced by its argument and any other part stays. -/
theorem part_eq (s : Substitution) (name : String) :
    s.part name = name ∨ ∃ b ∈ s, s.part name = b.2 := by
  cases h : s.lookup name with
  | none => simp [part, h]
  | some arg =>
    obtain ⟨l₁, l₂, hl, -⟩ := List.lookup_eq_some_iff.mp h
    exact .inr ⟨(name, arg), by simp [hl], by simp [part, h]⟩

theorem plain_map_part {s : Substitution} {args : List String} (hs : ∀ b ∈ s, Plain b.2)
    (hargs : ∀ arg ∈ args, Plain arg) : ∀ arg ∈ args.map s.part, Plain arg := by
  intro arg harg
  obtain ⟨a, ha, rfl⟩ := List.mem_map.mp harg
  obtain heq | ⟨b, hb, heq⟩ := s.part_eq a
  · rw [heq]
    exact hargs a ha
  · rw [heq]
    exact hs b hb

/-- Replacing parameters in a token brings in no part but the arguments. -/
theorem mem_parts_token {s : Substitution} {token part : String} (hs : ∀ b ∈ s, Plain b.2)
    (h : part ∈ parts (s.token token)) : part ∈ parts token ∨ ∃ b ∈ s, part = b.2 := by
  unfold Substitution.token at h
  split at h
  · exact .inl h
  · cases hl : s.lookup token with
    | some arg =>
      obtain ⟨l₁, l₂, hs', -⟩ := List.lookup_eq_some_iff.mp hl
      have hmem : (token, arg) ∈ s := by simp [hs']
      have hparts := parts_of_plain (hs _ hmem)
      simp only [hl, hparts, List.mem_singleton] at h
      exact .inr ⟨_, hmem, h⟩
    | none =>
      simp only [hl] at h
      cases hsplit : split? token with
      | none =>
        simp only [hsplit] at h
        exact .inl h
      | some pair =>
        obtain ⟨template, args⟩ := pair
        have htoken := parts_of_split? hsplit
        obtain ⟨htemplate, hplain⟩ := plain_of_split? hsplit
        simp only [hsplit, parts_join htemplate (plain_map_part hs hplain)] at h
        rw [htoken]
        cases List.mem_cons.mp h with
        | inl h => exact .inl (by simp [h])
        | inr h =>
          obtain ⟨a, ha, rfl⟩ := List.mem_map.mp h
          obtain heq | hb := s.part_eq a
          · exact .inl (by simp [heq, ha])
          · exact .inr hb

theorem snd_mem_of_mem_ofLists {formals args : List String} {b : String × String}
    (h : b ∈ ofLists formals args) : b.2 ∈ args :=
  (List.of_mem_zip (List.mem_reverse.mp h)).2

end Substitution

theorem Template.expand_eq_ok {t : Template} {args : List String} {decls : List Form} :
    t.expand args = .ok decls ↔ args.length = t.formals.length ∧
      decls = t.decls.map (Form.mapAtoms (Substitution.ofLists t.formals args).token) := by
  unfold expand
  split <;> simp_all [eq_comm]

/-- The parts of an expansion's atoms are those of the template and the arguments. -/
theorem Template.mem_parts_expand {t : Template} {args : List String} {decls : List Form}
    (hargs : ∀ arg ∈ args, Plain arg) (h : t.expand args = .ok decls) {f : Form} (hf : f ∈ decls)
    {token : String} (ht : token ∈ f.atoms) {part : String}
    (hp : part ∈ CompositeName.parts token) :
    part ∈ t.parts ∨ part ∈ args := by
  obtain ⟨-, rfl⟩ := expand_eq_ok.mp h
  obtain ⟨g, hg, rfl⟩ := List.mem_map.mp hf
  rw [Form.atoms_mapAtoms] at ht
  obtain ⟨source, hsource, rfl⟩ := List.mem_map.mp ht
  have hplain : ∀ b ∈ Substitution.ofLists t.formals args, Plain b.2 := fun b hb =>
    hargs _ (Substitution.snd_mem_of_mem_ofLists hb)
  obtain hp | ⟨b, hb, rfl⟩ := Substitution.mem_parts_token hplain hp
  · exact .inl (List.mem_flatMap.mpr ⟨g, hg, List.mem_flatMap.mpr ⟨source, hsource, hp⟩⟩)
  · exact .inr (Substitution.snd_mem_of_mem_ofLists hb)

/- The types that a class body names are spelled by atoms of its declarations. -/

theorem TypeTag.eq_of_ofName {token name : String} (h : ofName token = .ofClass name) :
    token = name := by
  unfold ofName at h
  split at h
  · cases h
  · split at h
    · cases h
    · split at h
      · cases h
      · split at h
        · cases h
        · exact TypeTag.ofClass.inj h

def Form.Spells (f : Form) (t : TypeTag) : Prop := ∃ token ∈ f.atoms, t = TypeTag.ofName token

theorem Form.Spells.of_mem {items : List Form} {f : Form} {t : TypeTag} (h : f.Spells t)
    (hf : f ∈ items) : Spells (.list items) t := by
  obtain ⟨token, htoken, rfl⟩ := h
  exact ⟨token, mem_atomsOf.mpr ⟨f, hf, htoken⟩, rfl⟩

theorem Form.spells_atom (token : String) : Spells (.atom token) (.ofName token) :=
  ⟨token, by simp [atoms], rfl⟩

theorem Field.spelled {cls : String} {form : Form} {f : Field} (h : ofForm cls form = .ok f) :
    form.Spells f.type := by
  have hdeclare : ∀ type name value, declare cls type name value = .ok f →
      f.type = TypeTag.ofName type := by
    intro type name value hd
    unfold declare at hd
    split at hd
    · cases hd
    · obtain ⟨init, -, rfl⟩ := except_map_eq_ok.mp hd
      rfl
  unfold ofForm at h
  split at h
  · rw [hdeclare _ _ _ h]
    exact (Form.spells_atom _).of_mem (by simp)
  · rw [hdeclare _ _ _ h]
    exact (Form.spells_atom _).of_mem (by simp)
  · cases h

theorem Param.spelled {method : String} {before after : List Param} {form : Form}
    (h : extend method before form = .ok after) :
    ∀ p ∈ after, p ∈ before ∨ form.Spells p.type := by
  unfold extend at h
  split at h
  · split at h
    · cases h
    · split at h <;> cases h
      intro p hp
      cases List.mem_append.mp hp with
      | inl hp => exact .inl hp
      | inr hp =>
        rw [List.mem_singleton.mp hp]
        exact .inr ((Form.spells_atom _).of_mem (by simp))
  · cases h

theorem Method.spelled {form : Form} {m : Method} (h : ofForm form = .ok m) :
    ∀ t ∈ m.returns :: m.signature, form.Spells t := by
  unfold ofForm at h
  split at h
  · rename_i head returns name params body
    obtain ⟨ps, hps, rfl⟩ := except_map_eq_ok.mp h
    have hparams : ∀ p ∈ ps, ∃ f ∈ params, f.Spells p.type := by
      refine foldlM_keeps_of_mem (P := fun ps : List Param => ∀ p ∈ ps, ∃ f ∈ params,
        f.Spells p.type) ?_ (by simp) hps
      intro f hf before after hbefore hextend p hp
      obtain hp | hp := Param.spelled hextend p hp
      · exact hbefore p hp
      · exact ⟨f, hf, hp⟩
    intro t ht
    cases List.mem_cons.mp ht with
    | inl ht =>
      rw [ht]
      exact (Form.spells_atom returns).of_mem (by simp)
    | inr ht =>
      obtain ⟨p, hp, rfl⟩ := List.mem_map.mp ht
      obtain ⟨f, hf, hspells⟩ := hparams p hp
      exact (hspells.of_mem hf).of_mem (by simp)
  · cases h

namespace ClassBody

theorem add_name {b b' : ClassBody} {form : Form} (h : b.add form = .ok b') : b'.name = b.name := by
  unfold add at h
  split at h
  · obtain ⟨f, -, h⟩ := except_bind_eq_ok.mp h
    unfold addField at h
    split at h <;> cases h
    rfl
  · obtain ⟨m, -, h⟩ := except_bind_eq_ok.mp h
    unfold addMethod at h
    split at h <;> cases h
    rfl
  · cases h

theorem ofForms_name {name : String} {decls : List Form} {b : ClassBody}
    (h : ofForms name decls = .ok b) : b.name = name :=
  foldlM_keeps (P := fun b : ClassBody => b.name = name)
    (fun _ _ _ hb hadd => (add_name hadd).trans hb) rfl h

theorem mem_referencedTypes {b : ClassBody} {t : TypeTag} :
    t ∈ b.referencedTypes ↔
      (∃ f ∈ b.fields, t = f.type) ∨ ∃ m ∈ b.methods, t ∈ m.returns :: m.signature := by
  simp [referencedTypes, eq_comm]

theorem add_spelled {b b' : ClassBody} {form : Form} (h : b.add form = .ok b') :
    ∀ t ∈ b'.referencedTypes, t ∈ b.referencedTypes ∨ form.Spells t := by
  intro t ht
  rw [mem_referencedTypes] at ht ⊢
  unfold add at h
  split at h
  · obtain ⟨f, hf, h⟩ := except_bind_eq_ok.mp h
    unfold addField at h
    split at h <;> cases h
    obtain ⟨g, hg, rfl⟩ | hm := ht
    · cases List.mem_append.mp hg with
      | inl hg => exact .inl (.inl ⟨g, hg, rfl⟩)
      | inr hg =>
        rw [List.mem_singleton.mp hg]
        exact .inr (Field.spelled hf)
    · exact .inl (.inr hm)
  · obtain ⟨m, hm, h⟩ := except_bind_eq_ok.mp h
    unfold addMethod at h
    split at h <;> cases h
    obtain hf | ⟨n, hn, ht⟩ := ht
    · exact .inl (.inl hf)
    · cases List.mem_append.mp hn with
      | inl hn => exact .inl (.inr ⟨n, hn, ht⟩)
      | inr hn =>
        rw [List.mem_singleton.mp hn] at ht
        exact .inr (Method.spelled hm t ht)
  · cases h

theorem ofForms_spelled {name : String} {decls : List Form} {b : ClassBody}
    (h : ofForms name decls = .ok b) : ∀ t ∈ b.referencedTypes, ∃ f ∈ decls, f.Spells t := by
  refine foldlM_keeps_of_mem (P := fun b : ClassBody => ∀ t ∈ b.referencedTypes, ∃ f ∈ decls,
    f.Spells t) ?_ (by simp [referencedTypes]) h
  intro f hf b b' hb hadd t ht
  obtain ht | ht := add_spelled hadd t ht
  · exact hb t ht
  · exact ⟨f, hf, ht⟩

end ClassBody

/- What a composite name stands for. -/

namespace Registry

def checkType (r : Registry) : TypeTag → Except Error Unit
  | .ofClass name => if (r.find? name).isSome then .ok () else .error (.unknownClass name)
  | _ => .ok ()

def checkTypes (r : Registry) : List TypeTag → Except Error Unit
  | [] => .ok ()
  | t :: ts => (r.checkType t).bind fun _ => r.checkTypes ts

/-- The class that a composite name stands for: the expansion of its template for its arguments,
which are built in or registered. -/
def expand (r : Registry) (name : String) : Except Error Class :=
  match split? name with
  | none => .error (.unknownClass name)
  | some (template, args) =>
    match r.template? template with
    | none => .error (.unknownClass template)
    | some t =>
      (t.expand args).bind fun decls =>
        (r.checkTypes (args.map TypeTag.ofName)).bind fun _ =>
          (ClassBody.ofForms name decls).map fun body => ⟨body, []⟩

theorem expand_eq_ok {r : Registry} {name : String} {c : Class} :
    r.expand name = .ok c ↔
      ∃ template args t decls, split? name = some (template, args) ∧
        r.template? template = some t ∧ t.expand args = .ok decls ∧
        r.checkTypes (args.map TypeTag.ofName) = .ok () ∧
        ClassBody.ofForms name decls = .ok c.own ∧ c.ancestors = [] := by
  unfold expand
  cases hs : split? name with
  | none => simp
  | some pair =>
    obtain ⟨template, args⟩ := pair
    cases ht : r.template? template with
    | none => simp [ht]
    | some t =>
      simp only [ht, except_bind_eq_ok, except_map_eq_ok]
      constructor
      · intro h
        obtain ⟨decls, hd, _, hargs, body, hbody, rfl⟩ := h
        exact ⟨template, args, t, decls, rfl, ht, hd, hargs, hbody, rfl⟩
      · intro h
        obtain ⟨_, _, t', decls, hs', ht', hd, hargs, hbody, hanc⟩ := h
        cases hs'
        rw [ht] at ht'
        cases ht'
        refine ⟨decls, hd, (), hargs, c.own, hbody, ?_⟩
        rw [← hanc]

theorem expand_name {r : Registry} {name : String} {c : Class} (h : r.expand name = .ok c) :
    c.name = name := by
  obtain ⟨_, _, _, _, -, -, -, -, hbody, -⟩ := expand_eq_ok.mp h
  exact ClassBody.ofForms_name hbody

theorem not_plain_of_expand {r : Registry} {name : String} {c : Class}
    (h : r.expand name = .ok c) : ¬ Plain name := by
  intro hp
  obtain ⟨_, _, _, _, hs, -⟩ := expand_eq_ok.mp h
  rw [split?_of_plain hp] at hs
  cases hs

/-- The arguments of a composite name are plain, so that an expansion depends on the templates and
on the classes with plain names only. -/
theorem expand_congr {r r' : Registry} (ht : r'.templates = r.templates)
    (hf : ∀ name, Plain name → r'.find? name = r.find? name) (name : String) :
    r'.expand name = r.expand name := by
  unfold expand
  cases hs : split? name with
  | none => rfl
  | some pair =>
    obtain ⟨template, args⟩ := pair
    have hcheck : ∀ arg ∈ args, r'.checkType (.ofName arg) = r.checkType (.ofName arg) := by
      intro arg harg
      have hplain := (plain_of_split? hs).2 arg harg
      cases htag : TypeTag.ofName arg with
      | ofClass n =>
        have hn : arg = n := TypeTag.eq_of_ofName htag
        simp only [checkType, hf n (hn ▸ hplain)]
      | _ => rfl
    have hargs : r'.checkTypes (args.map .ofName) = r.checkTypes (args.map .ofName) := by
      clear hs
      induction args with
      | nil => rfl
      | cons arg args ih =>
        rw [List.forall_mem_cons] at hcheck
        simp only [List.map_cons, checkTypes, hcheck.1, ih hcheck.2]
    simp only [template?, ht, hargs]

/-- Every type that an expansion names is spelled with parts of the composite name and of the
templates. -/
theorem mem_parts_of_expand {r : Registry} {name other : String} {c : Class}
    (h : r.expand name = .ok c) (hn : .ofClass other ∈ c.own.referencedTypes) :
    ∀ part ∈ parts other, part ∈ parts name ++ r.templates.flatMap Template.parts := by
  intro part hpart
  obtain ⟨template, args, t, decls, hs, ht, hd, -, hbody, -⟩ := expand_eq_ok.mp h
  obtain ⟨f, hf, token, htoken, htag⟩ := ClassBody.ofForms_spelled hbody _ hn
  have hsplit := parts_of_split? hs
  have hplain := (plain_of_split? hs).2
  rw [← TypeTag.eq_of_ofName htag.symm] at hpart
  obtain hp | hp := Template.mem_parts_expand hplain hd hf htoken hpart
  · exact List.mem_append_right _ (List.mem_flatMap.mpr ⟨t, (template?_mem ht).1, hp⟩)
  · exact List.mem_append_left _ (by simp [hsplit, hp])

end Registry

end ObjectLang
