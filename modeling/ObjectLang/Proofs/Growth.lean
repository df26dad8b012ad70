import ObjectLang.Proofs.Computation
import ObjectLang.Registry

/-!
Registries only grow: whatever resolving a name does and however it ends, the classes that were
registered stay where they were, and each new one is the expansion of a template.
-/

namespace ObjectLang

variable {α β : Type}

namespace Registry

def Expands (r : Registry) (c : Class) : Prop :=
  ∃ t ∈ r.templates, ∃ args decls, t.expand args = .ok decls ∧
    ClassBody.ofForms (CompositeName.join t.name args) decls = .ok c.own ∧ c.ancestors = []

structure Extends (r r' : Registry) : Prop where
  templates : r'.templates = r.templates
  classes : ∃ new, r'.classes = r.classes ++ new ∧ ∀ c ∈ new, r.Expands c

namespace Extends

theorem refl (r : Registry) : r.Extends r := ⟨rfl, [], by simp, by simp⟩

theorem mem {r r' : Registry} (h : r.Extends r') {c : Class} (hc : c ∈ r.classes) :
    c ∈ r'.classes := by
  obtain ⟨new, hnew, -⟩ := h.classes
  rw [hnew]
  exact List.mem_append_left _ hc

theorem insert {r r' : Registry} (h : r.Extends r') {c : Class} (hc : r.Expands c) :
    r.Extends (r'.insert c) := by
  obtain ⟨new, hnew, hexp⟩ := h.classes
  refine ⟨h.templates, new ++ [c], by simp [Registry.insert, hnew], ?_⟩
  intro d hd
  cases List.mem_append.mp hd with
  | inl hd => exact hexp d hd
  | inr hd =>
    rwa [List.mem_singleton.mp hd]

end Extends

theorem template?_mem {r : Registry} {name : String} {t : Template}
    (h : r.template? name = some t) : t ∈ r.templates ∧ t.name = name :=
  ⟨List.mem_of_find?_eq_some h, by simpa using List.find?_some h⟩

theorem find?_mem {r : Registry} {name : String} {c : Class} (h : r.find? name = some c) :
    c ∈ r.classes ∧ c.name = name :=
  ⟨List.mem_of_find?_eq_some h, by simpa using List.find?_some h⟩

end Registry

def Grows (x : Build α) : Prop := ∀ r : Registry, Keeps r.Extends x

namespace Grows

variable {x : Build α} {f : α → Build β} {resolve : String → Build Class}

theorem after (h : Grows x) (r : Registry) : r.Extends (after x r) := (h r).after (.refl r)

theorem of_ok (h : Grows x) {r r' : Registry} {a : α} (hx : x r = .ok a r') : r.Extends r' :=
  Triple.ok (h r) (.refl r) hx

theorem pure (a : α) : Grows (pure a) := fun _ => .pure a

theorem throw (e : Stop) : Grows (throw e : Build α) := fun _ => .throw e

theorem fail (e : Error) : Grows (Build.fail e : Build α) := throw _

theorem bind (hx : Grows x) (hf : ∀ a, Grows (f a)) : Grows (x >>= f) :=
  fun r => (hx r).bind fun a => hf a r

theorem ofExcept_bind {P : Registry → Prop} {e : Except Error α}
    (h : ∀ a, e = .ok a → Keeps P (f a)) : Keeps P (Build.ofExcept e >>= f) := by
  cases e with
  | ok a => exact h a rfl
  | error e => exact .throw _

theorem get : Grows get := fun _ => .get

theorem resolveEach {resolve : TypeTag → Build Unit} (hr : ∀ t, Grows (resolve t))
    (ts : List TypeTag) : Grows (Build.resolveEach resolve ts) := by
  induction ts with
  | nil => exact pure ()
  | cons t ts ih => exact (hr t).bind fun _ => ih

theorem ofType (hr : ∀ name, Grows (resolve name)) (t : TypeTag) :
    Grows (Build.ofType resolve t) := by
  cases t with
  | ofClass name => exact (hr name).bind fun _ => pure ()
  | _ => exact pure ()

theorem instantiate (hr : ∀ name, Grows (resolve name)) (template : String) (args : List String) :
    Grows (Build.instantiate resolve template args) := by
  intro r
  refine .get_bind fun s hs => ?_
  cases ht : s.template? template with
  | none => exact fail _ r
  | some t =>
    obtain ⟨hmem, rfl⟩ := Registry.template?_mem ht
    refine ofExcept_bind fun decls hd => (resolveEach (ofType hr) _ r).bind fun _ =>
      ofExcept_bind fun body hb => .bind (.modify fun s' hs' => hs'.insert ?_) fun _ =>
        (resolveEach (ofType hr) _ r).bind fun _ => .pure _
    exact ⟨t, hs.templates ▸ hmem, args, decls, hd, hb, rfl⟩

theorem build (fuel : Nat) (name : String) : Grows (Build.resolve fuel name) := by
  induction fuel generalizing name with
  | zero => exact throw _
  | succ fuel ih =>
    refine get.bind fun s => ?_
    split
    · exact pure _
    · split
      · exact instantiate ih _ _
      · exact fail _

end Grows

def Registers (x : Build Class) : Prop :=
  Triple (fun _ => True) x (fun c r => c ∈ r.classes) fun _ _ => True

namespace Registers

theorem fail (e : Error) : Registers (Build.fail e) := .throw fun _ _ => trivial

theorem instantiate {resolve : String → Build Class} (hr : ∀ name, Grows (resolve name))
    (template : String) (args : List String) :
    Registers (Build.instantiate resolve template args) := by
  intro r _
  cases h : Build.instantiate resolve template args r with
  | error e s => trivial
  | ok c s =>
    obtain ⟨s₁, r₁, hget, h⟩ := bind_eq_ok.mp h
    cases ht : s₁.template? template with
    | none =>
      rw [ht] at h
      cases h
    | some t =>
      rw [ht] at h
      obtain ⟨decls, r₂, -, h⟩ := bind_eq_ok.mp h
      obtain ⟨_, r₃, -, h⟩ := bind_eq_ok.mp h
      obtain ⟨body, r₄, -, h⟩ := bind_eq_ok.mp h
      obtain ⟨_, r₅, hinsert, h⟩ := bind_eq_ok.mp h
      obtain ⟨_, r₆, htypes, h⟩ := bind_eq_ok.mp h
      cases h
      cases hinsert
      refine ((Grows.resolveEach (Grows.ofType hr) _).of_ok htypes).mem ?_
      simp [Registry.insert]

theorem build (fuel : Nat) (name : String) : Registers (Build.resolve fuel name) := by
  cases fuel with
  | zero => exact .throw fun _ _ => trivial
  | succ fuel =>
    refine Triple.get.bind fun s => ?_
    cases hc : s.find? name with
    | some c =>
      refine .pure ?_
      intro r hr
      obtain ⟨rfl, -⟩ := hr
      exact (Registry.find?_mem hc).1
    | none =>
      refine Triple.mono (P := fun _ => True) ?_ (fun _ _ => trivial) (fun _ _ h => h)
        fun _ _ h => h
      simp only
      split
      · exact instantiate (Grows.build fuel) _ _
      · exact fail _

end Registers

theorem Registry.grows_resolve (name : String) : Grows (resolve name) := by
  refine Grows.get.bind fun s => ?_
  split
  · exact .pure _
  · exact Grows.get.bind fun s' => .build _ name

theorem Registry.mem_of_resolve {name : String} {r r' : Registry} {c : Class}
    (h : resolve name r = .ok c r') : c ∈ r'.classes := by
  obtain ⟨s, r₁, hget, h⟩ := bind_eq_ok.mp h
  cases hget
  cases hc : r.find? name with
  | some d =>
    simp only [hc] at h
    cases h
    exact (find?_mem hc).1
  | none =>
    simp only [hc] at h
    exact (Registers.build _ name).ok trivial h

theorem Registry.grows_resolveType (t : TypeTag) : Grows (resolveType t) :=
  .ofType grows_resolve t

end ObjectLang
