import ObjectLang.Proofs.Loading

/-!
The registry as a map from names. A catalog has its classes under keys; a class is put under its key
without a look at what is there already, and hides it. Filled by the same requests as the registry,
the catalog has each class under the name of the class, and no key comes twice in it. So nothing in
it is ever hidden, and it finds what the registry finds.
-/

namespace ObjectLang

open CompositeName

variable {α β : Type}

/-- Classes under keys, in the order in which they were put there. The last one under a key
counts. -/
structure Catalog where
  entries : List (String × Class)
  templates : List Template

abbrev Filing := EStateM Stop Catalog

namespace Catalog

def find? (k : Catalog) (key : String) : Option Class := k.entries.reverse.lookup key

def template? (k : Catalog) (name : String) : Option Template :=
  k.templates.find? fun t => t.name == name

def put (k : Catalog) (key : String) (c : Class) : Catalog :=
  { k with entries := k.entries ++ [(key, c)] }

def fail (e : Error) : Filing α := throw (.failed e)

def ofExcept : Except Error α → Filing α
  | .ok a => pure a
  | .error e => fail e

def ofType (resolve : String → Filing Class) : TypeTag → Filing Unit
  | .ofClass name => do
    let _ ← resolve name
  | _ => pure ()

def resolveEach (resolve : TypeTag → Filing Unit) : List TypeTag → Filing Unit
  | [] => pure ()
  | t :: ts => do
    resolve t
    resolveEach resolve ts

def registry (k : Catalog) : Registry := ⟨k.entries.map Prod.snd, k.templates⟩

/-- The key of an instance is put together from the name of the template and the arguments. -/
def instantiate (s : Schedule) (resolve : String → Filing Class) (template : String)
    (args : List String) : Filing Class := do
  match (← get).template? template with
  | none => fail (.unknownClass template)
  | some t =>
    let key := join t.name args
    let decls ← ofExcept (t.expand args)
    resolveEach (ofType resolve) (args.map TypeTag.ofName)
    let body ← ofExcept (ClassBody.ofForms key decls)
    modify fun k => k.put key ⟨body, []⟩
    resolveEach (ofType resolve) (s.types (← get).registry body)
    return ⟨body, []⟩

def build (s : Schedule) : Nat → String → Filing Class
  | 0, _ => throw .outOfFuel
  | fuel + 1, name => do
    match (← get).find? name with
    | some c => return c
    | none =>
      match split? name with
      | some (template, args) => instantiate s (build s fuel) template args
      | none => fail (.unknownClass name)

def resolve (s : Schedule) (name : String) : Filing Class := do
  build s (Registry.resolutionBound ⟨[], (← get).templates⟩ name) name

def resolveType (s : Schedule) : TypeTag → Filing Unit := ofType (resolve s)

end Catalog

namespace Registry

def catalog (r : Registry) : Catalog := ⟨r.classes.map fun c => (c.name, c), r.templates⟩

def Distinct (r : Registry) : Prop := (r.classes.map Class.name).Nodup

variable {r r' : Registry} {name : String} {c : Class}

theorem find?_of_mem {l : List Class} (hl : (l.map Class.name).Nodup) (hc : c ∈ l) :
    (l.find? fun d => d.name == c.name) = some c := by
  cases hd : l.find? fun d => d.name == c.name with
  | none =>
    have hname := List.find?_eq_none.mp hd c hc
    simp at hname
  | some d =>
    have hname : d.name = c.name := by simpa using List.find?_some hd
    rw [List.inj_on_of_nodup_map hl (List.mem_of_find?_eq_some hd) hc hname]

theorem Distinct.insert (h : r.Distinct) (hf : r.find? c.name = none) : (r.insert c).Distinct := by
  rw [Distinct, Registry.insert, List.map_append, List.nodup_append]
  refine ⟨h, List.nodup_singleton _, ?_⟩
  intro a ha b hb
  obtain ⟨d, hd, rfl⟩ := List.mem_map.mp ha
  rw [List.map_singleton, List.mem_singleton] at hb
  have hne := List.find?_eq_none.mp hf d hd
  simpa [hb] using hne

theorem lookup_map_name (l : List Class) (name : String) :
    (l.map fun c => (c.name, c)).lookup name = l.find? fun c => c.name == name := by
  induction l with
  | nil => rfl
  | cons c l ih =>
    rw [List.map_cons, List.lookup_cons, List.find?_cons, ih, Bool.beq_comm]

/-- From either end the same class is found under a name. -/
theorem Distinct.catalog_find? (h : r.Distinct) (name : String) :
    r.catalog.find? name = r.find? name := by
  rw [Catalog.find?, catalog, ← List.map_reverse, lookup_map_name]
  cases hc : r.find? name with
  | none =>
    rw [List.find?_eq_none]
    intro d hd
    exact List.find?_eq_none.mp hc d (List.mem_reverse.mp hd)
  | some c =>
    obtain ⟨hmem, rfl⟩ := find?_mem hc
    refine find?_of_mem ?_ (List.mem_reverse.mpr hmem)
    rw [List.map_reverse, List.nodup_reverse]
    exact h

theorem catalog_insert (r : Registry) (c : Class) :
    (r.insert c).catalog = r.catalog.put c.name c := by
  simp [catalog, Registry.insert, Catalog.put]

theorem catalog_registry (r : Registry) : r.catalog.registry = r := by
  simp [catalog, Catalog.registry, Function.comp_def]

end Registry

/- The catalog follows the registry. -/

def filed : EStateM.Result Stop Registry α → EStateM.Result Stop Catalog α
  | .ok a r => .ok a r.catalog
  | .error e r => .error e r.catalog

/-- On the catalog of the registry, the first computation does what the second does on the registry,
which has distinct names afterwards. -/
structure Follows (r : Registry) (x : Filing α) (y : Build α) : Prop where
  result : x r.catalog = filed (y r)
  distinct : (after y r).Distinct

namespace Follows

variable {r r' : Registry} {x : Filing α} {y : Build α} {f : α → Filing β} {g : α → Build β}
  {resolve : String → Filing Class} {resolve' : String → Build Class}

theorem pure (hr : r.Distinct) (a : α) : Follows r (Pure.pure a) (Pure.pure a) := ⟨rfl, hr⟩

theorem throw (hr : r.Distinct) (e : Stop) :
    Follows r (MonadExcept.throw e : Filing α) (MonadExcept.throw e) :=
  ⟨rfl, hr⟩

theorem bind (hx : Follows r x y)
    (hf : ∀ a r', r'.Distinct → y r = .ok a r' → Follows r' (f a) (g a)) :
    Follows r (x >>= f) (y >>= g) := by
  obtain ⟨hresult, hdistinct⟩ := hx
  cases hy : y r with
  | ok a r' =>
    rw [hy] at hresult
    rw [after_of_ok hy] at hdistinct
    obtain ⟨hresult', hdistinct'⟩ := hf a r' hdistinct hy
    constructor
    · rw [bind_ok hresult, bind_ok hy, hresult']
    · rwa [after_bind_of_ok hy]
  | error e r' =>
    rw [hy] at hresult
    constructor
    · rw [bind_error hresult, bind_error hy]
      rfl
    · rwa [after_bind_of_error hy]

theorem get_bind {f : Catalog → Filing α} {g : Registry → Build α}
    (h : Follows r (f r.catalog) (g r)) : Follows r (get >>= f) (get >>= g) :=
  ⟨h.result, h.distinct⟩

/-- A class is put under its name where the registry adds it. -/
theorem put_bind {c : Class} {f : Unit → Filing α} {g : Unit → Build α}
    (h : Follows (r.insert c) (f ()) (g ())) :
    Follows r ((modify fun k => k.put c.name c) >>= f) ((modify fun r => r.insert c) >>= g) := by
  refine ⟨?_, h.distinct⟩
  have hresult := h.result
  rw [Registry.catalog_insert] at hresult
  exact hresult

theorem ofExcept (hr : r.Distinct) (e : Except Error α) :
    Follows r (Catalog.ofExcept e) (Build.ofExcept e) := by
  cases e with
  | ok a => exact pure hr a
  | error e => exact throw hr _

theorem ofType (h : ∀ name, Follows r (resolve name) (resolve' name)) (hr : r.Distinct)
    (t : TypeTag) : Follows r (Catalog.ofType resolve t) (Build.ofType resolve' t) := by
  cases t with
  | ofClass name => exact (h name).bind fun _ _ hr' _ => pure hr' ()
  | _ => exact pure hr ()

theorem resolveEach (h : ∀ r name, r.Distinct → Follows r (resolve name) (resolve' name))
    (hr : r.Distinct) (ts : List TypeTag) :
    Follows r (Catalog.resolveEach (Catalog.ofType resolve) ts)
      (Build.resolveEach (Build.ofType resolve') ts) := by
  induction ts generalizing r with
  | nil => exact pure hr ()
  | cons t ts ih =>
    exact (ofType (fun name => h r name hr) hr t).bind fun _ _ hr' _ => ih hr'

end Follows

section

variable {s : Schedule}

/-- A plain name is looked up and not instantiated. -/
theorem Schedule.after_build_of_plain (fuel : Nat) {name : String} (h : Plain name)
    (r : Registry) : after (s.build fuel name) r = r := by
  cases fuel with
  | zero => rfl
  | succ fuel =>
    cases hf : r.find? name with
    | some c => exact after_of_ok (build_of_find? hf)
    | none => exact after_of_error (build_of_plain hf h)

theorem Build.of_ofExcept {e : Except Error α} {a : α} {r r' : Registry}
    (h : ofExcept e r = .ok a r') : e = .ok a ∧ r' = r := by
  cases e with
  | ok b =>
    cases h
    exact ⟨rfl, rfl⟩
  | error e => cases h

theorem Schedule.eq_of_build_args {fuel : Nat} {args : List String} {r r' : Registry}
    (hargs : ∀ arg ∈ args, Plain arg)
    (h : Build.resolveEach (Build.ofType (s.build fuel)) (args.map TypeTag.ofName) r =
      .ok () r') : r' = r := by
  induction args generalizing r with
  | nil =>
    cases h
    rfl
  | cons arg args ih =>
    rw [List.forall_mem_cons] at hargs
    obtain ⟨_, r₁, harg, hrest⟩ := bind_eq_ok.mp h
    have hsame : r₁ = r := by
      cases htag : TypeTag.ofName arg with
      | ofClass name =>
        rw [htag] at harg
        obtain ⟨c, r₂, hc, hpure⟩ := bind_eq_ok.mp harg
        cases hpure
        have hplain : Plain name := TypeTag.eq_of_ofName htag ▸ hargs.1
        exact (after_of_ok hc).symm.trans (after_build_of_plain fuel hplain r)
      | _ =>
        rw [htag] at harg
        cases harg
        rfl
    rw [ih hargs.2 hrest, hsame]

/-- The arguments are only looked up, so that the key is still free when the class is put there. -/
theorem Follows.instantiate {fuel : Nat} {name template : String} {args : List String}
    {r : Registry} (h : ∀ r name, r.Distinct → Follows r (Catalog.build s fuel name)
      (s.build fuel name))
    (hr : r.Distinct) (hf : r.find? name = none) (hs : split? name = some (template, args)) :
    Follows r (Catalog.instantiate s (Catalog.build s fuel) template args)
      (s.instantiate (s.build fuel) template args) := by
  have hplain := (plain_of_split? hs).2
  refine .get_bind ?_
  have htemplate : r.catalog.template? template = r.template? template := rfl
  rw [htemplate]
  cases ht : r.template? template with
  | none => exact .throw hr _
  | some t =>
    obtain ⟨-, rfl⟩ := Registry.template?_mem ht
    refine (Follows.ofExcept hr _).bind fun decls r₁ hd₁ hdecls => ?_
    refine (Follows.resolveEach h hd₁ _).bind fun _ r₂ hd₂ hresolved => ?_
    refine (Follows.ofExcept hd₂ _).bind fun body r₃ _ hbody => ?_
    obtain ⟨-, hr₁⟩ := Build.of_ofExcept hdecls
    have hr₂ := Schedule.eq_of_build_args hplain hresolved
    obtain ⟨hforms, hr₃⟩ := Build.of_ofExcept hbody
    subst r₁ r₂ r₃
    have hname : body.name = join t.name args := ClassBody.ofForms_name hforms
    have hfree : r.find? (Class.name ⟨body, []⟩) = none := by
      rw [Class.name, hname, join_of_split? hs]
      exact hf
    rw [← hname]
    refine .put_bind (c := ⟨body, []⟩) (.get_bind ?_)
    rw [Registry.catalog_registry]
    exact (Follows.resolveEach h (hr.insert hfree) _).bind fun _ _ hr' _ => .pure hr' _

theorem Follows.build (fuel : Nat) {r : Registry} (name : String) (hr : r.Distinct) :
    Follows r (Catalog.build s fuel name) (s.build fuel name) := by
  induction fuel generalizing r name with
  | zero => exact .throw hr _
  | succ fuel ih =>
    refine .get_bind ?_
    rw [hr.catalog_find?]
    cases hf : r.find? name with
    | some c => exact .pure hr c
    | none =>
      cases hs : split? name with
      | none => exact .throw hr _
      | some pair => exact .instantiate (fun r name hr => ih name hr) hr hf hs

theorem Follows.resolve {r : Registry} (name : String) (hr : r.Distinct) :
    Follows r (Catalog.resolve s name) (s.resolve name) := by
  have hbuild := Follows.build (s := s) (r.resolutionBound name) name hr
  have heq := Schedule.build_eq_resolve (s := s) (Nat.le_refl (r.resolutionBound name))
  refine ⟨hbuild.result.trans (congrArg filed heq), ?_⟩
  have hdistinct := hbuild.distinct
  unfold after at hdistinct ⊢
  rwa [← heq]

end

/- Requests. -/

inductive Request where
  | resolve (name : String)
  | resolveType (type : TypeTag)

def Schedule.answer (s : Schedule) : Request → Build Unit
  | .resolve name => do
    let _ ← s.resolve name
  | .resolveType t => s.resolveType t

def Catalog.answer (s : Schedule) : Request → Filing Unit
  | .resolve name => do
    let _ ← resolve s name
  | .resolveType t => resolveType s t

/-- The registry after the requests, whether they succeed or fail. -/
def Schedule.serve (s : Schedule) (r : Registry) (requests : List Request) : Registry :=
  requests.foldl (fun r q => after (s.answer q) r) r

def Catalog.serve (k : Catalog) (s : Schedule) (requests : List Request) : Catalog :=
  requests.foldl (fun k q => after (answer s q) k) k

section

variable {s : Schedule} {r r' : Registry} {name : String} {c : Class}

theorem Follows.after_eq {x : Filing α} {y : Build α} (h : Follows r x y) :
    after x r.catalog = (after y r).catalog := by
  have hresult := h.result
  cases hy : y r with
  | ok a r' =>
    rw [hy] at hresult
    rw [after_of_ok hresult, after_of_ok hy]
  | error e r' =>
    rw [hy] at hresult
    rw [after_of_error hresult, after_of_error hy]

theorem Follows.answer (hr : r.Distinct) (q : Request) :
    Follows r (Catalog.answer s q) (s.answer q) := by
  cases q with
  | resolve name => exact (Follows.resolve name hr).bind fun _ _ hr' _ => .pure hr' ()
  | resolveType t => exact .ofType (fun name => .resolve name hr) hr t

theorem Follows.serve (hr : r.Distinct) (requests : List Request) :
    r.catalog.serve s requests = (s.serve r requests).catalog ∧
      (s.serve r requests).Distinct := by
  induction requests generalizing r with
  | nil => exact ⟨rfl, hr⟩
  | cons q requests ih =>
    have hq := Follows.answer (s := s) hr q
    have hrest := ih hq.distinct
    rw [← hq.after_eq] at hrest
    exact hrest

/- What is registered stays. -/

namespace Schedule

theorem grown_answer (s : Schedule) (r : Registry) (q : Request) :
    r.Grown (fun _ => True) (after (s.answer q) r) := by
  cases q with
  | resolve name =>
    have hresolved : Resolved (fun _ => True) False r (fun _ _ => True)
        (s.answer (.resolve name) r) :=
      (s.resolved_resolve r name).bind fun _ _ _ _ => .pure trivial
    exact hresolved.grown
  | resolveType t => exact (Resolved.ofType fun n _ => s.resolved_resolve r n).grown

theorem grown_serve (s : Schedule) (r : Registry) (requests : List Request) :
    r.Grown (fun _ => True) (s.serve r requests) := by
  induction requests generalizing r with
  | nil => exact .refl r
  | cons q requests ih => exact (s.grown_answer r q).trans (ih _)

/-- What a resolution gives is found under the name that was asked for. -/
theorem find?_of_resolve (h : s.resolve name r = .ok c r') : r'.find? name = some c := by
  have hresolved := s.resolved_resolve r name
  rw [h] at hresolved
  exact hresolved.2.2

end Schedule

end

/- What is loaded. -/

def Form.className? (f : Form) : Option String :=
  match f with
  | .list (_ :: .atom name :: _) => if f.head? = some "class" then some name else none
  | _ => none

namespace Registry

variable {r r' : Registry}

theorem addClass_eq_ok {name : String} {ancestors : List ClassBody} {decls : List Form}
    (h : r.addClass name ancestors decls = .ok r') :
    r'.classes.map Class.name = r.classes.map Class.name ++ [name] := by
  obtain ⟨body, hbody, rfl⟩ := except_map_eq_ok.mp h
  rw [insert, List.map_append, List.map_singleton, Class.name, ClassBody.ofForms_name hbody]

theorem addHeir_eq_ok {name : String} {rest : List Form} (h : r.addHeir name rest = .ok r') :
    r'.classes.map Class.name = r.classes.map Class.name ++ [name] := by
  unfold addHeir at h
  split at h
  · split at h
    · split at h
      · exact addClass_eq_ok h
      · cases h
    · cases h
  · exact addClass_eq_ok h

theorem names_declare {f : Form} (h : r.declare f = .ok r') :
    r'.classes.map Class.name = r.classes.map Class.name ++ f.className?.toList := by
  unfold declare at h
  split at h
  · rename_i hhead
    unfold declareClass at h
    split at h
    · obtain ⟨_, -, h⟩ := except_bind_eq_ok.mp h
      rw [addHeir_eq_ok h, Form.className?, if_pos hhead]
      rfl
    · cases h
  · rename_i hhead
    have hnone : f.className? = none := by
      unfold Form.className?
      split
      · rw [if_neg]
        simp [hhead]
      · rfl
    unfold declareTemplate at h
    split at h
    · obtain ⟨_, -, h⟩ := except_bind_eq_ok.mp h
      split at h <;> cases h
      simp [hnone]
    · cases h
  · cases h

theorem names_declareAll {forms : List Form} (h : declareAll forms = .ok r) :
    r.classes.map Class.name = forms.filterMap Form.className? := by
  have hfold : ∀ (fs : List Form) (r₀ : Registry), fs.foldlM declare r₀ = .ok r →
      r.classes.map Class.name = r₀.classes.map Class.name ++ fs.filterMap Form.className? := by
    intro fs
    induction fs with
    | nil =>
      intro r₀ h
      cases h
      simp
    | cons f fs ih =>
      intro r₀ h
      rw [List.foldlM_cons] at h
      obtain ⟨r₁, hr₁, h⟩ := except_bind_eq_ok.mp h
      rw [ih r₁ h, names_declare hr₁, List.append_assoc, List.filterMap_cons]
      cases f.className? <;> rfl
  simpa [empty] using hfold forms empty h

theorem distinct_declareAll {forms : List Form} (h : declareAll forms = .ok r) : r.Distinct := by
  refine foldlM_keeps (fun r f r' hr hd => ?_) (by simp [Distinct, empty]) h
  obtain ⟨t, rfl⟩ | ⟨name, decls, c, hf, hbody, -, rfl⟩ := declare_cases hd
  · exact hr
  · have hname : c.name = name := ClassBody.ofForms_name hbody
    exact hr.insert (hname ▸ hf)

end Registry

namespace Catalog

def declared (forms : List Form) (r : Registry) : Catalog :=
  ⟨(forms.filterMap Form.className?).zip r.classes, r.templates⟩

def resolveMembers (s : Schedule) : List Class → Filing Unit
  | [] => pure ()
  | c :: cs => do
    resolveEach (resolveType s) (s.types (← get).registry c.own)
    resolveMembers s cs

def load (s : Schedule) (forms : List Form) : Except Stop Catalog :=
  match Registry.declareAll forms with
  | .error e => .error (.failed e)
  | .ok r =>
    match resolveMembers s (s.classes r.classes) (declared forms r) with
    | .ok _ k => .ok k
    | .error e _ => .error e

theorem declared_eq {forms : List Form} {r : Registry} (h : Registry.declareAll forms = .ok r) :
    declared forms r = r.catalog := by
  have hzip := List.zip_map' (f := Class.name) (g := id) (l := r.classes)
  rw [List.map_id] at hzip
  rw [declared, Registry.catalog, ← Registry.names_declareAll h, hzip]
  rfl

end Catalog

section

variable {s : Schedule} {r : Registry} {forms : List Form}

theorem Follows.members (hr : r.Distinct) (classes : List Class) :
    Follows r (Catalog.resolveMembers s classes) (s.resolveMembers classes) := by
  induction classes generalizing r with
  | nil => exact .pure hr ()
  | cons c cs ih =>
    refine .get_bind ?_
    rw [Registry.catalog_registry]
    exact (Follows.resolveEach (fun _ name hr => .resolve name hr) hr _).bind
      fun _ _ hr' _ => ih hr'

theorem Catalog.load_eq (s : Schedule) (forms : List Form) :
    load s forms = (s.load forms).map Registry.catalog := by
  unfold load Schedule.load
  cases hr : Registry.declareAll forms with
  | error e => rfl
  | ok r =>
    have hmembers := Follows.members (s := s) (Registry.distinct_declareAll hr)
      (s.classes r.classes)
    simp only [declared_eq hr, hmembers.result]
    cases s.resolveMembers (s.classes r.classes) r <;> rfl

theorem Schedule.distinct_load (h : s.load forms = .ok r) : r.Distinct := by
  unfold load at h
  cases hr₀ : Registry.declareAll forms with
  | error e =>
    simp only [hr₀] at h
    cases h
  | ok r₀ =>
    have hmembers := Follows.members (s := s) (Registry.distinct_declareAll hr₀)
      (s.classes r₀.classes)
    have hdistinct := hmembers.distinct
    simp only [hr₀] at h
    cases hres : s.resolveMembers (s.classes r₀.classes) r₀ with
    | error e r' =>
      simp only [hres] at h
      cases h
    | ok _ r' =>
      simp only [hres] at h
      cases h
      rwa [after_of_ok hres] at hdistinct

end

structure Catalog.Keyed (k : Catalog) : Prop where
  key : ∀ e ∈ k.entries, e.1 = e.2.name
  nodup : (k.entries.map Prod.fst).Nodup

theorem Registry.Distinct.keyed {r : Registry} (h : r.Distinct) : r.catalog.Keyed := by
  constructor
  · intro e he
    obtain ⟨c, -, rfl⟩ := List.mem_map.mp he
    rfl
  · rw [catalog, List.map_map]
    exact h

/-- The class has this name and is found under it whatever is asked for, and to resolve the name
gives the class and does nothing else. -/
def Schedule.Stays (s : Schedule) (r : Registry) (name : String) (c : Class) : Prop :=
  c.name = name ∧ ∀ more, (s.serve r more).find? name = some c ∧
    s.resolve name (s.serve r more) = .ok c (s.serve r more)

theorem Schedule.stays_of_find? {s : Schedule} {r : Registry} {name : String} {c : Class}
    (h : r.find? name = some c) : s.Stays r name c := by
  refine ⟨(Registry.find?_mem h).2, fun more => ?_⟩
  have hfound := (s.grown_serve r more).find?_of_some h
  exact ⟨hfound, resolve_of_find? hfound⟩

theorem CompositeName.exists_split? {name : String} (h : ¬ Plain name) :
    ∃ template args,
      split? name = some (template, args) ∧ args ≠ [] ∧ join template args = name := by
  cases hs : split? name with
  | none => exact absurd (plain_of_split?_none hs) h
  | some pair =>
    obtain ⟨template, args⟩ := pair
    exact ⟨template, args, rfl, (split?_eq_some.mp hs).2, join_of_split? hs⟩

/-- The registry only grows, and it is a map from names. From a loaded program on, whatever is asked
for and whether that succeeds or fails, a catalog in which classes are put under keys unseen goes
with the registry: it gives the same results, it has each class under its own name, and no key
twice, so that no instantiation has hidden a class that was there. Its entries stay in their places.
A class that is found under a name or given for it has this name, and from then on it is what is
found and given for the name. This holds in whatever order classes and their types are resolved; the
order of declaration is one of them. Names with a separator are joined from what they are split
into, and plain names that are joined are split again. -/
theorem registry_is_append_only {s : Schedule} {forms : List Form} {r : Registry}
    (h : s.load forms = .ok r) :
    (Schedule.inOrder.load forms = Registry.load forms ∧
      Schedule.inOrder.resolve = Registry.resolve ∧
      Schedule.inOrder.resolveType = Registry.resolveType) ∧
    (∃ k, Catalog.load s forms = .ok k ∧ ∀ requests,
      let k₁ := k.serve s requests
      let r₁ := s.serve r requests
      k₁ = r₁.catalog ∧ k₁.Keyed ∧ (∀ name, k₁.find? name = r₁.find? name) ∧
        (∀ name, Catalog.resolve s name k₁ = filed (s.resolve name r₁)) ∧
        (∀ more, k₁.entries <+: (k₁.serve s more).entries) ∧
        (∀ name c, r₁.find? name = some c → s.Stays r₁ name c) ∧
        ∀ name c r₂, s.resolve name r₁ = .ok c r₂ → s.Stays r₂ name c) ∧
    (∀ name, ¬ Plain name → ∃ template args,
      split? name = some (template, args) ∧ args ≠ [] ∧ join template args = name) ∧
    ∀ template args, Plain template → (∀ arg ∈ args, Plain arg) → args ≠ [] →
      split? (join template args) = some (template, args) := by
  refine ⟨⟨Schedule.load_inOrder forms, Schedule.resolve_inOrder, Schedule.resolveType_inOrder⟩,
    ⟨r.catalog, ?_, fun requests => ?_⟩, fun _ => exists_split?, fun _ _ => split?_join⟩
  · rw [Catalog.load_eq, h]
    rfl
  · intro k₁ r₁
    obtain ⟨hcatalog, hdistinct⟩ := Follows.serve (s := s) (Schedule.distinct_load h) requests
    have hk₁ : k₁ = r₁.catalog := hcatalog
    refine ⟨hk₁, hk₁ ▸ hdistinct.keyed, fun name => ?_, fun name => ?_, fun more => ?_, ?_, ?_⟩
    · rw [hk₁]
      exact hdistinct.catalog_find? name
    · rw [hk₁]
      exact (Follows.resolve name hdistinct).result
    · obtain ⟨new, hnew, -⟩ := (s.grown_serve r₁ more).classes
      rw [hk₁, (Follows.serve hdistinct more).1]
      exact List.IsPrefix.map _ ⟨new, hnew.symm⟩
    · exact fun name c hc => Schedule.stays_of_find? hc
    · exact fun name c r₂ hc => Schedule.stays_of_find? (Schedule.find?_of_resolve hc)

/-- The first request fails, and the second one registers two instances that name each other. -/
theorem twins_are_registered_once :
    ∃ r k, Registry.load Sample.twinForms = .ok r ∧
      Catalog.load .inOrder Sample.twinForms = .ok k ∧
      let requests := [Request.resolve "a@ghost", .resolveType (.ofClass "a@string")]
      (k.serve .inOrder requests).Keyed ∧ (k.serve .inOrder requests).entries.map Prod.fst =
        ["main", "a@int", "b@int", "b@bool", "a@bool", "a@string", "b@string"] ∧
      ∀ c, (Schedule.inOrder.serve r requests).find? "b@string" = some c →
        Schedule.inOrder.Stays (Schedule.inOrder.serve r requests) "b@string" c := by
  have heval : (Schedule.inOrder.load Sample.twinForms).toOption.map (fun r =>
      (Schedule.inOrder.serve r
        [.resolve "a@ghost", .resolveType (.ofClass "a@string")]).classes.map Class.name) =
        some ["main", "a@int", "b@int", "b@bool", "a@bool", "a@string", "b@string"] := by
    decide +kernel
  obtain ⟨r, hr, hnames⟩ := Option.map_eq_some_iff.mp heval
  have hload : Schedule.inOrder.load Sample.twinForms = .ok r := except_toOption_eq_some.mp hr
  obtain ⟨⟨hinOrder, -, -⟩, ⟨k, hk, hserve⟩, -, -⟩ := registry_is_append_only hload
  obtain ⟨hcatalog, hkeyed, -, -, -, hstays, -⟩ :=
    hserve [.resolve "a@ghost", .resolveType (.ofClass "a@string")]
  refine ⟨r, k, hinOrder.symm.trans hload, hk, hkeyed, ?_, hstays "b@string"⟩
  rw [hcatalog, Registry.catalog, List.map_map]
  exact hnames

end ObjectLang
