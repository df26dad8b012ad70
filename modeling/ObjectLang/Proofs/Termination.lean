import Mathlib.Data.List.Sections
import Mathlib.Logic.Relation
import ObjectLang.Proofs.Resolution

/-!
Resolution ends. Every name that it reaches is spelled with the parts of the first name and of the
templates, so that the names that it may instantiate are finitely many, and each instantiation
registers one more of them before it goes on to the next.
-/

namespace ObjectLang

open CompositeName

/- Computations with less fuel. -/

def Approximates (x y : Build α) : Prop := ∀ r, (∃ r', x r = .error .outOfFuel r') ∨ x r = y r

namespace Approximates

theorem refl (x : Build α) : Approximates x x := fun _ => .inr rfl

theorem trans {x y z : Build α} (h : Approximates x y) (h' : Approximates y z) :
    Approximates x z := by
  intro r
  obtain hx | hx := h r
  · exact .inl hx
  · rw [hx]
    exact h' r

theorem bind {x y : Build α} {f g : α → Build β} (hx : Approximates x y)
    (hf : ∀ a, Approximates (f a) (g a)) : Approximates (x >>= f) (y >>= g) := by
  intro r
  obtain ⟨r', hout⟩ | heq := hx r
  · exact .inl ⟨r', bind_error hout f⟩
  · cases hy : y r with
    | ok a r' =>
      rw [bind_ok (heq.trans hy), bind_ok hy]
      exact hf a r'
    | error e r' =>
      rw [bind_error (heq.trans hy), bind_error hy]
      exact .inr rfl

theorem resolveEach {f g : TypeTag → Build Unit} (h : ∀ t, Approximates (f t) (g t))
    (ts : List TypeTag) : Approximates (Build.resolveEach f ts) (Build.resolveEach g ts) := by
  induction ts with
  | nil => exact refl _
  | cons t ts ih => exact (h t).bind fun _ => ih

theorem ofType {f g : String → Build Class} (h : ∀ n, Approximates (f n) (g n)) (t : TypeTag) :
    Approximates (Build.ofType f t) (Build.ofType g t) := by
  cases t with
  | ofClass name => exact (h name).bind fun _ => refl _
  | _ => exact refl _

theorem level (s : Schedule) {f g : String → Build Class} (h : ∀ n, Approximates (f n) (g n))
    (name : String) : Approximates (s.level f name) (s.level g name) := by
  intro r
  unfold Schedule.level
  cases r.find? name with
  | some c => exact .inr rfl
  | none =>
    cases r.expand name with
    | error e => exact .inr rfl
    | ok c => exact (resolveEach (ofType h) _).bind (fun _ => refl _) (r.insert c)

end Approximates

namespace Schedule

variable (s : Schedule)

theorem levels_le {fuel fuel' : Nat} (h : fuel ≤ fuel') (name : String) :
    Approximates (s.levels fuel name) (s.levels fuel' name) := by
  induction fuel generalizing fuel' name with
  | zero => exact fun r => .inl ⟨r, rfl⟩
  | succ fuel ih =>
    obtain ⟨n, rfl⟩ : ∃ n, fuel' = n + 1 := ⟨fuel' - 1, by omega⟩
    exact .level s (fun n => ih (by omega) n) name

theorem levels_build (fuel : Nat) (name : String) :
    Approximates (s.levels fuel name) (s.build (fuel + 1) name) := by
  induction fuel generalizing name with
  | zero => exact fun r => .inl ⟨r, rfl⟩
  | succ fuel ih =>
    rw [build_level]
    exact .level s ih name

end Schedule

/- The names that resolution may instantiate. -/

namespace Registry

def alphabet (r : Registry) (name : String) : List String :=
  parts name ++ r.templates.flatMap Template.parts

theorem plain_of_mem_alphabet {r : Registry} {name part : String} (h : part ∈ r.alphabet name) :
    Plain part := by
  cases List.mem_append.mp h with
  | inl h => exact plain_of_mem_parts h
  | inr h =>
    obtain ⟨t, -, h⟩ := List.mem_flatMap.mp h
    obtain ⟨f, -, h⟩ := List.mem_flatMap.mp h
    obtain ⟨token, -, h⟩ := List.mem_flatMap.mp h
    exact plain_of_mem_parts h

def Spelled (r : Registry) (name other : String) : Prop :=
  ∀ part ∈ parts other, part ∈ r.alphabet name

/-- Every template with as many parts as it has parameters. -/
def instanceNames (r : Registry) (name : String) : List String :=
  r.templates.flatMap fun t =>
    (List.replicate t.formals.length (r.alphabet name)).sections.map (join t.name)

theorem length_sections (ps : List String) (n : Nat) :
    (List.replicate n ps).sections.length = Nat.pow ps.length n := by
  induction n with
  | zero => rfl
  | succ n ih =>
    have hpow : Nat.pow ps.length (n + 1) = Nat.pow ps.length n * ps.length := rfl
    rw [hpow, ← ih]
    simp [List.replicate_succ, List.sections, List.length_flatMap]

theorem length_instanceNames (r : Registry) (name : String) :
    (r.instanceNames name).length + 2 = r.resolutionBound name := by
  have hcount : ∀ (ps : List String) (ts : List Template),
      (ts.flatMap fun t =>
        (List.replicate t.formals.length ps).sections.map (join t.name)).length + 2 =
        ts.foldr (fun t n => Nat.pow ps.length t.formals.length + n) 2 := by
    intro ps ts
    induction ts with
    | nil => rfl
    | cons t ts ih =>
      simp only [List.flatMap_cons, List.length_append, List.length_map, length_sections,
        List.foldr_cons, ← ih, Nat.add_assoc]
  exact hcount (r.alphabet name) r.templates

theorem mem_instanceNames {r : Registry} {name other : String} {c : Class}
    (h : r.Spelled name other) (hc : r.expand other = .ok c) :
    ∃ t ∈ r.templates, ∃ args, other = join t.name args ∧ args.length = t.formals.length ∧
      (∀ arg ∈ args, arg ∈ r.alphabet name) ∧ other ∈ r.instanceNames name := by
  obtain ⟨template, args, t, decls, hs, ht, hd, -, -, -⟩ := expand_eq_ok.mp hc
  obtain ⟨hmem, rfl⟩ := template?_mem ht
  have hlength := (Template.expand_eq_ok.mp hd).1
  have hargs : ∀ arg ∈ args, arg ∈ r.alphabet name := by
    intro arg harg
    exact h arg (by simp [parts_of_split? hs, harg])
  have hsection : args ∈ (List.replicate t.formals.length (r.alphabet name)).sections := by
    rw [List.mem_sections, List.forall₂_iff_get]
    refine ⟨by simp [hlength], ?_⟩
    intro i hi _
    simpa using hargs _ (List.getElem_mem hi)
  refine ⟨t, hmem, args, (join_of_split? hs).symm, hlength, hargs, ?_⟩
  rw [← join_of_split? hs]
  exact List.mem_flatMap.mpr ⟨t, hmem, List.mem_map_of_mem hsection⟩

theorem spelled_closed (r : Registry) (name : String) : r.Closed (r.Spelled name) := by
  intro a c ha _ hc b hb part hpart
  have hpart := mem_parts_of_expand hc hb part hpart
  cases List.mem_append.mp hpart with
  | inl hpart => exact ha part hpart
  | inr hpart => exact List.mem_append_right _ hpart

/-- Any closed set of names can be cut down to those that the first name spells. -/
theorem Closed.region {r : Registry} {P : String → Prop} (h : r.Closed P) (name : String) :
    r.Region (fun n => P n ∧ r.Spelled name n) (r.instanceNames name) := by
  constructor
  · intro a c ha hf hc b hb
    exact ⟨h a c ha.1 hf hc b hb, r.spelled_closed name a c ha.2 hf hc b hb⟩
  · intro a c ha _ hc
    obtain ⟨_, _, _, -, -, -, hmem⟩ := mem_instanceNames ha.2 hc
    exact hmem

theorem spelled_self (r : Registry) (name : String) : r.Spelled name name :=
  fun _ h => List.mem_append_left _ h

end Registry

/- Resolution without fuel. -/

namespace Schedule

variable {s : Schedule} {r : Registry} {name : String}

theorem levels_ends {fuel : Nat} (h : r.rank (r.instanceNames name) < fuel) (r' : Registry) :
    s.levels fuel name r ≠ .error .outOfFuel r' := by
  have hregion := (r.spelled_closed name).region name
  have hname := r.spelled_self name
  have hresolved := s.levels_resolved fuel hregion ⟨hname, hname⟩
  intro hout
  rw [hout] at hresolved
  exact absurd h (Nat.not_lt.mpr hresolved)

theorem build_eq_levels {fuel fuel' : Nat} (h : r.rank (r.instanceNames name) < fuel)
    (h' : fuel < fuel') : s.build fuel' name r = s.levels fuel name r := by
  obtain ⟨n, rfl⟩ : ∃ n, fuel' = n + 1 := ⟨fuel' - 1, by omega⟩
  have happrox := (s.levels_le (Nat.lt_succ_iff.mp h') name).trans (s.levels_build n name)
  obtain ⟨r', hout⟩ | heq := happrox r
  · exact absurd hout (levels_ends h r')
  · exact heq.symm

theorem rank_lt_bound (r : Registry) (name : String) :
    r.rank (r.instanceNames name) + 1 < r.resolutionBound name := by
  have hlength := r.length_instanceNames name
  have hrank : r.rank (r.instanceNames name) ≤ (r.instanceNames name).length :=
    List.countP_le_length
  omega

theorem resolve_eq_levels :
    s.resolve name r = s.levels (r.rank (r.instanceNames name) + 1) name r := by
  refine (bind_ok (x := get) rfl _).trans ?_
  cases hf : r.find? name with
  | some c =>
    simp only [levels, level, hf]
    rfl
  | none =>
    have hbuild := build_eq_levels (s := s) (Nat.lt_succ_self _) (rank_lt_bound r name)
    exact (bind_ok (x := get) rfl _).trans hbuild

/-- More fuel than the bound changes nothing. -/
theorem build_eq_resolve {fuel : Nat} (h : r.resolutionBound name ≤ fuel) :
    s.build fuel name r = s.resolve name r := by
  have hbound := rank_lt_bound r name
  rw [resolve_eq_levels]
  exact build_eq_levels (Nat.lt_succ_self _) (by omega)

theorem levels_resolve (s : Schedule) (fuel : Nat) (name : String) :
    Approximates (s.levels fuel name) (s.resolve name) := by
  intro r
  rw [resolve_eq_levels]
  by_cases hle : fuel ≤ r.rank (r.instanceNames name) + 1
  · exact s.levels_le hle name r
  · obtain ⟨r', hout⟩ | heq := s.levels_le (Nat.le_of_not_le hle) name r
    · exact absurd hout (levels_ends (Nat.lt_succ_self _) r')
    · exact .inr heq.symm

/-- The recursion of resolution, with no fuel in it. -/
theorem resolve_level (s : Schedule) (name : String) : s.resolve name = s.level s.resolve name := by
  funext r
  -- One level more than the rank is enough, and below it the levels approximate resolution itself.
  have happrox := Approximates.level s (s.levels_resolve (r.rank (r.instanceNames name))) name r
  obtain ⟨r', hout⟩ | heq := happrox
  · exact absurd hout (levels_ends (Nat.lt_succ_self _) r')
  · rw [resolve_eq_levels]
    exact heq

/-- Resolving a name of a closed set ends. It adds names of the set only. -/
theorem resolve_resolved {P : String → Prop} (hclosed : r.Closed P) (hname : P name) :
    Resolved P False r (fun c r' => r'.find? name = some c) (s.resolve name r) := by
  have hresolved := s.levels_resolved (r.rank (r.instanceNames name) + 1) (hclosed.region name)
    ⟨hname, r.spelled_self name⟩
  rw [resolve_eq_levels]
  refine hresolved.mono (fun _ h => h.1) ?_ fun _ _ _ h => h
  intro hle
  omega

theorem resolveEach_resolved {P : String → Prop} {ts : List TypeTag} (hclosed : r.Closed P)
    (h : ∀ n, .ofClass n ∈ ts → P n) :
    Resolved P False r (fun _ r' => ∀ n, .ofClass n ∈ ts → (r'.find? n).isSome)
      (Build.resolveEach s.resolveType ts r) := by
  refine .resolveEach fun r' hr t ht => .ofType fun n hn => ?_
  rw [hn] at ht
  exact resolve_resolved (hclosed.grown hr) (h n ht)

/-- Resolving any name ends. -/
theorem resolved_resolve (s : Schedule) (r : Registry) (name : String) :
    Resolved (fun _ => True) False r (fun c r' => r'.find? name = some c) (s.resolve name r) :=
  resolve_resolved r.closed_true trivial

theorem resolve_of_find? {c : Class} (h : r.find? name = some c) : s.resolve name r = .ok c r := by
  rw [resolve_level]
  simp only [level, h]

theorem resolve_of_expand_error {err : Error} (hf : r.find? name = none)
    (h : r.expand name = .error err) : s.resolve name r = .error (.failed err) r := by
  rw [resolve_level]
  simp only [level, hf, h]

/- The nesting of instantiations. -/

/-- While the name of the first pair is resolved in its registry, that of the second is: the first
is instantiated, and the types that it names before the second have been resolved. -/
def Nests (s : Schedule) (p q : Registry × String) : Prop :=
  p.1.find? p.2 = none ∧ ∃ c before rest, p.1.expand p.2 = .ok c ∧
    s.types (p.1.insert c) c.own = before ++ .ofClass q.2 :: rest ∧
    Build.resolveEach s.resolveType before (p.1.insert c) = .ok () q.1

section

variable {P : String → Prop} {U : List String} {p q : Registry × String}

/-- Each nested resolution starts with one more name of the region registered. -/
theorem Nests.step (h : s.Nests p q) (hregion : p.1.Region P U) (hp : P p.2) :
    p.1.Grown P q.1 ∧ P q.2 ∧ p.2 ∈ U ∧ (q.1.find? p.2).isSome ∧ q.1.rank U < p.1.rank U := by
  obtain ⟨hf, c, before, rest, hc, htypes, hbefore⟩ := h
  have hU := hregion.finite p.2 c hp hf hc
  have hinsert : p.1.Grown P (p.1.insert c) := .insert hp hf hc
  have hnamed : ∀ n, .ofClass n ∈ s.types (p.1.insert c) c.own → P n := by
    intro n hn
    rw [(s.types_perm (p.1.insert c) c.own).mem_iff] at hn
    exact hregion.closed p.2 c hp hf hc n hn
  rw [htypes] at hnamed
  have hresolved : Resolved P False (p.1.insert c)
      (fun _ r' => ∀ n, .ofClass n ∈ before → (r'.find? n).isSome) (.ok () q.1) := by
    rw [← hbefore]
    refine resolveEach_resolved (hregion.closed.grown hinsert) fun n hn => hnamed n ?_
    exact List.mem_append_left _ hn
  obtain ⟨hr, -, -⟩ := hresolved
  have hfound := hr.find?_of_some (Registry.find?_insert_expand hf hc)
  have hrank := Nat.lt_of_le_of_lt (hr.rank_le U) (Registry.rank_insert_lt hU hf hc)
  exact ⟨hinsert.trans hr, hnamed q.2 (by simp), hU, by simp [hfound], hrank⟩

/-- A chain of nested resolutions stays in the region. -/
theorem Nests.run (h : Relation.ReflTransGen s.Nests p q) (hregion : p.1.Region P U)
    (hp : P p.2) : p.1.Grown P q.1 ∧ P q.2 := by
  induction h with
  | refl => exact ⟨.refl p.1, hp⟩
  | tail _ hstep ih =>
    obtain ⟨hr, hq⟩ := ih
    obtain ⟨hr', hq', -, -, -⟩ := hstep.step (hregion.grown hr) hq
    exact ⟨hr.trans hr', hq'⟩

theorem Nests.acc (s : Schedule) (hregion : p.1.Region P U) (hp : P p.2) :
    Acc (fun q p => s.Nests p q) p := by
  induction hn : p.1.rank U using Nat.strongRecOn generalizing p with
  | ind n ih =>
    refine Acc.intro p fun q hq => ?_
    obtain ⟨hr, hq', -, -, hrank⟩ := hq.step hregion hp
    exact ih _ (hn ▸ hrank) (hregion.grown hr) hq' rfl

end

end Schedule

/- The order of declaration. -/

namespace Registry

variable {r : Registry} {name : String}

theorem resolve_level (name : String) :
    resolve name = Schedule.inOrder.level resolve name := by
  rw [← Schedule.resolve_inOrder]
  exact Schedule.inOrder.resolve_level name

theorem resolve_of_find? {c : Class} (h : r.find? name = some c) : resolve name r = .ok c r := by
  rw [← Schedule.resolve_inOrder]
  exact Schedule.resolve_of_find? h

theorem resolve_of_expand_error {err : Error} (hf : r.find? name = none)
    (h : r.expand name = .error err) : resolve name r = .error (.failed err) r := by
  rw [← Schedule.resolve_inOrder]
  exact Schedule.resolve_of_expand_error hf h

theorem resolved_resolve (r : Registry) (name : String) :
    Resolved (fun _ => True) False r (fun c r' => r'.find? name = some c) (resolve name r) := by
  rw [← Schedule.resolve_inOrder]
  exact Schedule.inOrder.resolved_resolve r name

end Registry

/-- Resolution ends, with a class or with an error, whatever the templates are and in whatever order
the types of a class are resolved; the order of declaration is one of them. It is the recursion that
has no fuel in it, and fuel beyond the bound changes nothing. The resolutions nested in it form no
endless chain. Each name that they reach is spelled with the parts of the first name and of the
templates, which are plain, and what they instantiate is a template joined with as many such parts
as it has parameters. An instantiation registers a name that was not registered, so that each nested
resolution finds fewer of these names still missing. -/
theorem resolution_ends (s : Schedule) (r : Registry) (name : String) :
    (Schedule.inOrder.resolve = Registry.resolve ∧ Schedule.inOrder.build = Build.resolve) ∧
    ((∃ c r', s.resolve name r = .ok c r') ∨ ∃ e r', s.resolve name r = .error (.failed e) r') ∧
    s.resolve name r = s.level s.resolve name r ∧
    (∀ fuel, r.resolutionBound name ≤ fuel → s.build fuel name r = s.resolve name r) ∧
    Acc (fun q p => s.Nests p q) (r, name) ∧
    (∀ part ∈ r.alphabet name, Plain part) ∧
    ∀ p, Relation.ReflTransGen s.Nests (r, name) p →
      r.Spelled name p.2 ∧
      (∀ c, p.1.find? p.2 = none → p.1.expand p.2 = .ok c →
        ∃ t ∈ r.templates, ∃ args, p.2 = join t.name args ∧ args.length = t.formals.length ∧
          ∀ arg ∈ args, arg ∈ r.alphabet name) ∧
      ∀ q, s.Nests p q → p.2 ∈ r.instanceNames name ∧
        p.1.find? p.2 = none ∧ (q.1.find? p.2).isSome ∧
        q.1.rank (r.instanceNames name) < p.1.rank (r.instanceNames name) := by
  have hclosed := r.spelled_closed name
  have hregion := hclosed.region name
  have hname := r.spelled_self name
  refine ⟨⟨Schedule.resolve_inOrder, funext Schedule.build_inOrder⟩, ?_,
    congrFun (s.resolve_level name) r, fun _ => Schedule.build_eq_resolve,
    Schedule.Nests.acc s hregion ⟨hname, hname⟩, fun _ => Registry.plain_of_mem_alphabet, ?_⟩
  · have hresolved := s.resolved_resolve r name
    cases hres : s.resolve name r with
    | ok c r' => exact .inl ⟨c, r', rfl⟩
    | error e r' =>
      rw [hres] at hresolved
      cases e with
      | failed e => exact .inr ⟨e, r', rfl⟩
      | outOfFuel => exact hresolved.elim
  · intro p hp
    obtain ⟨hr, -, hspelled⟩ := Schedule.Nests.run hp hregion ⟨hname, hname⟩
    refine ⟨hspelled, ?_, ?_⟩
    · intro c _ hc
      rw [hr.expand_eq] at hc
      obtain ⟨t, ht, args, heq, hlength, hargs, -⟩ := Registry.mem_instanceNames hspelled hc
      exact ⟨t, ht, args, heq, hlength, hargs⟩
    · intro q hq
      obtain ⟨-, -, hU, hfound, hrank⟩ := hq.step (hregion.grown hr) ⟨hspelled, hspelled⟩
      exact ⟨hU, hq.1, hfound, hrank⟩

def Sample.twins : Registry :=
  ⟨[], [⟨"a", ["t", "u"], [.list [.atom "field", .atom "b@u@t", .atom "x"]]⟩,
    ⟨"b", ["t", "u"], [.list [.atom "field", .atom "a@u@t", .atom "y"]]⟩]⟩

/-- Resolving `a@int@bool` goes on to `b@bool@int`, with one name less to instantiate. -/
theorem twins_end :
    ∃ c, Schedule.inOrder.Nests (Sample.twins, "a@int@bool")
        (Sample.twins.insert c, "b@bool@int") ∧
      Sample.twins.Spelled "a@int@bool" "b@bool@int" ∧
      (Sample.twins.insert c).rank (Sample.twins.instanceNames "a@int@bool") <
        Sample.twins.rank (Sample.twins.instanceNames "a@int@bool") := by
  have htypes : (Sample.twins.expand "a@int@bool").toOption.map (fun c => c.own.referencedTypes) =
      some [.ofClass "b@bool@int"] := by decide +kernel
  obtain ⟨c, hc, htypes⟩ := Option.map_eq_some_iff.mp htypes
  have hexpand : Sample.twins.expand "a@int@bool" = .ok c := except_toOption_eq_some.mp hc
  have hnests : Schedule.inOrder.Nests (Sample.twins, "a@int@bool")
      (Sample.twins.insert c, "b@bool@int") := ⟨rfl, c, [], [], hexpand, htypes, rfl⟩
  obtain ⟨-, -, -, -, -, -, hreach⟩ := resolution_ends .inOrder Sample.twins "a@int@bool"
  obtain ⟨-, -, hnext⟩ := hreach _ .refl
  obtain ⟨-, -, -, hrank⟩ := hnext _ hnests
  exact ⟨_, hnests, (hreach _ (.single hnests)).1, hrank⟩

end ObjectLang
