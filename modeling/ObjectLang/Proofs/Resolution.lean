import ObjectLang.Proofs.Schedule

/-!
What resolution adds to a registry. The new classes are the expansions of names that were not
registered, and once a resolution has succeeded, every type that a new class names is registered
too. While it runs this holds of all new classes but those whose types are still being resolved.
-/

namespace ObjectLang

open CompositeName

namespace Registry

theorem find?_insert_of_some {r : Registry} {name : String} {c d : Class}
    (h : r.find? name = some c) : (r.insert d).find? name = some c := by
  unfold find? at h
  simp [find?, insert, List.find?_append, h]

theorem find?_insert_self {r : Registry} {c : Class} (h : r.find? c.name = none) :
    (r.insert c).find? c.name = some c := by
  unfold find? at h
  simp only [find?, insert, List.find?_append, h, Option.none_or, List.find?_cons, beq_self_eq_true]

theorem find?_insert_expand {r : Registry} {name : String} {c : Class} (hf : r.find? name = none)
    (hc : r.expand name = .ok c) : (r.insert c).find? name = some c := by
  have hname := expand_name hc
  subst hname
  exact find?_insert_self hf

def meaning? (r : Registry) (name : String) : Option Class :=
  (r.find? name).or (r.expand name).toOption

/-- The second registry has the classes of the first, followed by the expansions of names in `P`
that the first does not have. -/
structure Grown (P : String → Prop) (r r' : Registry) : Prop where
  templates : r'.templates = r.templates
  classes : ∃ new, r'.classes = r.classes ++ new ∧
    ∀ c ∈ new, P c.name ∧ r.find? c.name = none ∧ r.expand c.name = .ok c

namespace Grown

variable {P Q : String → Prop} {r r₁ r₂ : Registry}

theorem refl (r : Registry) : r.Grown P r := ⟨rfl, [], by simp, by simp⟩

theorem mono (hr : r.Grown P r₁) (h : ∀ n, P n → Q n) : r.Grown Q r₁ := by
  obtain ⟨new, happend, hnew⟩ := hr.classes
  refine ⟨hr.templates, new, happend, ?_⟩
  intro c hc
  obtain ⟨hp, hc⟩ := hnew c hc
  exact ⟨h _ hp, hc⟩

theorem insert {name : String} {c : Class} (hp : P name) (hf : r.find? name = none)
    (hc : r.expand name = .ok c) : r.Grown P (r.insert c) := by
  refine ⟨rfl, [c], rfl, ?_⟩
  intro d hd
  rw [List.mem_singleton.mp hd, expand_name hc]
  exact ⟨hp, hf, hc⟩

theorem mem (h : r.Grown P r₁) {c : Class} (hc : c ∈ r.classes) : c ∈ r₁.classes := by
  obtain ⟨new, happend, -⟩ := h.classes
  rw [happend]
  exact List.mem_append_left _ hc

theorem mem_or_expand (h : r.Grown P r₁) {c : Class} (hc : c ∈ r₁.classes) :
    c ∈ r.classes ∨ r.find? c.name = none ∧ r.expand c.name = .ok c := by
  obtain ⟨new, happend, hnew⟩ := h.classes
  rw [happend] at hc
  exact (List.mem_append.mp hc).imp_right fun hc => (hnew c hc).2

theorem find?_of_some (h : r.Grown P r₁) {name : String} {c : Class}
    (hc : r.find? name = some c) : r₁.find? name = some c := by
  obtain ⟨new, happend, -⟩ := h.classes
  unfold find? at hc ⊢
  simp [happend, List.find?_append, hc]

theorem find?_isSome (h : r.Grown P r₁) {name : String} (hc : (r.find? name).isSome) :
    (r₁.find? name).isSome := by
  obtain ⟨c, hc⟩ := Option.isSome_iff_exists.mp hc
  simp [h.find?_of_some hc]

theorem find?_eq_none (h : r.Grown P r₁) {name : String} (hn : r₁.find? name = none) :
    r.find? name = none := by
  cases hc : r.find? name with
  | none => rfl
  | some c =>
    rw [h.find?_of_some hc] at hn
    cases hn

/-- A class that is new is the expansion of its name. -/
theorem expand_of_find? (h : r.Grown P r₁) {name : String} {c : Class}
    (hf : r.find? name = none) (hc : r₁.find? name = some c) :
    P name ∧ r.expand name = .ok c := by
  obtain ⟨new, happend, hnew⟩ := h.classes
  obtain ⟨hmem, rfl⟩ := find?_mem hc
  rw [happend] at hmem
  cases List.mem_append.mp hmem with
  | inl hold =>
    have hnone := List.find?_eq_none.mp hf c hold
    simp at hnone
  | inr hmem =>
    obtain ⟨hp, -, hexpand⟩ := hnew c hmem
    exact ⟨hp, hexpand⟩

/-- New classes do not have plain names, so that every name keeps its expansion. -/
theorem expand_eq (h : r.Grown P r₁) (name : String) : r₁.expand name = r.expand name := by
  refine expand_congr h.templates ?_ name
  intro n hplain
  cases hc : r.find? n with
  | some c => exact h.find?_of_some hc
  | none =>
    cases hc' : r₁.find? n with
    | none => rfl
    | some c => exact absurd hplain (not_plain_of_expand (h.expand_of_find? hc hc').2)

theorem meaning?_eq (h : r.Grown P r₁) (name : String) : r₁.meaning? name = r.meaning? name := by
  unfold meaning?
  rw [h.expand_eq]
  cases hc : r.find? name with
  | some c => simp [h.find?_of_some hc]
  | none =>
    cases hc' : r₁.find? name with
    | none => rfl
    | some c => simp [(h.expand_of_find? hc hc').2, Except.toOption]

theorem trans (h : r.Grown P r₁) (h' : r₁.Grown P r₂) : r.Grown P r₂ := by
  obtain ⟨new, happend, hnew⟩ := h.classes
  obtain ⟨new', happend', hnew'⟩ := h'.classes
  refine ⟨h'.templates.trans h.templates, new ++ new', by simp [happend', happend], ?_⟩
  intro c hc
  cases List.mem_append.mp hc with
  | inl hc => exact hnew c hc
  | inr hc =>
    obtain ⟨hp, hf, hexpand⟩ := hnew' c hc
    exact ⟨hp, h.find?_eq_none hf, h.expand_eq c.name ▸ hexpand⟩

end Grown

def Settled (r r' : Registry) : Prop :=
  ∀ c ∈ r'.classes, c ∈ r.classes ∨
    ∀ n, .ofClass n ∈ c.own.referencedTypes → (r'.find? n).isSome

theorem Settled.refl (r : Registry) : r.Settled r := fun _ hc => .inl hc

theorem Settled.trans {P : String → Prop} {r r₁ r₂ : Registry} (h : r.Settled r₁)
    (h' : r₁.Settled r₂) (hr : r₁.Grown P r₂) : r.Settled r₂ := by
  intro c hc
  obtain hc | hc := h' c hc
  · exact (h c hc).imp_right fun hall n hn => hr.find?_isSome (hall n hn)
  · exact .inr hc

def Closed (r : Registry) (P : String → Prop) : Prop :=
  ∀ a c, P a → r.find? a = none → r.expand a = .ok c →
    ∀ b, .ofClass b ∈ c.own.referencedTypes → P b

theorem closed_true (r : Registry) : r.Closed fun _ => True := by
  intro a c _ _ _ b _
  trivial

/-- A closed set of names, of which only those in `U` can be instantiated. -/
structure Region (r : Registry) (P : String → Prop) (U : List String) : Prop where
  closed : r.Closed P
  finite : ∀ a c, P a → r.find? a = none → r.expand a = .ok c → a ∈ U

theorem Closed.grown {P Q : String → Prop} {r r' : Registry} (h : r.Closed P)
    (hr : r.Grown Q r') : r'.Closed P := by
  intro a c hp hf hexpand
  rw [hr.expand_eq] at hexpand
  exact h a c hp (hr.find?_eq_none hf) hexpand

theorem Region.grown {P Q : String → Prop} {U : List String} {r r' : Registry} (h : r.Region P U)
    (hr : r.Grown Q r') : r'.Region P U := by
  refine ⟨h.closed.grown hr, ?_⟩
  intro a c hp hf hexpand
  rw [hr.expand_eq] at hexpand
  exact h.finite a c hp (hr.find?_eq_none hf) hexpand

def rank (U : List String) (r : Registry) : Nat := U.countP fun n => (r.find? n).isNone

theorem Grown.rank_le {P : String → Prop} {r r' : Registry} (h : r.Grown P r') (U : List String) :
    r'.rank U ≤ r.rank U := by
  refine List.countP_mono_left ?_
  intro n _ hn
  rw [Option.isNone_iff_eq_none] at hn ⊢
  exact h.find?_eq_none hn

/-- An instantiation takes one name from those that are left. -/
theorem rank_insert_lt {U : List String} {r : Registry} {name : String} {c : Class}
    (hU : name ∈ U) (hf : r.find? name = none) (hc : r.expand name = .ok c) :
    (r.insert c).rank U < r.rank U := by
  have hgrown : r.Grown (fun _ => True) (r.insert c) := .insert trivial hf hc
  have hfound := find?_insert_expand hf hc
  obtain ⟨before, after, rfl⟩ := List.append_of_mem hU
  have hbefore := hgrown.rank_le before
  have hafter := hgrown.rank_le after
  simp only [rank, List.countP_append, List.countP_cons, hfound, hf, Option.isNone_some,
    Option.isNone_none, Bool.false_eq_true, if_false, if_true] at hbefore hafter ⊢
  omega

end Registry

/- Resolutions and what they come to. -/

/-- What a resolution of names in `P` comes to. If it ends well, the new classes are settled and `Q`
holds. An error is that of a name in `P` that has no expansion. The fuel runs out only if `out`. -/
def Resolved (P : String → Prop) (out : Prop) (r : Registry) (Q : α → Registry → Prop) :
    EStateM.Result Stop Registry α → Prop
  | .ok a r' => r.Grown P r' ∧ r.Settled r' ∧ Q a r'
  | .error (.failed e) r' =>
    r.Grown P r' ∧ ∃ n, P n ∧ r.find? n = none ∧ r.expand n = .error e
  | .error .outOfFuel _ => out

namespace Resolved

variable {P P' : String → Prop} {out out' : Prop} {r r₁ : Registry} {Q Q' : α → Registry → Prop}
  {R : β → Registry → Prop} {x : Build α} {f : α → Build β}

theorem mono {res : EStateM.Result Stop Registry α} (h : Resolved P out r Q res)
    (hP : ∀ n, P n → P' n) (hout : out → out') (hQ : ∀ a r', r.Grown P r' → Q a r' → Q' a r') :
    Resolved P' out' r Q' res := by
  match res, h with
  | .ok a r', ⟨hr, hsettled, hq⟩ => exact ⟨hr.mono hP, hsettled, hQ a r' hr hq⟩
  | .error (.failed e) r', ⟨hr, n, hp, hn⟩ => exact ⟨hr.mono hP, n, hP n hp, hn⟩
  | .error .outOfFuel r', h => exact hout h

/-- However the resolution ends, it adds expansions of names only. -/
theorem grown (h : Resolved P False r Q (x r)) : r.Grown P (ObjectLang.after x r) := by
  unfold ObjectLang.after
  cases hx : x r with
  | ok a r' =>
    rw [hx] at h
    exact h.1
  | error e r' =>
    rw [hx] at h
    cases e with
    | failed e => exact h.1
    | outOfFuel => exact h.elim

/-- What is resolved after other names have been. -/
theorem after {res : EStateM.Result Stop Registry α} (hr : r.Grown P r₁) (hsettled : r.Settled r₁)
    (h : Resolved P out r₁ Q res) : Resolved P out r Q res := by
  match res, h with
  | .ok a r', ⟨hr', hsettled', hq⟩ => exact ⟨hr.trans hr', hsettled.trans hsettled' hr', hq⟩
  | .error (.failed e) r', ⟨hr', n, hp, hn, hexpand⟩ =>
    exact ⟨hr.trans hr', n, hp, hr.find?_eq_none hn, hr.expand_eq n ▸ hexpand⟩
  | .error .outOfFuel r', h => exact h

theorem bind (hx : Resolved P out r Q (x r))
    (hf : ∀ a r', r.Grown P r' → Q a r' → Resolved P out r' R (f a r')) :
    Resolved P out r R ((x >>= f) r) := by
  cases hres : x r with
  | ok a r' =>
    rw [hres] at hx
    obtain ⟨hr, hsettled, hq⟩ := hx
    rw [bind_ok hres]
    exact after hr hsettled (hf a r' hr hq)
  | error e r' =>
    rw [hres] at hx
    rw [bind_error hres]
    cases e with
    | failed e => exact hx
    | outOfFuel => exact hx

theorem pure {a : α} (h : Q a r) : Resolved P out r Q ((Pure.pure a : Build α) r) :=
  ⟨.refl r, .refl r, h⟩

variable {resolve : String → Build Class}

/-- The type is built in, or its class is registered. -/
theorem ofType {t : TypeTag}
    (h : ∀ n, t = .ofClass n →
      Resolved P out r (fun c r' => r'.find? n = some c) (resolve n r)) :
    Resolved P out r (fun _ r' => ∀ n, t = .ofClass n → (r'.find? n).isSome)
      (Build.ofType resolve t r) := by
  cases t with
  | ofClass name =>
    refine (h name rfl).bind fun c r' hr hc => pure ?_
    intro n hn
    cases hn
    simp [hc]
  | _ => exact pure (by simp)

theorem resolveEach {resolve : TypeTag → Build Unit} {ts : List TypeTag}
    (h : ∀ r', r.Grown P r' → ∀ t ∈ ts,
      Resolved P out r' (fun _ r'' => ∀ n, t = .ofClass n → (r''.find? n).isSome) (resolve t r')) :
    Resolved P out r (fun _ r' => ∀ n, .ofClass n ∈ ts → (r'.find? n).isSome)
      (Build.resolveEach resolve ts r) := by
  induction ts generalizing r with
  | nil => exact pure (by simp)
  | cons t ts ih =>
    refine (h r (.refl r) t List.mem_cons_self).bind fun _ r' hr ht => ?_
    have hrest := ih (r := r') fun r'' hr' u hu =>
      h r'' (hr.trans hr') u (List.mem_cons_of_mem t hu)
    refine hrest.mono (fun _ h => h) (fun h => h) ?_
    intro _ r'' hr' hts n hn
    cases List.mem_cons.mp hn with
    | inl hn => exact hr'.find?_isSome (ht n hn.symm)
    | inr hn => exact hts n hn

/-- A class that is registered is pending until the types that it names are resolved. -/
theorem pending {x : Build Unit} {name : String} {c : Class} (hname : P name)
    (hf : r.find? name = none) (hc : r.expand name = .ok c)
    (hx : Resolved P out (r.insert c)
      (fun _ r' => ∀ n, .ofClass n ∈ c.own.referencedTypes → (r'.find? n).isSome)
      (x (r.insert c))) :
    Resolved P out r (fun d r' => r'.find? name = some d)
      ((do x; return c : Build Class) (r.insert c)) := by
  have hinsert : r.Grown P (r.insert c) := .insert hname hf hc
  cases hres : x (r.insert c) with
  | ok _ r' =>
    rw [hres] at hx
    obtain ⟨hr, hsettled, hall⟩ := hx
    rw [bind_ok hres]
    refine ⟨hinsert.trans hr, ?_, hr.find?_of_some (Registry.find?_insert_expand hf hc)⟩
    -- What was new to the registry with `c` is settled. Of the rest only `c` is new here.
    intro d hd
    obtain hd | hd := hsettled d hd
    · cases List.mem_append.mp hd with
      | inl hd => exact .inl hd
      | inr hd =>
        rw [List.mem_singleton.mp hd]
        exact .inr hall
    · exact .inr hd
  | error e r' =>
    rw [hres] at hx
    rw [bind_error hres]
    cases e with
    | failed e =>
      obtain ⟨hr, n, hp, hn, hexpand⟩ := hx
      exact ⟨hinsert.trans hr, n, hp, hinsert.find?_eq_none hn, hinsert.expand_eq n ▸ hexpand⟩
    | outOfFuel => exact hx

end Resolved

namespace Schedule

variable {P : String → Prop} {U : List String} {out : Prop} {s : Schedule} {r : Registry}
  {resolve : String → Build Class}

theorem level_resolved {name : String} (hregion : r.Region P U) (hname : P name)
    (h : ∀ r', r'.Region P U → r'.rank U < r.rank U → ∀ n, P n →
      Resolved P out r' (fun c r'' => r''.find? n = some c) (resolve n r')) :
    Resolved P out r (fun c r' => r'.find? name = some c) (s.level resolve name r) := by
  unfold level
  cases hf : r.find? name with
  | some c => exact ⟨.refl r, .refl r, hf⟩
  | none =>
    cases hc : r.expand name with
    | error e => exact ⟨.refl r, name, hname, hf, hc⟩
    | ok c =>
      -- The rank falls with the insertion and never rises, so `h` applies at each of the types.
      have hinsert : r.Grown P (r.insert c) := .insert hname hf hc
      have hrank := Registry.rank_insert_lt (hregion.finite name c hname hf hc) hf hc
      have hperm := s.types_perm (r.insert c) c.own
      have htypes : Resolved P out (r.insert c)
          (fun _ r' => ∀ n, .ofClass n ∈ s.types (r.insert c) c.own → (r'.find? n).isSome)
          (Build.resolveEach (Build.ofType resolve) (s.types (r.insert c) c.own) (r.insert c)) := by
        refine .resolveEach fun r' hr t ht => .ofType fun n hn => ?_
        rw [hperm.mem_iff, hn] at ht
        have hrank' : r'.rank U < r.rank U := Nat.lt_of_le_of_lt (hr.rank_le U) hrank
        exact h r' (hregion.grown (hinsert.trans hr)) hrank' n
          (hregion.closed name c hname hf hc n ht)
      refine .pending hname hf hc (htypes.mono (fun _ h => h) (fun h => h) ?_)
      intro _ r' _ hall n hn
      exact hall n (hperm.mem_iff.mpr hn)

def levels (s : Schedule) : Nat → String → Build Class
  | 0, _ => throw .outOfFuel
  | fuel + 1, name => s.level (s.levels fuel) name

theorem levels_resolved (s : Schedule) (fuel : Nat) {name : String} (hregion : r.Region P U)
    (hname : P name) :
    Resolved P (fuel ≤ r.rank U) r (fun c r' => r'.find? name = some c)
      (s.levels fuel name r) := by
  induction fuel generalizing name r with
  | zero => exact Nat.zero_le _
  | succ fuel ih =>
    refine level_resolved hregion hname fun r' hregion' hrank n hn => ?_
    exact (ih hregion' hn).mono (fun _ h => h) (fun hle => Nat.lt_of_le_of_lt hle hrank)
      fun _ _ _ h => h

end Schedule

end ObjectLang
