import ObjectLang.Proofs.Loading
import ObjectLang.Proofs.Location

/-!
Registries that hold more instances than others. What a registry has over another is no more than
what the other could instantiate too, so resolving a name gives the same class in both, or the same
error. Where classes are looked up without being instantiated, only types are asked for that the
smaller registry knows.
-/

namespace ObjectLang

namespace Registry

def Kept (r r' : Registry) : Prop := ∀ n c, r.find? n = some c → r'.find? n = some c

theorem Kept.refl (r : Registry) : r.Kept r := fun _ _ h => h

theorem Kept.trans {r r₁ r₂ : Registry} (h : r.Kept r₁) (h' : r₁.Kept r₂) : r.Kept r₂ :=
  fun n c hc => h' n c (h n c hc)

theorem Kept.isSome {r r' : Registry} (h : r.Kept r') {n : String} (hn : (r.find? n).isSome) :
    (r'.find? n).isSome := by
  obtain ⟨c, hc⟩ := Option.isSome_iff_exists.mp hn
  simp [h n c hc]

/-- The second registry has the classes of the first. Those that it has besides are expansions, and
every type that they name is registered with them. -/
structure Within (r r' : Registry) : Prop where
  templates : r'.templates = r.templates
  kept : r.Kept r'
  surplus : ∀ n c, r.find? n = none → r'.find? n = some c →
    r.expand n = .ok c ∧ ∀ b, .ofClass b ∈ c.own.referencedTypes → (r'.find? b).isSome

theorem find?_insert (r : Registry) (c : Class) (n : String) :
    (r.insert c).find? n = (r.find? n).or (if c.name = n then some c else none) := by
  by_cases h : c.name = n
  · simp [find?, insert, List.find?_append, h]
  · simp [find?, insert, List.find?_append, h]

namespace Within

variable {r r' r₁ r₂ : Registry} {name : String} {c : Class}

theorem refl (r : Registry) : r.Within r := by
  refine ⟨rfl, .refl r, ?_⟩
  intro n c hn hc
  rw [hn] at hc
  cases hc

/-- Whatever is there besides has no plain name, so every name keeps its expansion. -/
theorem expand_eq (h : r.Within r') (name : String) : r'.expand name = r.expand name := by
  refine expand_congr h.templates ?_ name
  intro n hplain
  cases hc : r.find? n with
  | some c => exact h.kept n c hc
  | none =>
    cases hc' : r'.find? n with
    | none => rfl
    | some c => exact absurd hplain (not_plain_of_expand (h.surplus n c hc hc').1)

theorem trans (h : r.Within r₁) (h' : r₁.Within r₂) : r.Within r₂ := by
  refine ⟨h'.templates.trans h.templates, h.kept.trans h'.kept, ?_⟩
  intro n c hn hc
  cases hc₁ : r₁.find? n with
  | none =>
    obtain ⟨hexpand, hall⟩ := h'.surplus n c hc₁ hc
    exact ⟨h.expand_eq n ▸ hexpand, hall⟩
  | some d =>
    have hd := h'.kept n d hc₁
    rw [hc] at hd
    cases hd
    obtain ⟨hexpand, hall⟩ := h.surplus n c hn hc₁
    exact ⟨hexpand, fun b hb => h'.kept.isSome (hall b hb)⟩

theorem of_grown {P : String → Prop} (h : r.Grown P r') (hsettled : r.Settled r') :
    r.Within r' := by
  refine ⟨h.templates, fun _ _ => h.find?_of_some, ?_⟩
  intro n c hn hc
  refine ⟨(h.expand_of_find? hn hc).2, ?_⟩
  obtain ⟨hmem, rfl⟩ := find?_mem hc
  obtain hold | hall := hsettled c hmem
  · have hsome := find?_isSome_of_mem hold
    simp [hn] at hsome
  · exact hall

/-- Both instantiate the name. -/
theorem insert (h : r.Within r') (hf : r.find? name = none) (hf' : r'.find? name = none)
    (hc : r.expand name = .ok c) : (r.insert c).Within (r'.insert c) := by
  have hname := expand_name hc
  have hexpand := (Grown.insert (P := fun _ => True) trivial hf hc).expand_eq
  refine ⟨h.templates, ?_, ?_⟩
  · intro n d hd
    rw [find?_insert] at hd ⊢
    cases hn : r.find? n with
    | some e =>
      rw [hn] at hd
      rw [h.kept n e hn]
      exact hd
    | none =>
      rw [hn, Option.none_or] at hd
      split at hd
      · rename_i heq
        rw [← heq, hname, hf', Option.none_or, if_pos rfl]
        exact hd
      · cases hd
  · intro n d hn hd
    rw [find?_insert, Option.or_eq_none_iff] at hn
    rw [find?_insert, hn.2, Option.or_none] at hd
    obtain ⟨hd', hall⟩ := h.surplus n d hn.1 hd
    refine ⟨(hexpand n).trans hd', fun b hb => ?_⟩
    rw [find?_insert, Option.isSome_or, hall b hb, Bool.true_or]

/-- The second has the instance already. -/
theorem insert_left (h : r.Within r') (hf : r.find? name = none) (hf' : r'.find? name = some c) :
    (r.insert c).Within r' := by
  obtain ⟨hc, -⟩ := h.surplus name c hf hf'
  have hname := expand_name hc
  have hexpand := (Grown.insert (P := fun _ => True) trivial hf hc).expand_eq
  refine ⟨h.templates, ?_, ?_⟩
  · intro n d hd
    rw [find?_insert] at hd
    cases hn : r.find? n with
    | some e =>
      rw [hn] at hd
      cases hd
      exact h.kept n d hn
    | none =>
      rw [hn, Option.none_or] at hd
      split at hd
      · rename_i heq
        cases hd
        rw [← heq, hname]
        exact hf'
      · cases hd
  · intro n d hn hd
    rw [find?_insert, Option.or_eq_none_iff] at hn
    obtain ⟨hd', hall⟩ := h.surplus n d hn.1 hd
    exact ⟨(hexpand n).trans hd', hall⟩

end Within

/- Resolution in both registries. -/

def Alike {α : Type} : EStateM.Result Stop Registry α → EStateM.Result Stop Registry α → Prop
  | .ok a r, .ok a' r' => a' = a ∧ r.Within r'
  | .error (.failed e) _, .error e' _ => e' = .failed e
  | .error .outOfFuel _, _ => True
  | _, _ => False

namespace Alike

variable {α β : Type} {r r' : Registry}

theorem bind {x x' : Build α} {f f' : α → Build β} (hx : Alike (x r) (x' r'))
    (hf : ∀ a s s', s.Within s' → Alike (f a s) (f' a s')) :
    Alike ((x >>= f) r) ((x' >>= f') r') := by
  cases hres : x r with
  | ok a s =>
    cases hres' : x' r' with
    | ok a' s' =>
      rw [hres, hres'] at hx
      obtain ⟨rfl, hs⟩ := hx
      rw [bind_ok hres, bind_ok hres']
      exact hf a' s s' hs
    | error e' s' =>
      rw [hres, hres'] at hx
      exact hx.elim
  | error e s =>
    cases e with
    | outOfFuel =>
      rw [bind_error hres]
      trivial
    | failed e =>
      cases hres' : x' r' with
      | ok a' s' =>
        rw [hres, hres'] at hx
        exact hx.elim
      | error e' s' =>
        rw [hres, hres'] at hx
        rw [bind_error hres, bind_error hres']
        exact hx

theorem resolveEach {f f' : String → Build Class}
    (h : ∀ n s s', s.Within s' → Alike (f n s) (f' n s')) (ts : List TypeTag)
    (hr : r.Within r') :
    Alike (Build.resolveEach (Build.ofType f) ts r)
      (Build.resolveEach (Build.ofType f') ts r') := by
  have htype : ∀ t s s', s.Within s' → Alike (Build.ofType f t s) (Build.ofType f' t s') := by
    intro t s s' hs
    cases t with
    | ofClass n => exact (h n s s' hs).bind fun _ _ _ hs => ⟨rfl, hs⟩
    | _ => exact ⟨rfl, hs⟩
  induction ts generalizing r r' with
  | nil => exact ⟨rfl, hr⟩
  | cons t ts ih => exact (htype t r r' hr).bind fun _ _ _ hs => ih hs

end Alike

theorem resolveEach_of_find? {r : Registry} {ts : List TypeTag}
    (h : ∀ n, .ofClass n ∈ ts → (r.find? n).isSome) :
    Build.resolveEach (Build.ofType resolve) ts r = .ok () r := by
  induction ts with
  | nil => rfl
  | cons t ts ih =>
    have hrest := ih fun n hn => h n (List.mem_cons_of_mem t hn)
    cases t with
    | ofClass n =>
      obtain ⟨c, hc⟩ := Option.isSome_iff_exists.mp (h n List.mem_cons_self)
      have htype : Build.ofType resolve (.ofClass n) r = .ok () r := bind_ok (resolve_of_find? hc) _
      exact (bind_ok htype _).trans hrest
    | _ => exact hrest

/-- Induction on the fuel. A name that only the second registry has is instantiated by the first
alone, and then all types that the instance names are found in the second. -/
theorem levels_alike (fuel : Nat) {r r' : Registry} (h : r.Within r') (name : String) :
    Alike (Schedule.inOrder.levels fuel name r) (resolve name r') := by
  induction fuel generalizing name r r' with
  | zero => trivial
  | succ fuel ih =>
    have htypes : ∀ {s s' : Registry} (ts : List TypeTag), s.Within s' →
        Alike (Build.resolveEach (Build.ofType (Schedule.inOrder.levels fuel)) ts s)
          (Build.resolveEach (Build.ofType resolve) ts s') :=
      fun ts hs => .resolveEach (fun n _ _ hs => ih hs n) ts hs
    unfold Schedule.levels Schedule.level
    cases hf : r.find? name with
    | some c =>
      rw [resolve_of_find? (h.kept name c hf)]
      exact ⟨rfl, h⟩
    | none =>
      cases hf' : r'.find? name with
      | some c =>
        obtain ⟨hc, hall⟩ := h.surplus name c hf hf'
        have hfound : (do
            Build.resolveEach (Build.ofType resolve) c.own.referencedTypes
            return c : Build Class) r' = .ok c r' := bind_ok (resolveEach_of_find? hall) _
        rw [hc, resolve_of_find? hf', ← hfound]
        exact (htypes _ (h.insert_left hf hf')).bind fun _ _ _ hs => ⟨rfl, hs⟩
      | none =>
        cases hc : r.expand name with
        | error e =>
          rw [resolve_of_expand_error hf' ((h.expand_eq name).trans hc)]
          rfl
        | ok c =>
          have halike := htypes c.own.referencedTypes (h.insert hf hf' hc)
          rw [resolve_level]
          simp only [Schedule.level, hf', (h.expand_eq name).trans hc]
          exact halike.bind fun _ _ _ hs => ⟨rfl, hs⟩

/-- Resolving a name in two such registries gives the same class, or fails in the same way. -/
theorem Within.resolve {r r' : Registry} (h : r.Within r') (name : String) :
    (∃ c s s', Registry.resolve name r = .ok c s ∧ Registry.resolve name r' = .ok c s' ∧
      s.Within s') ∨
    ∃ e s s', Registry.resolve name r = .error (.failed e) s ∧
      Registry.resolve name r' = .error (.failed e) s' := by
  have hends := resolved_resolve r name
  have halike := levels_alike (r.rank (r.instanceNames name) + 1) h name
  rw [← Schedule.resolve_eq_levels, Schedule.resolve_inOrder] at halike
  cases hres : Registry.resolve name r with
  | ok c s =>
    cases hres' : Registry.resolve name r' with
    | ok c' s' =>
      rw [hres, hres'] at halike
      obtain ⟨rfl, hs⟩ := halike
      exact .inl ⟨c', s, s', rfl, rfl, hs⟩
    | error e' s' =>
      rw [hres, hres'] at halike
      exact halike.elim
  | error e s =>
    cases e with
    | outOfFuel =>
      rw [hres] at hends
      exact hends.elim
    | failed e =>
      cases hres' : Registry.resolve name r' with
      | ok c' s' =>
        rw [hres, hres'] at halike
        exact halike.elim
      | error e' s' =>
        rw [hres, hres'] at halike
        cases halike
        exact .inr ⟨e, s, s', rfl, rfl⟩

theorem Within.resolveType {r r' : Registry} (h : r.Within r') (t : TypeTag) :
    (∃ s s', Registry.resolveType t r = .ok () s ∧ Registry.resolveType t r' = .ok () s' ∧
      s.Within s') ∨
    ∃ e s s', Registry.resolveType t r = .error (.failed e) s ∧
      Registry.resolveType t r' = .error (.failed e) s' := by
  cases t with
  | ofClass name =>
    obtain ⟨c, s, s', hres, hres', hs⟩ | ⟨e, s, s', hres, hres'⟩ := h.resolve name
    · exact .inl ⟨s, s', bind_ok hres _, bind_ok hres' _, hs⟩
    · exact .inr ⟨e, s, s', bind_error hres _, bind_error hres' _⟩
  | _ => exact .inl ⟨r, r', rfl, rfl, h⟩

/- Complete registries. -/

structure Complete (r : Registry) : Prop where
  sound : r.Sound
  settled : ∀ c ∈ r.classes, ∀ n, .ofClass n ∈ c.own.referencedTypes → (r.find? n).isSome

theorem complete_of_load {forms : List Form} {r : Registry} (h : load forms = .ok r) :
    r.Complete := by
  rw [← Schedule.load_inOrder] at h
  obtain ⟨r₀, hr₀, hcompletes⟩ := Schedule.completes_of_load h
  exact ⟨(sound_declareAll hr₀).grown hcompletes.grown, hcompletes.settled⟩

/-- A resolution that succeeds leaves nothing open. -/
theorem Complete.resolve {r r' : Registry} (h : r.Complete) {name : String} {c : Class}
    (hc : Registry.resolve name r = .ok c r') :
    r'.Complete ∧ r.Within r' ∧ r'.find? name = some c := by
  have hresolved := resolved_resolve r name
  rw [hc] at hresolved
  obtain ⟨hgrown, hsettled, hfound⟩ := hresolved
  refine ⟨⟨h.sound.grown hgrown, ?_⟩, .of_grown hgrown hsettled, hfound⟩
  intro d hd
  obtain hold | hall := hsettled d hd
  · exact fun n hn => hgrown.find?_isSome (h.settled d hold n hn)
  · exact hall

/- Types that a registry knows. -/

def Knows (r : Registry) (t : TypeTag) : Prop := ∀ n, t = .ofClass n → (r.find? n).isSome

theorem Complete.resolveType {r r' : Registry} (h : r.Complete) {t : TypeTag}
    (ht : Registry.resolveType t r = .ok () r') : r'.Complete ∧ r.Within r' ∧ r'.Knows t := by
  cases t with
  | ofClass name =>
    obtain ⟨c, s, hc, heq⟩ := bind_eq_ok.mp ht
    cases heq
    obtain ⟨hcomplete, hwithin, hfound⟩ := h.resolve hc
    refine ⟨hcomplete, hwithin, ?_⟩
    intro n hn
    cases hn
    simp [hfound]
  | _ =>
    cases ht
    exact ⟨h, .refl r, nofun⟩

structure KnowsBody (r : Registry) (b : ClassBody) : Prop where
  name : r.Knows (.ofClass b.name)
  types : ∀ t ∈ b.referencedTypes, r.Knows t

def KnowsObject (r : Registry) (v : View) : Prop := ∀ b ∈ v.whole, r.KnowsBody b

theorem Knows.kept {r r' : Registry} {t : TypeTag} (h : r.Knows t) (hr : r.Kept r') :
    r'.Knows t := fun n hn => hr.isSome (h n hn)

theorem KnowsBody.kept {r r' : Registry} {b : ClassBody} (h : r.KnowsBody b) (hr : r.Kept r') :
    r'.KnowsBody b := ⟨h.name.kept hr, fun t ht => (h.types t ht).kept hr⟩

theorem knows_of_className? {r : Registry} {t : TypeTag} (h : t.className? = none) : r.Knows t := by
  rintro n rfl
  cases h

theorem Complete.knowsBody {r : Registry} (h : r.Complete) {c : Class} (hc : c ∈ r.classes) :
    ∀ b ∈ c.line, r.KnowsBody b := by
  intro b hb
  obtain ⟨d, hd, rfl⟩ := h.sound.line c hc b hb
  refine ⟨?_, ?_⟩
  · rintro n heq
    cases heq
    exact find?_isSome_of_mem hd
  · rintro t ht n rfl
    exact h.settled d hd n ht

namespace KnowsBody

variable {r : Registry} {b : ClassBody}

theorem field (h : r.KnowsBody b) {f : Field} (hf : f ∈ b.fields) : r.Knows f.type :=
  h.types _ (List.mem_append_left _ (List.mem_map_of_mem hf))

theorem method (h : r.KnowsBody b) {m : Method} (hm : m ∈ b.methods) :
    ∀ t ∈ m.returns :: m.signature, r.Knows t :=
  fun t ht => h.types t (List.mem_append_right _ (List.mem_flatMap.mpr ⟨m, hm, ht⟩))

end KnowsBody

/- Looking classes up without instantiating them. -/

namespace Within

variable {r r' : Registry} (h : r.Within r')

include h

theorem find?_eq {t : TypeTag} (ht : r.Knows t) :
    t.className?.bind r'.find? = t.className?.bind r.find? := by
  cases t with
  | ofClass n =>
    obtain ⟨c, hc⟩ := Option.isSome_iff_exists.mp (ht n rfl)
    exact (h.kept n c hc).trans hc.symm
  | _ => rfl

theorem classAccepts_eq {cls : TypeTag} (hcls : r.Knows cls) (t : TypeTag) :
    r'.classAccepts cls t = r.classAccepts cls t := by
  rw [classAccepts, classAccepts, h.find?_eq hcls]

theorem paramScore?_eq {param argument : TypeTag} (hp : r.Knows param) (ha : r.Knows argument) :
    r'.paramScore? param argument = r.paramScore? param argument := by
  simp only [paramScore?, upcast?, h.find?_eq ha, h.classAccepts_eq hp]

theorem signatureScore?_eq {params arguments : List TypeTag} (hps : ∀ t ∈ params, r.Knows t)
    (has : ∀ t ∈ arguments, r.Knows t) :
    r'.signatureScore? params arguments = r.signatureScore? params arguments := by
  induction params generalizing arguments with
  | nil => cases arguments <;> rfl
  | cons p ps ih =>
    cases arguments with
    | nil => rfl
    | cons a as =>
      rw [List.forall_mem_cons] at hps has
      simp only [signatureScore?, h.paramScore?_eq hps.1 has.1, ih hps.2 has.2]

theorem bestMethod?_eq {b : ClassBody} (hb : r.KnowsBody b) (name : String)
    {arguments : List TypeTag} (has : ∀ t ∈ arguments, r.Knows t) :
    r'.bestMethod? b name arguments = r.bestMethod? b name arguments := by
  have hcandidates : r'.candidates b name arguments = r.candidates b name arguments := by
    refine List.filterMap_congr fun m hm => ?_
    have hknown := hb.method (List.mem_filter.mp hm).1
    rw [h.signatureScore?_eq (fun t ht => hknown t (List.mem_cons_of_mem _ ht)) has]
  rw [bestMethod?, bestMethod?, hcandidates]

/-- The overloads of a known object have the same scores in both registries. -/
theorem selectMethod?_eq {receiver : View} (hv : r.KnowsObject receiver) (name : String)
    {arguments : List TypeTag} (has : ∀ t ∈ arguments, r.Knows t) :
    r'.selectMethod? receiver name arguments = r.selectMethod? receiver name arguments := by
  unfold selectMethod?
  have hbest : ∀ w ∈ receiver.upward,
      r'.bestMethod? w.cls.own name arguments = r.bestMethod? w.cls.own name arguments := by
    intro w hw
    refine h.bestMethod?_eq (hv _ ?_) name has
    rw [← (View.sameObject_upward hw).2]
    exact List.mem_append_right _ List.mem_cons_self
  generalize receiver.upward = views at hbest
  induction views with
  | nil => rfl
  | cons w views ih =>
    rw [List.forall_mem_cons] at hbest
    simp only [List.findSome?_cons, hbest.1, ih hbest.2]

theorem checkReturn_eq {m : Method} (hm : r.Knows m.returns) (v : Value) :
    r'.checkReturn m v = r.checkReturn m v := by
  have hreturnable : r'.returnable m.returns v = r.returnable m.returns v := by
    cases v with
    | null tag => cases tag <;> simp only [returnable, h.classAccepts_eq hm]
    | _ => rfl
  rw [checkReturn, checkReturn, hreturnable]

theorem returnValue_eq {m : Method} (hm : r.Knows m.returns) (done : Completion) :
    r'.returnValue m done = r.returnValue m done := by
  cases done with
  | raised => rfl
  | normal => exact h.checkReturn_eq hm _
  | returned v => cases v <;> exact h.checkReturn_eq hm _

theorem operate_eq (op : Operator) {a b : Operand} (ha : r.Knows a.declared)
    (hb : r.Knows b.declared) : r'.operate op a b = r.operate op a b := by
  have hcomparable : r'.comparable a b = r.comparable a b := by
    obtain ⟨v, t⟩ := a
    obtain ⟨w, u⟩ := b
    cases v with
    | null => cases w <;> simp only [comparable, h.classAccepts_eq ha, h.classAccepts_eq hb]
    | _ => rfl
  simp only [operate, compare, hcomparable]

end Within

end Registry

end ObjectLang
