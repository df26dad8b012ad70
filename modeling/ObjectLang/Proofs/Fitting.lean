import ObjectLang.Proofs.Ranking

/-!
Overloads that can bind their arguments. A pairing that fits scores the steps that an object has to
climb, one that does not fit scores as much as a loose one, and a null scores that much wherever it
goes. The chosen overload therefore fits if one beside it does, so long as the steps that its
arguments climb stay below the loose score in all.
-/

namespace ObjectLang

/-- The method takes so many arguments and can bind them all. -/
def Method.Fits (method : Method) (vs : List Value) : Prop :=
  method.params.length = vs.length ∧ ∃ bindings, bindArguments method.params vs = .ok bindings

def Value.climb (declared : TypeTag) : Value → Nat
  | .object v => ((declared.className?.bind v.cls.distanceTo?).getD 0)
  | _ => 0

def Value.weight : Value → Nat
  | .null _ => Registry.looseScore
  | _ => 0

def Method.climb (method : Method) (vs : List Value) : Nat :=
  (List.zipWith Value.climb method.signature vs).sum

def weights (vs : List Value) : Nat := (vs.map Value.weight).sum

instance (method : Method) (vs : List Value) : Decidable (method.Fits vs) :=
  decidable_of_iff (method.params.length = vs.length ∧
      (bindArguments method.params vs).toOption.isSome = true) <| by
    unfold Method.Fits
    cases bindArguments method.params vs <;> simp [Except.toOption]

/- Fitting, one argument at a time. -/

theorem Variable.create_isOk {t : TypeTag} {v : Value} :
    (∃ x, create t v = .ok x) ↔ t.admits v = true := by
  constructor
  · rintro ⟨x, hx⟩
    exact (assign_eq_ok.mp hx).1
  · intro h
    exact ⟨_, assign_eq_ok.mpr ⟨h, rfl⟩⟩

theorem Method.fits_iff {method : Method} {vs : List Value} :
    method.Fits vs ↔ List.Forall₂ (fun t v => TypeTag.admits t v = true) method.signature vs := by
  obtain ⟨name, returns, params, body⟩ := method
  simp only [Fits, signature]
  induction params generalizing vs with
  | nil =>
    cases vs with
    | nil => simp [bindArguments]
    | cons v vs => simp
  | cons p ps ih =>
    cases vs with
    | nil => simp
    | cons v vs =>
      rw [List.map_cons, List.forall₂_cons, ← ih]
      constructor
      · rintro ⟨hlength, bindings, hb⟩
        obtain ⟨x, hx, hrest⟩ := except_bind_eq_ok.mp hb
        obtain ⟨rest, hrest, -⟩ := except_map_eq_ok.mp hrest
        exact ⟨Variable.create_isOk.mp ⟨x, hx⟩, by simpa using hlength, rest, hrest⟩
      · rintro ⟨hadmits, hlength, rest, hrest⟩
        obtain ⟨x, hx⟩ := Variable.create_isOk.mpr hadmits
        refine ⟨by simpa using hlength, (p.name, x) :: rest, ?_⟩
        exact except_bind_eq_ok.mpr ⟨x, hx, except_map_eq_ok.mpr ⟨rest, hrest, rfl⟩⟩

/-- Binding fails only because a parameter's type does not admit its argument. -/
theorem bindArguments_eq_error {ps : List Param} {vs : List Value} {e : Error}
    (h : bindArguments ps vs = .error e) : ∃ declared got, e = .assignmentMismatch declared got := by
  induction ps generalizing vs with
  | nil => cases h
  | cons p ps ih =>
    cases vs with
    | nil => cases h
    | cons v vs =>
      rw [bindArguments] at h
      cases hx : Variable.create p.type v with
      | error e' =>
        rw [hx] at h
        cases h
        unfold Variable.create Variable.assign at hx
        split at hx <;> cases hx
        exact ⟨_, _, rfl⟩
      | ok x =>
        cases hrest : bindArguments ps vs with
        | error e' =>
          rw [hx, Except.bind, hrest] at h
          cases h
          exact ih hrest
        | ok rest =>
          rw [hx, Except.bind, hrest] at h
          cases h

/- The types of parameters. -/

theorem Param.extend_declarable {method : String} {before after : List Param} {f : Form}
    (h : extend method before f = .ok after) (hbefore : ∀ p ∈ before, p.type.Declarable) :
    ∀ p ∈ after, p.type.Declarable := by
  unfold extend at h
  split at h
  · split at h
    · cases h
    · split at h
      · cases h
      · rename_i hvoid
        cases h
        intro p hp
        cases List.mem_append.mp hp with
        | inl hp => exact hbefore p hp
        | inr hp =>
          rw [List.mem_singleton.mp hp]
          exact ⟨⟨_, rfl⟩, hvoid⟩
  · cases h

theorem Method.params_declarable {form : Form} {m : Method} (h : ofForm form = .ok m) :
    ∀ p ∈ m.params, p.type.Declarable := by
  unfold ofForm at h
  split at h
  · obtain ⟨params, hparams, rfl⟩ := except_map_eq_ok.mp h
    exact foldlM_keeps (P := fun ps : List Param => ∀ p ∈ ps, p.type.Declarable)
      (fun _ _ _ hbefore hextend => Param.extend_declarable hextend hbefore) (by simp) hparams
  · cases h

namespace ClassBody.Declared

variable {b : ClassBody}

theorem params_declarable (h : b.Declared) :
    ∀ m ∈ b.methods, ∀ p ∈ m.params, p.type.Declarable := by
  obtain ⟨name, decls, h⟩ := h
  refine foldlM_keeps (P := fun b : ClassBody =>
    ∀ m ∈ b.methods, ∀ p ∈ m.params, p.type.Declarable) ?_ (by simp) h
  intro b form b' hb hadd
  obtain heq | ⟨m, ⟨f, hm⟩, heq, -⟩ := add_methods hadd
  · rwa [heq]
  · rw [heq]
    intro n hn
    cases List.mem_append.mp hn with
    | inl hn => exact hb n hn
    | inr hn =>
      rw [List.mem_singleton.mp hn]
      exact Method.params_declarable hm

/-- The parameters of the methods of a body have types that can be named. -/
theorem param_types (h : b.Declared) :
    ∀ m ∈ b.methods, ∀ p ∈ m.params, ∃ name, p.type = TypeTag.ofName name :=
  fun m hm p hp => (h.params_declarable m hm p hp).1

end ClassBody.Declared

/- What a pairing scores. -/

/-- No parameter has the type of null. -/
theorem TypeTag.ofName_ne_null (name : String) : ofName name ≠ .null := by
  unfold ofName
  repeat' split
  all_goals nofun

theorem Class.distanceTo?_self (c : Class) : c.distanceTo? c.name = some 0 := by
  simp [distanceTo?, line, name, List.findIdx?_cons]

/-- An object goes where its class has a distance to. -/
theorem TypeTag.admits_object (param : String) (v : View) :
    (ofClass param).admits (.object v) = (v.cls.distanceTo? param).isSome := by
  simp [admits, View.isInstanceOf, Class.accepts, Class.distanceTo?, List.findIdx?_isSome]

namespace Registry

variable {r : Registry}

theorem above_iff_distanceTo? {c : Class} {param : String} {steps : Nat}
    (hc : r.find? c.name = some c) :
    r.Above param c.name steps ↔ c.distanceTo? param = some steps := by
  simp [Above, hc, distanceTo?_eq_some]

/-- An argument that fits scores its climb over its weight, and any other the loose score. -/
theorem Scores.eq {t : TypeTag} {v : Value} {n : Nat} (h : r.Scores t v.runtimeType n)
    (ht : t ≠ .null) (hv : ∀ w, v = .object w → r.find? w.cls.name = some w.cls) :
    n = v.weight + if t.admits v then v.climb t else looseScore := by
  cases v with
  | int | bool | string | void | exception =>
    cases h with
    | exact => simp [TypeTag.admits, Value.runtimeType, Value.weight, Value.climb]
    | loose _ _ _ hvalid => simp [Value.runtimeType, Class.validTypes] at hvalid
  | null tag =>
    cases h with
    | exact => exact absurd rfl ht
    | loose => simp [TypeTag.admits, TypeTag.isClass, TypeTag.className?, Value.weight, Value.climb]
  | object w =>
    have hw := hv w rfl
    cases h with
    | exact =>
      have hself := w.cls.distanceTo?_self
      simp [Value.runtimeType, TypeTag.admits_object, hself, Value.weight, Value.climb,
        TypeTag.className?]
    | upcast hne habove =>
      have hdistance := (above_iff_distanceTo? hw).mp habove
      simp [TypeTag.admits_object, hdistance, Value.weight, Value.climb, TypeTag.className?]
    | @loose param c _ hne hup hc hvalid =>
      have hdistance : w.cls.distanceTo? param = none := by
        rw [Option.eq_none_iff_forall_ne_some]
        intro steps h
        exact hup _ steps rfl ((above_iff_distanceTo? hw).mpr h)
      simp [TypeTag.admits_object, hdistance, Value.weight]

/-- A signature that fits scores what its arguments climb over their weights, and any other at least
a loose score over them. -/
theorem Totals.cases {params : List TypeTag} {vs : List Value} {n : Nat}
    (h : r.Totals params (vs.map Value.runtimeType) n) (hparams : ∀ t ∈ params, t ≠ .null)
    (hvs : ∀ w, .object w ∈ vs → r.find? w.cls.name = some w.cls) :
    (List.Forall₂ (fun t v => TypeTag.admits t v = true) params vs ∧
        n = weights vs + (List.zipWith Value.climb params vs).sum) ∨
      ¬ List.Forall₂ (fun t v => TypeTag.admits t v = true) params vs ∧
        weights vs + looseScore ≤ n := by
  induction vs generalizing params n with
  | nil =>
    cases h
    exact .inl ⟨.nil, rfl⟩
  | cons v vs ih =>
    cases h with
    | @cons p _ ps _ i j hi hj =>
      rw [List.forall_mem_cons] at hparams
      have hhead := hi.eq hparams.1 fun w hw => hvs w (by simp [hw])
      have hrest := ih hj hparams.2 fun w hw => hvs w (List.mem_cons_of_mem v hw)
      simp only [List.forall₂_cons, weights, List.map_cons, List.sum_cons, List.zipWith_cons_cons]
      simp only [weights] at hrest
      by_cases hadmits : p.admits v = true
      · rw [if_pos hadmits] at hhead
        obtain ⟨hfits, hn⟩ | ⟨hfits, hn⟩ := hrest
        · exact .inl ⟨⟨hadmits, hfits⟩, by omega⟩
        · exact .inr ⟨fun h => hfits h.2, by omega⟩
      · rw [if_neg hadmits] at hhead
        refine .inr ⟨fun h => hadmits h.1, ?_⟩
        obtain ⟨-, hn⟩ | ⟨-, hn⟩ := hrest <;> omega

/-- A parameter of a type that can be named suits an argument that fits it, if its class is
registered. -/
theorem suits_of_admits {t : TypeTag} {v : Value} (h : t.admits v = true)
    (ht : ∃ name, t = .ofName name) (hr : ∀ c, t = .ofClass c → (r.find? c).isSome)
    (hv : ∀ w, v = .object w → r.find? w.cls.name = some w.cls) : r.Suits t v.runtimeType := by
  cases v with
  | int | bool | string | void | exception =>
    simp only [TypeTag.admits, beq_iff_eq] at h
    exact h ▸ .same
  | null tag =>
    obtain ⟨name, rfl⟩ : ∃ name, t = .ofClass name := by
      cases t <;> first | exact ⟨_, rfl⟩ | cases h
    obtain ⟨c, hc⟩ := Option.isSome_iff_exists.mp (hr name rfl)
    exact .valid hc (by simp [Value.runtimeType, Class.validTypes])
  | object w =>
    have hnamed : ∃ name, t = .ofClass name := by
      obtain ⟨name, rfl⟩ := ht
      unfold TypeTag.ofName at h ⊢
      repeat' split
      all_goals first | exact ⟨_, rfl⟩ | simp_all [TypeTag.admits, View.isInstanceOf, Class.accepts]
    obtain ⟨name, rfl⟩ := hnamed
    rw [TypeTag.admits_object] at h
    obtain ⟨steps, hsteps⟩ := Option.isSome_iff_exists.mp h
    exact .derived ((above_iff_distanceTo? (hv w rfl)).mpr hsteps)

theorem compatible_of_forall₂ {params : List TypeTag} {vs : List Value}
    (h : List.Forall₂ (fun t v => TypeTag.admits t v = true) params vs)
    (ht : ∀ t ∈ params, ∃ name, t = .ofName name)
    (hr : ∀ c, .ofClass c ∈ params → (r.find? c).isSome)
    (hvs : ∀ w, .object w ∈ vs → r.find? w.cls.name = some w.cls) :
    r.Compatible params (vs.map Value.runtimeType) := by
  induction h with
  | nil => exact .nil
  | @cons t v params vs hadmits _ ih =>
    rw [List.forall_mem_cons] at ht
    have hhead := suits_of_admits hadmits ht.1 (fun c hc => hr c (by simp [hc]))
      fun w hw => hvs w (by simp [hw])
    exact .cons hhead (ih ht.2 (fun c hc => hr c (List.mem_cons_of_mem t hc))
      fun w hw => hvs w (List.mem_cons_of_mem v hw))

/-- Of two places in a list one comes first, unless the same stands in both. -/
theorem mem_of_splits {α : Type} {before after before' after' : List α} {x y : α}
    (h : before ++ x :: after = before' ++ y :: after') :
    x = y ∨ (x ∈ before' ∧ y ∈ after) ∨ y ∈ before ∧ x ∈ after' := by
  obtain ⟨l, hbefore, hrest⟩ | ⟨l, hbefore, hrest⟩ := List.append_eq_append_iff.mp h
  · cases l with
    | nil => exact .inl (List.cons.inj hrest).1
    | cons z l =>
      obtain ⟨rfl, rfl⟩ := List.cons.inj hrest
      exact .inr (.inl ⟨by simp [hbefore], by simp⟩)
  · cases l with
    | nil => exact .inl (List.cons.inj hrest).1.symm
    | cons z l =>
      obtain ⟨rfl, rfl⟩ := List.cons.inj hrest
      exact .inr (.inr ⟨by simp [hbefore], by simp⟩)

section

variable {overloads : List Method} {vs : List Value} {n chosen : Method} {k : Nat}
  (hvs : ∀ w, .object w ∈ vs → r.find? w.cls.name = some w.cls)

include hvs in
theorem Totals.of_fits (h : r.Totals n.signature (vs.map Value.runtimeType) k)
    (hn : ∀ t ∈ n.signature, t ≠ .null) (hfits : n.Fits vs) : k = weights vs + n.climb vs := by
  obtain ⟨-, hk⟩ | ⟨hno, -⟩ := h.cases hn hvs
  · exact hk
  · exact absurd (Method.fits_iff.mp hfits) hno

include hvs in
theorem Totals.of_not_fits (h : r.Totals n.signature (vs.map Value.runtimeType) k)
    (hn : ∀ t ∈ n.signature, t ≠ .null) (hfits : ¬ n.Fits vs) : weights vs + looseScore ≤ k := by
  obtain ⟨hyes, -⟩ | ⟨-, hk⟩ := h.cases hn hvs
  · exact absurd (Method.fits_iff.mpr hyes) hfits
  · exact hk

include hvs in
/-- The chosen overload fits if and only if one that fits comes before all that do not: with a lower
score, or with the same and declared earlier. -/
theorem Best.fits_iff (h : r.Best overloads (vs.map Value.runtimeType) chosen)
    (hparams : ∀ n ∈ overloads, ∀ t ∈ n.signature, t ≠ .null) :
    chosen.Fits vs ↔ ∃ before n after, overloads = before ++ n :: after ∧ n.Fits vs ∧
      r.Compatible n.signature (vs.map Value.runtimeType) ∧
      (∀ u ∈ before, ¬ u.Fits vs → ∀ k, r.Totals u.signature (vs.map Value.runtimeType) k →
        weights vs + n.climb vs < k) ∧
      ∀ u ∈ after, ¬ u.Fits vs → ∀ k, r.Totals u.signature (vs.map Value.runtimeType) k →
        weights vs + n.climb vs ≤ k := by
  obtain ⟨before, after, score, rfl, hscore, hbefore, hafter⟩ := h
  have hchosen := hparams chosen (by simp)
  constructor
  · intro hfits
    have hclimb := hscore.of_fits hvs hchosen hfits
    exact ⟨before, chosen, after, rfl, hfits, totals_iff_compatible.mp ⟨score, hscore⟩,
      fun u hu _ k hk => hclimb ▸ hbefore u hu k hk, fun u hu _ k hk => hclimb ▸ hafter u hu k hk⟩
  · rintro ⟨before', n, after', hsplit, hfits, hcompatible, hbefore', hafter'⟩
    refine Classical.byContradiction fun hno => ?_
    obtain ⟨k, hk⟩ := totals_iff_compatible.mpr hcompatible
    have hclimb := hk.of_fits hvs (hparams n (by simp [hsplit])) hfits
    obtain rfl | ⟨hc, hn⟩ | ⟨hn, hc⟩ := mem_of_splits hsplit
    · exact hno hfits
    · have hlt := hbefore' chosen hc hno score hscore
      have hle := hafter n hn k hk
      omega
    · have hlt := hbefore n hn k hk
      have hle := hafter' chosen hc hno score hscore
      omega

include hvs in
/-- What fits with a climb below the loose score comes before all that do not fit. -/
theorem Best.fits_of_climb_lt (h : r.Best overloads (vs.map Value.runtimeType) chosen)
    (hparams : ∀ n ∈ overloads, ∀ t ∈ n.signature, t ≠ .null) (hn : n ∈ overloads)
    (hfits : n.Fits vs) (hcompatible : r.Compatible n.signature (vs.map Value.runtimeType))
    (hclimb : n.climb vs < looseScore) : chosen.Fits vs := by
  obtain ⟨before, after, rfl⟩ := List.append_of_mem hn
  have hlt : ∀ u ∈ before ++ n :: after, ¬ u.Fits vs →
      ∀ k, r.Totals u.signature (vs.map Value.runtimeType) k → weights vs + n.climb vs < k := by
    intro u hu hno k hk
    have hle := hk.of_not_fits hvs (hparams u hu) hno
    omega
  refine (h.fits_iff hvs hparams).mpr ⟨before, n, after, rfl, hfits, hcompatible, ?_, ?_⟩
  · intro u hu
    exact hlt u (by simp [hu])
  · intro u hu hno k hk
    exact Nat.le_of_lt (hlt u (by simp [hu]) hno k hk)

end

end Registry

/-- The types that the classes of a loaded program name stay registered along its runs. -/
theorem Reachable.find?_isSome {forms : List Form} {r : Registry}
    (hload : Registry.load forms = .ok r) {sink : Sink} {source : Source} {limit : Option Nat}
    {m : Machine} (hm : Reachable (Machine.start r sink source limit) m) {c : Class}
    (hc : c ∈ r.classes) {name : String} (hname : .ofClass name ∈ c.own.referencedTypes) :
    (m.registry.find? name).isSome := by
  obtain ⟨r₀, -, hcomplete⟩ :=
    Schedule.inOrder.completes_of_load ((Schedule.load_inOrder forms).trans hload)
  exact hm.grown.find?_isSome (hcomplete.settled c hc name hname)

theorem Eval.callMethod_of_not_fits {exec : Form → Eval Completion} {receiver view : View}
    {name : String} {vs : List Value} {chosen : Method} {m : Machine}
    (hselect : m.registry.selectMethod? receiver name (vs.map Value.runtimeType) =
      some (view, chosen)) (hlimit : m.atLimit? = none) (hno : ¬ chosen.Fits vs) :
    ∃ declared got, callMethod exec receiver name vs m =
      .error (.failed (.assignmentMismatch declared got)) m := by
  obtain ⟨-, -, -, hlength⟩ := Registry.selectMethod?_spec hselect
  have harity : chosen.params.length = vs.length := by simpa using hlength.symm
  cases hb : bindArguments chosen.params vs with
  | ok bindings => exact absurd ⟨harity, bindings, hb⟩ hno
  | error e =>
    obtain ⟨declared, got, rfl⟩ := bindArguments_eq_error hb
    refine ⟨declared, got, (callMethod_eq_invoke hselect hlimit).trans ?_⟩
    exact bind_error (by rw [hb]; rfl) _

/-- Of the overloads at the level that a call selects, the chosen one can bind the arguments if and
only if one that can comes before all that cannot, by its score and then by its place. One that can,
is compatible and has its arguments climb less than the loose score in all comes before them. To be
compatible it is enough that the classes of its parameters are registered, and those of the methods
of a loaded class are. If the chosen overload cannot bind the arguments, the call fails. -/
theorem callable_overloads_are_chosen {forms : List Form} {r : Registry}
    (hload : Registry.load forms = .ok r) {sink : Sink} {source : Source} {limit : Option Nat}
    {m : Machine} (hm : Reachable (Machine.start r sink source limit) m) {receiver view : View}
    (hreceiver : m.store.Holds receiver.object) {name : String} {vs : List Value}
    (hvs : ∀ v, .object v ∈ vs → m.store.Holds v.object) {chosen : Method}
    (hselect : m.registry.selectMethod? receiver name (vs.map Value.runtimeType) =
      some (view, chosen)) :
    (chosen.Fits vs ↔ ∃ before n after, view.cls.own.methodsNamed name = before ++ n :: after ∧
      n.Fits vs ∧ m.registry.Compatible n.signature (vs.map Value.runtimeType) ∧
      (∀ u ∈ before, ¬ u.Fits vs →
        ∀ k, m.registry.Totals u.signature (vs.map Value.runtimeType) k →
          weights vs + n.climb vs < k) ∧
      ∀ u ∈ after, ¬ u.Fits vs →
        ∀ k, m.registry.Totals u.signature (vs.map Value.runtimeType) k →
          weights vs + n.climb vs ≤ k) ∧
    (∀ n ∈ view.cls.own.methods, n.name = name → n.Fits vs →
      m.registry.Compatible n.signature (vs.map Value.runtimeType) →
      n.climb vs < Registry.looseScore → chosen.Fits vs) ∧
    (∀ n ∈ view.cls.own.methods, n.Fits vs →
      (∀ c, .ofClass c ∈ n.signature → (m.registry.find? c).isSome) →
      m.registry.Compatible n.signature (vs.map Value.runtimeType)) ∧
    (view.cls ∈ r.classes → ∀ n ∈ view.cls.own.methods, ∀ c, .ofClass c ∈ n.signature →
      (m.registry.find? c).isSome) ∧
    ∀ exec, m.atLimit? = none → ¬ chosen.Fits vs → ∃ declared got,
      Eval.callMethod exec receiver name vs m =
        .error (.failed (.assignmentMismatch declared got)) m := by
  have horderly := Registry.orderly_load hload
  have hregistry := hm.orderly horderly
  obtain ⟨hsame, -, -, -⟩ := Registry.selectMethod?_spec hselect
  have hview : m.store.Holds view.object := by rwa [View.object_eq hsame]
  have hdeclared : view.cls.own.Declared :=
    hregistry.declared _ (hm.mem_classes horderly hview) _ List.mem_cons_self
  have hparams := hdeclared.param_types
  have hobjects : ∀ w, .object w ∈ vs → m.registry.find? w.cls.name = some w.cls :=
    fun w hw => hregistry.sound.found _ (hm.mem_classes horderly (hvs w hw))
  have htypes : ∀ n ∈ view.cls.own.methods, ∀ t ∈ n.signature, ∃ name, t = TypeTag.ofName name := by
    intro n hn t ht
    obtain ⟨p, hp, rfl⟩ := List.mem_map.mp ht
    exact hparams n hn p hp
  have hnull : ∀ n ∈ view.cls.own.methodsNamed name, ∀ t ∈ n.signature, t ≠ .null := by
    intro n hn t ht
    obtain ⟨name, rfl⟩ := htypes n (List.mem_of_mem_filter hn) t ht
    exact TypeTag.ofName_ne_null name
  obtain ⟨l, -, -, -, hbest⟩ := Registry.selectMethod?_eq_some.mp hselect
  refine ⟨hbest.fits_iff hobjects hnull, ?_, ?_, ?_, ?_⟩
  · intro n hn hname hfits hcompatible hclimb
    have hnamed : n ∈ view.cls.own.methodsNamed name :=
      List.mem_filter.mpr ⟨hn, by simpa using hname⟩
    exact hbest.fits_of_climb_lt hobjects hnull hnamed hfits hcompatible hclimb
  · intro n hn hfits hfound
    exact Registry.compatible_of_forall₂ (Method.fits_iff.mp hfits) (htypes n hn) hfound hobjects
  · intro hview n hn c hc
    refine hm.find?_isSome hload hview ?_
    exact List.mem_append_right _ (List.mem_flatMap.mpr ⟨n, hn, List.mem_cons_of_mem _ hc⟩)
  · intro exec hlimit hno
    exact Eval.callMethod_of_not_fits hselect hlimit hno

/-- In the sample, both overloads of the class fit, and so does the chosen one. -/
theorem sample_callable_overload_is_chosen :
    Registry.load Sample.pickForms = .ok Sample.picks.registry ∧
      Reachable Sample.picks Sample.picked ∧
      ∃ view chosen, Sample.picked.registry.selectMethod? ⟨1, Sample.lower, []⟩ "pick"
          [.ofClass "main"] = some (view, chosen) ∧
        (Sample.picking "base" "2").Fits [.object ⟨1, Sample.lower, []⟩] ∧
        (Sample.picking "base" "2").climb [.object ⟨1, Sample.lower, []⟩] = 1 ∧
        chosen.Fits [.object ⟨1, Sample.lower, []⟩] := by
  have hload : Registry.load Sample.pickForms = .ok Sample.picks.registry := rfl
  have hvs : ∀ v, .object v ∈ [Value.object ⟨1, Sample.lower, []⟩] →
      Sample.picked.store.Holds v.object := by
    intro v hv
    cases List.mem_singleton.mp hv
    exact Sample.holds_picked
  have hselect : Sample.picked.registry.selectMethod? ⟨1, Sample.lower, []⟩ "pick"
      ([Value.object ⟨1, Sample.lower, []⟩].map Value.runtimeType) =
        some (⟨1, Sample.lower, []⟩, Sample.picking "main" "3") := rfl
  have hfits : (Sample.picking "base" "2").Fits [.object ⟨1, Sample.lower, []⟩] := ⟨rfl, _, rfl⟩
  obtain ⟨-, hlow, hcompatible, hfound, -⟩ := callable_overloads_are_chosen hload
    Sample.reachable_picked Sample.holds_picked hvs hselect
  have hmem : Sample.picking "base" "2" ∈ Sample.lower.own.methods := List.mem_cons_self
  have hview : Sample.lower ∈ Sample.picks.registry.classes :=
    List.mem_cons_of_mem _ List.mem_cons_self
  refine ⟨hload, Sample.reachable_picked, _, _, hselect, hfits, rfl, ?_⟩
  refine hlow _ hmem rfl hfits (hcompatible _ hmem hfits (hfound hview _ hmem)) ?_
  decide

/- A line of classes so long that the steps of many arguments exceed the loose score. -/

namespace Sample

def rung (n : Nat) : String := String.ofList (List.replicate (n + 1) 'c')

def rungForms : Nat → List Form
  | 0 => [.list [.atom "class", .atom (rung 0)]]
  | n + 1 => rungForms n ++
      [.list [.atom "class", .atom (rung (n + 1)), .atom "inherits", .atom (rung n)]]

def crowdForm (first rest : String) (count : Nat) (text : String) : Form :=
  .list [.atom "method", .atom "void", .atom "f",
    .list (.list [.atom first, .atom "x"] ::
      (List.range count).map fun n => .list [.atom rest, .atom (rung n)]),
    .list [.atom "print", .atom text]]

def crowdForms (depth : Nat) : List Form :=
  rungForms depth ++
    [.list [.atom "class", .atom "main", .atom "inherits", .atom (rung depth),
      crowdForm (rung 0) (rung 0) depth "\"fits\"", crowdForm "sub" "main" depth "\"loose\"",
      .list [.atom "method", .atom "void", .atom "main", .list [],
        .list (.atom "call" :: .atom "me" :: .atom "f" :: List.replicate (depth + 1) (.atom "me"))]],
      .list [.atom "class", .atom "sub", .atom "inherits", .atom "main"]]

def crowded (depth : Nat) : Registry := (Registry.load (crowdForms depth)).toOption.getD .empty

def crowd (c : Class) (count : Nat) : List Value := List.replicate count (.object ⟨1, c, []⟩)

end Sample

/-- With enough arguments that climb far enough, a loose pairing scores less than they do, and the
call fails though the overload beside the chosen one fits. -/
theorem crowd_is_refused :
    ∃ r m receiver view chosen n vs, Registry.load (Sample.crowdForms 32) = .ok r ∧
      Reachable (Machine.start r (.buffer "") (.queue []) none) m ∧
      m.store.Holds receiver.object ∧ (∀ v, .object v ∈ vs → m.store.Holds v.object) ∧
      m.registry.selectMethod? receiver "f" (vs.map Value.runtimeType) = some (view, chosen) ∧
      n ∈ view.cls.own.methods ∧ n.name = "f" ∧ n.Fits vs ∧ ¬ chosen.Fits vs ∧
      ∀ exec, ∃ declared got, Eval.callMethod exec receiver "f" vs m =
        .error (.failed (.assignmentMismatch declared got)) m := by
  have hload : Registry.load (Sample.crowdForms 32) = .ok (Sample.crowded 32) := by
    have hsome : (Registry.load (Sample.crowdForms 32)).toOption.isSome = true := by decide +kernel
    unfold Sample.crowded
    cases h : Registry.load (Sample.crowdForms 32) with
    | ok r => rfl
    | error e =>
      rw [h] at hsome
      cases hsome
  have hfacts : (((Sample.crowded 32).find? "main").any fun c =>
      c.fieldFrames.toOption.isSome &&
        ((Sample.crowded 32).selectMethod? ⟨1, c, []⟩ "f"
            ((Sample.crowd c 33).map Value.runtimeType)).any fun found =>
          !decide (found.2.Fits (Sample.crowd c 33)) &&
            found.1.cls.own.methods.any fun n =>
              n.name == "f" && decide (n.Fits (Sample.crowd c 33))) = true := by decide +kernel
  obtain ⟨c, hc, hfacts⟩ := (Option.any_eq_true _ _).mp hfacts
  obtain ⟨hframes, hfacts⟩ := Bool.and_eq_true_iff.mp hfacts
  obtain ⟨⟨view, chosen⟩, hselect, hfacts⟩ := (Option.any_eq_true _ _).mp hfacts
  obtain ⟨hno, hfacts⟩ := Bool.and_eq_true_iff.mp hfacts
  obtain ⟨n, hn, hfacts⟩ := List.any_eq_true.mp hfacts
  obtain ⟨hname, hfits⟩ := Bool.and_eq_true_iff.mp hfacts
  have hno : ¬ chosen.Fits (Sample.crowd c 33) := by simpa using hno
  obtain ⟨frames, hframes⟩ := Option.isSome_iff_exists.mp hframes
  rw [except_toOption_eq_some] at hframes
  have hheld := Store.holds_pushAll
    (Machine.start (Sample.crowded 32) (.buffer "") (.queue []) none).store hframes
  refine ⟨Sample.crowded 32, _, ⟨1, c, []⟩, view, chosen, n, Sample.crowd c 33, hload,
    reachable_launched hc hframes, hheld, ?_, hselect, hn, by simpa using hname,
    of_decide_eq_true hfits, hno, fun exec => Eval.callMethod_of_not_fits hselect rfl hno⟩
  intro v hv
  cases List.eq_of_mem_replicate hv
  exact hheld

end ObjectLang
