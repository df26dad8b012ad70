import ObjectLang.Proofs.Effect
import ObjectLang.Proofs.Fitting
import ObjectLang.Proofs.Isolation
import ObjectLang.Proofs.Lineage
import ObjectLang.Proofs.Underway

/-!
Dispatch and the binding of arguments. Dispatch asks the registry whether an argument's type goes with
a parameter's, by the distance between their classes or by the valid types of the parameter's class;
binding asks the object itself. What can be bound always has a score. What has a score can be bound
unless it is an object of an ancestor of the parameter's class, and such an argument is why a call
fails to bind.
-/

namespace ObjectLang

def Registry.Downcast (r : Registry) (t : TypeTag) (v : Value) : Prop :=
  ∃ w param k, v = .object w ∧ t = .ofClass param ∧ r.Above w.cls.name param (k + 1)

namespace Registry

variable {r : Registry} {t : TypeTag} {v : Value} (h : r.Orderly)
  (hv : ∀ w, v = .object w → w.cls ∈ r.classes)

include h hv

theorem Downcast.not_admits (hdown : r.Downcast t v) : t.admits v = false := by
  obtain ⟨w, param, k, rfl, rfl, habove⟩ := hdown
  exact habove.not_accepts h (h.sound.found _ (hv w rfl))

/-- Of what suits a parameter, only a downcast does not fit it. -/
theorem Suits.downcast (hs : r.Suits t v.runtimeType) (ht : t ≠ .null)
    (hno : t.admits v = false) : r.Downcast t v := by
  cases v with
  | int | bool | string | void | exception =>
    cases hs with
    | same => simp [TypeTag.admits, Value.runtimeType] at hno
    | valid _ hvalid => simp [Value.runtimeType, Class.validTypes] at hvalid
  | null tag =>
    cases hs with
    | same => exact absurd rfl ht
    | valid => cases hno
  | object w =>
    have hmem := hv w rfl
    have hfound := h.sound.found _ hmem
    cases hs with
    | same => exact absurd w.cls.accepts_self (Bool.eq_false_iff.mp hno)
    | derived habove =>
      have hadmits := habove.accepts h hmem w.cls.accepts_self
      exact absurd hadmits (Bool.eq_false_iff.mp hno)
    | @valid param c _ hc hvalid =>
      obtain ⟨k, habove⟩ := exists_above hc (accepts_iff.mpr hvalid)
      cases k with
      | zero =>
        have hadmits : w.cls.accepts (.ofClass param) = true :=
          habove.eq_of_zero ▸ w.cls.accepts_self
        exact absurd hadmits (Bool.eq_false_iff.mp hno)
      | succ k => exact ⟨w, param, k, rfl, rfl, habove⟩

theorem Suits.not_admits_iff (hs : r.Suits t v.runtimeType) (ht : t ≠ .null) :
    t.admits v = false ↔ r.Downcast t v :=
  ⟨hs.downcast h hv ht, Downcast.not_admits h hv⟩

end Registry

/-- Of the methods whose parameters suit the arguments, those cannot bind them that have a downcast
among them. -/
theorem Method.not_fits_iff {r : Registry} (h : r.Orderly) {method : Method} {vs : List Value}
    (hs : r.Compatible method.signature (vs.map Value.runtimeType))
    (hparams : ∀ t ∈ method.signature, t ≠ .null)
    (hvs : ∀ w, .object w ∈ vs → w.cls ∈ r.classes) :
    ¬ method.Fits vs ↔ ∃ b ∈ method.signature.zip vs, r.Downcast b.1 b.2 := by
  obtain ⟨hlength, hsuits⟩ := List.forall₂_iff_zip.mp (List.forall₂_map_right_iff.mp hs)
  have hiff : ∀ b ∈ method.signature.zip vs, b.1.admits b.2 = false ↔ r.Downcast b.1 b.2 := by
    intro b hb
    refine (hsuits hb).not_admits_iff h ?_ (hparams _ (List.of_mem_zip hb).1)
    rintro w hw
    exact hvs w (hw ▸ (List.of_mem_zip hb).2)
  rw [Method.fits_iff, List.forall₂_iff_zip]
  constructor
  · intro hno
    by_contra hnone
    refine hno ⟨hlength, fun {t v} hb => ?_⟩
    refine Bool.of_not_eq_false fun hadmits => hnone ⟨(t, v), hb, (hiff _ hb).mp hadmits⟩
  · rintro ⟨b, hb, hdown⟩ ⟨-, hall⟩
    exact absurd (hall hb) (Bool.eq_false_iff.mp ((hiff b hb).mpr hdown))

namespace Eval

variable {n : Nat} {receiver view : View} {name : String} {vs : List Value} {method : Method}
  {m : Machine}

/-- A call that fails leaves the store that its body has left. -/
theorem store_of_ofBody {x : Eval Completion} {caller : Control} {e : Stop} {s : Machine}
    (h : Ending.ofBody method caller (x m) = .error e s) : s.store = (after x m).store := by
  cases hx : x m with
  | error e t =>
    rw [hx] at h
    cases h
    rw [after_of_error hx]
    rfl
  | ok done t =>
    rw [hx, Ending.ofBody] at h
    cases hv : t.registry.returnValue method done with
    | ok v => simp only [hv, reduceCtorEq] at h
    | error e =>
      simp only [hv] at h
      cases h
      rw [after_of_ok hx]
      rfl

/-- A call that fails after it has bound its arguments has added their frame. -/
theorem callMethod_of_fits
    (hs : m.registry.selectMethod? receiver name (vs.map Value.runtimeType) = some (view, method))
    (hl : m.atLimit? = none) {bindings : List (String × Variable)}
    (hb : bindArguments method.params vs = .ok bindings) {e : Stop} {s : Machine}
    (h : callMethod (exec n) receiver name vs m = .error e s) : m.store.next < s.store.next := by
  rw [callMethod_eq_invoke hs hl, invoke_eq (restores_exec n) hb] at h
  have hstore := store_of_ofBody h
  have hentered : (m.enterCall view method bindings).store.next = m.store.next + 1 :=
    Array.size_push _
  have hbody := (Task.preserves ⟨n, .exec method.body, m.enterCall view method bindings⟩).next_le
  rw [hstore]
  exact Nat.lt_of_lt_of_le (Nat.lt_of_succ_le hentered.ge) hbody

/-- A call fails with the machine as it was, for an argument of the wrong type, if and only if its
arguments cannot be bound. -/
theorem callMethod_mismatch_iff
    (hs : m.registry.selectMethod? receiver name (vs.map Value.runtimeType) = some (view, method))
    (hl : m.atLimit? = none) :
    (∃ declared got, callMethod (exec n) receiver name vs m =
      .error (.failed (.assignmentMismatch declared got)) m) ↔ ¬ method.Fits vs := by
  constructor
  · rintro ⟨declared, got, hfail⟩ ⟨-, bindings, hb⟩
    exact Nat.lt_irrefl _ (callMethod_of_fits hs hl hb hfail)
  · exact callMethod_of_not_fits hs hl

end Eval

/-- While a run goes on in which the program has been loaded, what a parameter of a registered class
can be bound to has a score, and what has a score can be bound unless it is a downcast. When a call
selects a method below the limit on nested calls, binding its arguments is an error if and only if one
of them is a downcast, and otherwise the body of the method starts. At the limit the call is an error
of its own, whatever its arguments are. -/
theorem binding_agrees_with_dispatch {forms : List Form} {r : Registry}
    (hload : Registry.load forms = .ok r) {sink : Sink} {source : Source} {limit : Option Nat}
    {m : Machine} (hm : Underway (Machine.start r sink source limit) m) :
    (∀ c ∈ m.registry.classes, ∀ n ∈ c.own.methods, ∀ p ∈ n.params, ∀ v : Value,
      (∀ w, v = .object w → m.store.Holds w.object) →
        ((∃ x, Variable.create p.type v = .ok x) →
          ∃ score, m.registry.paramScore? p.type v.runtimeType = some score) ∧
        ((∃ score, m.registry.paramScore? p.type v.runtimeType = some score) →
          ((¬ ∃ x, Variable.create p.type v = .ok x) ↔ m.registry.Downcast p.type v))) ∧
    ∀ receiver vs, m.store.Holds receiver.object →
      (∀ v, .object v ∈ vs → m.store.Holds v.object) → ∀ name view chosen,
      m.registry.selectMethod? receiver name (vs.map Value.runtimeType) = some (view, chosen) →
        (∀ l, m.atLimit? = some l → ∀ exec, Eval.callMethod exec receiver name vs m =
          .error (.failed (.callDepthExceeded l)) m) ∧
        (m.atLimit? = none → ∀ fuel,
          ((∃ declared got, Eval.callMethod (exec fuel) receiver name vs m =
              .error (.failed (.assignmentMismatch declared got)) m) ↔
            ∃ b ∈ chosen.signature.zip vs, m.registry.Downcast b.1 b.2) ∧
          ((¬ ∃ b ∈ chosen.signature.zip vs, m.registry.Downcast b.1 b.2) →
            ∃ bindings, bindArguments chosen.params vs = .ok bindings ∧
              Starts ⟨fuel, .call receiver name vs, m⟩
                ⟨fuel, .exec chosen.body, m.enterCall view chosen bindings⟩)) := by
  have horderly := Registry.orderly_load hload
  have hregistry := hm.reachable.orderly horderly
  have htypes : ∀ c ∈ m.registry.classes, ∀ n ∈ c.own.methods, ∀ p ∈ n.params,
      ∃ name, p.type = TypeTag.ofName name :=
    fun c hc => (hregistry.declared c hc c.own List.mem_cons_self).param_types
  have hheld : ∀ w : View, m.store.Holds w.object → w.cls ∈ m.registry.classes :=
    fun _ hw => hm.reachable.mem_classes horderly hw
  constructor
  · intro c hc n hn p hp v hv
    obtain ⟨name, hname⟩ := htypes c hc n hn p hp
    have hclasses : ∀ w, v = .object w → w.cls ∈ m.registry.classes := fun w hw => hheld w (hv w hw)
    simp only [Registry.paramScore?_eq_some, Registry.scores_iff_suits, Variable.create_isOk,
      Bool.not_eq_true]
    constructor
    · intro hadmits
      have hknows : m.registry.Knows p.type :=
        ((hm.complete hload).knowsBody hc c.own List.mem_cons_self).method hn _
          (List.mem_cons_of_mem _ (List.mem_map_of_mem hp))
      exact Registry.suits_of_admits hadmits ⟨name, hname⟩ hknows
        fun w hw => hregistry.sound.found _ (hclasses w hw)
    · intro hsuits
      exact hsuits.not_admits_iff hregistry hclasses (hname ▸ TypeTag.ofName_ne_null name)
  · intro receiver vs hreceiver hvs name view chosen hselect
    refine ⟨fun l hl exec => Eval.callMethod_at_limit hselect hl, fun hl fuel => ?_⟩
    obtain ⟨hsame, hmem, -, -⟩ := Registry.selectMethod?_spec hselect
    have hview : view.cls ∈ m.registry.classes := hheld view (by rwa [View.object_eq hsame])
    obtain ⟨level, -, -, -, -, -, score, -, hscore, -, -⟩ := Registry.selectMethod?_eq_some.mp hselect
    have hparams : ∀ t ∈ chosen.signature, t ≠ .null := by
      intro t ht
      obtain ⟨p, hp, rfl⟩ := List.mem_map.mp ht
      obtain ⟨name, hname⟩ := htypes view.cls hview chosen hmem p hp
      exact hname ▸ TypeTag.ofName_ne_null name
    have hiff := Method.not_fits_iff hregistry
      (Registry.totals_iff_compatible.mp ⟨score, hscore⟩) hparams fun w hw => hheld w (hvs w hw)
    refine ⟨(Eval.callMethod_mismatch_iff hselect hl).trans hiff, fun hnone => ?_⟩
    obtain ⟨-, bindings, hb⟩ : chosen.Fits vs := Decidable.of_not_not (mt hiff.mp hnone)
    exact ⟨bindings, hb, .awaits (.body hselect hl hb)⟩

/- A program that passes its object for a parameter of a derived type. -/

namespace Sample

def taking : Method :=
  ⟨"f", .void, [⟨"x", .ofClass "sub"⟩], .list [.atom "print", .atom "\"f\""]⟩

def passing : Method :=
  ⟨"main", .void, [], .list [.atom "call", .atom "me", .atom "f", .atom "me"]⟩

def taker : Class := ⟨⟨"main", [], [taking, passing]⟩, []⟩

def taken : Class := ⟨⟨"sub", [], []⟩, taker.line⟩

def takerForms : List Form :=
  [.list [.atom "class", .atom "main",
      .list [.atom "method", .atom "void", .atom "f", .list [.list [.atom "sub", .atom "x"]],
        taking.body],
      .list [.atom "method", .atom "void", .atom "main", .list [], passing.body]],
    .list [.atom "class", .atom "sub", .atom "inherits", .atom "main"]]

def offering (limit : Option Nat) : Machine :=
  Machine.start ⟨[taker, taken], []⟩ (.buffer "") (.queue []) limit

def offered (limit : Option Nat) : Machine :=
  (after (Eval.create taker) (offering limit)).enterCall ⟨1, taker, []⟩ passing []

/-- The body starts if the limit leaves room for one call. -/
theorem underway_offered {limit : Option Nat}
    (hl : (after (Eval.create taker) (offering limit)).atLimit? = none) :
    Underway (offering limit) (offered limit) := by
  have hmain : Awaits
      ⟨8, .call ⟨1, taker, []⟩ "main" [], after (Eval.create taker) (offering limit)⟩
      ⟨8, .exec passing.body, offered limit⟩ := .body rfl hl rfl
  exact .started ⟨taker, _, offering limit, _, rfl, rfl, rfl⟩ (.single (.awaits hmain))

theorem downcast_offered (limit : Option Nat) :
    (offered limit).registry.Downcast (.ofClass "sub") (.object ⟨1, taker, []⟩) :=
  ⟨_, "sub", 0, rfl, rfl, .of_parent (c := taken) rfl rfl (by decide)⟩

end Sample

/-- At the limit on nested calls, a call that passes a downcast is no error of binding. -/
theorem downcast_at_the_limit_is_not_bound :
    Registry.load Sample.takerForms = .ok (Sample.offering (some 1)).registry ∧
      Underway (Sample.offering (some 1)) (Sample.offered (some 1)) ∧
      (Sample.offered (some 1)).store.Holds (View.object ⟨1, Sample.taker, []⟩) ∧
      (Sample.offered (some 1)).registry.selectMethod? ⟨1, Sample.taker, []⟩ "f"
        [.ofClass "main"] = some (⟨1, Sample.taker, []⟩, Sample.taking) ∧
      (Sample.offered (some 1)).registry.Downcast (.ofClass "sub") (.object ⟨1, Sample.taker, []⟩) ∧
      (∀ exec, Eval.callMethod exec ⟨1, Sample.taker, []⟩ "f" [.object ⟨1, Sample.taker, []⟩]
        (Sample.offered (some 1)) = .error (.failed (.callDepthExceeded 1))
          (Sample.offered (some 1))) ∧
      ∃ s, Eval.run 9 (Sample.offering (some 1)) = .error (.failed (.callDepthExceeded 1)) s :=
  ⟨rfl, Sample.underway_offered rfl, (Sample.underway_offered rfl).reachable.holds_receiver rfl, rfl,
    Sample.downcast_offered _, fun _ => rfl, _, rfl⟩

/-- In the sample without a limit, the downcast has a score, and the call cannot bind it. -/
theorem sample_downcast_is_not_bound :
    Registry.load Sample.takerForms = .ok (Sample.offering none).registry ∧
      Underway (Sample.offering none) (Sample.offered none) ∧
      ((Sample.offered none).registry.paramScore? (.ofClass "sub") (.ofClass "main")).isSome ∧
      (¬ ∃ x, Variable.create (.ofClass "sub") (.object ⟨1, Sample.taker, []⟩) = .ok x) ∧
      ∃ declared got, Eval.callMethod (exec 7) ⟨1, Sample.taker, []⟩ "f"
          [.object ⟨1, Sample.taker, []⟩] (Sample.offered none) =
        .error (.failed (.assignmentMismatch declared got)) (Sample.offered none) := by
  have hload : Registry.load Sample.takerForms = .ok (Sample.offering none).registry := rfl
  have hm : Underway (Sample.offering none) (Sample.offered none) := Sample.underway_offered rfl
  have hreceiver : (Sample.offered none).store.Holds (View.object ⟨1, Sample.taker, []⟩) :=
    hm.reachable.holds_receiver rfl
  have hheld : ∀ v, .object v ∈ [Value.object ⟨1, Sample.taker, []⟩] →
      (Sample.offered none).store.Holds v.object := by
    intro v hv
    cases List.mem_singleton.mp hv
    exact hreceiver
  have hselect : (Sample.offered none).registry.selectMethod? ⟨1, Sample.taker, []⟩ "f"
      ([Value.object ⟨1, Sample.taker, []⟩].map Value.runtimeType) =
        some (⟨1, Sample.taker, []⟩, Sample.taking) := rfl
  have hscore : (Sample.offered none).registry.paramScore? (.ofClass "sub") (.ofClass "main") =
      some Registry.looseScore := rfl
  have hdown := Sample.downcast_offered none
  obtain ⟨hparams, hcalls⟩ := binding_agrees_with_dispatch hload hm
  obtain ⟨-, hscored⟩ := hparams Sample.taker List.mem_cons_self Sample.taking List.mem_cons_self
    ⟨"x", .ofClass "sub"⟩ List.mem_cons_self (.object ⟨1, Sample.taker, []⟩)
    fun w hw => hheld w (hw ▸ List.mem_cons_self)
  obtain ⟨-, hbelow⟩ := hcalls _ _ hreceiver hheld _ _ _ hselect
  obtain ⟨hrefused, -⟩ := hbelow rfl 7
  exact ⟨hload, hm, by rw [hscore]; rfl, (hscored ⟨_, hscore⟩).mpr hdown,
    hrefused.mpr ⟨_, List.mem_cons_self, hdown⟩⟩

end ObjectLang
