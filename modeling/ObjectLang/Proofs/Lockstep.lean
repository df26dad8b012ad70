import ObjectLang.Program
import ObjectLang.Proofs.Mirror

/-!
Computations in lockstep. On machines that mirror each other the evaluator gives values that
correspond and leaves machines that mirror each other again, or it fails on both with the same
error.
-/

namespace ObjectLang

open Movable (moved Fits)
open Pairing (Later Mirrors)

variable {α β : Type} [Movable α] [Movable β] {p : Pairing} {m m' : Machine}

/-- Both computations end well, with values that correspond, or both fail in the same way. Either
way they have printed and read the same. -/
def Agrees (p : Pairing) (m m' : Machine) (x x' : Eval α) : Prop :=
  match x m, x' m' with
  | .ok a t, .ok a' t' =>
    p.Mirrors t t' ∧ Later m t ∧ Fits p.floor t.registry a ∧ a' = moved p.offset a
  | .error e t, .error e' t' => e' = e ∧ p.sinks t.sink t'.sink ∧ t'.source = t.source
  | _, _ => False

namespace Agrees

variable {x x' : Eval α} {f f' : α → Eval β}

theorem of_ok {a a' : α} {t t' : Machine} (hx : x m = .ok a t) (hx' : x' m' = .ok a' t')
    (h : p.Mirrors t t') (hl : Later m t) (ha : Fits p.floor t.registry a)
    (ha' : a' = moved p.offset a) : Agrees p m m' x x' := by
  unfold Agrees
  rw [hx, hx']
  exact ⟨h, hl, ha, ha'⟩

theorem of_error {e : Stop} {t t' : Machine} (hx : x m = .error e t) (hx' : x' m' = .error e t')
    (hs : p.sinks t.sink t'.sink) (hsource : t'.source = t.source) : Agrees p m m' x x' := by
  unfold Agrees
  rw [hx, hx']
  exact ⟨rfl, hs, hsource⟩

theorem cases (h : Agrees p m m' x x') :
    (∃ a t t', x m = .ok a t ∧ x' m' = .ok (moved p.offset a) t' ∧ p.Mirrors t t' ∧ Later m t ∧
      Fits p.floor t.registry a) ∨
    ∃ e t t', x m = .error e t ∧ x' m' = .error e t' ∧ p.sinks t.sink t'.sink ∧
      t'.source = t.source := by
  unfold Agrees at h
  cases hx : x m with
  | ok a t =>
    cases hx' : x' m' with
    | ok a' t' =>
      rw [hx, hx'] at h
      obtain ⟨hm, hl, ha, rfl⟩ := h
      exact .inl ⟨a, t, t', rfl, rfl, hm, hl, ha⟩
    | error e' t' =>
      rw [hx, hx'] at h
      exact h.elim
  | error e t =>
    cases hx' : x' m' with
    | ok a' t' =>
      rw [hx, hx'] at h
      exact h.elim
    | error e' t' =>
      rw [hx, hx'] at h
      obtain ⟨rfl, hs, hsource⟩ := h
      exact .inr ⟨e', t, t', rfl, rfl, hs, hsource⟩

theorem pure {a a' : α} (h : p.Mirrors m m') (ha : Fits p.floor m.registry a)
    (ha' : a' = moved p.offset a) : Agrees p m m' (pure a) (pure a') :=
  of_ok rfl rfl h (.refl m) ha ha'

theorem throw (h : p.Mirrors m m') (e : Stop) :
    Agrees p m m' (throw e : Eval α) (throw e : Eval α) :=
  of_error rfl rfl h.sinks h.source

theorem fail (h : p.Mirrors m m') (e : Error) :
    Agrees p m m' (Eval.fail e : Eval α) (Eval.fail e : Eval α) :=
  throw h _

theorem ofExcept {e e' : Except Error α} (h : p.Mirrors m m') (he : e' = e.map (moved p.offset))
    (hfits : ∀ a, e = .ok a → Fits p.floor m.registry a) :
    Agrees p m m' (Eval.ofExcept e) (Eval.ofExcept e') := by
  subst he
  cases e with
  | ok a => exact pure h (hfits a rfl) rfl
  | error e => exact fail h e

/-- What is neither an object nor null is the same in both. -/
theorem ofExcept_scalar {e : Except Error Value} (h : p.Mirrors m m')
    (he : ∀ v, e = .ok v → v.isScalar = true) :
    Agrees p m m' (Eval.ofExcept e) (Eval.ofExcept e) := by
  cases e with
  | error e => exact fail h e
  | ok v =>
    have hv := he v rfl
    exact pure h (Value.fits_of_isScalar hv)
      (Value.moved_of_isPlain (Value.isPlain_of_isScalar hv) _).symm

theorem bind (hx : Agrees p m m' x x')
    (hf : ∀ a t t', x m = .ok a t → p.Mirrors t t' → Later m t → Fits p.floor t.registry a →
      Agrees p t t' (f a) (f' (moved p.offset a))) :
    Agrees p m m' (x >>= f) (x' >>= f') := by
  obtain ⟨a, t, t', hres, hres', hm, hl, ha⟩ | ⟨e, t, t', hres, hres', hs, hsource⟩ := hx.cases
  · obtain ⟨b, u, u', hres₁, hres₁', hm₁, hl₁, hb⟩ | ⟨e, u, u', hres₁, hres₁', hs, hsource⟩ :=
      (hf a t t' hres hm hl ha).cases
    · exact of_ok ((bind_ok hres f).trans hres₁) ((bind_ok hres' f').trans hres₁') hm₁
        (hl.trans hl₁) hb rfl
    · exact of_error ((bind_ok hres f).trans hres₁) ((bind_ok hres' f').trans hres₁') hs hsource
  · exact of_error (bind_error hres f) (bind_error hres' f') hs hsource

/-- What is read of the two machines goes on alike. -/
theorem get_bind {f f' : Machine → Eval β} (h : Agrees p m m' (f m) (f' m')) :
    Agrees p m m' (get >>= f) (get >>= f') :=
  h

/-- What comes first cannot fail. -/
theorem first {γ : Type} {y y' : Eval γ} {g g' : γ → Eval β} {c c' : γ} {t t' : Machine}
    (hy : y m = .ok c t) (hy' : y' m' = .ok c' t') (hl : Later m t)
    (h : Agrees p t t' (g c) (g' c')) : Agrees p m m' (y >>= g) (y' >>= g') := by
  obtain ⟨b, u, u', hres, hres', hm, hl', hb⟩ | ⟨e, u, u', hres, hres', hs, hsource⟩ := h.cases
  · exact of_ok ((bind_ok hy g).trans hres) ((bind_ok hy' g').trans hres') hm (hl.trans hl') hb rfl
  · exact of_error ((bind_ok hy g).trans hres) ((bind_ok hy' g').trans hres') hs hsource

theorem modify {g g' : Machine → Machine} (h : p.Mirrors (g m) (g' m')) (hl : Later m (g m)) :
    Agrees p m m' (modify g : Eval Unit) (modify g' : Eval Unit) :=
  of_ok rfl rfl h hl trivial rfl

/-- A bracket undoes its change, so that the machines mirror each other as before. -/
theorem bracket {enter enter' : Control → Control} {leave leave' : Control → Control → Control}
    (h : p.Mirrors m m')
    (hm : p.Mirrors { m with control := enter m.control } { m' with control := enter' m'.control })
    (hx : Agrees p { m with control := enter m.control } { m' with control := enter' m'.control }
      x x')
    (hleave : ∀ c, leave c (enter c) = c) (hleave' : ∀ c, leave' c (enter' c) = c) :
    Agrees p m m' (Eval.bracket enter leave x) (Eval.bracket enter' leave' x') := by
  obtain ⟨a, t, t', hres, hres', ht, hl, ha⟩ | ⟨e, t, t', hres, hres', hs, hsource⟩ := hx.cases
  · have hcontrol : leave m.control t.control = m.control := by
      rw [hl.control]
      exact hleave _
    have hcontrol' : leave' m'.control t'.control = m'.control := by
      have henter : t'.control = enter' m'.control := by
        rw [ht.control, hl.control]
        exact hm.control.symm
      rw [henter]
      exact hleave' _
    have hleft : Eval.bracket enter leave x m = .ok a { t with control := m.control } := by
      rw [Eval.bracket_of_ok hres, hcontrol]
    have hright : Eval.bracket enter' leave' x' m' =
        .ok (moved p.offset a) { t' with control := m'.control } := by
      rw [Eval.bracket_of_ok hres', hcontrol']
    exact of_ok hleft hright (ht.withControl h.control (h.controls.later hl.kept hl.store))
      ⟨rfl, hl.within, hl.store, hl.limit⟩ ha rfl
  · exact of_error (Eval.bracket_of_error hres) (Eval.bracket_of_error hres') hs hsource

/- The operations on the machine. -/

/-- A new frame takes the next place in both stores. -/
theorem alloc (h : p.Mirrors m m') {frame : Frame} (hf : Fits p.floor m.registry frame)
    {g g' : FrameId → Eval β}
    (hg : p.Mirrors { m with store := m.store.push frame }
        { m' with store := m'.store.push (moved p.offset frame) } →
      Agrees p { m with store := m.store.push frame }
        { m' with store := m'.store.push (moved p.offset frame) } (g m.store.next)
        (g' (moved p.offset m.store.next))) :
    Agrees p m m' (Eval.alloc frame >>= g) (Eval.alloc (moved p.offset frame) >>= g') := by
  have hagrees := hg (h.push hf)
  rw [← h.stores.moved_next] at hagrees
  exact first rfl rfl ⟨rfl, .refl _, .push _ _, rfl⟩ hagrees

theorem building_ok (h : p.Mirrors m m') {b : Build α} {a : α} {s s' : Registry}
    (hb : b m.registry = .ok a s) (hb' : b m'.registry = .ok (moved p.offset a) s')
    (hm : m.registry.Within s) (hc : s.Complete) (hs : s.Within s') (ha : Fits p.floor s a) :
    Agrees p m m' (Eval.building b) (Eval.building b) :=
  of_ok (Eval.building_eq_ok.mpr ⟨s, hb, rfl⟩) (Eval.building_eq_ok.mpr ⟨s', hb', rfl⟩)
    (h.withRegistry hm.kept hc hs) ⟨rfl, hm, .refl _, rfl⟩ ha rfl

theorem building_error (h : p.Mirrors m m') {b : Build α} {e : Stop} {s s' : Registry}
    (hb : b m.registry = .error e s) (hb' : b m'.registry = .error e s') :
    Agrees p m m' (Eval.building b) (Eval.building b) := by
  have herror : ∀ {m : Machine} {s : Registry}, b m.registry = .error e s →
      Eval.building b m = .error e { m with registry := s } := by
    intro m s hb
    simp only [Eval.building, hb]
  exact of_error (herror hb) (herror hb') h.sinks h.source

theorem resolve (h : p.Mirrors m m') (name : String) :
    Agrees p m m' (Eval.building (Registry.resolve name))
      (Eval.building (Registry.resolve name)) := by
  obtain ⟨c, s, s', hres, hres', hs⟩ | ⟨e, s, s', hres, hres'⟩ := h.within.resolve name
  · obtain ⟨hcomplete, hwithin, hfound⟩ := h.complete.resolve hres
    exact building_ok h hres hres' hwithin hcomplete hs
      (hcomplete.knowsBody (Registry.find?_mem hfound).1)
  · exact building_error h hres hres'

theorem resolveType (h : p.Mirrors m m') (t : TypeTag) :
    Agrees p m m' (Eval.building (Registry.resolveType t))
      (Eval.building (Registry.resolveType t)) := by
  obtain ⟨s, s', hres, hres', hs⟩ | ⟨e, s, s', hres, hres'⟩ := h.within.resolveType t
  · obtain ⟨hcomplete, hwithin, -⟩ := h.complete.resolveType hres
    exact building_ok h hres hres' hwithin hcomplete hs trivial
  · exact building_error h hres hres'

theorem create (h : p.Mirrors m m') {c : Class} (hc : Fits p.floor m.registry c) :
    Agrees p m m' (Eval.create c) (Eval.create c) := by
  unfold Eval.create
  cases hf : c.fieldFrames with
  | error e => exact fail h e
  | ok frames =>
    have hfits := Class.fits_fieldFrames hf hc
    have hpushed := h.withStores (h.stores.pushAll hfits) (.pushAll _ _)
    rw [Class.moved_fieldFrames hf] at hpushed
    refine of_ok rfl rfl hpushed ⟨rfl, .refl _, .pushAll _ _, rfl⟩ ⟨h.stores.floor_le, ?_⟩ ?_
    · intro b hb
      exact hc b (by simpa [View.whole] using hb)
    · exact congrArg (fun base => View.mk base c []) h.stores.next

theorem println (h : p.Mirrors m m') (line : String) :
    Agrees p m m' (Eval.println line) (Eval.println line) :=
  modify ⟨h.control, h.controls, h.stores, h.complete, h.within, p.println line _ _ h.sinks,
    h.source, h.limit⟩ ⟨rfl, .refl _, .refl _, rfl⟩

theorem readLine (h : p.Mirrors m m') : Agrees p m m' Eval.readLine Eval.readLine := by
  refine of_ok rfl rfl ⟨h.control, h.controls, h.stores, h.complete, h.within, h.sinks, ?_,
    h.limit⟩ ⟨rfl, .refl _, .refl _, rfl⟩ trivial ?_
  · rw [h.source]
  · rw [h.source]
    rfl

theorem checkAccess (h : p.Mirrors m m') (name : String) :
    Agrees p m m' (Eval.checkAccess name) (Eval.checkAccess name) := by
  refine get_bind ?_
  rw [h.handling_eq]
  split
  · exact fail h _
  · exact pure h trivial rfl

theorem lookup (h : p.Mirrors m m') (name : String) :
    Agrees p m m' (Eval.lookup name) (Eval.lookup name) := by
  refine (checkAccess h name).bind fun _ t t' ha ht hl _ => get_bind ?_
  obtain ⟨hallowed, rfl⟩ := Eval.checkAccess_eq_ok.mp ha
  have hshields : name = exceptionName → t.store.Shields t.control.scopes :=
    fun hname => ht.controls.handling (hallowed hname)
  obtain ⟨heq, hfits⟩ := ht.stores.lookup_eq ht.controls.scopes hshields
  rw [ht.scopes_eq, heq]
  cases hx : t.store.lookup t.control.scopes name with
  | none => exact fail ht _
  | some x => exact pure ht (hfits x hx) rfl

theorem checkVisible (h : p.Mirrors m m') (name : String) :
    Agrees p m m' (Eval.checkVisible name) (Eval.checkVisible name) := by
  refine (checkAccess h name).bind fun _ t t' _ ht _ _ => get_bind ?_
  rw [ht.scopes_eq, ht.stores.contains_eq ht.controls.scopes]
  split
  · exact fail ht _
  · exact pure ht trivial rfl

theorem assign (h : p.Mirrors m m') (name : String) {v : Value} (hv : Fits p.floor m.registry v) :
    Agrees p m m' (Eval.assign name v) (Eval.assign name (moved p.offset v)) := by
  refine get_bind ?_
  rw [h.scopes_eq, h.stores.assignment_eq h.controls.scopes]
  cases ha : m.store.assignment name v m.control.scopes with
  | error e => cases e <;> exact fail h _
  | ok target =>
    obtain ⟨i, y⟩ := target
    obtain ⟨above, below, x, hscopes, -, hx, hy⟩ := Store.assignment_eq_ok ha
    have hi : Fits p.floor m.registry i := h.controls.scopes i (by simp [hscopes])
    have ht := Variable.assign_declared hy
    have hknown : m.registry.Knows x.declared := by
      obtain ⟨hnone, -⟩ | ⟨z, -, hz, -, -, hknown, -⟩ := h.stores.get?_cases hi name
      · rw [hx] at hnone
        cases hnone
      · rw [hx] at hz
        cases hz
        exact hknown
    exact modify (h.withStores (h.stores.set hi hx (Variable.fits_assign hy hknown hv) ht)
      (.set hx ht)) ⟨rfl, .refl _, .set hx ht, rfl⟩

theorem raise (h : p.Mirrors m m') {v : Value} (hv : Fits p.floor m.registry v) :
    Agrees p m m' (Eval.raise v) (Eval.raise (moved p.offset v)) := by
  refine get_bind ?_
  rw [h.scopes_eq, h.stores.contains_eq h.controls.scopes]
  split
  · exact assign h exceptionName hv
  · rw [h.ambient_eq]
    obtain ⟨hx, hx'⟩ | ⟨x, x', hx, hx', ht, hknown, -⟩ :=
      h.stores.get?_cases h.controls.ambient exceptionName
    · rw [hx, hx']
      exact pure h trivial rfl
    · rw [hx, hx']
      refine (ofExcept h (Variable.assign_moved p.offset ht v) fun y hy =>
        Variable.fits_assign hy hknown hv).bind fun y t t' hres hm hl hfits => ?_
      obtain ⟨hy, rfl⟩ := Eval.ofExcept_eq_ok.mp hres
      have hdeclared := Variable.assign_declared hy
      have hset := hm.withStores (hm.stores.set hm.controls.ambient hx hfits hdeclared)
        (.set hx hdeclared)
      rw [← hm.ambient_eq] at hset
      exact modify hset ⟨rfl, .refl _, .set hx hdeclared, rfl⟩

theorem activation (h : p.Mirrors m m') (shape : Shape) :
    Agrees p m m' (Eval.activation shape) (Eval.activation shape) := by
  refine get_bind ?_
  rw [h.activation_eq]
  cases ha : m.control.activation with
  | none => exact fail h _
  | some a => exact pure h (h.controls.activation a ha) rfl

theorem self (h : p.Mirrors m m') : Agrees p m m' Eval.self Eval.self :=
  (activation h .selfOutside).bind fun a _ _ _ ht _ ha =>
    pure ht (View.fits_of_sameObject ha.1 a.receiver.sameObject_mostDerived)
      (a.receiver.mostDerived_moved p.offset)

theorem superView (h : p.Mirrors m m') : Agrees p m m' Eval.superView Eval.superView := by
  refine (activation h .superOutside).bind fun a t t' _ ht _ ha => ?_
  have hparent : (moved p.offset a).receiver.parent? = moved p.offset a.receiver.parent? :=
    a.receiver.parent?_moved p.offset
  simp only [hparent]
  cases hv : a.receiver.parent? with
  | none => exact fail ht _
  | some v => exact pure ht (View.fits_of_sameObject ha.1 (View.sameObject_parent? hv)) rfl

theorem messageIn (h : p.Mirrors m m') {i : FrameId} (hi : p.floor ≤ i) :
    Agrees p m m' (Eval.messageIn i) (Eval.messageIn (moved p.offset i)) := by
  refine get_bind ?_
  rw [Pairing.moved_of_le hi, h.stores.get?_eq hi]
  cases hx : m.store.get? i exceptionName with
  | none => exact pure h trivial rfl
  | some x => exact pure h (h.stores.fits_get? hi hx).2 rfl

theorem checkDepth (h : p.Mirrors m m') : Agrees p m m' Eval.checkDepth Eval.checkDepth := by
  refine get_bind ?_
  have hlimit : m'.atLimit? = m.atLimit? := by
    rw [Machine.atLimit?, Machine.atLimit?, h.limit, h.control]
    rfl
  rw [hlimit]
  cases m.atLimit? with
  | none => exact pure h trivial rfl
  | some limit => exact fail h _

theorem newObject (h : p.Mirrors m m') (cls : String) :
    Agrees p m m' (Eval.newObject cls) (Eval.newObject cls) :=
  (resolve h cls).bind fun _ _ _ _ ht _ hc =>
    (create ht hc).bind fun _ _ _ _ hu _ hv => pure hu hv rfl

end Agrees

/- One level of the evaluator, on the supposition that what is further inside runs in lockstep. -/

section Levels

variable {eval : Form → Eval Operand} {exec : Form → Eval Completion}
  (heval : ∀ f m m', p.Mirrors m m' → Agrees p m m' (eval f) (eval f))
  (hexec : ∀ f m m', p.Mirrors m m' → Agrees p m m' (exec f) (exec f))

namespace Agrees

include hexec in
theorem callMethod (h : p.Mirrors m m') {receiver : View} (name : String) {vs : List Value}
    (hreceiver : Fits p.floor m.registry receiver) (hvs : Fits p.floor m.registry vs) :
    Agrees p m m' (Eval.callMethod exec receiver name vs)
      (Eval.callMethod exec (moved p.offset receiver) name (moved p.offset vs)) := by
  refine get_bind ?_
  have htypes : (moved p.offset vs).map Value.runtimeType = vs.map Value.runtimeType := by
    refine (List.map_map ..).trans (List.map_congr_left fun v _ => ?_)
    exact v.runtimeType_moved p.offset
  have hknown : ∀ t ∈ vs.map Value.runtimeType, m.registry.Knows t := by
    intro t ht
    obtain ⟨v, hv, rfl⟩ := List.mem_map.mp ht
    exact Value.knows_runtimeType (hvs v hv)
  rw [htypes, Registry.selectMethod?_moved, h.within.selectMethod?_eq hreceiver.2 name hknown]
  cases hs : m.registry.selectMethod? receiver name (vs.map Value.runtimeType) with
  | none => exact fail h _
  | some chosen =>
    obtain ⟨view, method⟩ := chosen
    obtain ⟨hsame, hmethod, -⟩ := Registry.selectMethod?_spec hs
    have hview := View.fits_of_sameObject hreceiver hsame
    have htypes := (View.fits_own hview).method hmethod
    refine (checkDepth h).bind fun _ t t' _ ht hl _ => ?_
    refine (ofExcept ht (bindArguments_moved p.offset method.params vs) fun bindings hb => ?_).bind
      fun bindings u u' _ hu hl' hb => ?_
    · refine fits_bindArguments hb (fun q hq => ?_) (Movable.kept hvs hl.kept)
      have hq : q.type ∈ method.returns :: method.signature :=
        List.mem_cons_of_mem _ (List.mem_map_of_mem hq)
      exact (htypes _ hq).kept hl.kept
    · have hkept := hl.kept.trans hl'.kept
      have hreturns := (htypes _ List.mem_cons_self).kept hkept
      have hframe : Fits p.floor u.registry (Frame.mk .arguments bindings) := hb
      refine alloc hu hframe fun hpushed => ?_
      have hentered := hpushed.enterCall hu.stores.floor_le (Movable.kept hview hkept) hreturns
      refine (bracket hpushed hentered (hexec _ _ _ hentered) (fun _ => rfl) fun _ => rfl).bind
        fun done w w' _ hw hl'' hdone => get_bind (ofExcept hw ?_ ?_)
      · rw [hw.within.returnValue_eq (hreturns.kept hl''.kept), Registry.returnValue_moved]
      · exact fun v hv => Registry.fits_returnValue hv (hreturns.kept hl''.kept) hdone

include heval in
theorem arguments (h : p.Mirrors m m') (fs : List Form) :
    Agrees p m m' (Eval.arguments eval fs) (Eval.arguments eval fs) := by
  induction fs generalizing m m' with
  | nil =>
    refine pure h ?_ rfl
    rintro vs hvs
    cases hvs
    exact fun v hv => absurd hv List.not_mem_nil
  | cons f fs ih =>
    refine (heval f m m' h).bind fun a t t' _ ht _ ha => ?_
    obtain ⟨v, d⟩ := a
    have hrest : Agrees p t t' (do return (← Eval.arguments eval fs).map (v :: ·))
        (do return (← Eval.arguments eval fs).map (moved p.offset v :: ·)) := by
      refine (ih ht).bind fun vs u u' _ hu hl hvs => pure hu ?_ ?_
      · intro ws hws
        obtain ⟨us, rfl, rfl⟩ := Option.map_eq_some_iff.mp hws
        exact List.forall_mem_cons.mpr ⟨Movable.kept ha.2 hl.kept, hvs us rfl⟩
      · cases vs <;> rfl
    cases v with
    | exception => exact pure ht nofun rfl
    | _ => exact hrest

include heval hexec in
theorem callWith (h : p.Mirrors m m') {receiver : View} (method : String) (args : List Form)
    (hreceiver : Fits p.floor m.registry receiver) :
    Agrees p m m' (Eval.callWith eval exec receiver method args)
      (Eval.callWith eval exec (moved p.offset receiver) method args) := by
  refine (arguments heval h args).bind fun vs t t' _ ht hl hvs => ?_
  cases vs with
  | none => exact pure ht trivial rfl
  | some vs => exact callMethod hexec ht method (Movable.kept hreceiver hl.kept) (hvs vs rfl)

include heval hexec in
theorem call (h : p.Mirrors m m') (target : Target) (method : String) (args : List Form) :
    Agrees p m m' (Eval.call eval exec target method args)
      (Eval.call eval exec target method args) := by
  cases target with
  | super =>
    exact (superView h).bind fun _ _ _ _ ht _ hv => callWith heval hexec ht method args hv
  | value f =>
    refine (heval f m m' h).bind fun a t t' _ ht _ ha => ?_
    obtain ⟨v, d⟩ := a
    cases v with
    | object v => exact callWith heval hexec ht method args ha.2
    | exception => exact pure ht trivial rfl
    | _ => exact fail ht _

include heval in
theorem binary (h : p.Mirrors m m') (op : Operator) (left right : Form) :
    Agrees p m m' (Eval.binary eval op left right) (Eval.binary eval op left right) := by
  refine (heval left m m' h).bind fun a t t' _ ht _ ha => ?_
  have hmarks : ∀ c : Operand, (moved p.offset c).value.isException = c.value.isException :=
    fun c => c.value.isException_moved p.offset
  simp only [hmarks]
  split
  · exact pure ht trivial rfl
  · refine (heval right t t' ht).bind fun b u u' _ hu hl hb => ?_
    simp only [hmarks]
    split
    · exact pure hu trivial rfl
    · refine get_bind ?_
      rw [Registry.operate_moved, hu.within.operate_eq op (ha.1.kept hl.kept) hb.1]
      exact ofExcept_scalar hu fun v => Registry.isScalar_operate

include heval in
theorem negation (h : p.Mirrors m m') (operand : Form) :
    Agrees p m m' (Eval.negation eval operand) (Eval.negation eval operand) := by
  refine (heval operand m m' h).bind fun a t t' _ ht _ _ => ?_
  have hmarks : (moved p.offset a).value.isException = a.value.isException :=
    a.value.isException_moved p.offset
  simp only [hmarks]
  split
  · exact pure ht trivial rfl
  · have hnegate : Operator.negate (moved p.offset a).value = Operator.negate a.value :=
      Operator.negate_moved p.offset a.value
    rw [hnegate]
    exact ofExcept_scalar ht fun v => Operator.isScalar_negate

include heval hexec in
theorem expression (h : p.Mirrors m m') (e : Expression) :
    Agrees p m m' (Eval.expression eval exec e) (Eval.expression eval exec e) := by
  have htemporary : ∀ {x : Eval Value}, Agrees p m m' x x →
      Agrees p m m' (do return Operand.temporary (← x)) (do return Operand.temporary (← x)) := by
    intro x hx
    exact hx.bind fun v t t' _ ht _ hv =>
      pure ht (Operand.fits_typed hv (Registry.knows_of_className? rfl))
        (Operand.typed_moved p.offset v .untyped)
  cases e with
  | literal l =>
    refine pure h (Operand.fits_typed ?_ (Registry.knows_of_className? rfl)) ?_
    · cases l <;> trivial
    · cases l <;> rfl
  | self =>
    refine (self h).bind fun v t t' _ ht _ hv => pure ht ?_ rfl
    exact Operand.fits_typed hv (View.fits_own hv).name
  | name token =>
    refine (lookup h token).bind fun x t t' _ ht _ hx => pure ht ?_ ?_
    · exact Operand.fits_typed hx.2 hx.1
    · exact Operand.typed_moved p.offset x.value x.declared
  | call target method args => exact htemporary (call heval hexec h target method args)
  | create cls => exact htemporary (newObject h cls)
  | negation operand => exact htemporary (negation heval h operand)
  | binary op left right => exact htemporary (binary heval h op left right)
  | invalid e => exact fail h e

include heval in
theorem withValue (h : p.Mirrors m m') (f : Form) {k k' : Value → Eval Completion}
    (hk : ∀ v t t', p.Mirrors t t' → Later m t → Fits p.floor t.registry v →
      Agrees p t t' (k v) (k' (moved p.offset v))) :
    Agrees p m m' (Eval.withValue eval f k) (Eval.withValue eval f k') := by
  refine (heval f m m' h).bind fun a t t' _ ht hl ha => ?_
  obtain ⟨v, d⟩ := a
  have hv := hk v t t' ht hl ha.2
  cases v with
  | exception => exact pure ht trivial rfl
  | _ => exact hv

include hexec in
theorem block (h : p.Mirrors m m') (fs : List Form) :
    Agrees p m m' (Eval.block exec fs) (Eval.block exec fs) := by
  induction fs generalizing m m' with
  | nil => exact pure h trivial rfl
  | cons f fs ih =>
    refine (hexec f m m' h).bind fun done t t' _ ht _ hdone => ?_
    cases done with
    | normal => exact ih ht
    | returned v => exact pure ht hdone rfl
    | raised => exact pure ht trivial rfl

include heval in
theorem printLine (h : p.Mirrors m m') (line : String) (fs : List Form) :
    Agrees p m m' (Eval.printLine eval line fs) (Eval.printLine eval line fs) := by
  induction fs generalizing m m' line with
  | nil => exact (println h line).bind fun _ _ _ _ ht _ _ => pure ht trivial rfl
  | cons f fs ih =>
    refine withValue heval h f fun v t t' ht _ _ => ?_
    rw [Eval.printed_moved]
    cases Eval.printed v with
    | error e => exact fail ht e
    | ok text => exact ih ht _

include heval in
theorem condition (h : p.Mirrors m m') (form : Conditional) (f : Form) :
    Agrees p m m' (Eval.condition eval form f) (Eval.condition eval form f) := by
  refine (heval f m m' h).bind fun a t t' _ ht _ _ => ?_
  obtain ⟨v, d⟩ := a
  cases v with
  | bool b => exact pure ht (fun _ _ => trivial) rfl
  | exception => exact pure ht nofun rfl
  | _ => exact fail ht _

include heval hexec in
theorem branch (h : p.Mirrors m m') (test consequent : Form) (alternative : Option Form) :
    Agrees p m m' (Eval.branch eval exec test consequent alternative)
      (Eval.branch eval exec test consequent alternative) := by
  refine (condition heval h .branch test).bind fun b t t' _ ht _ _ => ?_
  cases b with
  | none => exact pure ht trivial rfl
  | some b =>
    cases b with
    | true => exact hexec consequent t t' ht
    | false =>
      cases alternative with
      | none => exact pure ht trivial rfl
      | some f => exact hexec f t t' ht

include heval hexec in
theorem loop (h : p.Mirrors m m') (test body : Form) (fuel : Nat) :
    Agrees p m m' (Eval.loop eval exec test body fuel) (Eval.loop eval exec test body fuel) := by
  induction fuel generalizing m m' with
  | zero => exact throw h _
  | succ fuel ih =>
    refine (condition heval h .loop test).bind fun b t t' _ ht _ _ => ?_
    cases b with
    | none => exact pure ht trivial rfl
    | some b =>
      cases b with
      | false => exact pure ht trivial rfl
      | true =>
        refine (hexec body t t' ht).bind fun done u u' _ hu _ hdone => ?_
        cases done with
        | normal => exact ih hu
        | returned v => exact pure hu hdone rfl
        | raised => exact pure hu trivial rfl

include heval in
theorem initial (h : p.Mirrors m m') (l : Local) :
    Agrees p m m' (Eval.initial eval l) (Eval.initial eval l) := by
  refine (resolveType h l.type).bind fun _ t t' hres ht _ _ => ?_
  obtain ⟨s, hs, rfl⟩ := Eval.building_eq_ok.mp hres
  obtain ⟨-, -, hknown⟩ := h.complete.resolveType hs
  cases l.init with
  | none =>
    refine pure ht ?_ (congrArg some (Variable.moved_zeroed p.offset l.type).symm)
    rintro x hx
    cases hx
    exact Variable.fits_zeroed hknown
  | some f =>
    refine (heval f _ t' ht).bind fun a u u' _ hu hl ha => ?_
    obtain ⟨v, d⟩ := a
    have hcreate : Agrees p u u' (do return some (← Eval.ofExcept (Variable.create l.type v)))
        (do return some (← Eval.ofExcept (Variable.create l.type (moved p.offset v)))) := by
      refine (ofExcept hu (Variable.create_moved p.offset l.type v) fun x hx => ?_).bind
        fun x w w' _ hw _ hx => pure hw ?_ rfl
      · exact Variable.fits_assign hx (hknown.kept hl.kept) ha.2
      · rintro y hy
        cases hy
        exact hx
    cases v with
    | exception => exact pure hu nofun rfl
    | _ => exact hcreate

include heval in
theorem locals (h : p.Mirrors m m') {frame : Frame} (hframe : Fits p.floor m.registry frame)
    (ds : List Form) :
    Agrees p m m' (Eval.locals eval frame ds) (Eval.locals eval (moved p.offset frame) ds) := by
  induction ds generalizing m m' frame with
  | nil =>
    refine pure h ?_ rfl
    rintro f hf
    cases hf
    exact hframe
  | cons d ds ih =>
    unfold Eval.locals
    cases Local.ofForm d with
    | error e => exact fail h e
    | ok l =>
      refine (initial heval h l).bind fun x t t' _ ht hl hx => ?_
      cases x with
      | none => exact pure ht nofun rfl
      | some x =>
        have hx' : moved p.offset (some x) = some (moved p.offset x) := rfl
        have hmoved := Frame.define?_moved p.offset frame l.name x
        cases hd : frame.define? l.name x with
        | none =>
          rw [hd] at hmoved
          simp only [hx', hd, hmoved]
          exact fail ht _
        | some frame' =>
          rw [hd] at hmoved
          simp only [hx', hd, hmoved]
          exact ih ht (Frame.fits_define? (Movable.kept hframe hl.kept) (hx x rfl) hd)

include heval hexec in
theorem letBlock (h : p.Mirrors m m') (decls body : List Form) :
    Agrees p m m' (Eval.letBlock eval exec decls body) (Eval.letBlock eval exec decls body) := by
  have hempty : Fits p.floor m.registry (Frame.empty .locals) := by
    exact fun b hb => absurd hb List.not_mem_nil
  refine (locals heval h hempty decls).bind fun frame t t' _ ht _ hframe => ?_
  cases frame with
  | none => exact pure ht trivial rfl
  | some frame =>
    refine alloc ht (hframe frame rfl) fun hpushed => ?_
    have hentered := hpushed.enterScope ht.stores.floor_le
    exact bracket hpushed hentered (block hexec hentered body) (fun _ => rfl) fun _ => rfl

theorem input (h : p.Mirrors m m') (kind : InputKind) (name : String) :
    Agrees p m m' (Eval.input kind name) (Eval.input kind name) := by
  refine (checkVisible h name).bind fun _ t t' _ ht _ _ => ?_
  refine (readLine ht).bind fun line u u' _ hu _ _ => ?_
  refine (ofExcept_scalar hu fun v => Eval.isScalar_received).bind fun v w w' _ hw _ hv => ?_
  exact (assign hw name hv).bind fun _ _ _ _ ht _ _ => pure ht trivial rfl

include heval in
theorem result (h : p.Mirrors m m') (value : Option Form) :
    Agrees p m m' (Eval.result eval value) (Eval.result eval value) := by
  refine (activation h .resultOutside).bind fun a t t' _ ht _ ha => ?_
  cases value with
  | none =>
    refine pure ht (Eval.fits_tagNull (Value.fits_zero ha.2) ha.2) ?_
    have hzero := Eval.tagNull_moved p.offset a.method.returns (.zero a.method.returns)
    rw [Value.moved_of_isPlain (Value.isPlain_zero _)] at hzero
    exact congrArg Completion.returned hzero
  | some f =>
    refine withValue heval ht f fun v u u' hu hl hv => pure hu ?_ ?_
    · exact Eval.fits_tagNull hv (ha.2.kept hl.kept)
    · exact congrArg Completion.returned (Eval.tagNull_moved p.offset a.method.returns v)

include hexec in
theorem attempt (h : p.Mirrors m m') (body handler : Form) :
    Agrees p m m' (Eval.attempt exec body handler) (Eval.attempt exec body handler) := by
  have hframe : Fits p.floor m.registry Frame.forException := by
    rintro b hb
    rw [List.mem_singleton.mp hb]
    exact Variable.fits_zeroed (Registry.knows_of_className? rfl)
  refine alloc h hframe fun hpushed => ?_
  have hentered := hpushed.enterTry h.stores.floor_le
  have hpos : m.store.next ≠ 0 := Nat.ne_of_gt (Pairing.pos_of_le h.stores.floor_le)
  refine (bracket hpushed hentered ?_ (fun _ => rfl) fun _ => rfl).bind
    fun done t t' _ ht _ hdone => ?_
  · refine (hexec body _ _ hentered).bind fun done t t' _ ht hl hdone => ?_
    cases done with
    | raised =>
      -- The frame of this `try` is in scope, so its handler reads no message further out.
      have hshields : t.store.Shields t.control.scopes := by
        rw [hl.control]
        refine ⟨hpos, .inl (hl.store.get?_isSome ?_)⟩
        simp [Store.get?, Frame.get?, Frame.forException]
      have hhandler := ht.enterHandler hshields
      exact bracket ht hhandler (hexec handler _ _ hhandler) (fun _ => rfl) fun _ => rfl
    | normal => exact pure ht trivial rfl
    | returned v => exact pure ht hdone rfl
  · cases done with
    | raised =>
      refine (messageIn ht h.stores.floor_le).bind fun v u u' _ hu _ hv => ?_
      exact (raise hu hv).bind fun _ _ _ _ hw _ _ => pure hw trivial rfl
    | normal => exact pure ht trivial rfl
    | returned v => exact pure ht hdone rfl

include heval hexec in
theorem statement (h : p.Mirrors m m') (fuel : Nat) (e : Statement) :
    Agrees p m m' (Eval.statement fuel eval exec e) (Eval.statement fuel eval exec e) := by
  cases e with
  | print operands => exact printLine heval h "" operands
  | assign name value =>
    refine (checkVisible h name).bind fun _ t t' _ ht _ _ => ?_
    exact withValue heval ht value fun v u u' hu _ hv =>
      (assign hu name hv).bind fun _ _ _ _ hw _ _ => pure hw trivial rfl
  | block body => exact block hexec h body
  | branch test consequent alternative => exact branch heval hexec h test consequent alternative
  | loop test body => exact loop heval hexec h test body fuel
  | bind decls body => exact letBlock heval hexec h decls body
  | input kind name => exact input h kind name
  | result value => exact result heval h value
  | attempt body handler => exact attempt hexec h body handler
  | throw message =>
    exact withValue heval h message fun v t t' ht _ hv =>
      (raise ht hv).bind fun _ _ _ _ hu _ _ => pure hu trivial rfl
  | expression f => exact withValue heval h f fun _ _ _ ht _ _ => pure ht trivial rfl
  | invalid e => exact fail h e

end Agrees

end Levels

/-- Induction on the fuel. -/
theorem agrees_evaluator (p : Pairing) (n : Nat) :
    (∀ f m m', p.Mirrors m m' → Agrees p m m' (eval n f) (eval n f)) ∧
      ∀ f m m', p.Mirrors m m' → Agrees p m m' (exec n f) (exec n f) := by
  induction n with
  | zero => exact ⟨fun _ _ _ h => .throw h _, fun _ _ _ h => .throw h _⟩
  | succ n ih =>
    exact ⟨fun _ _ _ h => .expression ih.1 ih.2 h _, fun _ _ _ h => .statement ih.1 ih.2 h n _⟩

theorem agrees_exec (p : Pairing) (n : Nat) (f : Form) (h : p.Mirrors m m') :
    Agrees p m m' (exec n f) (exec n f) :=
  (agrees_evaluator p n).2 f m m' h


end ObjectLang
