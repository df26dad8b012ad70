import ObjectLang.Proofs.Relocation

/-!
Two machines that mirror each other. The second may have classes besides those of the first, and its
frames may be further up, where they do not reach the frames of earlier runs. The first frame, which
takes the message of an uncaught exception, may differ until such a message is written, for nothing
reads it before.
-/

namespace ObjectLang

open Movable (moved Fits)

structure Pairing where
  /-- From here on the frames of the first run have counterparts in the second. -/
  floor : Nat
  floor_pos : 0 < floor
  /-- How much further up the counterparts are. -/
  offset : Nat
  /-- What the two runs have printed. -/
  sinks : Sink → Sink → Prop
  println : ∀ line s s', sinks s s' → sinks (s.println line) (s'.println line)
  /-- What the first frames of both held at the start. -/
  held : Variable
  held' : Variable

def Frame.ofMessage (x : Variable) : Frame := ⟨.exception, [(exceptionName, x)]⟩

theorem Frame.get?_ofMessage (x : Variable) (name : String) :
    (ofMessage x).get? name = if name = exceptionName then some x else none := by
  by_cases h : name = exceptionName
  · simp [get?, ofMessage, h]
  · have hne : (name == exceptionName) = false := by simpa using h
    simp [get?, ofMessage, List.lookup_cons, h, hne]

/-- The code that sees these scopes finds a message nearer than that of the first frame. -/
def Store.Shields (s : Store) : Scopes → Prop
  | [] => False
  | i :: rest => i ≠ 0 ∧ ((s.get? i exceptionName).isSome ∨ s.Shields rest)

theorem Store.frame?_push (s : Store) (f : Frame) (i : FrameId) :
    (s.push f).frame? i = if i = s.next then some f else s.frame? i :=
  Array.getElem?_push

theorem Store.next_set (s : Store) (i : FrameId) (name : String) (x : Variable) :
    (s.set i name x).next = s.next :=
  Array.size_modify

theorem Store.Shields.preserves {s s' : Store} {scopes : Scopes} (h : s.Shields scopes)
    (hs : s.Preserves s') : s'.Shields scopes := by
  induction scopes with
  | nil => exact h
  | cons i rest ih => exact ⟨h.1, h.2.imp hs.get?_isSome ih⟩

namespace Pairing

variable {p : Pairing}

theorem pos_of_le {i : FrameId} (h : p.floor ≤ i) : 0 < i := Nat.lt_of_lt_of_le p.floor_pos h

theorem moved_of_le {i : FrameId} (h : p.floor ≤ i) : moved p.offset i = i + p.offset :=
  if_neg (Nat.ne_of_gt (pos_of_le h))

structure Stores (p : Pairing) (r : Registry) (s s' : Store) : Prop where
  floor_le : p.floor ≤ s.next
  next : s'.next = s.next + p.offset
  frames : ∀ i, p.floor ≤ i → s'.frame? (i + p.offset) = moved p.offset (s.frame? i)
  fits : ∀ i f, p.floor ≤ i → s.frame? i = some f → Fits p.floor r f
  first : ∃ x x', s.frame? 0 = some (.ofMessage x) ∧ s'.frame? 0 = some (.ofMessage x') ∧
    x.declared = .string ∧ x'.declared = .string ∧
    (x' = moved p.offset x ∨ x = p.held ∧ x' = p.held')

namespace Stores

variable {r : Registry} {s s' : Store} (h : p.Stores r s s')

include h

theorem moved_next : s'.next = moved p.offset s.next :=
  h.next.trans (moved_of_le h.floor_le).symm

theorem kept {r' : Registry} (hr : r.Kept r') : p.Stores r' s s' :=
  ⟨h.floor_le, h.next, h.frames, fun i f hi hf => Movable.kept (h.fits i f hi hf) hr, h.first⟩

theorem get?_eq {i : FrameId} (hi : p.floor ≤ i) (name : String) :
    s'.get? (i + p.offset) name = moved p.offset (s.get? i name) := by
  rw [Store.get?, h.frames i hi, Store.get?]
  cases s.frame? i with
  | none => rfl
  | some f => exact f.get?_moved p.offset name

theorem fits_get? {i : FrameId} (hi : p.floor ≤ i) {name : String} {x : Variable}
    (hx : s.get? i name = some x) : Fits p.floor r x := by
  obtain ⟨f, hf, hx⟩ := Option.bind_eq_some_iff.mp hx
  exact Frame.fits_get? (h.fits i f hi hf) hx

/-- In frames that correspond the same names are bound, to variables that correspond. Only the
messages of the first frames may differ. -/
theorem get?_cases {i : FrameId} (hi : Fits p.floor r i) (name : String) :
    (s.get? i name = none ∧ s'.get? (moved p.offset i) name = none) ∨
    ∃ x x', s.get? i name = some x ∧ s'.get? (moved p.offset i) name = some x' ∧
      x'.declared = x.declared ∧ r.Knows x.declared ∧
      (i = 0 ∧ name = exceptionName ∧ x.declared = .string ∨
        p.floor ≤ i ∧ x' = moved p.offset x ∧ Fits p.floor r x) := by
  obtain rfl | hi := hi
  · obtain ⟨x, x', hx, hx', ht, ht', -⟩ := h.first
    have hget : s.get? 0 name = if name = exceptionName then some x else none := by
      rw [Store.get?, hx]
      exact Frame.get?_ofMessage x name
    have hget' : s'.get? 0 name = if name = exceptionName then some x' else none := by
      rw [Store.get?, hx']
      exact Frame.get?_ofMessage x' name
    have hmoved : moved p.offset (0 : FrameId) = 0 := rfl
    rw [hmoved, hget, hget']
    by_cases hname : name = exceptionName
    · rw [if_pos hname, if_pos hname]
      refine .inr ⟨x, x', rfl, rfl, ht'.trans ht.symm, ?_, .inl ⟨rfl, hname, ht⟩⟩
      rw [ht]
      exact Registry.knows_of_className? rfl
    · rw [if_neg hname, if_neg hname]
      exact .inl ⟨rfl, rfl⟩
  · rw [moved_of_le hi, h.get?_eq hi]
    cases hx : s.get? i name with
    | none => exact .inl ⟨rfl, rfl⟩
    | some x =>
      have hfits := h.fits_get? hi hx
      exact .inr ⟨x, moved p.offset x, rfl, rfl, rfl, hfits.1, .inr ⟨hi, rfl, hfits⟩⟩

theorem contains_eq {scopes : Scopes} (hs : Fits p.floor r scopes) (name : String) :
    s'.contains (moved p.offset scopes) name = s.contains scopes name := by
  induction scopes with
  | nil => rfl
  | cons i rest ih =>
    have hs := List.forall_mem_cons.mp hs
    have hrest : s'.contains (moved p.offset rest) name = s.contains rest name := ih hs.2
    have hget : (s'.get? (moved p.offset i) name).isSome = (s.get? i name).isSome := by
      obtain ⟨hx, hx'⟩ | ⟨x, x', hx, hx', -⟩ := h.get?_cases hs.1 name
      · rw [hx, hx']
      · rw [hx, hx']
        rfl
    simp only [Store.contains, moved, List.map_cons, List.any_cons] at hrest hget ⊢
    rw [hget, hrest]

/-- An assignment goes to the counterpart, and leaves the counterpart there. -/
theorem assignment_eq {scopes : Scopes} (hs : Fits p.floor r scopes) (name : String) (v : Value) :
    s'.assignment name (moved p.offset v) (moved p.offset scopes) =
      (s.assignment name v scopes).map fun c => (moved p.offset c.1, moved p.offset c.2) := by
  induction scopes with
  | nil => rfl
  | cons i rest ih =>
    have hs := List.forall_mem_cons.mp hs
    have hcons : moved p.offset (i :: rest) = moved p.offset i :: moved p.offset rest := rfl
    rw [hcons, Store.assignment, Store.assignment]
    obtain ⟨hx, hx'⟩ | ⟨x, x', hx, hx', ht, -⟩ := h.get?_cases hs.1 name
    · rw [hx, hx']
      exact ih hs.2
    · simp only [hx, hx', Variable.assign_moved p.offset ht]
      cases x.assign v <;> rfl

/-- What code reads is the counterpart, as the first frame is out of its reach. -/
theorem lookup_eq {scopes : Scopes} (hs : Fits p.floor r scopes) {name : String}
    (hname : name = exceptionName → s.Shields scopes) :
    s'.lookup (moved p.offset scopes) name = moved p.offset (s.lookup scopes name) ∧
      Fits p.floor r (s.lookup scopes name) := by
  induction scopes with
  | nil => exact ⟨rfl, nofun⟩
  | cons i rest ih =>
    have hs := List.forall_mem_cons.mp hs
    have hcons : moved p.offset (i :: rest) = moved p.offset i :: moved p.offset rest := rfl
    rw [hcons, Store.lookup, Store.lookup, List.findSome?_cons, List.findSome?_cons]
    obtain ⟨hx, hx'⟩ | ⟨x, x', hx, hx', -, -, ⟨rfl, heq, -⟩ | ⟨-, rfl, hfits⟩⟩ :=
      h.get?_cases hs.1 name
    · rw [hx, hx']
      refine ih hs.2 fun heq => ?_
      obtain hsome | hrest := (hname heq).2
      · rw [← heq, hx] at hsome
        cases hsome
      · exact hrest
    · exact absurd rfl (hname heq).1
    · rw [hx, hx']
      refine ⟨rfl, ?_⟩
      rintro y hy
      cases hy
      exact hfits

/-- A message is written to both first frames, which are the same from then on. -/
theorem set_message {y : Variable} (hy : y.declared = .string) :
    p.Stores r (s.set 0 exceptionName y) (s'.set 0 exceptionName (moved p.offset y)) := by
  refine ⟨?_, ?_, ?_, ?_, ?_⟩
  · rw [Store.next_set]
    exact h.floor_le
  · rw [Store.next_set, Store.next_set, h.next]
  · intro i hi
    have hpos : 0 < i + p.offset := Nat.lt_of_lt_of_le (pos_of_le hi) (Nat.le_add_right _ _)
    rw [Store.frame?_set_of_ne _ (Nat.ne_of_gt hpos),
      Store.frame?_set_of_ne _ (Nat.ne_of_gt (pos_of_le hi))]
    exact h.frames i hi
  · intro i f hi hf
    rw [Store.frame?_set_of_ne _ (Nat.ne_of_gt (pos_of_le hi))] at hf
    exact h.fits i f hi hf
  · obtain ⟨x, x', hx, hx', -⟩ := h.first
    refine ⟨y, moved p.offset y, ?_, ?_, hy, hy, .inl rfl⟩
    · rw [Store.frame?_set_self, hx]
      simp [Frame.set, Frame.ofMessage, Frame.replace]
    · rw [Store.frame?_set_self, hx']
      simp [Frame.set, Frame.ofMessage, Frame.replace]

theorem set_above {i : FrameId} (hi : p.floor ≤ i) (name : String) {y : Variable}
    (hy : Fits p.floor r y) :
    p.Stores r (s.set i name y) (s'.set (i + p.offset) name (moved p.offset y)) := by
  refine ⟨?_, ?_, ?_, ?_, ?_⟩
  · rw [Store.next_set]
    exact h.floor_le
  · rw [Store.next_set, Store.next_set, h.next]
  · intro j hj
    by_cases hij : j = i
    · subst hij
      rw [Store.frame?_set_self, Store.frame?_set_self, h.frames j hj]
      cases s.frame? j with
      | none => rfl
      | some f => exact congrArg some (f.set_moved p.offset name y)
    · have hne : j + p.offset ≠ i + p.offset := fun heq => hij (Nat.add_right_cancel heq)
      rw [Store.frame?_set_of_ne _ hne, Store.frame?_set_of_ne _ hij]
      exact h.frames j hj
  · intro j f hj hf
    by_cases hij : j = i
    · subst hij
      rw [Store.frame?_set_self] at hf
      obtain ⟨g, hg, rfl⟩ := Option.map_eq_some_iff.mp hf
      exact Frame.fits_set (h.fits j g hj hg) hy name
    · rw [Store.frame?_set_of_ne _ hij] at hf
      exact h.fits j f hj hf
  · have hne : (0 : FrameId) ≠ i := Nat.ne_of_lt (pos_of_le hi)
    have hne' : (0 : FrameId) ≠ i + p.offset :=
      Nat.ne_of_lt (Nat.lt_of_lt_of_le (pos_of_le hi) (Nat.le_add_right _ _))
    rw [Store.frame?_set_of_ne _ hne, Store.frame?_set_of_ne _ hne']
    exact h.first

theorem set {i : FrameId} (hi : Fits p.floor r i) {name : String} {x y : Variable}
    (hx : s.get? i name = some x) (hy : Fits p.floor r y) (ht : y.declared = x.declared) :
    p.Stores r (s.set i name y) (s'.set (moved p.offset i) name (moved p.offset y)) := by
  obtain hnone | ⟨x₀, x', hx₀, -, -, -, hcase⟩ := h.get?_cases hi name
  · rw [hx] at hnone
    cases hnone.1
  · rw [hx] at hx₀
    cases hx₀
    obtain ⟨rfl, rfl, hstring⟩ | ⟨hfloor, -⟩ := hcase
    · exact h.set_message (ht.trans hstring)
    · rw [moved_of_le hfloor]
      exact h.set_above hfloor name hy

theorem push {f : Frame} (hf : Fits p.floor r f) :
    p.Stores r (s.push f) (s'.push (moved p.offset f)) := by
  have hsize : (s.push f).next = s.next + 1 := Array.size_push _
  have hsize' : (s'.push (moved p.offset f)).next = s'.next + 1 := Array.size_push _
  have hpos : 0 < s.next := pos_of_le h.floor_le
  refine ⟨?_, ?_, ?_, ?_, ?_⟩
  · rw [hsize]
    exact Nat.le_succ_of_le h.floor_le
  · rw [hsize, hsize', h.next, Nat.add_right_comm]
  · intro i hi
    rw [Store.frame?_push, Store.frame?_push, h.next]
    by_cases hlast : i = s.next
    · rw [if_pos hlast, if_pos (congrArg (· + p.offset) hlast)]
      rfl
    · rw [if_neg hlast, if_neg fun heq => hlast (Nat.add_right_cancel heq)]
      exact h.frames i hi
  · intro i g hi hg
    obtain hold | ⟨-, rfl⟩ := Store.frame?_push_eq_some hg
    · exact h.fits i g hi hold
    · exact hf
  · rw [Store.frame?_push_of_lt s f hpos,
      Store.frame?_push_of_lt s' _ (h.next ▸ Nat.lt_of_lt_of_le hpos (Nat.le_add_right _ _))]
    exact h.first

theorem pushAll {fs : List Frame} (hfs : Fits p.floor r fs) :
    p.Stores r (s.pushAll fs) (s'.pushAll (moved p.offset fs)) := by
  induction fs generalizing s s' with
  | nil => exact h
  | cons f fs ih =>
    have hfs := List.forall_mem_cons.mp hfs
    exact ih (h.push hfs.1) hfs.2

end Stores

/- Machines. -/

def movedControl (k : Nat) (c : Control) : Control :=
  { c with
    scopes := moved k c.scopes
    activation := moved k c.activation
    ambient := moved k c.ambient }

/-- The places in the control are among those that correspond, and handlers have a message of their
own in scope. -/
structure Controls (p : Pairing) (r : Registry) (s : Store) (c : Control) : Prop where
  scopes : Fits p.floor r c.scopes
  activation : Fits p.floor r c.activation
  ambient : Fits p.floor r c.ambient
  handling : c.handling = true → s.Shields c.scopes

theorem Controls.later {r r' : Registry} {s s' : Store} {c : Control} (h : p.Controls r s c)
    (hr : r.Kept r') (hs : s.Preserves s') : p.Controls r' s' c :=
  ⟨Movable.kept h.scopes hr, Movable.kept h.activation hr, Movable.kept h.ambient hr,
    fun hh => (h.handling hh).preserves hs⟩

structure Mirrors (p : Pairing) (m m' : Machine) : Prop where
  control : m'.control = movedControl p.offset m.control
  controls : p.Controls m.registry m.store m.control
  stores : p.Stores m.registry m.store m'.store
  complete : m.registry.Complete
  within : m.registry.Within m'.registry
  sinks : p.sinks m.sink m'.sink
  source : m'.source = m.source
  limit : m'.limit = m.limit

/-- What stays as it is while a computation runs to its end. -/
structure Later (m t : Machine) : Prop where
  control : t.control = m.control
  within : m.registry.Within t.registry
  store : m.store.Preserves t.store
  limit : t.limit = m.limit

theorem Later.refl (m : Machine) : Later m m := ⟨rfl, .refl _, .refl _, rfl⟩

theorem Later.trans {m t u : Machine} (h : Later m t) (h' : Later t u) : Later m u :=
  ⟨h'.control.trans h.control, h.within.trans h'.within, h.store.trans h'.store,
    h'.limit.trans h.limit⟩

theorem Later.kept {m t : Machine} (h : Later m t) : m.registry.Kept t.registry := h.within.kept

namespace Mirrors

variable {m m' : Machine} (h : p.Mirrors m m')

include h

/-- The stores have changed. -/
theorem withStores {s s' : Store} (hs : p.Stores m.registry s s') (hp : m.store.Preserves s) :
    p.Mirrors { m with store := s } { m' with store := s' } :=
  ⟨h.control, h.controls.later (.refl _) hp, hs, h.complete, h.within, h.sinks, h.source, h.limit⟩

theorem withControl {c c' : Control} (hc : c' = movedControl p.offset c)
    (hcontrols : p.Controls m.registry m.store c) :
    p.Mirrors { m with control := c } { m' with control := c' } :=
  ⟨hc, hcontrols, h.stores, h.complete, h.within, h.sinks, h.source, h.limit⟩

theorem withRegistry {r r' : Registry} (hk : m.registry.Kept r) (hc : r.Complete)
    (hr : r.Within r') : p.Mirrors { m with registry := r } { m' with registry := r' } :=
  ⟨h.control, h.controls.later hk (.refl _), h.stores.kept hk, hc, hr, h.sinks, h.source, h.limit⟩

theorem scopes_eq : m'.control.scopes = moved p.offset m.control.scopes := by
  rw [h.control]
  rfl

theorem activation_eq : m'.control.activation = moved p.offset m.control.activation := by
  rw [h.control]
  rfl

theorem ambient_eq : m'.control.ambient = moved p.offset m.control.ambient := by
  rw [h.control]
  rfl

theorem handling_eq : m'.control.handling = m.control.handling := by
  rw [h.control]
  rfl

theorem push {f : Frame} (hf : Fits p.floor m.registry f) :
    p.Mirrors { m with store := m.store.push f }
      { m' with store := m'.store.push (moved p.offset f) } :=
  h.withStores (h.stores.push hf) (.push _ _)

/-- A frame of new code is put in scope. -/
theorem enterScope {i : FrameId} (hi : p.floor ≤ i) :
    p.Mirrors { m with control := m.control.enterScope i }
      { m' with control := m'.control.enterScope (moved p.offset i) } := by
  refine h.withControl (by rw [h.control]; rfl) ⟨?_, h.controls.activation, h.controls.ambient, ?_⟩
  · exact List.forall_mem_cons.mpr ⟨.inr hi, h.controls.scopes⟩
  · intro hh
    exact ⟨Nat.ne_of_gt (pos_of_le hi), .inr (h.controls.handling hh)⟩

theorem enterTry {i : FrameId} (hi : p.floor ≤ i) :
    p.Mirrors { m with control := m.control.enterTry i }
      { m' with control := m'.control.enterTry (moved p.offset i) } := by
  refine h.withControl (by rw [h.control]; rfl) ⟨?_, h.controls.activation, .inr hi, ?_⟩
  · exact List.forall_mem_cons.mpr ⟨.inr hi, h.controls.scopes⟩
  · intro hh
    exact ⟨Nat.ne_of_gt (pos_of_le hi), .inr (h.controls.handling hh)⟩

theorem enterHandler (hs : m.store.Shields m.control.scopes) :
    p.Mirrors { m with control.handling := true } { m' with control.handling := true } :=
  h.withControl (by rw [h.control]; rfl)
    ⟨h.controls.scopes, h.controls.activation, h.controls.ambient, fun _ => hs⟩

theorem enterCall {i : FrameId} (hi : p.floor ≤ i) {view : View} {method : Method}
    (hv : Fits p.floor m.registry view) (hmethod : m.registry.Knows method.returns) :
    p.Mirrors { m with control := m.control.enterCall view method i }
      { m' with control :=
        m'.control.enterCall (moved p.offset view) method (moved p.offset i) } := by
  have hfields : p.floor ≤ view.frame := Nat.le_trans hv.1 (Nat.le_add_right _ _)
  refine h.withControl ?_ ⟨?_, ?_, h.controls.ambient, nofun⟩
  · have hframe : (moved p.offset view).frame = moved p.offset view.frame :=
      (view.frame_moved p.offset).trans (moved_of_le hfields).symm
    rw [h.control, Control.enterCall, hframe]
    rfl
  · intro j hj
    simp only [Control.enterCall, List.mem_cons, List.not_mem_nil, or_false] at hj
    obtain rfl | rfl | rfl := hj
    · exact .inr hi
    · exact h.controls.ambient
    · exact .inr hfields
  · rintro a ha
    cases ha
    exact ⟨hv, hmethod⟩

end Mirrors

end Pairing

end ObjectLang
