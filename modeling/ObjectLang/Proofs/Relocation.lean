import ObjectLang.Proofs.Surplus

/-!
Relocation: the same data with its objects and frames at other places of the store. All that the
evaluator computes from values, variables and frames is the same up to their places.
-/

namespace ObjectLang

variable {α β : Type}

/-- Data that may have places of the store and types in it. -/
class Movable (α : Type) where
  /-- The data with all its places moved up, but for the first. -/
  moved : Nat → α → α
  /-- No place is below the floor, but for the first, and all types are known. -/
  Fits : Nat → Registry → α → Prop
  kept : ∀ {floor : Nat} {r r' : Registry} {a : α}, Fits floor r a → r.Kept r' → Fits floor r' a

namespace Movable

@[reducible] def fixed : Movable α := ⟨fun _ a => a, fun _ _ _ => True, fun _ _ => trivial⟩

instance : Movable Unit := fixed

instance : Movable String := fixed

instance : Movable Bool := fixed

instance : Movable Outcome := fixed

instance [Movable α] : Movable (Option α) where
  moved k o := o.map (moved k)
  Fits floor r o := ∀ a, o = some a → Fits floor r a
  kept h hr a ha := kept (h a ha) hr

instance [Movable α] : Movable (List α) where
  moved k l := l.map (moved k)
  Fits floor r l := ∀ a ∈ l, Fits floor r a
  kept h hr a ha := kept (h a ha) hr

instance [Movable α] : Movable (String × α) where
  moved k b := (b.1, moved k b.2)
  Fits floor r b := Fits floor r b.2
  kept h hr := kept h hr

instance : Movable FrameId where
  moved k i := if i = 0 then 0 else i + k
  Fits floor _ i := i = 0 ∨ floor ≤ i
  kept h _ := h

instance : Movable Class where
  moved _ c := c
  Fits _ r c := ∀ b ∈ c.line, r.KnowsBody b
  kept h hr b hb := (h b hb).kept hr

instance : Movable View where
  moved k v := { v with base := v.base + k }
  Fits floor r v := floor ≤ v.base ∧ r.KnowsObject v
  kept h hr := ⟨h.1, fun b hb => (h.2 b hb).kept hr⟩

instance : Movable Value where
  moved k
    | .object v => .object (moved k v)
    | v => v
  Fits floor r
    | .object v => Fits floor r v
    | .null (some t) => r.Knows t
    | _ => True
  kept {_ _ _ v} h hr := by
    cases v with
    | object v => exact kept h hr
    | null tag =>
      cases tag with
      | none => trivial
      | some t => exact Registry.Knows.kept h hr
    | _ => trivial

instance : Movable Variable where
  moved k x := { x with value := moved k x.value }
  Fits floor r x := r.Knows x.declared ∧ Fits floor r x.value
  kept h hr := ⟨h.1.kept hr, kept h.2 hr⟩

instance : Movable Frame where
  moved k f := { f with bindings := moved k f.bindings }
  Fits floor r f := Fits floor r f.bindings
  kept h hr := kept h hr

instance : Movable Operand where
  moved k a := { a with value := moved k a.value }
  Fits floor r a := r.Knows a.declared ∧ Fits floor r a.value
  kept h hr := ⟨h.1.kept hr, kept h.2 hr⟩

instance : Movable Completion where
  moved k
    | .returned v => .returned (moved k v)
    | done => done
  Fits floor r
    | .returned v => Fits floor r v
    | _ => True
  kept {_ _ _ done} h hr := by
    cases done with
    | returned v => exact kept h hr
    | _ => trivial

instance : Movable Activation where
  moved k a := { a with receiver := moved k a.receiver }
  Fits floor r a := Fits floor r a.receiver ∧ r.Knows a.method.returns
  kept h hr := ⟨kept h.1 hr, h.2.kept hr⟩

end Movable

open Movable (moved Fits)

variable {k floor : Nat} {r : Registry}

/- Objects. -/

namespace View

theorem frame_moved (k : Nat) (v : View) : (moved k v).frame = v.frame + k :=
  Nat.add_right_comm v.base k v.level

theorem parent?_moved (k : Nat) (v : View) : (moved k v).parent? = moved k v.parent? := by
  obtain ⟨base, ⟨own, ancestors⟩, derived⟩ := v
  cases ancestors <;> rfl

theorem mostDerived_moved (k : Nat) (v : View) :
    (moved k v).mostDerived = moved k v.mostDerived := by
  obtain ⟨base, cls, derived⟩ := v
  have hdescend : ∀ c ds, descend (base + k) c ds = moved k (descend base c ds) := by
    intro c ds
    induction ds generalizing c with
    | nil => rfl
    | cons d ds ih => exact ih ⟨d, c.line⟩
  exact hdescend cls derived

theorem upward_moved (k : Nat) (v : View) : (moved k v).upward = moved k v.upward := by
  obtain ⟨base, ⟨own, ancestors⟩, derived⟩ := v
  have hupward : ∀ own derived ancestors,
      upwardFrom (base + k) own derived ancestors =
        moved k (upwardFrom base own derived ancestors) := by
    intro own derived ancestors
    induction ancestors generalizing own derived with
    | nil => rfl
    | cons p ps ih => exact congrArg (List.cons _) (ih p (own :: derived))
  exact hupward own derived ancestors

theorem same_moved (k : Nat) (v w : View) : (moved k v).same (moved k w) = v.same w := by
  have hbase : (v.base + k == w.base + k) = (v.base == w.base) := Bool.eq_iff_iff.mpr (by simp)
  exact congrArg (· && v.level == w.level) hbase

theorem fits_of_sameObject {v w : View} (h : Fits floor r v) (hw : v.SameObject w) :
    Fits floor r w := by
  obtain ⟨hbase, hwhole⟩ := hw
  refine ⟨Nat.le_trans h.1 (Nat.le_of_eq hbase.symm), ?_⟩
  intro b hb
  exact h.2 b (hwhole ▸ hb)

theorem fits_own {v : View} (h : Fits floor r v) : r.KnowsBody v.cls.own :=
  h.2 _ (List.mem_append_right _ List.mem_cons_self)

end View

/- Values. -/

namespace Value

@[simp] theorem runtimeType_moved (k : Nat) (v : Value) :
    (moved k v).runtimeType = v.runtimeType := by
  cases v <;> rfl

@[simp] theorem isReference_moved (k : Nat) (v : Value) :
    (moved k v).isReference = v.isReference := by
  cases v <;> rfl

@[simp] theorem isException_moved (k : Nat) (v : Value) :
    (moved k v).isException = v.isException := by
  cases v <;> rfl

@[simp] theorem nullTag?_moved (k : Nat) (v : Value) : (moved k v).nullTag? = v.nullTag? := by
  cases v <;> rfl

@[simp] theorem admits_moved (k : Nat) (t : TypeTag) (v : Value) :
    t.admits (moved k v) = t.admits v := by
  cases v <;> rfl

theorem retag_moved (k : Nat) (t : TypeTag) (v : Value) :
    (moved k v).retag t = moved k (v.retag t) := by
  cases v <;> rfl

theorem same_moved (k : Nat) (v w : Value) : (moved k v).same (moved k w) = v.same w := by
  cases v with
  | object v =>
    cases w with
    | object w => exact v.same_moved k w
    | _ => rfl
  | _ => cases w <;> rfl

theorem moved_of_isPlain {v : Value} (h : v.isPlain = true) (k : Nat) : moved k v = v := by
  cases v with
  | object v => cases h
  | _ => rfl

theorem moved_of_not_isReference {v : Value} (h : v.isReference = false) (k : Nat) :
    moved k v = v := by
  cases v with
  | object v => cases h
  | _ => rfl

theorem fits_of_isScalar {v : Value} (h : v.isScalar = true) : Fits floor r v := by
  cases v with
  | object v => cases h
  | null tag => cases h
  | _ => trivial

theorem fits_nullTag? {v : Value} (h : Fits floor r v) {t : TypeTag} (ht : v.nullTag? = some t) :
    r.Knows t := by
  cases v with
  | null tag =>
    cases ht
    exact h
  | _ => cases ht

theorem fits_retag {v : Value} {t : TypeTag} (h : Fits floor r v) (ht : r.Knows t) :
    Fits floor r (v.retag t) := by
  cases v with
  | null tag => exact ht
  | _ => exact h

theorem fits_zero {t : TypeTag} (ht : r.Knows t) : Fits floor r (zero t) := by
  cases t with
  | ofClass name => exact ht
  | _ => trivial

theorem knows_runtimeType {v : Value} (h : Fits floor r v) : r.Knows v.runtimeType := by
  cases v with
  | object v => exact (View.fits_own h).name
  | _ => exact Registry.knows_of_className? rfl

end Value

theorem Eval.tagNull_moved (k : Nat) (t : TypeTag) (v : Value) :
    tagNull t (moved k v) = moved k (tagNull t v) := by
  cases v with
  | null tag => cases tag <;> rfl
  | _ => rfl

theorem Eval.fits_tagNull {v : Value} {t : TypeTag} (h : Fits floor r v) (ht : r.Knows t) :
    Fits floor r (tagNull t v) := by
  cases v with
  | null tag =>
    cases tag with
    | none => exact ht
    | some u => exact h
  | _ => exact h

theorem Eval.printed_moved (k : Nat) (v : Value) : printed (moved k v) = printed v := by
  cases v <;> rfl

theorem Operand.typed_moved (k : Nat) (v : Value) (t : TypeTag) :
    typed (moved k v) t = moved k (typed v t) := by
  cases v <;> rfl

theorem Operand.fits_typed {v : Value} {t : TypeTag} (h : Fits floor r v) (ht : r.Knows t) :
    Fits floor r (typed v t) := by
  refine ⟨?_, h⟩
  cases hv : v.nullTag? with
  | none =>
    simp only [typed, hv, Option.getD_none]
    exact ht
  | some u =>
    simp only [typed, hv, Option.getD_some]
    exact Value.fits_nullTag? h hv

/- Variables and frames. -/

namespace Variable

/-- What an assignment leaves does not depend on what was there before, but for its type. -/
theorem assign_moved (k : Nat) {x y : Variable} (h : y.declared = x.declared) (v : Value) :
    y.assign (moved k v) = (x.assign v).map (moved k) := by
  obtain ⟨t, w⟩ := x
  cases h
  by_cases ha : y.declared.admits v = true
  · simp only [assign, Value.admits_moved, ha, if_true, Value.retag_moved]
    rfl
  · simp only [assign, Value.admits_moved, ha, Bool.false_eq_true, if_false,
      Value.runtimeType_moved]
    rfl

theorem create_moved (k : Nat) (t : TypeTag) (v : Value) :
    create t (moved k v) = (create t v).map (moved k) :=
  assign_moved k rfl v

theorem fits_assign {x y : Variable} {v : Value} (h : x.assign v = .ok y) (ht : r.Knows x.declared)
    (hv : Fits floor r v) : Fits floor r y := by
  obtain ⟨-, rfl⟩ := assign_eq_ok.mp h
  exact ⟨ht, Value.fits_retag hv ht⟩

theorem fits_zeroed {t : TypeTag} (ht : r.Knows t) : Fits floor r (zeroed t) :=
  ⟨ht, Value.fits_zero ht⟩

theorem moved_of_isPlain {x : Variable} (h : x.value.isPlain = true) (k : Nat) : moved k x = x :=
  congrArg (Variable.mk x.declared) (Value.moved_of_isPlain h k)

theorem moved_zeroed (k : Nat) (t : TypeTag) : moved k (zeroed t) = zeroed t :=
  moved_of_isPlain (Value.isPlain_zero t) k

end Variable

namespace Frame

theorem get?_moved (k : Nat) (f : Frame) (name : String) :
    (moved k f).get? name = moved k (f.get? name) := by
  obtain ⟨role, bindings⟩ := f
  induction bindings with
  | nil => rfl
  | cons b bindings ih =>
    obtain ⟨n, x⟩ := b
    by_cases hn : name = n
    · subst hn
      simp [get?, moved]
    · have hne : (name == n) = false := by simpa using hn
      have hrest : ((bindings.map (moved k)).lookup name : Option Variable) =
          moved k (bindings.lookup name) := ih
      simp only [get?, moved, List.map_cons, List.lookup_cons, hne]
      exact hrest

theorem set_moved (k : Nat) (f : Frame) (name : String) (x : Variable) :
    (moved k f).set name (moved k x) = moved k (f.set name x) := by
  obtain ⟨role, bindings⟩ := f
  have hreplace : replace name (moved k x) (moved k bindings) =
      moved k (replace name x bindings) := by
    induction bindings with
    | nil => rfl
    | cons b bindings ih =>
      obtain ⟨n, y⟩ := b
      by_cases hn : n = name
      · simp [replace, moved, hn]
      · have hne : (n == name) = false := by simpa using hn
        simp only [moved, List.map_cons, replace, hne] at ih ⊢
        simp [ih]
  simp only [set, moved] at hreplace ⊢
  rw [hreplace]

theorem define?_moved (k : Nat) (f : Frame) (name : String) (x : Variable) :
    (moved k f).define? name (moved k x) = moved k (f.define? name x) := by
  have hbinds : (moved k f).binds name = f.binds name := by
    rw [binds, get?_moved]
    exact Option.isSome_map
  unfold define?
  rw [hbinds]
  cases f.binds name <;> simp [moved]

theorem fits_get? {f : Frame} (h : Fits floor r f) {name : String} {x : Variable}
    (hx : f.get? name = some x) : Fits floor r x := by
  obtain ⟨before, after, hb, -⟩ := List.lookup_eq_some_iff.mp hx
  exact h (name, x) (by simp [hb])

theorem fits_set {f : Frame} (h : Fits floor r f) {x : Variable} (hx : Fits floor r x)
    (name : String) : Fits floor r (f.set name x) := by
  intro b hb
  obtain hold | rfl := mem_replace hb
  · exact h b hold
  · exact hx

theorem fits_define? {f f' : Frame} (h : Fits floor r f) {x : Variable} (hx : Fits floor r x)
    {name : String} (hd : f.define? name x = some f') : Fits floor r f' := by
  obtain ⟨-, rfl⟩ := define?_eq_some.mp hd
  intro b hb
  cases List.mem_append.mp hb with
  | inl hb => exact h b hb
  | inr hb =>
    rw [List.mem_singleton.mp hb]
    exact hx

end Frame

/- The fields of new objects. -/

theorem Field.fits_variable {f : Field} {x : Variable} (h : f.variable = .ok x)
    (hf : r.Knows f.type) : Fits floor r x := by
  unfold Field.variable at h
  split at h
  · refine Variable.fits_assign h hf ?_
    rename_i literal _
    cases literal <;> trivial
  · cases h
    exact Variable.fits_zeroed hf

theorem Class.fits_fieldFrame {c : Class} {f : Frame} (h : c.fieldFrame = .ok f)
    (hc : r.KnowsBody c.own) : Fits floor r f := by
  obtain ⟨bindings, hb, rfl⟩ := except_map_eq_ok.mp h
  intro b hmem
  obtain ⟨field, hfield, hb⟩ := mem_of_mapM hb hmem
  obtain ⟨x, hx, rfl⟩ := except_map_eq_ok.mp hb
  exact Field.fits_variable hx (hc.field hfield)

theorem Class.fits_fieldFrames {c : Class} {frames : List Frame} (h : c.fieldFrames = .ok frames)
    (hc : Fits floor r c) : Fits floor r frames := by
  obtain ⟨own, ancestors⟩ := c
  unfold fieldFrames at h
  induction ancestors generalizing own frames with
  | nil =>
    obtain ⟨f, hf, rfl⟩ := except_map_eq_ok.mp h
    intro g hg
    rw [List.mem_singleton.mp hg]
    exact fits_fieldFrame hf (hc _ List.mem_cons_self)
  | cons p ps ih =>
    obtain ⟨fs, hfs, h⟩ := except_bind_eq_ok.mp h
    obtain ⟨f, hf, rfl⟩ := except_map_eq_ok.mp h
    intro g hg
    cases List.mem_append.mp hg with
    | inl hg => exact ih p hfs (fun b hb => hc b (List.mem_cons_of_mem _ hb)) g hg
    | inr hg =>
      rw [List.mem_singleton.mp hg]
      exact fits_fieldFrame hf (hc _ List.mem_cons_self)

/-- New objects hold no others. -/
theorem Class.moved_fieldFrames {c : Class} {frames : List Frame} (h : c.fieldFrames = .ok frames)
    (k : Nat) : moved k frames = frames := by
  obtain ⟨-, -, hplain⟩ := fieldFramesFrom_spec h
  have hframe : ∀ f ∈ frames, moved k f = f := by
    intro f hf
    have hbindings : f.bindings.map (moved k) = f.bindings.map id := List.map_congr_left fun b hb =>
      congrArg (Prod.mk b.1) (Variable.moved_of_isPlain (hplain f hf b hb) k)
    exact congrArg (Frame.mk f.role) (hbindings.trans (List.map_id _))
  exact (List.map_congr_left hframe).trans (List.map_id' _)

/- Arguments. -/

theorem bindArguments_moved (k : Nat) (ps : List Param) (vs : List Value) :
    bindArguments ps (moved k vs) = (bindArguments ps vs).map (moved k) := by
  induction ps generalizing vs with
  | nil => rfl
  | cons p ps ih =>
    cases vs with
    | nil => rfl
    | cons v vs =>
      have hrest := ih vs
      have hcons : bindArguments (p :: ps) (moved k (v :: vs)) =
          (Variable.create p.type (moved k v)).bind fun x =>
            (bindArguments ps (moved k vs)).map fun bindings => (p.name, x) :: bindings := rfl
      rw [hcons, Variable.create_moved, hrest, bindArguments]
      cases Variable.create p.type v with
      | error e => rfl
      | ok x => cases bindArguments ps vs <;> rfl

theorem fits_bindArguments {ps : List Param} {vs : List Value}
    {bindings : List (String × Variable)} (h : bindArguments ps vs = .ok bindings)
    (hps : ∀ p ∈ ps, r.Knows p.type) (hvs : Fits floor r vs) : Fits floor r bindings := by
  induction ps generalizing vs bindings with
  | nil =>
    cases h
    exact fun b hb => absurd hb List.not_mem_nil
  | cons p ps ih =>
    cases vs with
    | nil =>
      cases h
      exact fun b hb => absurd hb List.not_mem_nil
    | cons v vs =>
      obtain ⟨x, hx, h⟩ := except_bind_eq_ok.mp h
      obtain ⟨rest, hrest, rfl⟩ := except_map_eq_ok.mp h
      have hv := List.forall_mem_cons.mp hvs
      have hp := List.forall_mem_cons.mp hps
      exact List.forall_mem_cons.mpr
        ⟨Variable.fits_assign hx hp.1 hv.1, ih hrest hp.2 hv.2⟩

/- Operators: they compute with what is no reference, and compare what is one. -/

theorem Operator.negate_moved (k : Nat) (v : Value) : negate (moved k v) = negate v := by
  cases v <;> rfl

namespace Registry

theorem comparable_moved (r : Registry) (k : Nat) (a b : Operand) :
    r.comparable (moved k a) (moved k b) = r.comparable a b := by
  obtain ⟨v, t⟩ := a
  obtain ⟨w, u⟩ := b
  cases v with
  | null tag => cases w <;> rfl
  | _ => cases w <;> rfl

theorem operate_moved (r : Registry) (k : Nat) (op : Operator) (a b : Operand) :
    r.operate op (moved k a) (moved k b) = r.operate op a b := by
  have ha : (moved k a).value.isReference = a.value.isReference := Value.isReference_moved k a.value
  have hb : (moved k b).value.isReference = b.value.isReference := Value.isReference_moved k b.value
  have hcompare : r.compare op (moved k a) (moved k b) = r.compare op a b := by
    have hsame : (moved k a).value.same (moved k b).value = a.value.same b.value :=
      Value.same_moved k a.value b.value
    simp only [compare, comparable_moved, hsame]
    rfl
  have hmismatch :
      op.mismatch (moved k a).value (moved k b).value = op.mismatch a.value b.value := by
    have hta : (moved k a).value.runtimeType = a.value.runtimeType := Value.runtimeType_moved k _
    have htb : (moved k b).value.runtimeType = b.value.runtimeType := Value.runtimeType_moved k _
    simp only [Operator.mismatch, hta, htb]
  unfold operate
  rw [ha, hb, hcompare, hmismatch]
  split
  · rename_i h
    rw [Bool.and_eq_true, Bool.not_eq_true', Bool.not_eq_true'] at h
    have hva : (moved k a).value = a.value := Value.moved_of_not_isReference h.1 k
    have hvb : (moved k b).value = b.value := Value.moved_of_not_isReference h.2 k
    rw [hva, hvb]
  · rfl

/- Methods. -/

theorem selectMethod?_moved (r : Registry) (k : Nat) (v : View) (name : String)
    (types : List TypeTag) :
    r.selectMethod? (moved k v) name types =
      (r.selectMethod? v name types).map fun chosen => (moved k chosen.1, chosen.2) := by
  rw [selectMethod?, View.upward_moved, selectMethod?]
  generalize v.upward = views
  induction views with
  | nil => rfl
  | cons w views ih =>
    have hown : (moved k w).cls.own = w.cls.own := rfl
    simp only [moved, List.map_cons, List.findSome?_cons] at ih ⊢
    cases r.bestMethod? w.cls.own name types with
    | none => exact ih
    | some m => rfl

theorem checkReturn_moved (r : Registry) (k : Nat) (m : Method) (v : Value) :
    r.checkReturn m (moved k v) = (r.checkReturn m v).map (moved k) := by
  have hreturnable : r.returnable m.returns (moved k v) = r.returnable m.returns v := by
    cases v <;> rfl
  unfold checkReturn
  rw [hreturnable, Value.retag_moved, Value.nullTag?_moved, Value.runtimeType_moved]
  split <;> rfl

theorem returnValue_moved (r : Registry) (k : Nat) (m : Method) (done : Completion) :
    r.returnValue m (moved k done) = (r.returnValue m done).map (moved k) := by
  have hzero : r.checkReturn m (.zero m.returns) =
      (r.checkReturn m (.zero m.returns)).map (moved k) := by
    rw [← checkReturn_moved, Value.moved_of_isPlain (Value.isPlain_zero _)]
  cases done with
  | raised => rfl
  | normal => exact hzero
  | returned v =>
    cases v with
    | void => exact hzero
    | _ => exact r.checkReturn_moved k m _

theorem fits_checkReturn {m : Method} {v w : Value} (h : r.checkReturn m v = .ok w)
    (hm : r.Knows m.returns) (hv : Fits floor r v) : Fits floor r w := by
  unfold checkReturn at h
  split at h <;> cases h
  exact Value.fits_retag hv hm

theorem fits_returnValue {m : Method} {done : Completion} {v : Value}
    (h : r.returnValue m done = .ok v) (hm : r.Knows m.returns) (hdone : Fits floor r done) :
    Fits floor r v := by
  cases done with
  | raised =>
    cases h
    trivial
  | normal => exact fits_checkReturn h hm (Value.fits_zero hm)
  | returned w =>
    cases w with
    | void => exact fits_checkReturn h hm (Value.fits_zero hm)
    | _ => exact fits_checkReturn h hm hdone

end Registry

end ObjectLang
