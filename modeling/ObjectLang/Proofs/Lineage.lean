import ObjectLang.Proofs.Ranking
import ObjectLang.Proofs.Typing

/-!
Lines of classes, and variables of class types. What stands on the line of a registered class is
registered with the rest of that line, so whatever is derived from a class is derived from all that
this class is derived from, and no class is derived from a descendant of its own. A variable of a class
type holds null or an object whose class has that type on its line.
-/

namespace ObjectLang

theorem Class.accepts_ofClass {c : Class} {name : String} :
    c.accepts (.ofClass name) = true ↔ ∃ k : Nat, (c.line[k]?).map ClassBody.name = some name := by
  simp only [accepts, List.any_eq_true, List.mem_iff_getElem?, Option.map_eq_some_iff, beq_iff_eq]
  constructor
  · rintro ⟨b, ⟨k, hk⟩, hname⟩
    exact ⟨k, b, hk, hname⟩
  · rintro ⟨k, b, hk, hname⟩
    exact ⟨b, ⟨k, hk⟩, hname⟩

theorem Class.accepts_self (c : Class) : c.accepts (.ofClass c.name) = true :=
  accepts_ofClass.mpr ⟨0, rfl⟩

namespace Registry

variable {r : Registry} {c : Class} {sup sub : String} {k : Nat}

theorem Above.self (hc : r.find? sup = some c) : r.Above sup sup 0 := by
  obtain ⟨-, hname⟩ := find?_mem hc
  exact ⟨c, hc, congrArg some hname, fun k hk => absurd hk (Nat.not_lt_zero k)⟩

theorem Above.eq_of_zero (h : r.Above sup sub 0) : sup = sub := by
  obtain ⟨c, hc, hname, -⟩ := h
  exact (Option.some.inj hname).symm.trans (find?_mem hc).2

/-- The parent is one step up, unless it has the name of the class itself. -/
theorem Above.of_parent {p : ClassBody} {ps : List ClassBody} (hc : r.find? sub = some c)
    (hp : c.ancestors = p :: ps) (hne : c.name ≠ p.name) : r.Above p.name sub 1 := by
  have hparent : c.line[1]? = some p := by rw [Class.line, hp]; rfl
  refine ⟨c, hc, congrArg (Option.map ClassBody.name) hparent, ?_⟩
  intro k hk heq
  cases Nat.lt_one_iff.mp hk
  exact hne (Option.some.inj heq)

theorem exists_above (hc : r.find? sub = some c) (h : c.accepts (.ofClass sup) = true) :
    ∃ k, r.Above sup sub k := by
  have hdistance : (c.distanceTo? sup).isSome = true := by
    rwa [Class.distanceTo?, List.findIdx?_isSome]
  obtain ⟨k, hk⟩ := Option.isSome_iff_exists.mp hdistance
  obtain ⟨hat, hbefore⟩ := distanceTo?_eq_some.mp hk
  exact ⟨k, c, hc, hat, hbefore⟩

theorem Above.classAccepts (habove : r.Above sup sub k) :
    r.classAccepts (.ofClass sub) (.ofClass sup) = true := by
  obtain ⟨c, hc, hk, -⟩ := habove
  exact classAccepts_iff.mpr ⟨c, hc, accepts_iff.mp (Class.accepts_ofClass.mpr ⟨k, hk⟩)⟩

/-- A class on the line of a registered class is registered, with the rest of the line. -/
theorem Orderly.find?_of_line (h : r.Orderly) (hc : c ∈ r.classes)
    (hk : (c.line[k]?).map ClassBody.name = some sup) :
    ∃ d, r.find? sup = some d ∧ d.line = c.line.drop k := by
  obtain ⟨b, hb, rfl⟩ := Option.map_eq_some_iff.mp hk
  obtain ⟨hlt, rfl⟩ := List.getElem?_eq_some_iff.mp hb
  have hline : Class.line ⟨c.line[k], c.line.drop (k + 1)⟩ = c.line.drop k :=
    (List.drop_eq_getElem_cons hlt).symm
  have hmem : ⟨c.line[k], c.line.drop (k + 1)⟩ ∈ r.classes :=
    h.rooted c hc _ (hline ▸ List.drop_suffix k c.line)
  exact ⟨_, h.sound.found _ hmem, hline⟩

/-- To be derived from a class is transitive. -/
theorem Above.accepts (habove : r.Above sup sub k) (h : r.Orderly) (hc : c ∈ r.classes)
    (hsub : c.accepts (.ofClass sub) = true) : c.accepts (.ofClass sup) = true := by
  obtain ⟨j, hj⟩ := Class.accepts_ofClass.mp hsub
  obtain ⟨d, hd, hline⟩ := h.find?_of_line hc hj
  obtain ⟨e, he, hk, -⟩ := habove
  cases hd.symm.trans he
  refine Class.accepts_ofClass.mpr ⟨j + k, ?_⟩
  rw [← List.getElem?_drop, ← hline]
  exact hk

/-- An ancestor is not derived from the class. -/
theorem Above.not_accepts (habove : r.Above sup sub (k + 1)) (h : r.Orderly)
    (hc : r.find? sup = some c) : c.accepts (.ofClass sub) = false := by
  obtain ⟨d, hd, hk, -⟩ := habove
  obtain ⟨e, he, hline⟩ := h.find?_of_line (find?_mem hd).1 hk
  cases hc.symm.trans he
  refine Bool.eq_false_iff.mpr fun hsub => ?_
  -- Otherwise the line of the class would be a proper part of itself.
  obtain ⟨j, hj⟩ := Class.accepts_ofClass.mp hsub
  obtain ⟨e, he, hpart⟩ := h.find?_of_line (find?_mem hc).1 hj
  cases hd.symm.trans he
  have hlength := congrArg List.length hpart
  rw [hline, List.length_drop, List.length_drop] at hlength
  have hpos : 0 < d.line.length := Nat.succ_pos _
  omega

end Registry

/-- The token is a name, not a literal or `me`, by which the running code reads the variable. -/
structure Machine.Finds (m : Machine) (token : String) (x : Variable) : Prop where
  name : Expression.ofToken token = .name token
  allowed : token = exceptionName → m.control.handling = true
  found : m.store.lookup m.control.scopes token = some x

variable {m : Machine} {token : String} {x : Variable}

theorem Machine.Finds.eval (h : m.Finds token x) (fuel : Nat) :
    eval (fuel + 1) (.atom token) m = .ok (.typed x.value x.declared) m := by
  have hlookup : Eval.lookup token m = .ok x m := Eval.lookup_eq_ok.mpr ⟨h.allowed, h.found, rfl⟩
  rw [ObjectLang.eval, Expression.ofForm, h.name]
  exact bind_ok hlookup _

section Runs

variable {forms : List Form} {r : Registry} {sink : Sink} {source : Source} {limit : Option Nat}
  (hload : Registry.load forms = .ok r) (hm : Reachable (Machine.start r sink source limit) m)

include hload hm

theorem Reachable.typed (hx : m.store.lookup m.control.scopes token = some x) : x.Typed := by
  obtain ⟨k, hand, hsteps⟩ := hm.steps
  have htyped := hsteps.keeps (fun _ _ => Step.typed) (typed_start hload sink source limit)
  obtain ⟨i, -, hx⟩ := List.exists_of_findSome?_eq_some hx
  exact htyped.store.get? hx

/-- What a variable of a class type holds. -/
theorem Reachable.class_cases {cls : String} (hx : m.store.lookup m.control.scopes token = some x)
    (hcls : x.declared = .ofClass cls) :
    x.value = .null (some (.ofClass cls)) ∨
      ∃ w, x.value = .object w ∧ w.cls ∈ m.registry.classes ∧
        w.cls.accepts (.ofClass cls) = true := by
  obtain ⟨hadmits, htag, -⟩ := hm.typed hload hx
  obtain ⟨k, hand, hsteps⟩ := hm.steps
  obtain ⟨i, -, hfound⟩ := List.exists_of_findSome?_eq_some hx
  have hwhole := hsteps.whole.store.get? hfound
  rw [hcls] at hadmits htag
  cases hv : x.value with
  | null tag => exact .inl (by rw [htag tag hv])
  | object w =>
    rw [hv] at hadmits
    exact .inr ⟨w, rfl, hm.mem_classes (Registry.orderly_load hload) (hwhole w hv).held, hadmits⟩
  | _ =>
    rw [hv] at hadmits
    cases hadmits

end Runs

end ObjectLang
