import ObjectLang.Proofs.Dispatch

/-!
Levels of a receiver. From the level at which an object is seen, each level down to that of the base
class gives a view of it, and the views upward from a class are those of its level and of the levels
below in turn. The search for a method is therefore one through these levels.
-/

namespace ObjectLang

namespace View

/-- Upward from the most derived class come those below the class seen, and then the views upward
from there. -/
theorem upward_descend (base : FrameId) (c : Class) (derived : List ClassBody) :
    ∃ front, (descend base c derived).upward = front ++ upwardFrom base c.own derived c.ancestors ∧
      ∀ w ∈ front, c.depth < w.level := by
  induction derived generalizing c with
  | nil => exact ⟨[], rfl, by simp⟩
  | cons d ds ih =>
    obtain ⟨front, hfront, hlevel⟩ := ih ⟨d, c.line⟩
    have hdepth : Class.depth ⟨d, c.line⟩ = c.depth + 1 := rfl
    refine ⟨front ++ [⟨base, ⟨d, c.line⟩, ds⟩], ?_, ?_⟩
    · rw [descend, hfront, List.append_assoc]
      rfl
    · intro w hw
      cases List.mem_append.mp hw with
      | inl hw =>
        have hlt := hlevel w hw
        omega
      | inr hw =>
        rw [List.mem_singleton.mp hw, level, hdepth]
        omega

theorem length_upward (v : View) : v.upward.length = v.level + 1 :=
  length_upwardFrom v.base v.cls.own v.derived v.cls.ancestors

theorem level_upward {v w : View} {k : Nat} (h : v.upward[k]? = some w) : w.level + k = v.level :=
  (getElem?_upwardFrom h).2.2

/-- The view at a level below that of the class seen is so many places up. -/
theorem atLevel?_eq {v : View} {l : Nat} (h : l ≤ v.level) : v.atLevel? l = v.upward[v.level - l]? := by
  obtain ⟨front, hfront, hlevel⟩ := upward_descend v.base v.cls v.derived
  have hwhole : v.mostDerived.upward = front ++ v.upward := hfront
  have hskip : front.find? (fun w => w.level == l) = none := by
    rw [List.find?_eq_none]
    intro w hw
    have hlt : v.level < w.level := hlevel w hw
    simp only [beq_iff_eq]
    omega
  have hplace : v.level - l < v.upward.length := by
    rw [length_upward]
    omega
  obtain ⟨w, hw⟩ : ∃ w, v.upward[v.level - l]? = some w := ⟨_, List.getElem?_eq_getElem hplace⟩
  rw [atLevel?, hwhole, List.find?_append, hskip, Option.none_or, hw, List.find?_eq_some_iff_getElem]
  have hat := level_upward hw
  refine ⟨by simp only [beq_iff_eq]; omega, v.level - l, hplace, ?_, ?_⟩
  · rw [List.getElem?_eq_getElem hplace] at hw
    exact Option.some.inj hw
  · intro j hj
    have hbefore := level_upward (List.getElem?_eq_getElem (Nat.lt_trans hj hplace))
    simp only [Bool.not_eq_true', beq_eq_false_iff_ne]
    omega

/-- Every level up to that of the class seen has its view. -/
theorem exists_atLevel? {v : View} {l : Nat} (h : l ≤ v.level) :
    ∃ w, v.atLevel? l = some w ∧ w.level = l ∧ v.SameObject w := by
  have hplace : v.level - l < v.upward.length := by
    rw [length_upward]
    omega
  have hw := List.getElem?_eq_getElem hplace
  have hlevel := level_upward hw
  refine ⟨_, (atLevel?_eq h).trans hw, by omega, ?_⟩
  exact sameObject_upward (List.getElem_mem hplace)

end View

namespace Registry

def selectAt? (r : Registry) (receiver : View) (name : String) (types : List TypeTag) (l : Nat) :
    Option (View × Method) :=
  (receiver.atLevel? l).bind fun v => (r.bestMethod? v.cls.own name types).map fun m => (v, m)

def selectFrom? (r : Registry) (receiver : View) (name : String) (types : List TypeTag) :
    Nat → Option (View × Method)
  | 0 => r.selectAt? receiver name types 0
  | l + 1 => (r.selectAt? receiver name types (l + 1)).or (r.selectFrom? receiver name types l)

section

variable {r : Registry} {receiver view : View} {name : String} {types : List TypeTag}
  {method : Method} {l : Nat}

theorem selectAt?_eq_some :
    r.selectAt? receiver name types l = some (view, method) ↔
      receiver.atLevel? l = some view ∧ r.bestMethod? view.cls.own name types = some method := by
  unfold selectAt?
  constructor
  · intro h
    obtain ⟨v, hv, h⟩ := Option.bind_eq_some_iff.mp h
    obtain ⟨m, hm, heq⟩ := Option.map_eq_some_iff.mp h
    cases heq
    exact ⟨hv, hm⟩
  · intro h
    simp [h.1, h.2]

theorem selectAt?_eq_none :
    r.selectAt? receiver name types l = none ↔
      ∀ w, receiver.atLevel? l = some w → r.bestMethod? w.cls.own name types = none := by
  simp [selectAt?, Option.bind_eq_none_iff]

theorem selectFrom?_eq_none {top : Nat} :
    r.selectFrom? receiver name types top = none ↔
      ∀ l ≤ top, r.selectAt? receiver name types l = none := by
  induction top with
  | zero => simp [selectFrom?]
  | succ top ih =>
    rw [selectFrom?, Option.or_eq_none_iff, ih]
    constructor
    · intro h l hl
      obtain hl | rfl := Nat.le_or_eq_of_le_succ hl
      · exact h.2 l hl
      · exact h.1
    · intro h
      exact ⟨h _ (Nat.le_refl _), fun l hl => h l (Nat.le_succ_of_le hl)⟩

/-- The search stops at the first level where there is something to be found. -/
theorem selectFrom?_eq_some {top : Nat} :
    r.selectFrom? receiver name types top = some (view, method) ↔
      ∃ l ≤ top, r.selectAt? receiver name types l = some (view, method) ∧
        ∀ k, l < k → k ≤ top → r.selectAt? receiver name types k = none := by
  induction top with
  | zero =>
    constructor
    · intro h
      exact ⟨0, Nat.le_refl 0, h, fun k hk hle => by omega⟩
    · rintro ⟨l, hl, h, -⟩
      rwa [Nat.le_zero.mp hl] at h
  | succ top ih =>
    rw [selectFrom?, Option.or_eq_some_iff, ih]
    constructor
    · rintro (h | ⟨hnone, l, hl, h, habove⟩)
      · exact ⟨top + 1, Nat.le_refl _, h, fun k hk hle => by omega⟩
      · refine ⟨l, Nat.le_succ_of_le hl, h, ?_⟩
        intro k hk hle
        obtain hle | rfl := Nat.le_or_eq_of_le_succ hle
        · exact habove k hk hle
        · exact hnone
    · rintro ⟨l, hl, h, habove⟩
      obtain hl | rfl := Nat.le_or_eq_of_le_succ hl
      · refine .inr ⟨habove _ (Nat.lt_succ_of_le hl) (Nat.le_refl _), l, hl, h, ?_⟩
        intro k hk hle
        exact habove k hk (Nat.le_succ_of_le hle)
      · exact .inl h

/-- The views upward from the receiver are those of the levels searched. -/
theorem selectFrom?_eq_findSome? (h : l ≤ receiver.level) :
    r.selectFrom? receiver name types l =
      (receiver.upward.drop (receiver.level - l)).findSome? fun v =>
        (r.bestMethod? v.cls.own name types).map fun m => (v, m) := by
  have hlength := receiver.length_upward
  have hat : ∀ k ≤ receiver.level, ∀ hk : receiver.level - k < receiver.upward.length,
      r.selectAt? receiver name types k =
        (r.bestMethod? receiver.upward[receiver.level - k].cls.own name types).map fun m =>
          (receiver.upward[receiver.level - k], m) := by
    intro k hle hk
    rw [selectAt?, View.atLevel?_eq hle, List.getElem?_eq_getElem hk, Option.bind_some]
  have hplace : receiver.level - l < receiver.upward.length := by omega
  induction l with
  | zero =>
    have hend : receiver.upward.drop (receiver.level - 0 + 1) = [] := by
      rw [List.drop_eq_nil_iff]
      omega
    rw [selectFrom?, hat 0 h hplace, List.drop_eq_getElem_cons hplace, hend]
    simp
  | succ l ih =>
    have hnext : receiver.level - (l + 1) + 1 = receiver.level - l := by omega
    rw [selectFrom?, hat (l + 1) h hplace, ih (by omega) (by omega),
      List.drop_eq_getElem_cons hplace, hnext, List.findSome?_cons]
    cases r.bestMethod? receiver.upward[receiver.level - (l + 1)].cls.own name types <;> rfl

theorem selectFrom?_level :
    r.selectFrom? receiver name types receiver.level = r.selectMethod? receiver name types := by
  rw [selectFrom?_eq_findSome? (Nat.le_refl _), Nat.sub_self, List.drop_zero, selectMethod?]

end

end Registry

end ObjectLang
