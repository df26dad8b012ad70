import ObjectLang.Proofs.Levels
import ObjectLang.Proofs.Limit
import ObjectLang.Proofs.Registered

/-!
The ranking of overloads: which methods a call may run by the types of its arguments, how far each is
from these, and which one is chosen. Scores are relations here, one case for each kind of pairing, and
the functions that compute them are shown to agree.
-/

namespace ObjectLang

namespace Registry

/-- A class of this name is registered, and the parameter's class stands on its line, as the first of
its name, so many steps up. -/
def Above (r : Registry) (param argument : String) (steps : Nat) : Prop :=
  ∃ c, r.find? argument = some c ∧ (c.line[steps]?).map ClassBody.name = some param ∧
    ∀ k < steps, (c.line[k]?).map ClassBody.name ≠ some param

/-- An argument of this type may stand for a parameter of that type: they are the same, the argument's
class is derived from the parameter's, or the argument's type is among the valid types of the
parameter's class, as null and the ancestors are. -/
inductive Suits (r : Registry) : TypeTag → TypeTag → Prop
  | same {t : TypeTag} : Suits r t t
  | derived {param argument : String} {steps : Nat} (h : r.Above param argument steps) :
      Suits r (.ofClass param) (.ofClass argument)
  | valid {param : String} {c : Class} {t : TypeTag} (hc : r.find? param = some c)
      (ht : t ∈ c.validTypes) : Suits r (.ofClass param) t

def Compatible (r : Registry) (params arguments : List TypeTag) : Prop :=
  List.Forall₂ r.Suits params arguments

inductive Scores (r : Registry) : TypeTag → TypeTag → Nat → Prop
  | exact {t : TypeTag} : Scores r t t 0
  | upcast {param argument : String} {steps : Nat} (hne : param ≠ argument)
      (h : r.Above param argument steps) : Scores r (.ofClass param) (.ofClass argument) steps
  | loose {param : String} {c : Class} {t : TypeTag} (hne : .ofClass param ≠ t)
      (hup : ∀ argument steps, t = .ofClass argument → ¬ r.Above param argument steps)
      (hc : r.find? param = some c) (ht : t ∈ c.validTypes) :
      Scores r (.ofClass param) t looseScore

inductive Totals (r : Registry) : List TypeTag → List TypeTag → Nat → Prop
  | nil : Totals r [] [] 0
  | cons {p a : TypeTag} {ps as : List TypeTag} {n k : Nat} (h : r.Scores p a n)
      (hs : Totals r ps as k) : Totals r (p :: ps) (a :: as) (n + k)

/- The functions compute the scores. -/

theorem accepts_iff {c : Class} {t : TypeTag} : c.accepts t = true ↔ t ∈ c.validTypes := by
  cases t <;> simp [Class.accepts, Class.validTypes]

theorem distanceTo?_eq_some {c : Class} {name : String} {n : Nat} :
    c.distanceTo? name = some n ↔ (c.line[n]?).map ClassBody.name = some name ∧
      ∀ k < n, (c.line[k]?).map ClassBody.name ≠ some name := by
  rw [Class.distanceTo?, List.findIdx?_eq_some_iff_getElem]
  constructor
  · rintro ⟨h, heq, hbefore⟩
    refine ⟨by simpa [List.getElem?_eq_getElem h] using heq, ?_⟩
    intro k hk
    have hk' := Nat.lt_trans hk h
    simpa [List.getElem?_eq_getElem hk'] using hbefore k hk
  · rintro ⟨heq, hbefore⟩
    obtain ⟨b, hb, hname⟩ := Option.map_eq_some_iff.mp heq
    obtain ⟨h, rfl⟩ := List.getElem?_eq_some_iff.mp hb
    refine ⟨h, by simpa using hname, ?_⟩
    intro k hk
    simpa [List.getElem?_eq_getElem (Nat.lt_trans hk h)] using hbefore k hk

section

variable {r : Registry}

theorem upcast?_eq_some {param : String} {t : TypeTag} {n : Nat} :
    r.upcast? param t = some n ↔ ∃ argument, t = .ofClass argument ∧ r.Above param argument n := by
  cases t <;> simp [upcast?, Above, TypeTag.className?, Option.bind_eq_some_iff, distanceTo?_eq_some]

theorem classAccepts_iff {param : String} {t : TypeTag} :
    r.classAccepts (.ofClass param) t = true ↔
      ∃ c, r.find? param = some c ∧ t ∈ c.validTypes := by
  cases h : r.find? param <;> simp [classAccepts, TypeTag.className?, h, accepts_iff]

theorem paramScore?_ofClass {param : String} {a : TypeTag} (hne : .ofClass param ≠ a) :
    r.paramScore? (.ofClass param) a = (r.upcast? param a).or
      (if r.classAccepts (.ofClass param) a then some looseScore else none) := by
  rw [paramScore?, if_neg hne]
  simp only [TypeTag.className?]
  cases r.upcast? param a <;> rfl

/-- A class takes a type that is not its own by an upcast, or else loosely. -/
theorem scores_ofClass {param : String} {a : TypeTag} {n : Nat} (hne : .ofClass param ≠ a) :
    r.Scores (.ofClass param) a n ↔ r.upcast? param a = some n ∨
      r.upcast? param a = none ∧ r.classAccepts (.ofClass param) a = true ∧ n = looseScore := by
  constructor
  · intro h
    cases h with
    | exact => exact absurd rfl hne
    | upcast _ h => exact .inl (upcast?_eq_some.mpr ⟨_, rfl, h⟩)
    | loose _ hup hc ht =>
      refine .inr ⟨?_, classAccepts_iff.mpr ⟨_, hc, ht⟩, rfl⟩
      rw [Option.eq_none_iff_forall_ne_some]
      intro steps h
      obtain ⟨argument, ha, habove⟩ := upcast?_eq_some.mp h
      exact hup argument steps ha habove
  · rintro (h | ⟨hup, h, rfl⟩)
    · obtain ⟨argument, rfl, habove⟩ := upcast?_eq_some.mp h
      exact .upcast (fun heq => hne (heq ▸ rfl)) habove
    · obtain ⟨c, hc, ht⟩ := classAccepts_iff.mp h
      refine .loose hne ?_ hc ht
      intro argument steps ha habove
      rw [upcast?_eq_some.mpr ⟨argument, ha, habove⟩] at hup
      cases hup

theorem paramScore?_eq_some {p a : TypeTag} {n : Nat} :
    r.paramScore? p a = some n ↔ r.Scores p a n := by
  by_cases heq : p = a
  · subst heq
    rw [paramScore?, if_pos rfl]
    constructor
    · intro h
      cases h
      exact .exact
    · intro h
      cases h with
      | exact => rfl
      | upcast hne => exact absurd rfl hne
      | loose hne => exact absurd rfl hne
  · cases p with
    | ofClass param =>
      have hloose : (if r.classAccepts (.ofClass param) a then some looseScore else none) = some n ↔
          r.classAccepts (.ofClass param) a = true ∧ n = looseScore := by
        by_cases h : r.classAccepts (.ofClass param) a = true
        · rw [if_pos h]
          constructor
          · intro heq
            cases heq
            exact ⟨h, rfl⟩
          · rintro ⟨-, rfl⟩
            rfl
        · rw [if_neg h]
          constructor
          · nofun
          · exact fun h' => absurd h'.1 h
      rw [paramScore?_ofClass heq, scores_ofClass heq, Option.or_eq_some_iff, hloose]
    | _ =>
      rw [paramScore?, if_neg heq]
      constructor
      · nofun
      · intro h
        cases h
        exact absurd rfl heq

theorem signatureScore?_eq_some {ps as : List TypeTag} {n : Nat} :
    r.signatureScore? ps as = some n ↔ r.Totals ps as n := by
  induction ps generalizing as n with
  | nil =>
    cases as with
    | nil =>
      constructor
      · intro h
        cases h
        exact .nil
      · intro h
        cases h
        rfl
    | cons a as =>
      constructor
      · nofun
      · nofun
  | cons p ps ih =>
    cases as with
    | nil =>
      constructor
      · nofun
      · nofun
    | cons a as =>
      simp only [signatureScore?, Option.bind_eq_bind, Option.bind_eq_some_iff]
      constructor
      · rintro ⟨i, hi, j, hj, h⟩
        cases h
        exact .cons (paramScore?_eq_some.mp hi) (ih.mp hj)
      · intro h
        cases h with
        | cons h hs => exact ⟨_, paramScore?_eq_some.mpr h, _, ih.mpr hs, rfl⟩

theorem scores_iff_suits {p a : TypeTag} : (∃ n, r.Scores p a n) ↔ r.Suits p a := by
  constructor
  · rintro ⟨n, h⟩
    cases h with
    | exact => exact .same
    | upcast _ h => exact .derived h
    | loose _ _ hc ht => exact .valid hc ht
  · intro h
    by_cases heq : p = a
    · exact ⟨0, heq ▸ .exact⟩
    · cases h with
      | same => exact absurd rfl heq
      | derived h => exact ⟨_, .upcast (fun hne => heq (hne ▸ rfl)) h⟩
      | @valid param c _ hc ht =>
        by_cases hup : ∃ argument steps, a = .ofClass argument ∧ r.Above param argument steps
        · obtain ⟨argument, steps, rfl, habove⟩ := hup
          exact ⟨steps, .upcast (fun hne => heq (hne ▸ rfl)) habove⟩
        · refine ⟨looseScore, .loose heq ?_ hc ht⟩
          intro argument steps ha habove
          exact hup ⟨argument, steps, ha, habove⟩

/-- The parameter lists that have a score are the compatible ones. -/
theorem totals_iff_compatible {ps as : List TypeTag} :
    (∃ n, r.Totals ps as n) ↔ r.Compatible ps as := by
  constructor
  · rintro ⟨n, h⟩
    induction h with
    | nil => exact .nil
    | cons h _ ih => exact .cons (scores_iff_suits.mp ⟨_, h⟩) ih
  · intro h
    induction h with
    | nil => exact ⟨0, .nil⟩
    | cons h _ ih =>
      obtain ⟨n, hn⟩ := scores_iff_suits.mpr h
      obtain ⟨k, hk⟩ := ih
      exact ⟨n + k, .cons hn hk⟩

/-- Distance zero means the same name, so only the types themselves score nothing. -/
theorem Totals.eq_of_zero {ps as : List TypeTag} (h : r.Totals ps as 0) : ps = as := by
  generalize hn : 0 = n at h
  induction h with
  | nil => rfl
  | @cons p a ps as i j h _ ih =>
    obtain ⟨hi, hj⟩ : i = 0 ∧ j = 0 := by omega
    rw [ih hj.symm]
    subst hi
    cases h with
    | exact => rfl
    | @upcast param argument _ hne habove =>
      obtain ⟨c, hc, hname, -⟩ := habove
      obtain ⟨-, hfound⟩ := find?_mem hc
      exact absurd ((Option.some.inj hname).symm.trans hfound) hne

theorem totals_self (ts : List TypeTag) : r.Totals ts ts 0 := by
  induction ts with
  | nil => exact .nil
  | cons t ts ih => exact .cons .exact ih

end

/-- The method is, of those in the list, one of least total score and the first of these. -/
def Best (r : Registry) (overloads : List Method) (types : List TypeTag) (method : Method) : Prop :=
  ∃ before after score, overloads = before ++ method :: after ∧
    r.Totals method.signature types score ∧
    (∀ n ∈ before, ∀ k, r.Totals n.signature types k → score < k) ∧
    ∀ n ∈ after, ∀ k, r.Totals n.signature types k → score ≤ k

def Offers (r : Registry) (b : ClassBody) (name : String) (types : List TypeTag) : Prop :=
  ∃ method ∈ b.methods, method.name = name ∧ r.Compatible method.signature types

end Registry

/- The least score. -/

theorem leastScored_eq_none {l : List (Nat × Method)} : leastScored l = none ↔ l = [] := by
  cases l with
  | nil => simp [leastScored]
  | cons x l =>
    unfold leastScored
    cases leastScored l with
    | none => simp
    | some y =>
      simp only [reduceCtorEq, iff_false]
      split <;> nofun

theorem leastScored_eq_some {l : List (Nat × Method)} {x : Nat × Method} :
    leastScored l = some x ↔ ∃ before after, l = before ++ x :: after ∧
      (∀ y ∈ before, x.1 < y.1) ∧ ∀ y ∈ after, x.1 ≤ y.1 := by
  induction l generalizing x with
  | nil => simp [leastScored]
  | cons a l ih =>
    constructor
    · intro h
      unfold leastScored at h
      cases hl : leastScored l with
      | none =>
        rw [hl] at h
        cases h
        refine ⟨[], l, rfl, by simp, ?_⟩
        rw [leastScored_eq_none.mp hl]
        simp
      | some y =>
        simp only [hl] at h
        obtain ⟨before, after, rfl, hbefore, hafter⟩ := ih.mp hl
        split at h <;> cases h
        · exact ⟨a :: before, after, rfl, List.forall_mem_cons.mpr ⟨by assumption, hbefore⟩, hafter⟩
        · have hle : a.1 ≤ y.1 := Nat.le_of_not_lt (by assumption)
          refine ⟨[], _, rfl, by simp, ?_⟩
          intro z hz
          obtain hz | hz := List.mem_append.mp hz
          · exact Nat.le_trans hle (Nat.le_of_lt (hbefore z hz))
          · obtain rfl | hz := List.mem_cons.mp hz
            · exact hle
            · exact Nat.le_trans hle (hafter z hz)
    · rintro ⟨before, after, heq, hbefore, hafter⟩
      cases before with
      | nil =>
        cases heq
        unfold leastScored
        cases hl : leastScored l with
        | none => rfl
        | some y =>
          have hle := hafter y (leastScored_mem hl)
          simp [Nat.not_lt_of_le hle]
      | cons b before =>
        cases heq
        rw [List.forall_mem_cons] at hbefore
        have hl : leastScored (before ++ x :: after) = some x :=
          ih.mpr ⟨before, after, rfl, hbefore.2, hafter⟩
        simp [leastScored, hl, hbefore.1]

namespace Registry

section

variable {r : Registry} {b : ClassBody} {name : String} {types : List TypeTag} {method : Method}

theorem mem_candidates {score : Nat} {overloads : List Method} :
    (score, method) ∈ overloads.filterMap (fun m =>
        (r.signatureScore? m.signature types).map fun score => (score, m)) ↔
      method ∈ overloads ∧ r.Totals method.signature types score := by
  simp only [List.mem_filterMap, Option.map_eq_some_iff, Prod.mk.injEq, signatureScore?_eq_some]
  constructor
  · rintro ⟨m, hm, k, hk, rfl, rfl⟩
    exact ⟨hm, hk⟩
  · rintro ⟨hm, hk⟩
    exact ⟨method, hm, score, hk, rfl, rfl⟩

theorem bestMethod?_eq_some :
    r.bestMethod? b name types = some method ↔ r.Best (b.methodsNamed name) types method := by
  rw [bestMethod?, Option.map_eq_some_iff]
  constructor
  · rintro ⟨⟨score, m⟩, hleast, rfl⟩
    obtain ⟨before, after, hsplit, hbefore, hafter⟩ := leastScored_eq_some.mp hleast
    obtain ⟨front, rest, hmethods, rfl, hrest⟩ := List.filterMap_eq_append_iff.mp hsplit
    obtain ⟨skipped, m', back, rfl, hskipped, hm, rfl⟩ := List.filterMap_eq_cons_iff.mp hrest
    obtain ⟨k, hk, heq⟩ := Option.map_eq_some_iff.mp hm
    cases heq
    refine ⟨front ++ skipped, back, score, by simp [hmethods], signatureScore?_eq_some.mp hk, ?_, ?_⟩
    · intro n hn k hk
      cases List.mem_append.mp hn with
      | inl hn => exact hbefore (k, n) (mem_candidates.mpr ⟨hn, hk⟩)
      | inr hn =>
        have hnone := hskipped n hn
        rw [signatureScore?_eq_some.mpr hk] at hnone
        cases hnone
    · intro n hn k hk
      exact hafter (k, n) (mem_candidates.mpr ⟨hn, hk⟩)
  · rintro ⟨before, after, score, hmethods, hscore, hbefore, hafter⟩
    refine ⟨(score, method), ?_, rfl⟩
    rw [leastScored_eq_some, candidates, hmethods, List.filterMap_append, List.filterMap_cons,
      signatureScore?_eq_some.mpr hscore]
    refine ⟨_, _, rfl, ?_, ?_⟩
    · rintro ⟨k, n⟩ hn
      obtain ⟨hn, hk⟩ := mem_candidates.mp hn
      exact hbefore n hn k hk
    · rintro ⟨k, n⟩ hn
      obtain ⟨hn, hk⟩ := mem_candidates.mp hn
      exact hafter n hn k hk

theorem bestMethod?_eq_none : r.bestMethod? b name types = none ↔ ¬ r.Offers b name types := by
  rw [bestMethod?, Option.map_eq_none_iff, leastScored_eq_none, List.eq_nil_iff_forall_not_mem]
  constructor
  · rintro hnone ⟨method, hm, hname, hcompatible⟩
    obtain ⟨score, hscore⟩ := totals_iff_compatible.mpr hcompatible
    have hnamed : method ∈ b.methodsNamed name := List.mem_filter.mpr ⟨hm, by simpa using hname⟩
    exact hnone (score, method) (mem_candidates.mpr ⟨hnamed, hscore⟩)
  · rintro hnone ⟨score, method⟩ hmem
    obtain ⟨hm, hscore⟩ := mem_candidates.mp hmem
    obtain ⟨hm, hname⟩ := List.mem_filter.mp hm
    exact hnone ⟨method, hm, by simpa using hname, totals_iff_compatible.mp ⟨score, hscore⟩⟩

/-- An overload whose parameters have the types of the arguments is the one of its body. -/
theorem Best.eq_of_exact {overloads : List Method} {n : Method}
    (hdistinct : overloads.Pairwise fun m n => m.signature ≠ n.signature)
    (h : r.Best overloads types method) (hn : n ∈ overloads) (htypes : n.signature = types) :
    method = n := by
  obtain ⟨before, after, score, rfl, hscore, hbefore, hafter⟩ := h
  have hzero : r.Totals n.signature types 0 := by
    rw [htypes]
    exact totals_self types
  obtain hn | hn := List.mem_append.mp hn
  · exact absurd (hbefore n hn 0 hzero) (Nat.not_lt_zero score)
  · obtain rfl | hn := List.mem_cons.mp hn
    · rfl
    · -- The chosen one scores nothing either, so it has the same signature.
      have hle := hafter n hn 0 hzero
      obtain rfl := Nat.le_zero.mp hle
      have hne := (List.pairwise_cons.mp (List.pairwise_append.mp hdistinct).2.1).1 n hn
      exact absurd (hscore.eq_of_zero.trans htypes.symm) hne

/-- The search through the levels in terms of what they offer. -/
theorem selectMethod?_eq_some {receiver view : View} :
    r.selectMethod? receiver name types = some (view, method) ↔
      ∃ l ≤ receiver.level, receiver.atLevel? l = some view ∧
        (∀ k w, l < k → k ≤ receiver.level → receiver.atLevel? k = some w →
          ¬ r.Offers w.cls.own name types) ∧
        r.Best (view.cls.own.methodsNamed name) types method := by
  rw [← selectFrom?_level, selectFrom?_eq_some]
  constructor
  · rintro ⟨l, hl, hfound, habove⟩
    obtain ⟨hat, hbest⟩ := selectAt?_eq_some.mp hfound
    refine ⟨l, hl, hat, ?_, bestMethod?_eq_some.mp hbest⟩
    intro k w hk hle hw
    exact bestMethod?_eq_none.mp (selectAt?_eq_none.mp (habove k hk hle) w hw)
  · rintro ⟨l, hl, hat, habove, hbest⟩
    refine ⟨l, hl, selectAt?_eq_some.mpr ⟨hat, bestMethod?_eq_some.mpr hbest⟩, ?_⟩
    intro k hk hle
    exact selectAt?_eq_none.mpr fun w hw => bestMethod?_eq_none.mpr (habove k w hk hle hw)

theorem selectMethod?_eq_none {receiver : View} :
    r.selectMethod? receiver name types = none ↔
      ∀ l w, l ≤ receiver.level → receiver.atLevel? l = some w →
        ¬ r.Offers w.cls.own name types := by
  rw [← selectFrom?_level, selectFrom?_eq_none]
  constructor
  · intro h l w hl hw
    exact bestMethod?_eq_none.mp (selectAt?_eq_none.mp (h l hl) w hw)
  · intro h l hl
    exact selectAt?_eq_none.mpr fun w hw => bestMethod?_eq_none.mpr (h l w hl hw)

/-- The method that is chosen stands at the receiver's level or nearer to the base class. -/
theorem level_le_of_selectMethod? {receiver view : View}
    (h : r.selectMethod? receiver name types = some (view, method)) :
    view.level ≤ receiver.level := by
  obtain ⟨l, hl, hat, -⟩ := selectMethod?_eq_some.mp h
  obtain ⟨w, hw, hlevel, -⟩ := View.exists_atLevel? hl
  rw [hat] at hw
  cases hw
  exact hlevel ▸ hl

end

end Registry

/- Bodies do not have two methods of one name and signature. -/

namespace ClassBody

theorem add_methods {b b' : ClassBody} {form : Form} (h : b.add form = .ok b') :
    b'.methods = b.methods ∨ ∃ m, (∃ f, Method.ofForm f = .ok m) ∧ b'.methods = b.methods ++ [m] ∧
      ∀ n ∈ b.methods, n.name = m.name → n.signature ≠ m.signature := by
  unfold add at h
  split at h
  · obtain ⟨f, -, h⟩ := except_bind_eq_ok.mp h
    unfold addField at h
    split at h <;> cases h
    exact .inl rfl
  · obtain ⟨m, hm, h⟩ := except_bind_eq_ok.mp h
    unfold addMethod at h
    split at h <;> cases h
    rename_i hnew
    refine .inr ⟨m, ⟨form, hm⟩, rfl, ?_⟩
    intro n hn hname hsignature
    refine hnew (List.any_eq_true.mpr ⟨n, List.mem_filter.mpr ⟨hn, by simpa using hname⟩, ?_⟩)
    simpa using hsignature
  · cases h

theorem Declared.distinct {b : ClassBody} (h : b.Declared) (name : String) :
    (b.methodsNamed name).Pairwise fun m n => m.signature ≠ n.signature := by
  have hall : b.methods.Pairwise fun m n => m.name = n.name → m.signature ≠ n.signature := by
    obtain ⟨name, decls, h⟩ := h
    refine foldlM_keeps (P := fun b : ClassBody =>
      b.methods.Pairwise fun m n => m.name = n.name → m.signature ≠ n.signature) ?_ .nil h
    intro b form b' hb hadd
    obtain heq | ⟨m, -, heq, hnew⟩ := add_methods hadd
    · rwa [heq]
    · rw [heq, List.pairwise_append]
      refine ⟨hb, List.pairwise_singleton _ m, ?_⟩
      intro n hn m' hm'
      rw [List.mem_singleton.mp hm']
      exact hnew n hn
  refine (hall.filter _).imp_of_mem ?_
  intro m n hm hn hne
  have hname : m.name = name := by simpa using (List.mem_filter.mp hm).2
  have hname' : n.name = name := by simpa using (List.mem_filter.mp hn).2
  exact hne (hname.trans hname'.symm)

end ClassBody

/-- The superclass is one level nearer to the base. -/
theorem View.level_parent? {v w : View} (h : v.parent? = some w) : w.level + 1 = v.level := by
  obtain ⟨base, ⟨own, ancestors⟩, derived⟩ := v
  cases ancestors with
  | nil => cases h
  | cons p ps =>
    cases h
    rfl

/-- A call takes the greatest level, from the receiver's down to that of the base class, whose class
declares a compatible overload, and of the compatible ones there the first with the least total
score. It finds none if and only if no level has one, and then fails. An overload that has the types
of the arguments is chosen at its level wherever it is declared. What is reached through `super` is
declared below the level of the running method. -/
theorem calls_choose_the_best_overload {forms : List Form} {r : Registry}
    (hload : Registry.load forms = .ok r) {sink : Sink} {source : Source} {limit : Option Nat}
    {m : Machine} (hm : Reachable (Machine.start r sink source limit) m) {receiver : View}
    (hreceiver : m.store.Holds receiver.object) (name : String) (types : List TypeTag) :
    (∀ l ≤ receiver.level, ∃ w, receiver.atLevel? l = some w ∧ w.level = l) ∧
    (∀ view method, m.registry.selectMethod? receiver name types = some (view, method) ↔
      ∃ l ≤ receiver.level, receiver.atLevel? l = some view ∧
        (∀ k w, l < k → k ≤ receiver.level → receiver.atLevel? k = some w →
          ¬ m.registry.Offers w.cls.own name types) ∧
        m.registry.Best (view.cls.own.methodsNamed name) types method) ∧
    (m.registry.selectMethod? receiver name types = none ↔
      ∀ l w, l ≤ receiver.level → receiver.atLevel? l = some w →
        ¬ m.registry.Offers w.cls.own name types) ∧
    (∀ exec vs, vs.map Value.runtimeType = types →
      m.registry.selectMethod? receiver name types = none →
      Eval.callMethod exec receiver name vs m =
        .error (.failed (.noMatchingMethod name receiver.cls.name types)) m) ∧
    (∀ view method n, m.registry.selectMethod? receiver name types = some (view, method) →
      n ∈ view.cls.own.methods → n.name = name → n.signature = types → method = n) ∧
    ∀ a v s, m.control.activation = some a → Eval.superView m = .ok v s →
      a.method ∈ a.receiver.cls.own.methods ∧
      ∀ (r' : Registry) name types view method,
        r'.selectMethod? v name types = some (view, method) →
        method ∈ view.cls.own.methods ∧ view.level < a.receiver.level := by
  refine ⟨?_, fun _ _ => Registry.selectMethod?_eq_some, Registry.selectMethod?_eq_none, ?_, ?_, ?_⟩
  · intro l hl
    obtain ⟨w, hw, hlevel, -⟩ := View.exists_atLevel? hl
    exact ⟨w, hw, hlevel⟩
  · intro exec vs htypes hnone
    subst htypes
    exact Eval.callMethod_of_none hnone
  · intro view method n hselect hn hname htypes
    obtain ⟨l, -, -, -, hbest⟩ := Registry.selectMethod?_eq_some.mp hselect
    obtain ⟨hsame, -, -, -⟩ := Registry.selectMethod?_spec hselect
    have horderly := Registry.orderly_load hload
    have hview : m.store.Holds view.object := by rwa [View.object_eq hsame]
    have hdeclared : view.cls.own.Declared :=
      (hm.orderly horderly).declared _ (hm.mem_classes horderly hview) _ List.mem_cons_self
    have hnamed : n ∈ view.cls.own.methodsNamed name :=
      List.mem_filter.mpr ⟨hn, by simpa using hname⟩
    exact hbest.eq_of_exact (hdeclared.distinct name) hnamed htypes
  · intro a v s ha hv
    obtain ⟨a', ha', hparent, -⟩ := Eval.superView_eq_ok.mp hv
    rw [ha] at ha'
    cases ha'
    refine ⟨hm.mem_methods ha, ?_⟩
    intro r' name types view method hselect
    obtain ⟨-, hmem, -⟩ := Registry.selectMethod?_spec hselect
    have hle := Registry.level_le_of_selectMethod? hselect
    have hlevel := View.level_parent? hparent
    exact ⟨hmem, by omega⟩

/- A program with two overloads in a class and one in its parent. -/

namespace Sample

def picking (cls text : String) : Method :=
  ⟨"pick", .int, [⟨"x", .ofClass cls⟩], .list [.atom "return", .atom text]⟩

def picker : Method :=
  ⟨"main", .void, [], .list [.atom "call", .atom "me", .atom "pick", .atom "me"]⟩

def upper : Class := ⟨⟨"base", [], [picking "base" "1"]⟩, []⟩

def lower : Class := ⟨⟨"main", [], [picking "base" "2", picking "main" "3", picker]⟩, upper.line⟩

def pickForm (cls text : String) : Form :=
  .list [.atom "method", .atom "int", .atom "pick", .list [.list [.atom cls, .atom "x"]],
    .list [.atom "return", .atom text]]

def pickForms : List Form :=
  [.list [.atom "class", .atom "base", pickForm "base" "1"],
    .list [.atom "class", .atom "main", .atom "inherits", .atom "base", pickForm "base" "2",
      pickForm "main" "3",
      .list [.atom "method", .atom "void", .atom "main", .list [], picker.body]]]

def picks : Machine := Machine.start ⟨[upper, lower], []⟩ (.buffer "") (.queue []) none

def picked : Machine := (after (Eval.create lower) picks).enterCall ⟨1, lower, []⟩ picker []

theorem reachable_picked : Reachable picks picked := by
  have hmain : Awaits ⟨8, .call ⟨1, lower, []⟩ "main" [], after (Eval.create lower) picks⟩
      ⟨8, .exec picker.body, picked⟩ := .body rfl rfl rfl
  exact .started ⟨[], 8, _, ⟨lower, _, picks, _, rfl, rfl, rfl⟩, .single (.awaits hmain)⟩

theorem holds_picked : picked.store.Holds (View.object ⟨1, lower, []⟩) :=
  reachable_picked.holds_receiver rfl

end Sample

/-- In the sample, the overload for the class itself is chosen though it is declared second. -/
theorem sample_exact_overload_is_chosen :
    Registry.load Sample.pickForms = .ok Sample.picks.registry ∧
      Reachable Sample.picks Sample.picked ∧
      ∃ view method, Sample.picked.registry.selectMethod? ⟨1, Sample.lower, []⟩ "pick"
          [.ofClass "main"] = some (view, method) ∧
        view.level = 1 ∧ method = Sample.picking "main" "3" := by
  have hload : Registry.load Sample.pickForms = .ok Sample.picks.registry := rfl
  obtain ⟨-, -, -, -, hexact, -⟩ := calls_choose_the_best_overload hload Sample.reachable_picked
    Sample.holds_picked "pick" [.ofClass "main"]
  refine ⟨hload, Sample.reachable_picked, _, _, rfl, rfl, ?_⟩
  refine hexact _ _ (Sample.picking "main" "3") rfl ?_ rfl rfl
  exact List.mem_cons_of_mem _ List.mem_cons_self

end ObjectLang
