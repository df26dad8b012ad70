import Mathlib
import ObjectLang.Operator.Apply

/-!
Arithmetic on integers. An operator gives the exact integer, or fails with a fault where no word has
this value. Quotients are rounded down and remainders take the sign of the divisor, and no step on
the way to them overflows.
-/

namespace ObjectLang

/- Quotients and remainders of integers. -/

namespace Integer

/-- Truncating leaves a remainder with the sign of the dividend. -/
theorem tmod_bounds {a b : Int} (hb : b ≠ 0) :
    (a.tmod b).natAbs < b.natAbs ∧ (0 ≤ a → 0 ≤ a.tmod b) ∧ (a ≤ 0 → a.tmod b ≤ 0) := by
  refine ⟨?_, Int.tmod_nonneg b, fun ha => ?_⟩
  · rw [Int.natAbs_tmod]
    exact Nat.mod_lt _ (Int.natAbs_pos.mpr hb)
  · have hneg := Int.tmod_nonneg b (Int.neg_nonneg_of_nonpos ha)
    rw [Int.neg_tmod] at hneg
    omega

theorem floor_eq {a b q r : Int} (hb : b ≠ 0) (h : a = b * q + r)
    (hr : 0 ≤ r ∧ r < b ∨ b < r ∧ r ≤ 0) : ⌊(a : ℚ) / b⌋ = q := by
  have hb' : (b : ℚ) ≠ 0 := Int.cast_ne_zero.mpr hb
  have hquotient : (a : ℚ) / b = q + (r : ℚ) / b := by
    rw [h]
    push_cast
    field_simp
  have hfraction : 0 ≤ (r : ℚ) / b ∧ (r : ℚ) / b < 1 := by
    obtain ⟨h0, hlt⟩ | ⟨hlt, h0⟩ := hr
    · have hpos : (0 : ℚ) < b := by exact_mod_cast lt_of_le_of_lt h0 hlt
      refine ⟨div_nonneg (by exact_mod_cast h0) hpos.le, (div_lt_one hpos).mpr ?_⟩
      exact_mod_cast hlt
    · have hneg : (b : ℚ) < 0 := by exact_mod_cast lt_of_lt_of_le hlt h0
      refine ⟨div_nonneg_of_nonpos (by exact_mod_cast h0) hneg.le, ?_⟩
      refine (div_lt_one_of_neg hneg).mpr ?_
      exact_mod_cast hlt
  rw [Int.floor_eq_iff, hquotient]
  constructor <;> linarith [hfraction.1, hfraction.2]

/-- Truncating rounds up if the quotient is not exact and negative. -/
theorem floor_eq_tdiv {a b : Int} (hb : b ≠ 0) :
    ⌊(a : ℚ) / b⌋ = if a.tmod b ≠ 0 ∧ ¬ (a < 0 ↔ b < 0) then a.tdiv b - 1 else a.tdiv b := by
  obtain ⟨hlt, hnonneg, hnonpos⟩ := tmod_bounds (a := a) hb
  have hdef := Int.mul_tdiv_add_tmod a b
  split
  · refine floor_eq (r := a.tmod b + b) hb ?_ (by omega)
    rw [Int.mul_sub]
    omega
  · exact floor_eq hb hdef.symm (by omega)

theorem sub_mul_floor {a b : Int} (hb : b ≠ 0) :
    a - b * ⌊(a : ℚ) / b⌋ =
      if a.tmod b ≠ 0 ∧ ¬ (a.tmod b < 0 ↔ b < 0) then a.tmod b + b else a.tmod b := by
  obtain ⟨hlt, hnonneg, hnonpos⟩ := tmod_bounds (a := a) hb
  have hdef := Int.mul_tdiv_add_tmod a b
  rw [floor_eq_tdiv hb]
  split <;> split <;> first | omega | (rw [Int.mul_sub]; omega)

theorem remainder_bounds {a b r : Int} (hb : b ≠ 0) (h : r = a - b * ⌊(a : ℚ) / b⌋) :
    (r = 0 ∨ r.sign = b.sign) ∧ r.natAbs < b.natAbs := by
  obtain ⟨hlt, -, -⟩ := tmod_bounds (a := a) hb
  rw [sub_mul_floor hb] at h
  have hside : 0 ≤ r ∧ r < b ∨ b < r ∧ r ≤ 0 := by
    split at h <;> omega
  refine ⟨?_, by omega⟩
  obtain ⟨h0, hr⟩ | ⟨hr, h0⟩ := hside
  · obtain rfl | hpos := h0.eq_or_lt'
    · exact .inl rfl
    · exact .inr (by rw [Int.sign_eq_one_of_pos hpos, Int.sign_eq_one_of_pos (hpos.trans hr)])
  · obtain rfl | hneg := h0.eq_or_lt
    · exact .inl rfl
    · exact .inr (by
        rw [Int.sign_eq_neg_one_of_neg hneg, Int.sign_eq_neg_one_of_neg (hr.trans hneg)])

/-- A quotient that is not exact is at most half as great as the dividend. -/
theorem natAbs_tdiv_le {a b : Int} (hb : b ≠ 0) (h : a.tmod b ≠ 0) :
    2 * (a.tdiv b).natAbs ≤ a.natAbs := by
  have htwo : 2 ≤ b.natAbs := by
    have hlt := (tmod_bounds (a := a) hb).1
    omega
  have hmul := Nat.div_mul_le_self a.natAbs b.natAbs
  rw [Int.natAbs_tdiv]
  exact (Nat.mul_comm _ _).trans_le ((Nat.mul_le_mul_left _ htwo).trans hmul)

/- Words. -/

def InRange (z : Int) : Prop := least ≤ z ∧ z ≤ greatest

theorem inRange_toInt (a : Int64) : InRange a.toInt := by
  have hle := a.le_toInt
  have hlt := a.toInt_lt
  unfold InRange least greatest
  omega

theorem natAbs_toInt_lt (n : Int64) : n.toInt.natAbs < 2 ^ 64 := by
  have hn := inRange_toInt n
  unfold InRange least greatest at hn
  omega

theorem toInt_ofInt {z : Int} (h : InRange z) : (Int64.ofInt z).toInt = z := by
  unfold InRange least greatest at h
  exact Int64.toInt_ofInt_of_le (by omega) (by omega)

theorem ofInt?_eq_some {z : Int} {n : Int64} : ofInt? z = some n ↔ n.toInt = z := by
  unfold ofInt?
  constructor
  · intro h
    split at h
    · next hz =>
      cases h
      exact toInt_ofInt hz
    · cases h
  · rintro rfl
    have hn : least ≤ n.toInt ∧ n.toInt ≤ greatest := inRange_toInt n
    rw [if_pos hn, Int64.ofInt_toInt]

theorem ofInt?_eq_none {z : Int} : ofInt? z = none ↔ ¬ InRange z := by
  unfold ofInt?
  split <;> simp_all [InRange]

theorem exact_eq_ok {operation : Arithmetic} {z : Int} {n : Int64} :
    exact operation z = .ok n ↔ n.toInt = z := by
  rw [← ofInt?_eq_some, exact]
  split <;> simp_all

theorem exact_eq_error {operation : Arithmetic} {z : Int} (h : ¬ InRange z) :
    exact operation z = .error (.overflow operation) := by
  rw [exact, ofInt?_eq_none.mpr h]

theorem signsDiffer_iff {a b : Int64} :
    signsDiffer a b = true ↔ ¬ (a.toInt < 0 ↔ b.toInt < 0) := by
  simp only [signsDiffer, bne_iff_ne, ne_eq, decide_eq_decide, Int64.lt_iff_toInt_lt,
    Int64.toInt_zero]

theorem mod_bne_zero {a b : Int64} : (a % b != 0) = true ↔ a.toInt.tmod b.toInt ≠ 0 := by
  rw [bne_iff_ne, ne_eq, ← Int64.toInt_inj, Int64.toInt_mod, Int64.toInt_zero]

theorem toInt_ne_zero {b : Int64} (hb : b ≠ 0) : b.toInt ≠ 0 :=
  fun h => hb (Int64.toInt_inj.mp h)

/-- Where the quotient is adjusted, one less is a word too. -/
theorem inRange_sub_one {a b : Int64} (hb : b ≠ 0) (h : a.toInt.tmod b.toInt ≠ 0) :
    InRange (a.toInt.tdiv b.toInt - 1) := by
  have hhalf := natAbs_tdiv_le (toInt_ne_zero hb) h
  have ha := inRange_toInt a
  unfold InRange least greatest at *
  omega

/-- A quotient that is no word is exact. -/
theorem tmod_eq_zero {a b : Int64} (hb : b ≠ 0) (hq : ¬ InRange (a.toInt.tdiv b.toInt)) :
    a.toInt.tmod b.toInt = 0 := by
  by_contra h
  have hhalf := natAbs_tdiv_le (toInt_ne_zero hb) h
  have ha := inRange_toInt a
  unfold InRange least greatest at *
  omega

/-- Where the remainder is adjusted, the signs differ, so that the sum is a word. -/
theorem inRange_add {r b : Int64} (h : ¬ (r.toInt < 0 ↔ b.toInt < 0)) :
    InRange (r.toInt + b.toInt) := by
  have hr := inRange_toInt r
  have hb := inRange_toInt b
  unfold InRange at *
  omega

theorem toInt_add {a b : Int64} (h : InRange (a.toInt + b.toInt)) :
    (a + b).toInt = a.toInt + b.toInt := by
  rw [← toInt_ofInt h, Int64.ofInt_add, Int64.ofInt_toInt, Int64.ofInt_toInt]

theorem toInt_sub {a b : Int64} (h : InRange (a.toInt - b.toInt)) :
    (a - b).toInt = a.toInt - b.toInt := by
  rw [← toInt_ofInt h, Int64.ofInt_sub, Int64.ofInt_toInt, Int64.ofInt_toInt]

/- What the steps come to. -/

/-- Where the truncated quotient is a word, so is the quotient rounded down. -/
theorem div_eq_ok {a b q : Int64} (hb : b ≠ 0) (hq : q.toInt = a.toInt.tdiv b.toInt) :
    ∃ n, div a b = .ok n ∧ n.toInt = ⌊(a.toInt : ℚ) / b.toInt⌋ := by
  have hdiv : div a b = .ok (if a % b != 0 && signsDiffer a b then q - 1 else q) := by
    rw [div, if_neg hb, exact_eq_ok.mpr hq]
    rfl
  refine ⟨_, hdiv, ?_⟩
  simp only [floor_eq_tdiv (toInt_ne_zero hb), Bool.and_eq_true, mod_bne_zero, signsDiffer_iff]
  split
  · next h =>
    have hword := inRange_sub_one hb h.1
    rw [← hq] at hword ⊢
    exact toInt_sub hword
  · exact hq

/-- Where the truncated quotient is no word, it is exact. -/
theorem div_eq_error {a b : Int64} (hb : b ≠ 0) (hq : ¬ InRange (a.toInt.tdiv b.toInt)) :
    div a b = .error (.overflow .division) ∧ ⌊(a.toInt : ℚ) / b.toInt⌋ = a.toInt.tdiv b.toInt := by
  constructor
  · rw [div, if_neg hb, exact_eq_error hq]
    rfl
  · rw [floor_eq_tdiv (toInt_ne_zero hb), if_neg]
    exact fun h => h.1 (tmod_eq_zero hb hq)

theorem mod_eq_ok {a b : Int64} (hb : b ≠ 0) :
    ∃ r, mod a b = .ok r ∧ r.toInt = a.toInt - b.toInt * ⌊(a.toInt : ℚ) / b.toInt⌋ := by
  refine ⟨_, by rw [mod, if_neg hb], ?_⟩
  have hr : (a % b).toInt = a.toInt.tmod b.toInt := Int64.toInt_mod a b
  simp only [sub_mul_floor (toInt_ne_zero hb), Bool.and_eq_true, mod_bne_zero, signsDiffer_iff, ← hr]
  split
  · next h => exact toInt_add (inRange_add h.2)
  · rfl

/- The same steps where an overflow traps. -/

namespace Trapping

/-- An operation on words traps, with no result, where the exact result is no word. -/
def add? (a b : Int64) : Option Int64 := ofInt? (a.toInt + b.toInt)

def sub? (a b : Int64) : Option Int64 := ofInt? (a.toInt - b.toInt)

def rem? (a b : Int64) : Option Int64 :=
  if b = 0 then none
  else (ofInt? (a.toInt.tdiv b.toInt)).bind fun _ => ofInt? (a.toInt.tmod b.toInt)

/-- The steps of `Integer.div`. The first quotient is checked, so that it fails and does not trap. -/
def div? (a b : Int64) : Option (Except Error Int64) :=
  if b = 0 then some (.error .divisionByZero)
  else
    match exact .division (a.toInt.tdiv b.toInt) with
    | .error e => some (.error e)
    | .ok q =>
      (rem? a b).bind fun r =>
        (if r != 0 && signsDiffer a b then sub? q 1 else some q).map .ok

def mod? (a b : Int64) : Option (Except Error Int64) :=
  if b = 0 then some (.error .divisionByZero)
  else
    let r := (rem? a b).getD 0
    (if r != 0 && signsDiffer r b then add? r b else some r).map .ok

theorem rem?_eq_some {a b q : Int64} (hb : b ≠ 0) (hq : q.toInt = a.toInt.tdiv b.toInt) :
    rem? a b = some (a % b) := by
  rw [rem?, if_neg hb, ofInt?_eq_some.mpr hq]
  exact ofInt?_eq_some.mpr (Int64.toInt_mod a b)

theorem rem?_getD (a b : Int64) (hb : b ≠ 0) : (rem? a b).getD 0 = a % b := by
  by_cases hq : InRange (a.toInt.tdiv b.toInt)
  · rw [rem?_eq_some hb (toInt_ofInt hq)]
    rfl
  · -- A quotient that overflows leaves no remainder.
    have hzero : a % b = 0 := by
      rw [← Int64.toInt_inj, Int64.toInt_mod, tmod_eq_zero hb hq, Int64.toInt_zero]
    rw [rem?, if_neg hb, ofInt?_eq_none.mpr hq, hzero]
    rfl

theorem div?_eq (a b : Int64) : div? a b = some (div a b) := by
  unfold div? div
  split
  · rfl
  · next hb =>
    cases hexact : exact .division (a.toInt.tdiv b.toInt) with
    | error e => rfl
    | ok q =>
      have hq := exact_eq_ok.mp hexact
      simp only [rem?_eq_some hb hq, Option.bind_some, Except.map]
      split
      · next h =>
        rw [Bool.and_eq_true, mod_bne_zero] at h
        have hword := inRange_sub_one hb h.1
        rw [← hq] at hword
        rw [sub?, ofInt?_eq_some.mpr (toInt_sub (b := 1) hword)]
        rfl
      · rfl

theorem mod?_eq (a b : Int64) : mod? a b = some (mod a b) := by
  unfold mod? mod
  split
  · rfl
  · next hb =>
    simp only [rem?_getD a b hb]
    split
    · next h =>
      rw [Bool.and_eq_true, signsDiffer_iff] at h
      rw [add?, ofInt?_eq_some.mpr (toInt_add (inRange_add h.2))]
      rfl
    · rfl

end Trapping

end Integer

def Exactly (z : Int) (outcome : Except Error Value) : Prop :=
  (Integer.InRange z → ∃ n : Int64, outcome = .ok (.int n) ∧ n.toInt = z) ∧
    (¬ Integer.InRange z → ∃ e : Error, outcome = .error e ∧ e.kind = .fault)

theorem exactly_exact (operation : Arithmetic) (z : Int) :
    Exactly z ((Integer.exact operation z).map .int) := by
  constructor
  · intro hz
    rw [Integer.exact_eq_ok.mpr (Integer.toInt_ofInt hz)]
    exact ⟨_, rfl, Integer.toInt_ofInt hz⟩
  · intro hz
    rw [Integer.exact_eq_error hz]
    exact ⟨_, rfl, rfl⟩

theorem exactly_floor {a b : Int64} (hb : b ≠ 0) :
    Exactly ⌊(a.toInt : ℚ) / b.toInt⌋ ((Integer.div a b).map .int) := by
  by_cases hq : Integer.InRange (a.toInt.tdiv b.toInt)
  · obtain ⟨n, hn, hfloor⟩ := Integer.div_eq_ok hb (Integer.toInt_ofInt hq)
    rw [hn, ← hfloor]
    exact ⟨fun _ => ⟨n, rfl, rfl⟩, fun h => absurd (Integer.inRange_toInt n) h⟩
  · obtain ⟨herror, hfloor⟩ := Integer.div_eq_error hb hq
    rw [herror, hfloor]
    exact ⟨fun h => absurd h hq, fun _ => ⟨_, rfl, rfl⟩⟩

/-- Arithmetic on words is exact or faults. Sums, differences and products are the exact integers, or
a fault where these are no words. Division by zero is a fault, as is its remainder. By any other
divisor, the quotient is the exact one rounded down, or a fault where this is no word, and the
remainder is always what this quotient leaves: zero, or smaller than the divisor and with its sign.
On a machine that traps on overflow the same steps have the same outcome, so none of them traps. -/
theorem arithmetic_is_exact (a b : Int64) :
    Exactly (a.toInt + b.toInt) (Operator.add.apply (.int a) (.int b)) ∧
      Exactly (a.toInt - b.toInt) (Operator.sub.apply (.int a) (.int b)) ∧
      Exactly (a.toInt * b.toInt) (Operator.mul.apply (.int a) (.int b)) ∧
      (b = 0 → ∀ op ∈ [Operator.div, .mod],
        ∃ e : Error, op.apply (.int a) (.int b) = .error e ∧ e.kind = .fault) ∧
      (b ≠ 0 →
        Exactly ⌊(a.toInt : ℚ) / b.toInt⌋ (Operator.div.apply (.int a) (.int b)) ∧
        ∃ r : Int64, Operator.mod.apply (.int a) (.int b) = .ok (.int r) ∧
          r.toInt = a.toInt - b.toInt * ⌊(a.toInt : ℚ) / b.toInt⌋ ∧
          (r.toInt = 0 ∨ r.toInt.sign = b.toInt.sign) ∧ r.toInt.natAbs < b.toInt.natAbs) ∧
      Integer.Trapping.div? a b = some (Integer.div a b) ∧
      Integer.Trapping.mod? a b = some (Integer.mod a b) := by
  refine ⟨exactly_exact _ _, exactly_exact _ _, exactly_exact _ _, ?_, ?_,
    Integer.Trapping.div?_eq a b, Integer.Trapping.mod?_eq a b⟩
  · rintro rfl op hop
    refine ⟨.divisionByZero, ?_, rfl⟩
    simp only [List.mem_cons, List.not_mem_nil, or_false] at hop
    obtain rfl | rfl := hop <;> rfl
  · intro hb
    obtain ⟨r, hr, hvalue⟩ := Integer.mod_eq_ok (a := a) hb
    have hmod : Operator.mod.apply (.int a) (.int b) = .ok (.int r) :=
      congrArg (Except.map Value.int) hr
    refine ⟨exactly_floor hb, r, hmod, hvalue, ?_⟩
    exact Integer.remainder_bounds (Integer.toInt_ne_zero hb) hvalue

/-- The least word divided by minus one is the one quotient that is no word. Its remainder is zero.
Divided by zero, the least word has no remainder either. -/
theorem least_by_minus_one :
    (-1 : Int64) ≠ 0 ∧
      (∃ e : Error, Operator.div.apply (.int Int64.minValue) (.int (-1)) = .error e ∧
        e.kind = .fault) ∧
      (∃ r : Int64, Operator.mod.apply (.int Int64.minValue) (.int (-1)) = .ok (.int r) ∧
        r.toInt = 0) ∧
      ∃ e : Error, Operator.mod.apply (.int Int64.minValue) (.int 0) = .error e ∧
        e.kind = .fault := by
  have hb : (-1 : Int64) ≠ 0 := by decide
  obtain ⟨-, -, -, -, hdivision, -⟩ := arithmetic_is_exact Int64.minValue (-1)
  obtain ⟨hquotient, r, hr, -, -, hlt⟩ := hdivision hb
  have hfloor : ⌊(Int64.minValue.toInt : ℚ) / (-1 : Int64).toInt⌋ = 2 ^ 63 :=
    Integer.floor_eq (r := 0) (by decide) (by decide) (by decide)
  obtain ⟨-, -, -, hzero, -⟩ := arithmetic_is_exact Int64.minValue 0
  refine ⟨hb, hquotient.2 ?_, ⟨r, hr, ?_⟩, hzero rfl .mod (by simp)⟩
  · rw [hfloor]
    exact fun h => absurd h.2 (by decide)
  · have hone : (-1 : Int64).toInt.natAbs = 1 := rfl
    omega

end ObjectLang
