import Mathlib
import ObjectLang.Proofs.Spelling

/-!
Numerals with a fraction or an exponent. They are read through binary64 numbers: what is kept of one
is the binary64 number nearest to it, a tie going to the even significand. So an integer written with
a zero fraction or a zero exponent keeps its value where a binary64 number has this value.
-/

namespace ObjectLang

namespace Decimal

/- Rounding to an integer. -/

/-- The rounded quotient is at most a half away, and even if it is a half away. -/
theorem roundHalfEven_error (num : Nat) {den : Nat} (hden : 0 < den) :
    |(num : ℚ) / den - roundHalfEven num den| ≤ 1 / 2 ∧
      (|(num : ℚ) / den - roundHalfEven num den| = 1 / 2 → Even (roundHalfEven num den)) := by
  have hden' : (0 : ℚ) < den := Nat.cast_pos.mpr hden
  have hdef : (num : ℚ) = den * (num / den : Nat) + (num % den : Nat) := by
    exact_mod_cast (Nat.div_add_mod num den).symm
  have hquotient : (num : ℚ) / den = (num / den : Nat) + ((num % den : Nat) : ℚ) / den := by
    nth_rewrite 1 [hdef]
    field_simp
  have hnonneg : (0 : ℚ) ≤ ((num % den : Nat) : ℚ) / den := by positivity
  have hless : 2 * (num % den) < den ↔ ((num % den : Nat) : ℚ) / den < 1 / 2 := by
    rw [div_lt_div_iff₀ hden' two_pos, one_mul, mul_comm]
    exact_mod_cast Iff.rfl
  have hmore : den < 2 * (num % den) ↔ 1 / 2 < ((num % den : Nat) : ℚ) / den := by
    rw [div_lt_div_iff₀ two_pos hden', one_mul, mul_comm _ (2 : ℚ)]
    exact_mod_cast Iff.rfl
  have hlt : ((num % den : Nat) : ℚ) / den < 1 := by
    rw [div_lt_one hden']
    exact_mod_cast Nat.mod_lt num hden
  rw [hquotient]
  generalize ((num % den : Nat) : ℚ) / den = r at *
  unfold roundHalfEven
  dsimp only
  split
  · next h =>
    have hr := hless.mp h
    rw [add_sub_cancel_left, abs_of_nonneg hnonneg]
    exact ⟨hr.le, fun heq => absurd heq hr.ne⟩
  · next hnot =>
    split
    · next h =>
      have hr := hmore.mp h
      push_cast
      rw [add_sub_add_left_eq_sub, abs_of_neg (by linarith)]
      exact ⟨by linarith, fun heq => by linarith⟩
    · next hnot' =>
      have hr : r = 1 / 2 :=
        le_antisymm (not_lt.mp (mt hmore.mpr hnot')) (not_lt.mp (mt hless.mpr hnot))
      split
      · next heven =>
        rw [add_sub_cancel_left, hr]
        exact ⟨by norm_num, fun _ => Nat.even_iff.mpr heven⟩
      · next hodd =>
        push_cast
        rw [add_sub_add_left_eq_sub, hr]
        exact ⟨by norm_num, fun _ => Nat.even_iff.mpr (by omega)⟩

/-- No integer is nearer to the quotient, and at a tie the rounded quotient is even. -/
theorem roundHalfEven_nearest (num : Nat) {den : Nat} (hden : 0 < den) (t : Int) :
    |(num : ℚ) / den - roundHalfEven num den| ≤ |(num : ℚ) / den - t| ∧
      (t ≠ roundHalfEven num den →
        |(num : ℚ) / den - t| = |(num : ℚ) / den - roundHalfEven num den| →
        Even (roundHalfEven num den)) := by
  obtain ⟨herror, heven⟩ := roundHalfEven_error num hden
  by_cases ht : t = roundHalfEven num den
  · subst ht
    exact ⟨le_rfl, fun hne => absurd rfl hne⟩
  · have hapart : (1 : ℚ) ≤ |(roundHalfEven num den : ℚ) - t| := by
      have h : 1 ≤ |(roundHalfEven num den : Int) - t| :=
        Int.one_le_abs (sub_ne_zero.mpr (Ne.symm ht))
      exact_mod_cast h
    have htriangle := abs_sub_le (roundHalfEven num den : ℚ) (num / den) t
    rw [abs_sub_comm _ ((num : ℚ) / den)] at htriangle
    exact ⟨by linarith, fun _ heq => heven (by linarith)⟩

theorem roundHalfEven_le {num den n : Nat} (hden : 0 < den) (h : (num : ℚ) / den ≤ n) :
    roundHalfEven num den ≤ n := by
  by_contra hlt
  have hnear := (roundHalfEven_nearest num hden n).1
  have hlt' : (n : ℚ) < roundHalfEven num den := Nat.cast_lt.mpr (not_le.mp hlt)
  rw [Int.cast_natCast, abs_of_nonpos (by linarith), abs_of_nonpos (by linarith)] at hnear
  linarith

theorem le_roundHalfEven {num den n : Nat} (hden : 0 < den) (h : (n : ℚ) ≤ num / den) :
    n ≤ roundHalfEven num den := by
  by_contra hlt
  have hnear := (roundHalfEven_nearest num hden n).1
  have hlt' : (roundHalfEven num den : ℚ) < n := Nat.cast_lt.mpr (not_le.mp hlt)
  rw [Int.cast_natCast, abs_of_nonneg (by linarith), abs_of_nonneg (by linarith)] at hnear
  linarith

theorem roundHalfEven_mul_left {c : Nat} (hc : 0 < c) (num den : Nat) :
    roundHalfEven (c * num) (c * den) = roundHalfEven num den := by
  have hmod : 2 * (c * num % (c * den)) = c * (2 * (num % den)) := by
    rw [Nat.mul_mod_mul_left, Nat.mul_left_comm]
  simp only [roundHalfEven, Nat.mul_div_mul_left _ _ hc, hmod, Nat.mul_lt_mul_left hc]

/- The exponent of a fraction. -/

theorem shift_div_shift (num den : Nat) (e : Int) :
    ((num <<< (-e).toNat : Nat) : ℚ) / ((den <<< e.toNat : Nat) : ℚ) = num / den * 2 ^ (-e) := by
  rw [Nat.shiftLeft_eq, Nat.shiftLeft_eq]
  push_cast
  obtain h | h := le_total 0 e
  · lift e to Nat using h
    simp only [Int.toNat_natCast, Int.toNat_neg_natCast, zpow_neg, zpow_natCast]
    field_simp
  · obtain ⟨n, rfl⟩ := Int.exists_eq_neg_ofNat h
    simp only [neg_neg, Int.toNat_natCast, Int.toNat_neg_natCast, pow_zero, mul_one, zpow_natCast]
    ring

theorem shift_le_shift {num den : Nat} (hden : 0 < den) (e : Int) :
    den <<< e.toNat ≤ num <<< (-e).toNat ↔ (2 : ℚ) ^ e ≤ num / den := by
  have hpos : (0 : ℚ) < (den <<< e.toNat : Nat) := by
    rw [Nat.shiftLeft_eq]
    positivity
  rw [← Nat.cast_le (α := ℚ), ← one_le_div hpos, shift_div_shift, zpow_neg,
    ← div_eq_mul_inv, one_le_div (zpow_pos two_pos e)]

theorem binaryExponent_bounds {num den : Nat} (hnum : 0 < num) (hden : 0 < den) :
    (2 : ℚ) ^ binaryExponent num den ≤ num / den ∧
      (num : ℚ) / den < 2 ^ (binaryExponent num den + 1) := by
  have hden' : (0 : ℚ) < den := Nat.cast_pos.mpr hden
  have hnumLow : (2 : ℚ) ^ (num.log2 : Int) ≤ num := by
    exact_mod_cast Nat.log2_self_le hnum.ne'
  have hnumHigh : (num : ℚ) < 2 ^ ((num.log2 : Int) + 1) := by
    exact_mod_cast Nat.lt_log2_self (n := num)
  have hdenLow : (2 : ℚ) ^ (den.log2 : Int) ≤ den := by
    exact_mod_cast Nat.log2_self_le hden.ne'
  have hdenHigh : (den : ℚ) < 2 ^ ((den.log2 : Int) + 1) := by
    exact_mod_cast Nat.lt_log2_self (n := den)
  have hlow : (2 : ℚ) ^ ((num.log2 : Int) - den.log2 - 1) ≤ num / den := by
    rw [sub_sub, zpow_sub₀ two_ne_zero]
    exact div_le_div₀ (by positivity) hnumLow hden' hdenHigh.le
  have hhigh : (num : ℚ) / den < 2 ^ ((num.log2 : Int) - den.log2 + 1) := by
    rw [sub_add_eq_add_sub, zpow_sub₀ two_ne_zero]
    exact div_lt_div₀ hnumHigh hdenLow (by positivity) (by positivity)
  unfold binaryExponent
  dsimp only
  split
  · next h => exact ⟨(shift_le_shift hden _).mp h, hhigh⟩
  · next h =>
    rw [sub_add_cancel]
    exact ⟨hlow, not_le.mp (mt (shift_le_shift hden _).mpr h)⟩

theorem exponent_unique {k l : Int} {q : ℚ} (hk : (2 : ℚ) ^ k ≤ q ∧ q < 2 ^ (k + 1))
    (hl : (2 : ℚ) ^ l ≤ q ∧ q < 2 ^ (l + 1)) : k = l := by
  have hkl := (zpow_lt_zpow_iff_right₀ one_lt_two).mp (hk.1.trans_lt hl.2)
  have hlk := (zpow_lt_zpow_iff_right₀ one_lt_two).mp (hl.1.trans_lt hk.2)
  omega

theorem binaryExponent_mul_left {c num den : Nat} (hc : 0 < c) (hnum : 0 < num) (hden : 0 < den) :
    binaryExponent (c * num) (c * den) = binaryExponent num den := by
  have hscaled := binaryExponent_bounds (Nat.mul_pos hc hnum) (Nat.mul_pos hc hden)
  have hcancel : ((c * num : Nat) : ℚ) / (c * den : Nat) = num / den := by
    push_cast
    exact mul_div_mul_left _ _ (Nat.cast_ne_zero.mpr hc.ne')
  rw [hcancel] at hscaled
  exact exponent_unique hscaled (binaryExponent_bounds hnum hden)

/- Binary64 numbers. -/

namespace Binary64

/-- A significand and an exponent as they are stored: the significand has 53 bits, or the exponent is
the least one. -/
structure Stored (s e : Int) : Prop where
  fits : |s| < 2 ^ 53
  least : -1074 ≤ e
  greatest : e ≤ 971
  normal : 2 ^ 52 ≤ |s| ∨ e = -1074

def IsNumber (x : ℚ) : Prop := ∃ s e : Int, Stored s e ∧ x = s * 2 ^ e

def HasEvenSignificand (x : ℚ) : Prop := ∃ s e : Int, Stored s e ∧ Even s ∧ x = s * 2 ^ e

/-- Rounding to the nearest number, of two such numbers to the one with the even significand. -/
structure Rounds (q x : ℚ) : Prop where
  isNumber : IsNumber x
  nearest : ∀ y, IsNumber y → |q - x| ≤ |q - y|
  even_of_tie : ∀ y, IsNumber y → y ≠ x → |q - y| = |q - x| → HasEvenSignificand x

theorem Stored.neg {s e : Int} (h : Stored s e) : Stored (-s) e :=
  ⟨(abs_neg s).trans_lt h.fits, h.least, h.greatest, h.normal.imp_left fun hs => (abs_neg s).symm ▸ hs⟩

theorem IsNumber.neg {x : ℚ} (h : IsNumber x) : IsNumber (-x) := by
  obtain ⟨s, e, hs, rfl⟩ := h
  exact ⟨-s, e, hs.neg, by push_cast; ring⟩

theorem HasEvenSignificand.neg {x : ℚ} (h : HasEvenSignificand x) : HasEvenSignificand (-x) := by
  obtain ⟨s, e, hs, heven, rfl⟩ := h
  exact ⟨-s, e, hs.neg, heven.neg, by push_cast; ring⟩

theorem Rounds.neg {q x : ℚ} (h : Rounds q x) : Rounds (-q) (-x) := by
  have hflip : ∀ y, |-q - y| = |q - -y| := fun y => by
    rw [← abs_neg]
    congr 1
    ring
  refine ⟨h.isNumber.neg, fun y hy => ?_, fun y hy hne heq => ?_⟩
  · rw [hflip, hflip, neg_neg]
    exact h.nearest _ hy.neg
  · rw [hflip, hflip, neg_neg] at heq
    exact (h.even_of_tie _ hy.neg (fun h => hne (neg_eq_iff_eq_neg.mp h)) heq).neg

/-- A number is rounded to itself. -/
theorem Rounds.eq_of_isNumber {q x : ℚ} (h : Rounds q x) (hq : IsNumber q) : x = q := by
  have hzero := h.nearest q hq
  rw [sub_self, abs_zero] at hzero
  exact (sub_eq_zero.mp (abs_nonpos_iff.mp hzero)).symm

theorem rounds_self {x : ℚ} (h : IsNumber x) : Rounds x x := by
  refine ⟨h, fun y _ => ?_, fun y _ hne heq => ?_⟩
  · rw [sub_self, abs_zero]
    exact abs_nonneg _
  · rw [sub_self, abs_zero] at heq
    exact absurd (sub_eq_zero.mp (abs_eq_zero.mp heq)).symm hne

theorem isNumber_zero : IsNumber 0 :=
  ⟨0, -1074, ⟨by decide, by decide, by decide, .inr rfl⟩, by simp⟩

/- Numbers with one exponent. -/

theorem abs_sub_mul_zpow (x y : ℚ) (e : Int) : |x * 2 ^ e - y * 2 ^ e| = |x - y| * 2 ^ e := by
  have hpos : (0 : ℚ) < 2 ^ e := zpow_pos two_pos e
  rw [← sub_mul, abs_mul, abs_of_pos hpos]

/-- A number with a smaller exponent is below the numbers with 53 bits and this exponent. -/
theorem Stored.abs_lt {s e f : Int} (h : Stored s f) (hf : f < e) :
    |(s : ℚ) * 2 ^ f| < 2 ^ 52 * 2 ^ e := by
  have hs : |(s : ℚ)| < 2 ^ 53 := by exact_mod_cast h.fits
  have hpos : (0 : ℚ) < 2 ^ f := zpow_pos two_pos f
  calc |(s : ℚ) * 2 ^ f| = |(s : ℚ)| * 2 ^ f := by rw [abs_mul, abs_of_pos hpos]
    _ < 2 ^ 53 * 2 ^ f := mul_lt_mul_of_pos_right hs hpos
    _ = 2 ^ 52 * 2 ^ (f + 1) := by
        rw [zpow_add_one₀ two_ne_zero]
        ring
    _ ≤ 2 ^ 52 * 2 ^ e :=
        mul_le_mul_of_nonneg_left (zpow_le_zpow_right₀ one_le_two (by omega)) (by positivity)

/-- A significand with a greater exponent is a multiple of the power of two. -/
theorem exists_eq_mul_zpow (s : Int) {e f : Int} (hf : e ≤ f) :
    ∃ t : Int, (s : ℚ) * 2 ^ f = t * 2 ^ e := by
  obtain ⟨n, rfl⟩ := Int.le.dest hf
  refine ⟨s * 2 ^ n, ?_⟩
  rw [zpow_add₀ two_ne_zero, zpow_natCast]
  push_cast
  ring

section Grid

variable {a b : Nat} {e : Int}

/-- No number is nearer than the one that rounding the significand gives. -/
theorem grid_nearest (hb : 0 < b)
    (hnormal : (2 : ℚ) ^ 52 ≤ a / b ∨ e = -1074) {y : ℚ} (hy : IsNumber y) :
    |(a : ℚ) / b * 2 ^ e - roundHalfEven a b * 2 ^ e| ≤ |(a : ℚ) / b * 2 ^ e - y| ∧
      (y ≠ roundHalfEven a b * 2 ^ e →
        |(a : ℚ) / b * 2 ^ e - y| = |(a : ℚ) / b * 2 ^ e - roundHalfEven a b * 2 ^ e| →
        Even (roundHalfEven a b)) := by
  have hpos : (0 : ℚ) < 2 ^ e := zpow_pos two_pos e
  obtain ⟨s, f, hs, rfl⟩ := hy
  obtain hf | hf := lt_or_ge f e
  · -- The least number with this exponent lies between the two.
    have hmin : (2 : ℚ) ^ 52 ≤ a / b := hnormal.resolve_right (by have := hs.least; omega)
    have hbelow := (le_abs_self _).trans_lt (hs.abs_lt hf)
    have habove := mul_le_mul_of_nonneg_right hmin hpos.le
    have hnear := (roundHalfEven_nearest a hb (2 ^ 52)).1
    rw [Int.cast_pow, Int.cast_ofNat, abs_of_nonneg (sub_nonneg.mpr hmin)] at hnear
    have hstrict : |(a : ℚ) / b * 2 ^ e - roundHalfEven a b * 2 ^ e| <
        |(a : ℚ) / b * 2 ^ e - s * 2 ^ f| := by
      calc |(a : ℚ) / b * 2 ^ e - roundHalfEven a b * 2 ^ e|
          = |(a : ℚ) / b - roundHalfEven a b| * 2 ^ e := abs_sub_mul_zpow _ _ e
        _ ≤ ((a : ℚ) / b - 2 ^ 52) * 2 ^ e := mul_le_mul_of_nonneg_right hnear hpos.le
        _ = (a : ℚ) / b * 2 ^ e - 2 ^ 52 * 2 ^ e := sub_mul _ _ _
        _ < (a : ℚ) / b * 2 ^ e - s * 2 ^ f := by linarith
        _ ≤ _ := le_abs_self _
    exact ⟨hstrict.le, fun _ heq => absurd heq hstrict.ne'⟩
  · obtain ⟨t, ht⟩ := exists_eq_mul_zpow s hf
    obtain ⟨hnear, htie⟩ := roundHalfEven_nearest a hb t
    rw [ht, abs_sub_mul_zpow, abs_sub_mul_zpow]
    refine ⟨mul_le_mul_of_nonneg_right hnear hpos.le, fun hne heq => htie ?_ ?_⟩
    · rintro rfl
      exact hne (by push_cast; rfl)
    · exact mul_right_cancel₀ hpos.ne' heq

/-- A significand that is rounded up to one more bit moves on to the next exponent. -/
theorem stored_of_rounded {s : Nat} (hle : s ≤ 2 ^ 53) (hleast : -1074 ≤ e)
    (hnormal : 2 ^ 52 ≤ s ∨ e = -1074) (hfinite : s <<< e.toNat < 1 <<< 1024) :
    Stored s e ∨ s = 2 ^ 53 ∧ Stored (2 ^ 52) (e + 1) := by
  have hexponent : ∀ n, 2 ^ n ≤ s → n + e.toNat < 1024 := fun n hn => by
    rw [Nat.shiftLeft_eq, Nat.one_shiftLeft] at hfinite
    refine (Nat.pow_lt_pow_iff_right (a := 2) (by decide)).mp ?_
    rw [Nat.pow_add]
    exact (Nat.mul_le_mul_right _ hn).trans_lt hfinite
  obtain hlt | rfl := hle.lt_or_eq
  · refine .inl ⟨by rw [Nat.abs_cast]; exact_mod_cast hlt, hleast, ?_, ?_⟩
    · obtain hs | he := hnormal
      · have := hexponent 52 hs
        omega
      · omega
    · rw [Nat.abs_cast]
      exact_mod_cast hnormal
  · have := hexponent 53 le_rfl
    exact .inr ⟨rfl, by decide, by omega, by omega, .inl (by decide)⟩

theorem grid_rounds (hb : 0 < b) (hleast : -1074 ≤ e) (hhigh : (a : ℚ) / b ≤ 2 ^ 53)
    (hnormal : (2 : ℚ) ^ 52 ≤ a / b ∨ e = -1074)
    (hfinite : roundHalfEven a b <<< e.toNat < 1 <<< 1024) :
    Rounds (a / b * 2 ^ e) (roundHalfEven a b * 2 ^ e) := by
  have hle : roundHalfEven a b ≤ 2 ^ 53 := roundHalfEven_le hb (by exact_mod_cast hhigh)
  have hge : 2 ^ 52 ≤ roundHalfEven a b ∨ e = -1074 :=
    hnormal.imp_left fun h => le_roundHalfEven hb (by exact_mod_cast h)
  have hcarry : ((2 : ℚ) ^ 53) * 2 ^ e = 2 ^ 52 * 2 ^ (e + 1) := by
    rw [zpow_add_one₀ two_ne_zero]
    ring
  have hstored := stored_of_rounded hle hleast hge hfinite
  refine ⟨?_, fun y hy => (grid_nearest hb hnormal hy).1, fun y hy hne heq => ?_⟩
  · obtain hs | ⟨hs, hs'⟩ := hstored
    · exact ⟨_, e, hs, by push_cast; rfl⟩
    · exact ⟨_, e + 1, hs', by rw [hs]; push_cast; exact hcarry⟩
  · obtain hs | ⟨hs, hs'⟩ := hstored
    · have heven := (grid_nearest hb hnormal hy).2 hne heq
      exact ⟨_, e, hs, by exact_mod_cast heven, by push_cast; rfl⟩
    · exact ⟨_, e + 1, hs', by decide, by rw [hs]; push_cast; exact hcarry⟩

end Grid

/- The number nearest to a fraction. -/

def value (x : Binary64) : ℚ := x.significand * 2 ^ x.exponent

/-- The significand is a fraction with 53 bits, rounded to an integer. -/
theorem nearest_eq {num den : Nat} (hnum : 0 < num) (hden : 0 < den) :
    ∃ (e : Int) (a b : Nat), nearest num den = ⟨roundHalfEven a b, e⟩ ∧ 0 < b ∧
      (a : ℚ) / b * 2 ^ e = num / den ∧ -1074 ≤ e ∧ (a : ℚ) / b ≤ 2 ^ 53 ∧
      ((2 : ℚ) ^ 52 ≤ a / b ∨ e = -1074) := by
  obtain ⟨hlow, hhigh⟩ := binaryExponent_bounds hnum hden
  generalize hk : binaryExponent num den = k at hlow hhigh
  obtain ⟨e, he, hleast, hk, hnormal⟩ : ∃ e : Int,
      nearest num den = ⟨roundHalfEven (num <<< (-e).toNat) (den <<< e.toNat), e⟩ ∧
        -1074 ≤ e ∧ k ≤ e + 52 ∧ (k = e + 52 ∨ e = -1074) := by
    simp only [nearest, if_neg hnum.ne', hk]
    split
    · exact ⟨_, rfl, by omega⟩
    · exact ⟨_, rfl, by omega⟩
  have hpos : (0 : ℚ) < 2 ^ e := zpow_pos two_pos e
  have hgrid : ((num <<< (-e).toNat : Nat) : ℚ) / ((den <<< e.toNat : Nat) : ℚ) * 2 ^ e =
      num / den := by
    rw [shift_div_shift, zpow_neg, inv_mul_cancel_right₀ hpos.ne']
  have hb : 0 < den <<< e.toNat := by
    rw [Nat.shiftLeft_eq]
    positivity
  rw [← hgrid] at hlow hhigh
  refine ⟨e, _, _, he, hb, hgrid, hleast, ?_, ?_⟩
  · refine (lt_of_mul_lt_mul_right (hhigh.trans_le ?_) hpos.le).le
    calc (2 : ℚ) ^ (k + 1) ≤ 2 ^ (53 + e) := zpow_le_zpow_right₀ one_le_two (by omega)
      _ = 2 ^ 53 * 2 ^ e := zpow_add₀ two_ne_zero 53 e
  · refine hnormal.imp_left fun hk => le_of_mul_le_mul_right (le_trans ?_ hlow) hpos
    rw [hk, add_comm, zpow_add₀ two_ne_zero]
    exact le_rfl

/-- A fraction is rounded correctly, unless this leads beyond all finite numbers. -/
theorem nearest_rounds (num : Nat) {den : Nat} (hden : 0 < den)
    (hfinite : (nearest num den).isFinite = true) :
    Rounds (num / den) (nearest num den).value := by
  obtain rfl | hnum := Nat.eq_zero_or_pos num
  · have hzero : (nearest 0 den).value = 0 := by simp [nearest, value]
    rw [hzero, Nat.cast_zero, zero_div]
    exact rounds_self isNumber_zero
  · obtain ⟨e, a, b, he, hb, hgrid, hleast, hhigh, hnormal⟩ := nearest_eq hnum hden
    rw [he] at hfinite ⊢
    rw [← hgrid]
    exact grid_rounds hb hleast hhigh hnormal (of_decide_eq_true hfinite)

theorem isFinite_nearest {num den : Nat} (hden : 0 < den) (h : (num : ℚ) / den < 2 ^ 64) :
    (nearest num den).isFinite = true := by
  obtain rfl | hnum := Nat.eq_zero_or_pos num
  · simp [nearest, isFinite]
  · obtain ⟨e, a, b, he, hb, hgrid, hleast, hhigh, hnormal⟩ := nearest_eq hnum hden
    have hs : roundHalfEven a b ≤ 2 ^ 53 := roundHalfEven_le hb (by exact_mod_cast hhigh)
    have hexponent : e.toNat ≤ 11 := by
      obtain hnormal | rfl := hnormal
      · have hpow : (2 : ℚ) ^ (52 + e) < 2 ^ (64 : Int) := by
          rw [zpow_add₀ two_ne_zero]
          refine (mul_le_mul_of_nonneg_right hnormal (zpow_pos two_pos e).le).trans_lt ?_
          rw [hgrid]
          exact h
        have := (zpow_lt_zpow_iff_right₀ one_lt_two).mp hpow
        omega
      · decide
    have hbits : 53 + e.toNat < 1024 := by omega
    have hpow := (Nat.pow_lt_pow_iff_right (a := 2) (by decide)).mpr hbits
    rw [Nat.pow_add] at hpow
    rw [he, isFinite, decide_eq_true_iff, Nat.shiftLeft_eq, Nat.one_shiftLeft]
    exact (Nat.mul_le_mul_right _ hs).trans_lt hpow

theorem nearest_mul_left {c num den : Nat} (hc : 0 < c) (hden : 0 < den) :
    nearest (c * num) (c * den) = nearest num den := by
  obtain rfl | hnum := Nat.eq_zero_or_pos num
  · rfl
  · have hne : c * num ≠ 0 := (Nat.mul_pos hc hnum).ne'
    simp only [nearest, if_neg hne, if_neg hnum.ne', binaryExponent_mul_left hc hnum hden,
      Nat.shiftLeft_eq, Nat.mul_assoc, roundHalfEven_mul_left hc]

/-- The number nearest to an integer is an integer. -/
theorem value_nearest_one (m : Nat) : (nearest m 1).value = (nearest m 1).truncate := by
  unfold nearest
  split
  · simp [value, truncate]
  · dsimp only
    generalize (if binaryExponent m 1 - 52 < -1074 then -1074 else binaryExponent m 1 - 52) = e
    obtain he | he := le_total 0 e
    · lift e to Nat using he
      simp [value, truncate, Nat.shiftLeft_eq]
    · obtain ⟨n, rfl⟩ := Int.exists_eq_neg_ofNat he
      have hexact : ∀ k, roundHalfEven k 1 = k := fun k => by simp [roundHalfEven, Nat.mod_one]
      simp [value, truncate, hexact, Nat.shiftLeft_eq, Nat.shiftRight_eq_div_pow]

/- Integers. -/

/-- The integers of up to 53 bits, and the next one, are numbers. -/
theorem isNumber_intCast {z : Int} (h : z.natAbs ≤ 2 ^ 53) : IsNumber z := by
  obtain hlt | heq := h.lt_or_eq
  · obtain rfl | hz := eq_or_ne z 0
    · simpa using isNumber_zero
    · -- As many bits are appended as are missing.
      have hne : z.natAbs ≠ 0 := Int.natAbs_ne_zero.mpr hz
      obtain ⟨n, hn⟩ := Nat.exists_eq_add_of_le (Nat.le_of_lt_succ ((Nat.log2_lt hne).mpr hlt))
      have hlow : 2 ^ 52 ≤ z.natAbs * 2 ^ n := by
        rw [hn, Nat.pow_add]
        exact Nat.mul_le_mul_right _ (Nat.log2_self_le hne)
      have hhigh : z.natAbs * 2 ^ n < 2 ^ 53 := by
        have hbits : 53 = z.natAbs.log2 + 1 + n := by omega
        rw [hbits, Nat.pow_add]
        exact Nat.mul_lt_mul_of_pos_right Nat.lt_log2_self (Nat.two_pow_pos n)
      have habs : |z * 2 ^ n| = (z.natAbs * 2 ^ n : Nat) := by
        rw [abs_mul, abs_of_pos (by positivity : (0 : Int) < 2 ^ n)]
        push_cast
        rfl
      have hfits : Stored (z * 2 ^ n) (-n) :=
        ⟨by rw [habs]; exact_mod_cast hhigh, by omega, by omega,
          .inl (by rw [habs]; exact_mod_cast hlow)⟩
      refine ⟨_, _, hfits, ?_⟩
      push_cast
      rw [zpow_neg, zpow_natCast, mul_inv_cancel_right₀ (by positivity)]
  · obtain rfl | rfl : z = 2 ^ 53 ∨ z = -2 ^ 53 := by omega
    · exact ⟨2 ^ 52, 1, ⟨by decide, by decide, by decide, .inl (by decide)⟩, by norm_num⟩
    · exact ⟨-2 ^ 52, 1, ⟨by decide, by decide, by decide, .inl (by decide)⟩, by norm_num⟩

def ofInteger (z : Int) : Int := signed (decide (z < 0)) (nearest z.natAbs 1).truncate

theorem rounds_ofInteger {z : Int} (hz : z.natAbs < 2 ^ 64) : Rounds z (ofInteger z) := by
  have hfinite : (nearest z.natAbs 1).isFinite = true := by
    refine isFinite_nearest one_pos ?_
    rw [Nat.cast_one, div_one]
    exact_mod_cast hz
  have hrounds := nearest_rounds z.natAbs one_pos hfinite
  rw [Nat.cast_one, div_one, value_nearest_one] at hrounds
  obtain hneg | hnonneg := lt_or_ge z 0
  · have habs : ((z.natAbs : Nat) : ℚ) = -z := by
      rw [← Int.cast_natCast, Int.ofNat_natAbs_of_nonpos hneg.le, Int.cast_neg]
    have hneg' := hrounds.neg
    rw [habs, neg_neg] at hneg'
    rw [ofInteger, decide_eq_true hneg]
    exact_mod_cast hneg'
  · have habs : ((z.natAbs : Nat) : ℚ) = z := by
      rw [← Int.cast_natCast, Int.natAbs_of_nonneg hnonneg]
    rw [habs] at hrounds
    rw [ofInteger, decide_eq_false (not_lt.mpr hnonneg)]
    exact_mod_cast hrounds

end Binary64

/- Numerals with a zero fraction or a zero exponent. -/

theorem ofDigits_concat (cs : List Char) (c : Char) :
    ofDigits (cs ++ [c]) = 10 * ofDigits cs + digitValue c := by
  simp [ofDigits]

theorem takeWhile_toDigits (n : Nat) {c : Char} (hc : c.isDigit = false) (rest : List Char) :
    (Nat.toDigits 10 n ++ c :: rest).takeWhile Char.isDigit = Nat.toDigits 10 n := by
  rw [List.takeWhile_append_of_pos fun _ h => isDigit_of_mem h]
  simp [hc]

theorem dropWhile_toDigits (n : Nat) {c : Char} (hc : c.isDigit = false) (rest : List Char) :
    (Nat.toDigits 10 n ++ c :: rest).dropWhile Char.isDigit = c :: rest := by
  rw [List.dropWhile_append_of_pos fun _ h => isDigit_of_mem h]
  simp [hc]

theorem word?_eq_none (z : Int) {c : Char} (hc : c.isDigit = false) (rest : List Char) :
    word? (numeral z ++ c :: rest) = none := by
  have hall : (Nat.toDigits 10 z.natAbs ++ c :: rest).all Char.isDigit = false := by
    simp [hc]
  simp [word?, integer?, splitSign_numeral, natural?, hall]

namespace Scientific

theorem ofChars?_fraction (z : Int) :
    ofChars? (numeral z ++ ['.', '0']) = some ⟨decide (z < 0), 10 * z.natAbs, -1⟩ := by
  have hpoint : '.'.isDigit = false := rfl
  simp only [ofChars?, splitSign_numeral, takeWhile_toDigits _ hpoint, dropWhile_toDigits _ hpoint]
  simp [splitFraction, exponent?, ofDigits_concat, ofDigits_toDigits, digitValue]

theorem ofChars?_exponent (z : Int) :
    ofChars? (numeral z ++ ['e', '0']) = some ⟨decide (z < 0), z.natAbs, 0⟩ := by
  have hletter : 'e'.isDigit = false := rfl
  have hzero : integer? ['0'] = some 0 := rfl
  simp only [ofChars?, splitSign_numeral, takeWhile_toDigits _ hletter, dropWhile_toDigits _ hletter]
  simp [splitFraction, exponent?, hzero, ofDigits_toDigits, Nat.toDigits_ne_nil]

/-- Powers of ten that are moderate are written out. -/
theorem wholePart?_eq {x : Scientific} {m c : Nat} (hc : 0 < c)
    (hnum : x.mantissa * tenTo x.exponent = c * m) (hden : tenTo (-x.exponent) = c * 1)
    (hlow : 0 ≤ x.magnitude) (hhigh : x.magnitude ≤ 309) (hm : m < 2 ^ 64) :
    x.wholePart? = some (Binary64.nearest m 1).truncate := by
  have hfinite : (Binary64.nearest m 1).isFinite = true := by
    refine Binary64.isFinite_nearest one_pos ?_
    rw [Nat.cast_one, div_one]
    exact_mod_cast hm
  unfold wholePart?
  rw [hnum, hden, Binary64.nearest_mul_left hc one_pos]
  by_cases hmantissa : x.mantissa = 0
  · have hzero : m = 0 := by
      rw [hmantissa, Nat.zero_mul] at hnum
      exact (Nat.mul_eq_zero.mp hnum.symm).resolve_left hc.ne'
    subst hzero
    simp [hmantissa, Binary64.nearest, Binary64.truncate]
  · simp [hmantissa, not_lt.mpr hlow, not_lt.mpr hhigh, hfinite]

theorem magnitude_bounds (negative : Bool) {m : Nat} (e : Int) (h : m < 10 ^ 21) :
    1 + e ≤ magnitude ⟨negative, m, e⟩ ∧ magnitude ⟨negative, m, e⟩ ≤ 21 + e := by
  have hpos : 0 < (Nat.toDigits 10 m).length := List.length_pos_of_ne_nil Nat.toDigits_ne_nil
  have hlength : (Nat.toDigits 10 m).length ≤ 21 :=
    (Nat.length_toDigits_le_iff (by decide) (by decide)).mpr h
  unfold magnitude
  dsimp only
  omega

theorem truncate?_fraction {z : Int} (hz : z.natAbs < 2 ^ 64) :
    truncate? ⟨decide (z < 0), 10 * z.natAbs, -1⟩ = some (Binary64.ofInteger z) := by
  obtain ⟨hlow, hhigh⟩ := magnitude_bounds (decide (z < 0)) (m := 10 * z.natAbs) (-1) (by omega)
  have hnum : 10 * z.natAbs * tenTo (-1) = 10 * z.natAbs := Nat.mul_one _
  rw [truncate?, wholePart?_eq (by decide) hnum rfl (by omega) (by omega) hz]
  rfl

theorem truncate?_exponent {z : Int} (hz : z.natAbs < 2 ^ 64) :
    truncate? ⟨decide (z < 0), z.natAbs, 0⟩ = some (Binary64.ofInteger z) := by
  obtain ⟨hlow, hhigh⟩ := magnitude_bounds (decide (z < 0)) (m := z.natAbs) 0 (by omega)
  have hnum : z.natAbs * tenTo 0 = 1 * z.natAbs := Nat.mul_comm _ _
  rw [truncate?, wholePart?_eq (by decide) hnum rfl (by omega) (by omega) hz]
  rfl

end Scientific

end Decimal

namespace Literal

theorem ofToken?_append {n : Int64} {c : Char} {rest : List Char} {suffix : String}
    (hsuffix : suffix.toList = c :: rest) (hc : c.isDigit = false) {x : Decimal.Scientific} {z : Int}
    (hx : Decimal.Scientific.ofChars? (Decimal.numeral n.toInt ++ c :: rest) = some x)
    (hz : x.truncate? = some z) :
    ofToken? (Integer.render n ++ suffix) = some (.int (Integer.saturate z)) := by
  have hlooks := looksNumeric_numeral n.toInt (c :: rest)
  rw [ofToken?, String.toList_append, Decimal.toList_render, hsuffix,
    ofChars?_of_looksNumeric hlooks]
  simp only [number?, hlooks, if_true, Decimal.word?_eq_none _ hc, hx, Option.bind_some, hz,
    Option.map_some]

theorem ofToken?_fraction (n : Int64) :
    ofToken? (Integer.render n ++ ".0") =
      some (.int (Integer.saturate (Decimal.Binary64.ofInteger n.toInt))) :=
  ofToken?_append (c := '.') rfl rfl (Decimal.Scientific.ofChars?_fraction _)
    (Decimal.Scientific.truncate?_fraction (Integer.natAbs_toInt_lt n))

theorem ofToken?_exponent (n : Int64) :
    ofToken? (Integer.render n ++ "e0") =
      some (.int (Integer.saturate (Decimal.Binary64.ofInteger n.toInt))) :=
  ofToken?_append (c := 'e') rfl rfl (Decimal.Scientific.ofChars?_exponent _)
    (Decimal.Scientific.truncate?_exponent (Integer.natAbs_toInt_lt n))

end Literal

namespace Integer

theorem saturate_toInt (n : Int64) : saturate n.toInt = n := by
  have hn := inRange_toInt n
  unfold InRange at hn
  rw [saturate, if_neg (by omega), if_neg (by omega), Int64.ofInt_toInt]

/-- Only the greatest word comes from a number with another value. -/
theorem saturate_rounded {n : Int64} :
    saturate (Decimal.Binary64.ofInteger n.toInt) = n ↔
      Decimal.Binary64.IsNumber n.toInt ∨ n = Int64.maxValue := by
  have hrounds := Decimal.Binary64.rounds_ofInteger (Integer.natAbs_toInt_lt n)
  constructor
  · intro h
    unfold saturate at h
    split at h
    · -- The least word is a power of two.
      refine .inl ⟨-2 ^ 52, 11, ⟨by decide, by decide, by decide, .inl (by decide)⟩, ?_⟩
      have hleast : n.toInt = -2 ^ 63 := h ▸ rfl
      rw [hleast]
      norm_num
    · split at h
      · exact .inr h.symm
      · have hword : n.toInt = Decimal.Binary64.ofInteger n.toInt := by
          nth_rewrite 1 [← h]
          exact toInt_ofInt ⟨by omega, by omega⟩
        have hnumber := hrounds.isNumber
        rw [← hword] at hnumber
        exact .inl hnumber
  · rintro (hn | rfl)
    · have heq := hrounds.eq_of_isNumber hn
      rw [Int.cast_inj] at heq
      rw [heq, saturate_toInt]
    · decide +kernel

end Integer

/-- An integer may be written with a zero fraction or a zero exponent, and both are then read alike: as
the binary64 number nearest to the integer, of two such numbers the one with the even significand, or
the nearest word if that is no word. This is the integer itself just where it is a binary64 number,
as every integer of up to 53 bits is, or the greatest word. -/
theorem zero_fraction_rounds (n : Int64) :
    Literal.ofToken? (Integer.render n) = some (.int n) ∧
      (∃ z : Int, Decimal.Binary64.Rounds n.toInt z ∧
        Literal.ofToken? (Integer.render n ++ ".0") = some (.int (Integer.saturate z)) ∧
        Literal.ofToken? (Integer.render n ++ "e0") = some (.int (Integer.saturate z)) ∧
        (Integer.saturate z = n ↔
          Decimal.Binary64.IsNumber n.toInt ∨ n = Int64.maxValue)) ∧
      (n.toInt.natAbs ≤ 2 ^ 53 → Decimal.Binary64.IsNumber n.toInt) := by
  have hrounds := Decimal.Binary64.rounds_ofInteger (Integer.natAbs_toInt_lt n)
  exact ⟨Literal.ofToken?_render n, ⟨_, hrounds, Literal.ofToken?_fraction n,
    Literal.ofToken?_exponent n, Integer.saturate_rounded⟩, Decimal.Binary64.isNumber_intCast⟩

theorem zero_fraction_of_54_bits :
    (-9007199254740992 : Int64).toInt.natAbs ≤ 2 ^ 53 ∧
      Literal.ofToken? "-9007199254740992.0" = some (.int (-9007199254740992)) := by
  obtain ⟨-, ⟨z, -, hfraction, -, hsame⟩, hnumber⟩ := zero_fraction_rounds (-9007199254740992)
  have hbits : (-9007199254740992 : Int64).toInt.natAbs ≤ 2 ^ 53 := by decide
  have htoken : Integer.render (-9007199254740992) ++ ".0" = "-9007199254740992.0" := by decide
  rw [hsame.mpr (.inl (hnumber hbits)), htoken] at hfraction
  exact ⟨hbits, hfraction⟩

/-- The first integer that is no binary64 number lies between two of them. -/
theorem zero_fraction_may_change_the_value :
    Literal.ofToken? "9007199254740993" = some (.int 9007199254740993) ∧
      Literal.ofToken? "9007199254740993.0" = some (.int 9007199254740992) ∧
      Literal.ofToken? "9007199254740993e0" = some (.int 9007199254740992) :=
  ⟨rfl, rfl, rfl⟩

end ObjectLang
