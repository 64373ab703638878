import Mathlib.Tactic.Ring
import ActionChain.Number.Decimal

/-!
Decimals read back. Rounding only depends on the ratio of what is rounded, so trailing zeros do not
change what a decimal reads as, and the decimal that a finite double is written as reads as this
double again.
-/
namespace ActionChain

section Rounding

theorem roundHalfEven_scale {c : Nat} (positive : 0 < c) (num den : Nat) :
    roundHalfEven (c * num) (c * den) = roundHalfEven num den := by
  have less : ∀ a b : Nat, c * a < c * b ↔ a < b := fun a b => Nat.mul_lt_mul_left positive
  simp only [roundHalfEven, Nat.mul_div_mul_left num den positive, Nat.mul_mod_mul_left,
    Nat.mul_left_comm 2 c, less]

theorem roundHalfEven_whole {den : Nat} (positive : 0 < den) (n : Nat) :
    roundHalfEven (n * den) den = n := by
  simp [roundHalfEven, Nat.mul_div_cancel n positive, positive]

end Rounding

namespace Binary64

theorem nearest_scale {c : Nat} (positive : 0 < c) (num den : Nat) :
    nearest (c * num) (c * den) = nearest num den := by
  simp only [nearest, Nat.mul_div_mul_left num den positive, Nat.mul_assoc,
    roundHalfEven_scale positive]

/-- A significand of at most 53 bits is kept as it is. -/
theorem nearest_significand {k n : Nat} (most : n < 2 ^ 53) (least : k = 0 ∨ 2 ^ 52 ≤ n) :
    nearest (n * 2 ^ k) 1 = min (k * 2 ^ 52 + n) infinite := by
  have shift : (n * 2 ^ k).log2 - 52 = k := by
    rcases Nat.eq_zero_or_pos n with rfl | positive
    · rcases least with rfl | least
      · rfl
      · simp at least
    · have nonzero : n * 2 ^ k ≠ 0 := Nat.ne_of_gt (Nat.mul_pos positive (Nat.two_pow_pos k))
      have upper : (n * 2 ^ k).log2 < 53 + k := by
        rw [Nat.log2_lt nonzero, Nat.pow_add]
        exact Nat.mul_lt_mul_of_pos_right most (Nat.two_pow_pos k)
      rcases least with rfl | least
      · omega
      · have lower : 52 + k ≤ (n * 2 ^ k).log2 := by
          rw [Nat.le_log2 nonzero, Nat.pow_add]
          exact Nat.mul_le_mul_right _ least
        omega
  simp only [nearest, Nat.div_one, shift, Nat.one_mul, roundHalfEven_whole (Nat.two_pow_pos k)]

theorem nearest_units {m : Nat} (finite : m < infinite) : nearest (units m) 1 = m := by
  have split : 2 ^ 52 * (m / 2 ^ 52) + m % 2 ^ 52 = m := Nat.div_add_mod m (2 ^ 52)
  have small : m % 2 ^ 52 < 2 ^ 52 := Nat.mod_lt m (Nat.two_pow_pos 52)
  have most : m - (m / 2 ^ 52 - 1) * 2 ^ 52 < 2 ^ 53 := by omega
  have least : m / 2 ^ 52 - 1 = 0 ∨ 2 ^ 52 ≤ m - (m / 2 ^ 52 - 1) * 2 ^ 52 := by omega
  rw [units, nearest_significand most least]
  omega

theorem units_pos {m : Nat} (positive : 0 < m) : 0 < units m := by
  have split : 2 ^ 52 * (m / 2 ^ 52) + m % 2 ^ 52 = m := Nat.div_add_mod m (2 ^ 52)
  exact Nat.mul_pos (by omega) (Nat.two_pow_pos _)

theorem units_lt {m : Nat} (finite : m < infinite) : units m < 2 ^ 53 * 2 ^ 2045 := by
  have split : 2 ^ 52 * (m / 2 ^ 52) + m % 2 ^ 52 = m := Nat.div_add_mod m (2 ^ 52)
  have small : m % 2 ^ 52 < 2 ^ 52 := Nat.mod_lt m (Nat.two_pow_pos 52)
  have exponent : m / 2 ^ 52 - 1 ≤ 2045 := by
    unfold infinite at finite
    omega
  have power : 2 ^ (m / 2 ^ 52 - 1) ≤ 2 ^ 2045 := Nat.pow_le_pow_right (by decide) exponent
  have most : m - (m / 2 ^ 52 - 1) * 2 ^ 52 < 2 ^ 53 := by omega
  exact Nat.mul_lt_mul_of_lt_of_le most power (Nat.two_pow_pos _)

end Binary64

namespace Decimal

theorem digitCount_le_iff {n k : Nat} (positive : 0 < k) : digitCount n ≤ k ↔ n < 10 ^ k :=
  Nat.length_toDigits_le_iff (by decide) positive

theorem toDigits_shift {n : Nat} (positive : 0 < n) (j : Nat) :
    Nat.toDigits 10 (n * 10 ^ j) = Nat.toDigits 10 n ++ List.replicate j '0' := by
  induction j with
  | zero => simp
  | succ j ih =>
    have shifted : 0 < n * 10 ^ j := Nat.mul_pos positive (Nat.pow_pos (by decide))
    have step := Nat.toDigits_append_toDigits (b := 10) (d := 0) (by decide) shifted (by decide)
    rw [Nat.pow_succ, ← Nat.mul_assoc, Nat.mul_comm _ 10, ← Nat.add_zero (10 * _), ← step, ih,
      Nat.toDigits_zero, List.append_assoc, ← List.replicate_succ']

theorem digitCount_shift {n : Nat} (positive : 0 < n) (j : Nat) :
    digitCount (n * 10 ^ j) = digitCount n + j := by
  simp [digitCount, toDigits_shift positive]

theorem magnitude_shift {n : Nat} (positive : 0 < n) (j : Nat) (e : Int) :
    magnitude ⟨n * 10 ^ j, e⟩ = magnitude ⟨n, e + j⟩ := by
  have nonzero : n * 10 ^ j ≠ 0 := Nat.ne_of_gt (Nat.mul_pos positive (Nat.pow_pos (by decide)))
  have top : ((digitCount n + j : Nat) : Int) + e = digitCount n + (e + j) := by omega
  have ratio : Binary64.nearest (n * 10 ^ j * 10 ^ e.toNat * 2 ^ 1074) (10 ^ (-e).toNat) =
      Binary64.nearest (n * 10 ^ (e + j).toNat * 2 ^ 1074) (10 ^ (-(e + j)).toNat) := by
    -- Both are scaled by the power of ten that separates their denominators.
    obtain ⟨c, hc⟩ : ∃ c : Nat, (-e).toNat = c + (-(e + j)).toNat :=
      ⟨(-e).toNat - (-(e + j)).toNat, by omega⟩
    have exponents : j + e.toNat = c + (e + j).toNat := by omega
    have num : n * 10 ^ j * 10 ^ e.toNat * 2 ^ 1074 =
        10 ^ c * (n * 10 ^ (e + j).toNat * 2 ^ 1074) := by
      rw [Nat.mul_assoc n, ← Nat.pow_add, exponents, Nat.pow_add]
      ring
    rw [num, hc, Nat.pow_add, Binary64.nearest_scale (Nat.pow_pos (by decide))]
  simp only [magnitude, digitCount_shift positive, top, nonzero, Nat.ne_of_gt positive, if_false,
    ratio, -Nat.reducePow]

theorem magnitude_inRange {n : Nat} {e : Int} (nonzero : n ≠ 0) (low : -330 ≤ digitCount n + e)
    (high : digitCount n + e ≤ 310) : magnitude ⟨n, e⟩ =
      Binary64.nearest (n * 10 ^ e.toNat * 2 ^ 1074) (10 ^ (-e).toNat) := by
  simp only [magnitude, -Nat.reducePow]
  rw [if_neg nonzero, if_neg (Int.not_lt.mpr high), if_neg (Int.not_lt.mpr low)]

theorem magnitude_exact {m : Nat} (positive : 0 < m) (finite : m < Binary64.infinite) :
    (exact m).magnitude = m := by
  have some := Binary64.units_pos positive
  have five : 0 < 5 ^ 1074 := by decide +kernel
  have nonzero : Binary64.units m * 5 ^ 1074 ≠ 0 := Nat.ne_of_gt (Nat.mul_pos some five)
  have lower : ¬ digitCount (Binary64.units m * 5 ^ 1074) ≤ 743 := by
    rw [digitCount_le_iff (by decide)]
    have power : 10 ^ 743 ≤ 5 ^ 1074 := by decide +kernel
    have least := Nat.mul_le_mul_right (5 ^ 1074) some
    omega
  have upper : digitCount (Binary64.units m * 5 ^ 1074) ≤ 1384 := by
    rw [digitCount_le_iff (by decide)]
    have power : 2 ^ 53 * 2 ^ 2045 * 5 ^ 1074 < 10 ^ 1384 := by decide +kernel
    have most := Nat.mul_le_mul_right (5 ^ 1074) (Nat.le_of_lt (Binary64.units_lt finite))
    omega
  have whole : Binary64.units m * 5 ^ 1074 * 10 ^ (-1074 : Int).toNat * 2 ^ 1074 =
      10 ^ (1074 : Int).toNat * Binary64.units m := by
    rw [show (-1074 : Int).toNat = 0 from rfl, Nat.pow_zero, Nat.mul_one, Nat.mul_assoc,
      ← Nat.mul_pow, Nat.mul_comm]
    rfl
  have scaled := Binary64.nearest_scale (Nat.pow_pos (n := (1074 : Int).toNat) (by decide : 0 < 10))
    (Binary64.units m) 1
  rw [exact, magnitude_inRange nonzero (by omega) (by omega), whole]
  rw [Nat.mul_one] at scaled
  exact scaled.trans (Binary64.nearest_units finite)

theorem nearer_mem (tie : Tie) (low high : Decimal) (r den : Nat) :
    nearer tie low high r den = low ∨ nearer tie low high r den = high := by
  unfold nearer
  split
  · exact .inl rfl
  · split
    · exact .inr rfl
    · cases tie with
      | up => exact .inr rfl
      | even => exact ite_eq_or_eq _ _ _

theorem readingBack?_sound {m : Nat} {low high both d : Decimal}
    (neighbour : both = low ∨ both = high)
    (found : readingBack? m low high both = some d) : d.magnitude = m := by
  unfold readingBack? at found
  split at found
  · rename_i lowReads highReads
    cases found
    rcases neighbour with rfl | rfl
    · exact beq_iff_eq.mp lowReads
    · exact beq_iff_eq.mp highReads
  · rename_i reads _
    cases found
    exact beq_iff_eq.mp reads
  · rename_i _ reads
    cases found
    exact beq_iff_eq.mp reads
  · cases found

theorem withDigits?_sound {tie : Tie} {m n : Nat} {d : Decimal}
    (found : withDigits? tie m n = some d) : d.magnitude = m :=
  readingBack?_sound (nearer_mem ..) found

/-- What a finite double is written as reads as the double again. -/
theorem magnitude_shortest (tie : Tie) {m : Nat} (finite : m < Binary64.infinite) :
    (shortest tie m).magnitude = m := by
  unfold shortest
  split
  · rename_i zero
    rw [zero]
    rfl
  · rename_i nonzero
    cases found : (List.range 17).findSome? fun n => withDigits? tie m (n + 1) with
    | none => exact magnitude_exact (Nat.pos_of_ne_zero nonzero) finite
    | some d =>
      obtain ⟨n, -, this⟩ := List.exists_of_findSome?_eq_some found
      exact withDigits?_sound this

end Decimal

end ActionChain
