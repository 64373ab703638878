import ActionChain.Action.Basic
import ActionChain.Proofs.Rounding

/-!
Durations in milliseconds. Whole numbers of at most 53 bits are doubles as they are, and so is their
product as long as it has no more bits. Main statement `micros_whole`: a whole number of milliseconds
is a thousand times as many microseconds.
-/
namespace ActionChain

-- Powers are those of core, as in the definition of doubles; so literal exponents show their type.
attribute [local instance (high)] instPowNat

namespace Binary64

section Whole

variable {k m n : Nat}

theorem units_significand (most : n < 2 ^ (53 : Nat)) (least : k = 0 ∨ 2 ^ (52 : Nat) ≤ n) :
    units (k * 2 ^ (52 : Nat) + n) = n * 2 ^ k := by
  have exponent : (k * 2 ^ (52 : Nat) + n) / 2 ^ (52 : Nat) - 1 = k := by omega
  have significand : k * 2 ^ (52 : Nat) + n - k * 2 ^ (52 : Nat) = n := by omega
  simp only [units, exponent, significand]

/-- A whole number in units: its bits are shifted up until the leading one is the 53rd. -/
theorem exists_significand (small : n < 2 ^ (53 : Nat)) :
    ∃ k s, k ≤ 1074 ∧ s < 2 ^ (53 : Nat) ∧ (k = 0 ∨ 2 ^ (52 : Nat) ≤ s) ∧
      n * 2 ^ (1074 : Nat) = s * 2 ^ k := by
  rcases Nat.eq_zero_or_pos n with rfl | positive
  · exact ⟨0, 0, by decide, by decide, .inl rfl, by simp only [Nat.zero_mul]⟩
  · have nonzero : n ≠ 0 := Nat.ne_of_gt positive
    have top : n.log2 < 53 := (Nat.log2_lt nonzero).mpr small
    have lower : 2 ^ n.log2 ≤ n := (Nat.le_log2 nonzero).mp (Nat.le_refl _)
    have upper : n < 2 ^ (n.log2 + 1) := (Nat.log2_lt nonzero).mp (Nat.lt_succ_self _)
    refine ⟨1074 - (52 - n.log2), n * 2 ^ (52 - n.log2), by omega, ?_, .inr ?_, ?_⟩
    · have power : 2 ^ (53 : Nat) = 2 ^ (n.log2 + 1) * 2 ^ (52 - n.log2) := by
        rw [← Nat.pow_add]
        congr 1
        omega
      rw [power]
      exact Nat.mul_lt_mul_of_pos_right upper (Nat.two_pow_pos _)
    · have power : 2 ^ (52 : Nat) = 2 ^ n.log2 * 2 ^ (52 - n.log2) := by
        rw [← Nat.pow_add]
        congr 1
        omega
      rw [power]
      exact Nat.mul_le_mul_right _ lower
    · rw [Nat.mul_assoc, ← Nat.pow_add]
      congr 2
      omega

theorem nearest_whole (small : n < 2 ^ (53 : Nat)) :
    nearest (n * 2 ^ (1074 : Nat)) 1 < infinite ∧
      units (nearest (n * 2 ^ (1074 : Nat)) 1) = n * 2 ^ (1074 : Nat) := by
  obtain ⟨k, s, bound, most, least, same⟩ := exists_significand small
  have finite : k * 2 ^ (52 : Nat) + s < infinite := by
    unfold infinite
    omega
  rw [same, nearest_significand most least, Nat.min_eq_left (Nat.le_of_lt finite)]
  exact ⟨finite, units_significand most least⟩

theorem nearest_lt (num den : Nat) : nearest num den < 2 ^ (63 : Nat) :=
  Nat.lt_of_le_of_lt (Nat.min_le_right _ _) (by decide)

theorem magnitude_ofMagnitude (sign : Bool) (small : m < 2 ^ (63 : Nat)) :
    (ofMagnitude sign m).magnitude = m := by
  cases sign <;> simp [ofMagnitude, magnitude] <;> omega

theorem magnitude_ofRatio (sign : Bool) (num den : Nat) :
    (ofRatio sign num den).magnitude = nearest (num * 2 ^ (1074 : Nat)) den := by
  rw [ofRatio, magnitude_ofMagnitude sign (nearest_lt _ den)]

theorem units_ofNat (small : n < 2 ^ (53 : Nat)) :
    units (ofNat n).magnitude = n * 2 ^ (1074 : Nat) := by
  rw [ofNat, magnitude_ofRatio]
  exact (nearest_whole small).2

theorem isFinite_ofNat (small : n < 2 ^ (53 : Nat)) : (ofNat n).isFinite = true := by
  rw [isFinite, ofNat, magnitude_ofRatio]
  exact decide_eq_true (nearest_whole small).1

theorem nonnegative_ofNat (n : Nat) : (ofNat n).nonnegative = true := by
  have small := nearest_lt (n * 2 ^ (1074 : Nat)) 1
  have number : (ofNat n).isNaN = false := by
    rw [isNaN, ofNat, magnitude_ofRatio]
    exact decide_eq_false (Nat.not_lt.mpr (Nat.min_le_right _ _))
  have plus : (ofNat n).negative = false := by
    rw [ofNat, ofRatio]
    generalize nearest (n * 2 ^ (1074 : Nat)) 1 = m at small
    simp [ofMagnitude, negative]
    omega
  rw [nonnegative, number, plus]
  rfl

theorem nearest_scale_one (positive : 0 < k) (num : Nat) :
    nearest (k * num) k = nearest num 1 := by
  have scaled := nearest_scale positive num 1
  rwa [Nat.mul_one] at scaled

theorem magnitude_mul_ofNat (first : m < 2 ^ (53 : Nat)) (second : n < 2 ^ (53 : Nat)) :
    ((ofNat m).mul (ofNat n)).magnitude = nearest (m * n * 2 ^ (1074 : Nat)) 1 := by
  have common (c : Nat) : m * c * (n * c) * c = c * c * (m * n * c) := by ring
  have square (e : Nat) : 2 ^ (e + e) = 2 ^ e * 2 ^ e := Nat.pow_add 2 e e
  have scaled := nearest_scale_one (Nat.two_pow_pos (1074 + 1074)) (m * n * 2 ^ (1074 : Nat))
  rw [square 1074, ← common (2 ^ (1074 : Nat))] at scaled
  rw [mul, magnitude_ofRatio, units_ofNat first, units_ofNat second,
    show (2148 : Nat) = 1074 + 1074 from rfl, square 1074]
  exact scaled

theorem roundHalfUp_whole {x : Binary64} (whole : units x.magnitude = n * 2 ^ (1074 : Nat)) :
    x.roundHalfUp = n := by
  have common (c : Nat) : 2 * (n * c) + c = (2 * n + 1) * c := by ring
  have double (e : Nat) : 2 ^ (e + 1) = 2 * 2 ^ e := Nat.pow_succ'
  rw [roundHalfUp, whole, common (2 ^ (1074 : Nat)), show (1075 : Nat) = 1074 + 1 from rfl,
    double 1074, Nat.mul_div_mul_right (2 * n + 1) 2 (Nat.two_pow_pos 1074)]
  omega

end Whole

end Binary64

/-- A whole number of milliseconds is a thousand times as many microseconds. -/
theorem Action.micros_whole {n : Nat} (small : n * 1000 < 2 ^ (53 : Nat)) :
    Action.micros (.ofNat n) = n * 1000 := by
  have product : ((Binary64.ofNat n).mul (.ofNat 1000)).magnitude =
      Binary64.nearest (n * 1000 * 2 ^ (1074 : Nat)) 1 :=
    Binary64.magnitude_mul_ofNat (by omega) (by decide)
  obtain ⟨finite, exact⟩ := Binary64.nearest_whole small
  rw [← product] at finite exact
  have isFinite : ((Binary64.ofNat n).mul (.ofNat 1000)).isFinite = true := decide_eq_true finite
  have below : n * 1000 ≤ longest := Nat.le_trans (Nat.le_of_lt small) (by decide)
  rw [micros, if_pos isFinite, Binary64.roundHalfUp_whole exact, Nat.min_eq_left below]

end ActionChain
