import Mathlib.Data.List.Basic
import ActionChain.Number.Style
import ActionChain.Proofs.Grammar
import ActionChain.Proofs.Rounding

/-!
The written form of a finite number is a number of the grammar, and stands for the same number.
-/
namespace ActionChain

open Grammar

section Digits

theorem decimal_append_zeros (ds : List Char) (j : Nat) :
    decimal (ds ++ List.replicate j '0') = decimal ds * 10 ^ j := by
  show Nat.ofDigitChars 10 (ds ++ List.replicate j '0') 0 = Nat.ofDigitChars 10 ds 0 * 10 ^ j
  rw [Nat.ofDigitChars_append, Nat.ofDigitChars_replicate_zero, Nat.mul_comm]

theorem decimal_zeros_append (ds : List Char) (j : Nat) :
    decimal (List.replicate j '0' ++ ds) = decimal ds := by
  show Nat.ofDigitChars 10 (List.replicate j '0' ++ ds) 0 = Nat.ofDigitChars 10 ds 0
  rw [Nat.ofDigitChars_append, Nat.ofDigitChars_replicate_zero, Nat.mul_zero]

theorem decimal_toDigits (n : Nat) : decimal (Nat.toDigits 10 n) = n :=
  Nat.ofDigitChars_ten_toDigits

theorem decimal_pos {ds : List Char} (digits : Digits ds) (lead : ds.head? ≠ some '0') :
    0 < decimal ds := by
  cases ds with
  | nil => exact absurd rfl digits.some
  | cons d ds =>
    have first : 0 < d.toNat - '0'.toNat := by
      have digit := digits.all d (.head ds)
      simp only [Char.isDigit, Bool.and_eq_true, decide_eq_true_eq] at digit
      have least : '0'.toNat ≤ d.toNat := digit.1
      have other : d.toNat ≠ '0'.toNat := fun same => lead (by rw [Char.toNat_inj.mp same]; rfl)
      omega
    have power : 0 < 10 ^ ds.length := Nat.pow_pos (by decide)
    show 0 < Nat.ofDigitChars 10 (d :: ds) 0
    rw [Nat.ofDigitChars_cons, Nat.ofDigitChars_eq_ofDigitChars_zero, Nat.mul_zero, Nat.zero_add]
    exact Nat.add_pos_left (Nat.mul_pos power first) _

theorem whole_of_digits {ds : List Char} (digits : Digits ds) (lead : ds.head? ≠ some '0') :
    Whole ds := by
  cases ds with
  | nil => exact absurd rfl digits.some
  | cons d ds => exact .digits (fun zero => lead (by rw [zero]; rfl)) digits

theorem lead_toDigits {n : Nat} (positive : 0 < n) : (Nat.toDigits 10 n).head? ≠ some '0' := by
  induction n using Nat.strongRecOn with
  | ind n ih =>
    rw [Nat.toDigits_eq_if (by decide)]
    split
    · simpa using Nat.ne_of_gt positive
    · rename_i big
      have shorter := ih (n / 10) (by omega) (by omega)
      rw [List.head?_append_of_ne_nil _ Nat.toDigits_ne_nil]
      exact shorter

theorem toDigits_eq_significant (n : Nat) :
    ∃ j, Nat.toDigits 10 n = NumberStyle.significant n ++ List.replicate j '0' := by
  have all : ((Nat.toDigits 10 n).reverse.takeWhile (· == '0')).all (· == '0') := List.all_takeWhile
  have zeros : ∀ c ∈ (Nat.toDigits 10 n).reverse.takeWhile (· == '0'), c = '0' := fun c mem =>
    beq_iff_eq.mp (List.all_eq_true.mp all c mem)
  refine ⟨((Nat.toDigits 10 n).reverse.takeWhile (· == '0')).length, ?_⟩
  calc Nat.toDigits 10 n
    _ = ((Nat.toDigits 10 n).reverse.takeWhile (· == '0') ++
          (Nat.toDigits 10 n).reverse.dropWhile (· == '0')).reverse := by simp
    _ = NumberStyle.significant n ++
          ((Nat.toDigits 10 n).reverse.takeWhile (· == '0')).reverse := List.reverse_append
    _ = _ := by rw [List.eq_replicate_of_mem zeros, List.reverse_replicate, List.length_replicate]

/-- The significant digits of a number above zero: what they spell, up to a power of ten. -/
theorem significant_spec {n : Nat} (positive : 0 < n) : ∃ j,
    Digits (NumberStyle.significant n) ∧ (NumberStyle.significant n).head? ≠ some '0' ∧
    decimal (NumberStyle.significant n) * 10 ^ j = n ∧
    digitCount n = (NumberStyle.significant n).length + j := by
  obtain ⟨j, whole⟩ := toDigits_eq_significant n
  have lead := lead_toDigits positive
  have all : ∀ c ∈ Nat.toDigits 10 n, c.isDigit := fun c =>
    Nat.isDigit_of_mem_toDigits (by decide) (by decide)
  have value := decimal_toDigits n
  have length : digitCount n = (Nat.toDigits 10 n).length := rfl
  rw [whole] at lead all value length
  have some : NumberStyle.significant n ≠ [] := by
    intro none
    cases j with
    | zero => exact Nat.toDigits_ne_nil (by rw [whole, none]; rfl)
    | succ j => exact lead (by rw [none]; rfl)
  refine ⟨j, ⟨some, fun c mem => all c (List.mem_append_left _ mem)⟩, ?_, ?_, ?_⟩
  · rwa [List.head?_append_of_ne_nil _ some] at lead
  · rwa [decimal_append_zeros] at value
  · simpa using length

end Digits

namespace NumberStyle

theorem zeros_digits (n : Nat) : ∀ c ∈ zeros n, c.isDigit := by
  intro c mem
  rw [(List.mem_replicate.mp mem).2]
  rfl

theorem zeros_append_digits {ds : List Char} (digits : Digits ds) (n : Nat) :
    Digits (zeros n ++ ds) := by
  refine ⟨by simp [digits.some], fun c mem => ?_⟩
  rcases List.mem_append.mp mem with zero | digit
  · exact zeros_digits _ c zero
  · exact digits.all c digit

theorem digits_append_zeros {ds : List Char} (digits : Digits ds) (n : Nat) :
    Digits (ds ++ zeros n) := by
  refine ⟨by simp [digits.some], fun c mem => ?_⟩
  rcases List.mem_append.mp mem with digit | zero
  · exact digits.all c digit
  · exact zeros_digits _ c zero

/-- Digits written out are the two parts of a number of the grammar, and keep their value. -/
theorem writePositional_spec {ds : List Char} (digits : Digits ds) (lead : ds.head? ≠ some '0')
    (e : Int) : ∃ whole fs fraction, Whole whole ∧ Fraction fs fraction ∧
      writePositional false ds e = whole ++ fraction ∧
      Decimal.magnitude ⟨decimal (whole ++ fs), 0 - fs.length⟩ =
        Decimal.magnitude ⟨decimal ds, e + 1 - ds.length⟩ := by
  unfold writePositional
  split
  · rename_i below
    have fraction : Digits (zeros (-e - 1).toNat ++ ds) := zeros_append_digits digits _
    refine ⟨['0'], _, _, .zero, .point fraction, rfl, ?_⟩
    have value : decimal (['0'] ++ (zeros (-e - 1).toNat ++ ds)) = decimal ds := by
      have zeros := decimal_zeros_append ds ((-e - 1).toNat + 1)
      rwa [List.replicate_succ, List.cons_append] at zeros
    have place : 0 - ((zeros (-e - 1).toNat ++ ds).length : Int) = e + 1 - ds.length := by
      simp only [zeros, List.length_append, List.length_replicate]
      omega
    rw [value, place]
  · rename_i notBelow
    dsimp only
    split
    · rename_i shorter
      have whole : Digits (ds.take (e.toNat + 1)) :=
        ⟨by simp [digits.some], fun c mem => digits.all c (List.mem_of_mem_take mem)⟩
      have fraction : Digits (ds.drop (e.toNat + 1)) :=
        ⟨by simpa using shorter, fun c mem => digits.all c (List.mem_of_mem_drop mem)⟩
      have leadWhole : (ds.take (e.toNat + 1)).head? ≠ some '0' := by
        rwa [List.head?_take, if_neg (Nat.succ_ne_zero _)]
      have place : 0 - ((ds.drop (e.toNat + 1)).length : Int) = e + 1 - ds.length := by
        rw [List.length_drop]
        omega
      refine ⟨_, _, _, whole_of_digits whole leadWhole, .point fraction, rfl, ?_⟩
      rw [List.take_append_drop, place]
    · rename_i longer
      have whole : Digits (ds ++ zeros (e.toNat + 1 - ds.length)) := digits_append_zeros digits _
      have leadWhole : (ds ++ zeros (e.toNat + 1 - ds.length)).head? ≠ some '0' := by
        rwa [List.head?_append_of_ne_nil _ digits.some]
      have place : ((e.toNat + 1 - ds.length : Nat) : Int) = e + 1 - ds.length := by omega
      refine ⟨_, [], [], whole_of_digits whole leadWhole, .none, rfl, ?_⟩
      have shift := Decimal.magnitude_shift (decimal_pos digits lead)
      rw [List.append_nil, zeros, decimal_append_zeros, shift, place]
      simp

theorem writeFinite_spec {m : Nat} (positive : 0 < m) (finite : m < Binary64.infinite) :
    ∃ whole fs fraction, Whole whole ∧ Fraction fs fraction ∧
      plain.writeFinite m = whole ++ fraction ∧
      Decimal.magnitude ⟨decimal (whole ++ fs), 0 - fs.length⟩ = m := by
  have reads := Decimal.magnitude_shortest plain.tie finite
  have written : plain.writeFinite m =
      writePositional false (significant (Decimal.shortest plain.tie m).digits)
        (digitCount (Decimal.shortest plain.tie m).digits - 1 +
          (Decimal.shortest plain.tie m).exponent) := by
    simp [writeFinite, plain, Nat.ne_of_gt positive]
  rw [written]
  generalize Decimal.shortest plain.tie m = d at reads ⊢
  have some : 0 < d.digits := by
    rw [Nat.pos_iff_ne_zero]
    intro zero
    rw [Decimal.magnitude, if_pos zero] at reads
    omega
  obtain ⟨j, digits, lead, value, length⟩ := significant_spec some
  obtain ⟨whole, fs, fraction, isWhole, isFraction, text, same⟩ :=
    writePositional_spec digits lead (digitCount d.digits - 1 + d.exponent)
  refine ⟨whole, fs, fraction, isWhole, isFraction, text, ?_⟩
  have place : (digitCount d.digits - 1 + d.exponent) + 1 - (significant d.digits).length =
      d.exponent + j := by omega
  rw [same, place, ← Decimal.magnitude_shift (decimal_pos digits lead), value]
  exact reads

theorem ofMagnitude_self (x : Binary64) : Binary64.ofMagnitude x.negative x.magnitude = x := by
  have bits : (if x.negative then 2 ^ 63 else 0) + x.magnitude = x.bits.toNat := by
    have bound := x.bits.toNat_lt
    simp only [Binary64.negative, Binary64.magnitude, decide_eq_true_eq]
    split <;> omega
  rw [Binary64.ofMagnitude, bits, UInt64.ofNat_toNat]

theorem plain_derived {x : Binary64} (finite : x.isFinite) :
    ∃ y, Number y (plain.write x) ∧ y.same x := by
  have finite : x.magnitude < Binary64.infinite := by simpa [Binary64.isFinite] using finite
  have number : x.isNaN = false := by
    simpa [Binary64.isNaN] using Nat.le_of_lt finite
  have text : plain.write x =
      (if x.negative && x.magnitude != 0 then ['-'] else []) ++ plain.writeFinite x.magnitude := by
    simp [write, number, Binary64.isFinite, finite, plain]
  rcases Nat.eq_zero_or_pos x.magnitude with zero | positive
  · have written : plain.write x = ['0'] := by
      rw [text, zero]
      simp
      rfl
    have derived := Number.mk false .zero .none .none
    refine ⟨_, by rw [written]; exact derived, ?_⟩
    have nought : Decimal.toBinary64 false ⟨decimal ['0'], 0⟩ = ⟨0⟩ := by decide
    have noNaN : Binary64.isNaN ⟨0⟩ = false := by decide
    have noMagnitude : Binary64.magnitude ⟨0⟩ = 0 := by decide
    show (Decimal.toBinary64 false ⟨decimal ['0'], 0⟩).same x
    rw [nought]
    simp [Binary64.same, number, zero, noNaN, noMagnitude]
  · obtain ⟨whole, fs, fraction, isWhole, isFraction, written, reads⟩ :=
      writeFinite_spec positive finite
    have derived := Number.mk x.negative isWhole isFraction .none
    have value : Decimal.toBinary64 x.negative ⟨decimal (whole ++ fs), 0 - fs.length⟩ = x := by
      rw [Decimal.toBinary64, reads, ofMagnitude_self]
    have sign : (x.negative && x.magnitude != 0) = x.negative := by
      have nonzero : (x.magnitude != 0) = true := by simpa using Nat.ne_of_gt positive
      rw [nonzero, Bool.and_true]
    rw [value, List.append_nil, List.append_assoc, ← written] at derived
    exact ⟨x, by rw [text, sign]; exact derived, by simp [Binary64.same, number]⟩

end NumberStyle

end ActionChain
