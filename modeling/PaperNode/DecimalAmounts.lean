import PaperNode.Base58
import PaperNode.Numerals

/-!
# Amounts in base ten

`encode_dec` writes a number of 128 or 256 bits without leading zeros. `decode_dec` refuses the
texts that have more digits than the largest number, and hands the others to the extraction of
Boost, which comes from outside: it may throw, and on digits it keeps what the width holds. The
stream is set to `std::dec`, but the extraction collects the digits of the text and assigns them as
a string, and there a leading zero stands for base eight.
-/
namespace PaperNode.DecimalAmounts
open Base58 Numerals Numerals.Decimal

/-- `encode_dec` of the two unions. -/
def encodeDec {w : ℕ} (x : BitVec w) : Text := numeral x.toNat

section Readers
variable (extract : (w : ℕ) → Text → Option (BitVec w))

/-- A text that is not longer than the limit. There is no number if the extraction throws. -/
def decodeDecUpTo (limit w : ℕ) (text : Text) : Option (BitVec w) :=
  if limit < text.length then none else extract w text

def decodeDec128 : Text → Option (BitVec 128) := decodeDecUpTo extract 39 128

def decodeDec256 : Text → Option (BitVec 256) := decodeDecUpTo extract 78 256

def octal (t : Text) : Bool := t.all fun c => (digitValue c).getD 0 < 8

/-- The number that Boost takes digits for, if it does not throw. -/
def assigned (t : Text) : Option ℕ :=
  if t.head? = some (digit 0) then
    if octal t then some (valueIn 8 digitValue t) else none
  else some (value t)

/-- Numbers without a check of their size: what digits are taken for is reduced. -/
def Unchecked : Prop := ∀ w t, Digits t → extract w t = (assigned t).map (BitVec.ofNat w)

end Readers

/-- What is read from a text, if anything, is the number that the text denotes. -/
def Exact {w : ℕ} (decode : Text → Option (BitVec w)) (t : Text) : Prop :=
  ∀ x, decode t = some x → x.toNat = value t

/-- The text has the value in base ten for Boost too, and the width holds it, or Boost throws. -/
def Plain (w : ℕ) (t : Text) : Prop :=
  if t.head? = some (digit 0) then value t < 8 ∨ octal t = false else value t < 2 ^ w

instance decidablePlain (w : ℕ) (t : Text) : Decidable (Plain w t) :=
  inferInstanceAs (Decidable
    (if t.head? = some (digit 0) then value t < 8 ∨ octal t = false else value t < 2 ^ w))

/-- The octal value is never larger, so reducing it cannot make it right. -/
theorem assigned_plain_iff {w : ℕ} (hw : 3 ≤ w) (t : Text) :
    (∀ n, assigned t = some n → n % 2 ^ w = value t) ↔ Plain w t := by
  unfold assigned Plain
  split_ifs with hzero hoctal
  · have hsmall : ∀ c ∈ t, (digitValue c).getD 0 < 8 := by
      intro c hc
      exact of_decide_eq_true (List.all_eq_true.mp hoctal c hc)
    have hle : valueIn 8 digitValue t ≤ valueIn 10 digitValue t := valueIn_mono (by decide) t
    have hsame := valueIn_eq_iff (by decide) (show 8 < 10 by decide) hsmall
    have hwidth : 8 ≤ 2 ^ w := Nat.pow_le_pow_right (show 0 < 2 by decide) hw
    simp only [hoctal, Bool.true_eq_false, or_false, Option.some.injEq, forall_eq']
    constructor
    · intro h
      refine hsame.mp (Nat.le_antisymm hle ?_)
      exact (Eq.symm h).le.trans (Nat.mod_le _ _)
    · intro h
      rw [hsame.mpr h]
      exact Nat.mod_eq_of_lt (h.trans_le hwidth)
  · exact iff_of_true (by simp) (Or.inr (Bool.eq_false_of_not_eq_true hoctal))
  · simp only [Option.some.injEq, forall_eq']
    exact Nat.mod_eq_iff_lt (Nat.two_pow_pos w).ne'

theorem assigned_numeral (n : ℕ) : assigned (numeral n) = some n := by
  by_cases hn : n = 0
  · subst hn
    rfl
  · obtain ⟨d, hd, hlt, hhead⟩ : ∃ d, d ≠ 0 ∧ d < 10 ∧ (numeral n).head? = some (digit d) :=
      head?_numeralIn (by decide) hn
    have hdigit : ∀ d < 10, d ≠ 0 → digit d ≠ digit 0 := by decide
    have hplain : (numeral n).head? ≠ some (digit 0) := by
      rw [hhead]
      exact fun h => hdigit d hlt hd (Option.some.inj h)
    rw [assigned, if_neg hplain, value_numeral]

section Unchecked
variable {extract : (w : ℕ) → Text → Option (BitVec w)} (hboost : Unchecked extract)
include hboost

theorem exact_decodeDecUpTo_iff (limit : ℕ) {w : ℕ} (hw : 3 ≤ w) {t : Text} (ht : Digits t) :
    Exact (decodeDecUpTo extract limit w) t ↔ limit < t.length ∨ Plain w t := by
  rw [← assigned_plain_iff hw]
  unfold Exact decodeDecUpTo
  rw [hboost w t ht]
  split_ifs with hlong
  · simp [hlong]
  · simp [hlong]

theorem decodeDecUpTo_encodeDec {limit w : ℕ} (hlimit : 2 ^ w ≤ 10 ^ limit) (h0 : 0 < limit)
    (x : BitVec w) : decodeDecUpTo extract limit w (encodeDec x) = some x := by
  have hlength : (encodeDec x).length ≤ limit :=
    length_numeral_le h0 (lt_of_lt_of_le x.isLt hlimit)
  have hdigits : Digits (encodeDec x) := digits_numeral x.toNat
  rw [decodeDecUpTo, if_neg (Nat.not_lt.mpr hlength), hboost w _ hdigits, encodeDec,
    assigned_numeral, Option.map_some, BitVec.ofNat_toNat, BitVec.setWidth_eq]

/-- A numeral is read exactly if it is refused for its length or is plain, and every written number
is read back. -/
theorem decodeDec_exact_iff :
    (∀ t, Digits t → (Exact (decodeDec128 extract) t ↔ 39 < t.length ∨ Plain 128 t)) ∧
    (∀ t, Digits t → (Exact (decodeDec256 extract) t ↔ 78 < t.length ∨ Plain 256 t)) ∧
    (∀ x, decodeDec128 extract (encodeDec x) = some x) ∧
    ∀ x, decodeDec256 extract (encodeDec x) = some x := by
  refine ⟨?_, ?_, ?_, ?_⟩
  · intro t ht
    exact exact_decodeDecUpTo_iff hboost 39 (by decide) ht
  · intro t ht
    exact exact_decodeDecUpTo_iff hboost 78 (by decide) ht
  · exact decodeDecUpTo_encodeDec hboost (by decide) (by decide)
  · exact decodeDecUpTo_encodeDec hboost (by decide) (by decide)

end Unchecked

def extractDigits (w : ℕ) (t : Text) : Option (BitVec w) :=
  if Digits t then (assigned t).map (BitVec.ofNat w) else none

theorem unchecked_extractDigits : Unchecked extractDigits := fun _ _ ht => if_pos ht

/-- Thirty-nine nines do not fit, and with a zero before them they are refused. -/
theorem decodeDec_exact_iff_nines :
    ¬ Exact (decodeDec128 extractDigits) (List.replicate 39 57) ∧
      Exact (decodeDec256 extractDigits) (List.replicate 39 57) ∧
      Exact (decodeDec256 extractDigits) (48 :: List.replicate 39 57) := by
  have hdigits : Digits (List.replicate 39 57) := by decide +kernel
  have h := decodeDec_exact_iff unchecked_extractDigits
  exact ⟨(h.1 _ hdigits).not.mpr (by decide +kernel), (h.2.1 _ hdigits).mpr (by decide +kernel),
    (h.2.1 _ (by decide +kernel)).mpr (by decide +kernel)⟩

/-- The first number that is too large for an amount is read as zero, the first that is too large
for 256 bits as well, and a hundred with a zero before it as sixty-four. -/
theorem decodeDec_reads_zero :
    Digits (bytes "340282366920938463463374607431768211456") ∧
    value (bytes "340282366920938463463374607431768211456") = 2 ^ 128 ∧
    decodeDec128 extractDigits (bytes "340282366920938463463374607431768211456") = some 0 ∧
    Digits (numeral (2 ^ 256)) ∧ value (numeral (2 ^ 256)) = 2 ^ 256 ∧
    decodeDec256 extractDigits (numeral (2 ^ 256)) = some 0 ∧
    Digits (bytes "0100") ∧ value (bytes "0100") = 100 ∧
    decodeDec128 extractDigits (bytes "0100") = some 64 := by
  have htext : bytes "340282366920938463463374607431768211456" = numeral (2 ^ 128) := by
    decide +kernel
  have hread : ∀ {limit w : ℕ}, (numeral (2 ^ w)).length ≤ limit →
      decodeDecUpTo extractDigits limit w (numeral (2 ^ w)) = some 0 := by
    intro limit w hlength
    have hzero : BitVec.ofNat w (2 ^ w) = 0 := by
      apply BitVec.eq_of_toNat_eq
      rw [BitVec.toNat_ofNat, Nat.mod_self]
      rfl
    rw [decodeDecUpTo, if_neg (Nat.not_lt.mpr hlength),
      unchecked_extractDigits w _ (digits_numeral _), assigned_numeral, Option.map_some, hzero]
  rw [htext]
  refine ⟨digits_numeral _, value_numeral _, ?_, digits_numeral _, value_numeral _, ?_,
    by decide +kernel, by decide +kernel, by decide +kernel⟩
  · exact hread (length_numeral_le (by decide) (by decide))
  · exact hread (length_numeral_le (by decide) (by decide))

end PaperNode.DecimalAmounts
