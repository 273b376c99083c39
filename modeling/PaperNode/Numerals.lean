import Mathlib.Data.Nat.Digits.Lemmas
import Mathlib.Tactic.Common

/-!
# Positional numerals

A numeral is a list of bytes. A base comes with the bytes that write its digits and a reading of
bytes as digits. A number is written without leading zeros, and the value of a text is read from
left to right; bytes that are no digits count as zeros.
-/
namespace PaperNode.Numerals

/-- A number without leading zeros. -/
def numeralIn (base : ℕ) (digit : ℕ → UInt8) (n : ℕ) : List UInt8 :=
  if n = 0 then [digit 0] else ((Nat.digits base n).map digit).reverse

def valueIn (base : ℕ) (digitValue : UInt8 → Option ℕ) (t : List UInt8) : ℕ :=
  t.foldl (fun n c => n * base + (digitValue c).getD 0) 0

section Base
variable {base : ℕ} {digit : ℕ → UInt8} {digitValue : UInt8 → Option ℕ}

theorem valueIn_append_singleton (t : List UInt8) (c : UInt8) :
    valueIn base digitValue (t ++ [c]) =
      valueIn base digitValue t * base + (digitValue c).getD 0 := by
  rw [valueIn, List.foldl_append]
  rfl

theorem valueIn_lt (hbase : 0 < base) (hdigit : ∀ c d, digitValue c = some d → d < base)
    (t : List UInt8) : valueIn base digitValue t < base ^ t.length := by
  induction t using List.reverseRecOn with
  | nil => exact Nat.one_pos
  | append_singleton t c ih =>
      have hc : (digitValue c).getD 0 < base := by
        cases h : digitValue c with
        | none => exact hbase
        | some d => exact hdigit c d h
      rw [valueIn_append_singleton, List.length_append, List.length_singleton, Nat.pow_succ]
      calc valueIn base digitValue t * base + (digitValue c).getD 0
          < valueIn base digitValue t * base + base := Nat.add_lt_add_left hc _
        _ = (valueIn base digitValue t + 1) * base := (Nat.succ_mul _ _).symm
        _ ≤ base ^ t.length * base := Nat.mul_le_mul_right _ ih

theorem valueIn_mono {base' : ℕ} (h : base ≤ base') (t : List UInt8) :
    valueIn base digitValue t ≤ valueIn base' digitValue t := by
  induction t using List.reverseRecOn with
  | nil => exact Nat.le_refl _
  | append_singleton t c ih =>
      rw [valueIn_append_singleton, valueIn_append_singleton]
      exact Nat.add_le_add_right (Nat.mul_le_mul ih h) _

/-- Two bases read the same number from digits of the smaller one only if it is a digit. -/
theorem valueIn_eq_iff {base' : ℕ} (hpos : 0 < base) (h : base < base') {t : List UInt8}
    (ht : ∀ c ∈ t, (digitValue c).getD 0 < base) :
    valueIn base digitValue t = valueIn base' digitValue t ↔ valueIn base' digitValue t < base := by
  induction t using List.reverseRecOn with
  | nil => exact iff_of_true rfl hpos
  | append_singleton t c _ =>
      have hle : valueIn base digitValue t ≤ valueIn base' digitValue t := valueIn_mono h.le t
      have hc := ht c (by simp)
      rw [valueIn_append_singleton, valueIn_append_singleton]
      generalize valueIn base digitValue t = v at hle ⊢
      generalize valueIn base' digitValue t = v' at hle ⊢
      -- equal values leave nothing before the last digit
      rcases Nat.eq_zero_or_pos v' with rfl | hv'
      · rw [Nat.le_zero.mp hle]
        simpa using hc
      · have hless : v * base < v' * base' :=
          lt_of_le_of_lt (Nat.mul_le_mul_right _ hle) (Nat.mul_lt_mul_of_pos_left h hv')
        have hlarge : base ≤ v' * base' := h.le.trans (Nat.le_mul_of_pos_left _ hv')
        exact iff_of_false (by omega) (by omega)

theorem mem_numeralIn {n : ℕ} {c : UInt8} (h : c ∈ numeralIn base digit n) : ∃ d, c = digit d := by
  unfold numeralIn at h
  split_ifs at h
  · exact ⟨0, List.mem_singleton.mp h⟩
  · obtain ⟨d, _, rfl⟩ := List.mem_map.mp (List.mem_reverse.mp h)
    exact ⟨d, rfl⟩

theorem numeralIn_ne_nil (n : ℕ) : numeralIn base digit n ≠ [] := by
  unfold numeralIn
  split_ifs with hn
  · simp
  · simpa using Nat.digits_ne_nil_iff_ne_zero.mpr hn

theorem head?_numeralIn (hbase : 1 < base) {n : ℕ} (hn : n ≠ 0) :
    ∃ d, d ≠ 0 ∧ d < base ∧ (numeralIn base digit n).head? = some (digit d) := by
  have hne := Nat.digits_ne_nil_iff_ne_zero (b := base).mpr hn
  refine ⟨_, Nat.getLast_digit_ne_zero base hn, ?_, ?_⟩
  · exact Nat.digits_lt_base hbase (List.getLast_mem hne)
  · rw [numeralIn, if_neg hn, List.head?_reverse, List.getLast?_map,
      List.getLast?_eq_some_getLast hne]
    rfl

/-- The written number is read back. -/
theorem valueIn_numeralIn (hbase : 1 < base)
    (hread : ∀ d < base, digitValue (digit d) = some d) (n : ℕ) :
    valueIn base digitValue (numeralIn base digit n) = n := by
  unfold numeralIn
  split_ifs with hn
  · rw [hn, valueIn, List.foldl_cons, List.foldl_nil, hread 0 (Nat.zero_lt_of_lt hbase)]
    exact Nat.zero_mul base
  · have hdigits : ∀ d ∈ Nat.digits base n, (digitValue (digit d)).getD 0 = d := by
      intro d hd
      rw [hread d (Nat.digits_lt_base hbase hd), Option.getD_some]
    unfold valueIn
    rw [List.foldl_reverse, List.foldr_map]
    conv_rhs => rw [← Nat.ofDigits_digits base n]
    generalize Nat.digits base n = ds at hdigits
    induction ds with
    | nil => rfl
    | cons d ds ih =>
        rw [List.foldr_cons, ih (fun e he => hdigits e (by simp [he])), hdigits d (by simp),
          Nat.ofDigits_cons, Nat.mul_comm, Nat.add_comm]

theorem length_numeralIn_le (hbase : 1 < base) {width n : ℕ} (hw : 0 < width)
    (hn : n < base ^ width) : (numeralIn base digit n).length ≤ width := by
  unfold numeralIn
  split_ifs
  · exact hw
  · rw [List.length_reverse, List.length_map]
    exact (Nat.digits_length_le_iff hbase n).mpr hn

end Base

namespace Decimal

def digit (d : ℕ) : UInt8 := UInt8.ofNat (48 + d)

def digitValue (c : UInt8) : Option ℕ :=
  if 48 ≤ c.toNat ∧ c.toNat ≤ 57 then some (c.toNat - 48) else none

def numeral (n : ℕ) : List UInt8 := numeralIn 10 digit n

def value (t : List UInt8) : ℕ := valueIn 10 digitValue t

def Digits (t : List UInt8) : Prop := ∀ c ∈ t, digitValue c ≠ none

instance decidableDigits (t : List UInt8) : Decidable (Digits t) :=
  inferInstanceAs (Decidable (∀ c ∈ t, digitValue c ≠ none))

theorem digitValue_digit : ∀ d < 10, digitValue (digit d) = some d := by
  decide

theorem digits_numeral (n : ℕ) : Digits (numeral n) := by
  intro c hc
  unfold numeral numeralIn at hc
  split_ifs at hc
  · rw [List.mem_singleton.mp hc]
    decide
  · obtain ⟨d, hd, rfl⟩ := List.mem_map.mp (List.mem_reverse.mp hc)
    rw [digitValue_digit d (Nat.digits_lt_base (by decide) hd)]
    exact Option.some_ne_none d

theorem value_numeral (n : ℕ) : value (numeral n) = n :=
  valueIn_numeralIn (by decide) digitValue_digit n

theorem length_numeral_le {width n : ℕ} (hw : 0 < width) (hn : n < 10 ^ width) :
    (numeral n).length ≤ width :=
  length_numeralIn_le (by decide) hw hn

end Decimal

end PaperNode.Numerals
