import PaperNode.Numerals

/-!
# Hexadecimal numerals

A numeral is a list of bytes. A number is written with lower-case digits and no leading zeros,
and filled up with zeros on the left to a width. Digits are read in either case.
-/
namespace PaperNode.HexNumerals
open Numerals

def digit (d : Fin 16) : UInt8 :=
  if d.val < 10 then UInt8.ofNat (48 + d.val) else UInt8.ofNat (87 + d.val)

def digitValue (c : UInt8) : Option ℕ :=
  if 48 ≤ c.toNat ∧ c.toNat ≤ 57 then some (c.toNat - 48)
  else if 97 ≤ c.toNat ∧ c.toNat ≤ 102 then some (c.toNat - 87)
  else if 65 ≤ c.toNat ∧ c.toNat ≤ 70 then some (c.toNat - 55)
  else none

def numeral (n : ℕ) : List UInt8 := numeralIn 16 (fun d => digit (Fin.ofNat 16 d)) n

def padded (width n : ℕ) : List UInt8 := (numeral n).leftpad width (digit 0)

def IsNumeral (t : List UInt8) : Prop := t ≠ [] ∧ ∀ c ∈ t, digitValue c ≠ none

def value (t : List UInt8) : ℕ := valueIn 16 digitValue t

theorem digitValue_digit : ∀ d : Fin 16, digitValue (digit d) = some d.val := by
  decide

theorem digit_ne_dot : ∀ d : Fin 16, digit d ≠ 46 := by
  decide

theorem mem_numeral {n : ℕ} {c : UInt8} (h : c ∈ numeral n) : ∃ d, c = digit d := by
  obtain ⟨d, rfl⟩ := mem_numeralIn h
  exact ⟨_, rfl⟩

theorem mem_padded {width n : ℕ} {c : UInt8} (h : c ∈ padded width n) : ∃ d, c = digit d := by
  rcases List.mem_append.mp h with h | h
  · exact ⟨0, (List.mem_replicate.mp h).2⟩
  · exact mem_numeral h

theorem padded_ne_nil (width n : ℕ) : padded width n ≠ [] :=
  List.append_ne_nil_of_right_ne_nil _ (numeralIn_ne_nil n)

theorem isNumeral_padded (width n : ℕ) : IsNumeral (padded width n) := by
  refine ⟨padded_ne_nil width n, ?_⟩
  intro c hc
  obtain ⟨d, rfl⟩ := mem_padded hc
  rw [digitValue_digit]
  exact Option.some_ne_none _

theorem value_numeral (n : ℕ) : value (numeral n) = n := by
  refine valueIn_numeralIn (by decide) ?_ n
  intro d hd
  rw [digitValue_digit]
  exact congrArg some (Nat.mod_eq_of_lt hd)

theorem value_padded (width n : ℕ) : value (padded width n) = n := by
  unfold padded List.leftpad
  generalize width - (numeral n).length = k
  induction k with
  | zero => exact value_numeral n
  | succ k ih => exact ih

theorem length_padded {width n : ℕ} (hw : 0 < width) (hn : n < 16 ^ width) :
    (padded width n).length = width := by
  have hle : (numeral n).length ≤ width := length_numeralIn_le (by decide) hw hn
  unfold padded
  rw [List.length_leftpad]
  exact Nat.max_eq_left hle

theorem digitValue_lt {c : UInt8} {d : ℕ} (h : digitValue c = some d) : d < 16 := by
  unfold digitValue at h
  split_ifs at h <;> cases h <;> omega

theorem value_lt (t : List UInt8) : value t < 16 ^ t.length :=
  valueIn_lt (by decide) (fun _ _ h => digitValue_lt h) t

end PaperNode.HexNumerals
