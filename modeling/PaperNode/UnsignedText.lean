import PaperNode.Numerals
import Mathlib.Data.List.TakeWhile

/-!
# Unsigned numbers at the start of a text

`std::stoul` in base ten skips white space, takes a sign and as many digits as there are, and says
how many characters it used. It throws if there is no digit, or if the digits spell a number that
does not fit into 64 bits. A minus sign negates the number modulo `2 ^ 64`. What comes after the
digits is not looked at.
-/
namespace PaperNode.UnsignedText
open Numerals.Decimal

def isSpace (c : UInt8) : Bool := c = 32 || (9 ≤ c && c ≤ 13)

def isDigit (c : UInt8) : Bool := (digitValue c).isSome

/-- The parts of a text that starts with an integer. -/
structure Leading where
  negative : Bool
  digits : List UInt8
  rest : List UInt8
  deriving DecidableEq, Repr

def sign : List UInt8 → Bool × List UInt8
  | 43 :: t => (false, t)
  | 45 :: t => (true, t)
  | t => (false, t)

def leading (t : List UInt8) : Option Leading :=
  let body := (sign (t.dropWhile isSpace)).2
  if body.takeWhile isDigit = [] then none
  else some ⟨(sign (t.dropWhile isSpace)).1, body.takeWhile isDigit, body.dropWhile isDigit⟩

/-- The number and the count of the characters used. There is none if the conversion throws. -/
def stoul (t : List UInt8) : Option (ℕ × ℕ) :=
  match leading t with
  | none => none
  | some l =>
      if 2 ^ 64 ≤ value l.digits then none
      else some ((if l.negative then 2 ^ 64 - value l.digits else value l.digits) % 2 ^ 64,
        t.length - l.rest.length)

/-- The text is an integer as a whole: white space, a sign or none, and digits. -/
def Denotes (t : List UInt8) (n : ℤ) : Prop :=
  ∃ spaces digits, (∀ c ∈ spaces, isSpace c = true) ∧ digits ≠ [] ∧ Digits digits ∧
    ((t = spaces ++ digits ∨ t = spaces ++ 43 :: digits) ∧ n = value digits ∨
      t = spaces ++ 45 :: digits ∧ n = -value digits)

def Leading.integer (l : Leading) : ℤ :=
  if l.negative then -value l.digits else value l.digits

theorem isDigit_iff {c : UInt8} : isDigit c = true ↔ 48 ≤ c.toNat ∧ c.toNat ≤ 57 := by
  unfold isDigit digitValue
  split_ifs with h <;> simp [h]

theorem isSpace_iff {c : UInt8} :
    isSpace c = true ↔ c.toNat = 32 ∨ (9 ≤ c.toNat ∧ c.toNat ≤ 13) := by
  unfold isSpace
  simp [UInt8.le_iff_toNat_le, ← UInt8.toNat_inj]

theorem digits_iff {t : List UInt8} : Digits t ↔ ∀ c ∈ t, isDigit c = true := by
  unfold Digits isDigit
  simp only [Option.isSome_iff_ne_none]

theorem sign_of_isDigit {c : UInt8} (hc : isDigit c = true) (t : List UInt8) :
    sign (c :: t) = (false, c :: t) := by
  unfold sign
  split
  · rename_i heq
    cases heq
    exact absurd hc (by decide)
  · rename_i heq
    cases heq
    exact absurd hc (by decide)
  · rfl

theorem sign_cases (t : List UInt8) :
    (sign t).1 = false ∧ (t = (sign t).2 ∨ t = 43 :: (sign t).2) ∨
      (sign t).1 = true ∧ t = 45 :: (sign t).2 := by
  unfold sign
  split
  · exact .inl ⟨rfl, .inr rfl⟩
  · exact .inr ⟨rfl, rfl⟩
  · exact .inl ⟨rfl, .inl rfl⟩

theorem isSpace_eq_false_of_isDigit {c : UInt8} (h : isDigit c = true) : isSpace c = false := by
  rw [isDigit_iff] at h
  rw [← Bool.not_eq_true, isSpace_iff]
  omega

theorem dropWhile_spaces {spaces t : List UInt8} {c : UInt8} (h : ∀ c ∈ spaces, isSpace c = true)
    (hc : isSpace c = false) : (spaces ++ c :: t).dropWhile isSpace = c :: t := by
  rw [List.dropWhile_append_of_pos h, List.dropWhile_cons_of_neg (by simp [hc])]

/-- The parts make up the text. -/
theorem leading_parts {t : List UInt8} {l : Leading} (h : leading t = some l) :
    ∃ spaces, (∀ c ∈ spaces, isSpace c = true) ∧ l.digits ≠ [] ∧ Digits l.digits ∧
      (l.negative = false ∧
          (t = spaces ++ (l.digits ++ l.rest) ∨ t = spaces ++ 43 :: (l.digits ++ l.rest)) ∨
        l.negative = true ∧ t = spaces ++ 45 :: (l.digits ++ l.rest)) := by
  unfold leading at h
  dsimp only at h
  split_ifs at h with hnil
  cases h
  refine ⟨t.takeWhile isSpace, fun c hc => List.mem_takeWhile_imp hc, hnil,
    digits_iff.mpr fun c hc => List.mem_takeWhile_imp hc, ?_⟩
  dsimp only
  rw [List.takeWhile_append_dropWhile]
  have ht : t = t.takeWhile isSpace ++ t.dropWhile isSpace := List.takeWhile_append_dropWhile.symm
  generalize t.takeWhile isSpace = spaces at ht
  generalize t.dropWhile isSpace = u at ht
  subst ht
  rcases sign_cases u with ⟨hplus, hu | hu⟩ | ⟨hminus, hu⟩
  · exact .inl ⟨hplus, .inl (congrArg _ hu)⟩
  · exact .inl ⟨hplus, .inr (congrArg _ hu)⟩
  · exact .inr ⟨hminus, congrArg _ hu⟩

theorem leading_of_digits {t u digits : List UInt8} {negative : Bool} (hne : digits ≠ [])
    (hdigits : Digits digits) (ht : t.dropWhile isSpace = u) (hu : sign u = (negative, digits)) :
    leading t = some ⟨negative, digits, []⟩ := by
  have htake : digits.takeWhile isDigit = digits :=
    List.takeWhile_eq_self_iff.mpr (digits_iff.mp hdigits)
  have hdrop : digits.dropWhile isDigit = [] :=
    List.dropWhile_eq_nil_iff.mpr (digits_iff.mp hdigits)
  unfold leading
  simp only [ht, hu, htake, hdrop, if_neg hne]

theorem denotes_iff {t : List UInt8} {n : ℤ} :
    Denotes t n ↔ ∃ l, leading t = some l ∧ l.rest = [] ∧ l.integer = n := by
  constructor
  · intro h
    obtain ⟨spaces, digits, hspaces, hne, hdigits, h⟩ := h
    obtain ⟨d, ds, rfl⟩ := List.exists_cons_of_ne_nil hne
    have hd : isDigit d = true := digits_iff.mp hdigits d List.mem_cons_self
    rcases h with ⟨ht | ht, rfl⟩ | ⟨ht, rfl⟩
    · exact ⟨⟨false, d :: ds, []⟩, leading_of_digits hne hdigits
        (ht ▸ dropWhile_spaces hspaces (isSpace_eq_false_of_isDigit hd)) (sign_of_isDigit hd ds),
        rfl, rfl⟩
    · exact ⟨⟨false, d :: ds, []⟩, leading_of_digits hne hdigits
        (ht ▸ dropWhile_spaces hspaces (by decide)) rfl, rfl, rfl⟩
    · exact ⟨⟨true, d :: ds, []⟩, leading_of_digits hne hdigits
        (ht ▸ dropWhile_spaces hspaces (by decide)) rfl, rfl, rfl⟩
  · intro h
    obtain ⟨l, hl, hrest, rfl⟩ := h
    obtain ⟨spaces, hspaces, hne, hdigits, hparts⟩ := leading_parts hl
    refine ⟨spaces, l.digits, hspaces, hne, hdigits, ?_⟩
    rw [hrest, List.append_nil] at hparts
    rcases hparts with ⟨hsign, ht⟩ | ⟨hsign, ht⟩
    · exact .inl ⟨ht, by simp [Leading.integer, hsign]⟩
    · exact .inr ⟨ht, by simp [Leading.integer, hsign]⟩

theorem Denotes.unique {t : List UInt8} {m n : ℤ} (hm : Denotes t m) (hn : Denotes t n) :
    m = n := by
  obtain ⟨l, hl, _, rfl⟩ := denotes_iff.mp hm
  obtain ⟨l', hl', _, rfl⟩ := denotes_iff.mp hn
  rw [hl] at hl'
  cases hl'
  rfl

theorem length_rest_le {t : List UInt8} {l : Leading} (h : leading t = some l) :
    l.rest.length ≤ t.length := by
  obtain ⟨spaces, _, _, _, hparts⟩ := leading_parts h
  rcases hparts with ⟨_, rfl | rfl⟩ | ⟨_, rfl⟩ <;>
    simp only [List.length_append, List.length_cons] <;> omega

theorem natAbs_integer (l : Leading) : l.integer.natAbs = value l.digits := by
  unfold Leading.integer
  split_ifs <;> simp

/-- The number is the integer modulo `2 ^ 64`. -/
theorem toNat_integer_emod {l : Leading} (h : value l.digits < 2 ^ 64) :
    (l.integer % 2 ^ 64).toNat =
      (if l.negative then 2 ^ 64 - value l.digits else value l.digits) % 2 ^ 64 := by
  unfold Leading.integer
  split_ifs <;> omega

/-- All characters are used exactly if the text is an integer as a whole. -/
theorem stoul_eq_some_length_iff {t : List UInt8} {v : ℕ} :
    stoul t = some (v, t.length) ↔
      ∃ n, Denotes t n ∧ n.natAbs < 2 ^ 64 ∧ v = (n % 2 ^ 64).toNat := by
  unfold stoul
  constructor
  · intro h
    split at h
    · cases h
    · rename_i l hl
      by_cases hlarge : 2 ^ 64 ≤ value l.digits
      · rw [if_pos hlarge] at h
        cases h
      rw [if_neg hlarge] at h
      have hsmall := Nat.not_le.mp hlarge
      obtain ⟨hv, hused⟩ := Prod.mk.inj (Option.some.inj h)
      have hrest : l.rest = [] := by
        have := length_rest_le hl
        exact List.eq_nil_of_length_eq_zero (by omega)
      refine ⟨l.integer, denotes_iff.mpr ⟨l, hl, hrest, rfl⟩, ?_, ?_⟩
      · rwa [natAbs_integer]
      · rw [toNat_integer_emod hsmall, hv]
  · intro h
    obtain ⟨n, hn, hsmall, rfl⟩ := h
    obtain ⟨l, hl, hrest, rfl⟩ := denotes_iff.mp hn
    rw [natAbs_integer] at hsmall
    simp only [hl, Nat.not_le.mpr hsmall, if_false, hrest, List.length_nil, Nat.sub_zero,
      toNat_integer_emod hsmall]

end PaperNode.UnsignedText
