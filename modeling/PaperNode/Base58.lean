import Mathlib.Data.Nat.Digits.Lemmas
import Mathlib.Data.Nat.Bitwise
import Mathlib.Data.Set.List

/-!
# Account numbers as text

An account number is written in base 58: below the top digit group 13 come 32
bits of checksum and the 256 bits of the number. The decoder turns characters
into digits with a table, in which the characters that are not digits have an
entry of their own. It compares with that entry after it has subtracted the
offset of the table, so none of those characters is ever refused: each counts as
a digit 78, and a text with such digits may spell the same number.

A text is a list of bytes. `beyond` is what the program finds when it reads past
the ends of the table.
-/
namespace PaperNode.Base58

abbrev Text := List UInt8

def bytes (s : String) : Text := s.toList.map Char.toUInt8

def base58Lookup : Text := bytes "123456789ABCDEFGHJKLMNPQRSTUVWXYZabcdefghijkmnopqrstuvwxyz"

/-- The last entry is the zero that ends the literal. -/
def base58Reverse : Text :=
  bytes "~012345678~~~~~~~9:;<=>?@~ABCDE~FGHIJKLMNOP~~~~~~QRSTUVWXYZ[~\\]^_`abcdefghi" ++ [0]

def base58Encode (value : Fin 58) : UInt8 := base58Lookup.getD value 0

/-- A character is signed, so the index may be below zero. -/
def base58Decode (beyond : ℤ → UInt8) (value : UInt8) : UInt8 :=
  let index := value.toBitVec.toInt - 0x30
  (if 0 ≤ index ∧ index < 76 then base58Reverse.getD index.toNat 0 else beyond index) - 0x30

/-- The number that is written: the tag, the checksum and the account. -/
def tagged (check : BitVec 256 → BitVec 32) (x : BitVec 256) : ℕ :=
  x.toNat ||| (check x).toNat <<< 256 ||| 13 <<< (256 + 32)

/-- The loop of `encode_base58check`, which writes the last digit first. -/
def encodeDigits (n : ℕ) : Text :=
  if n = 0 then [] else base58Encode (Fin.ofNat 58 n) :: encodeDigits (n / 58)
termination_by n
decreasing_by exact Nat.div_lt_self (by omega) (by decide)

def encodeBase58check (check : BitVec 256 → BitVec 32) (x : BitVec 256) : Text :=
  (encodeDigits (tagged check x)).reverse

/-- The loop of `decode_base58check`; there is no result if it stops early. Fifty
digits stay below 2^512. -/
def decodeDigits (beyond : ℤ → UInt8) (n : ℕ) : Text → Option ℕ
  | [] => some n
  | c :: cs =>
      let byte := base58Decode beyond c
      if byte = 126 then none else decodeDigits beyond (n * 58 + byte.toNat) cs

/-- The error flag and the value of `*this` afterwards. -/
def decodeBase58check (beyond : ℤ → UInt8) (check : BitVec 256 → BitVec 32) (this : BitVec 256)
    (source : Text) : Bool × BitVec 256 :=
  if source.length ≠ 50 then (true, this)
  else
    match decodeDigits beyond 0 source with
    | none => (true, this)
    | some n =>
        let value := BitVec.ofNat 256 n
        if n >>> (256 + 32) ≠ 13 then (true, value)
        else (decide (BitVec.ofNat 32 (n >>> 256) ≠ check value), value)

variable {beyond : ℤ → UInt8} {check : BitVec 256 → BitVec 32} {x this : BitVec 256}

section Number

theorem tagged_eq (check : BitVec 256 → BitVec 32) (x : BitVec 256) :
    tagged check x = 13 * 2 ^ 288 + (check x).toNat * 2 ^ 256 + x.toNat := by
  have hx := x.isLt
  have hc := (check x).isLt
  have h₁ : x.toNat ||| (check x).toNat <<< 256 = (check x).toNat * 2 ^ 256 + x.toNat := by
    rw [Nat.or_comm, ← Nat.shiftLeft_add_eq_or_of_lt hx, Nat.shiftLeft_eq]
  have h₂ : (check x).toNat * 2 ^ 256 + x.toNat < 2 ^ 288 := by omega
  unfold tagged
  rw [h₁, Nat.or_comm, ← Nat.shiftLeft_add_eq_or_of_lt h₂, Nat.shiftLeft_eq]
  omega

theorem eq_tagged_iff (check : BitVec 256 → BitVec 32) (n : ℕ) :
    n = tagged check (BitVec.ofNat 256 n) ↔
      n >>> 288 = 13 ∧ BitVec.ofNat 32 (n >>> 256) = check (BitVec.ofNat 256 n) := by
  have hc := (check (BitVec.ofNat 256 n)).isLt
  rw [tagged_eq, Nat.shiftRight_eq_div_pow, Nat.shiftRight_eq_div_pow, ← BitVec.toNat_inj,
    BitVec.toNat_ofNat, BitVec.toNat_ofNat]
  omega

theorem tagged_bounds (check : BitVec 256 → BitVec 32) (x : BitVec 256) :
    58 ^ 49 ≤ tagged check x ∧ tagged check x < 58 ^ 50 := by
  have hx := x.isLt
  have hc := (check x).isLt
  rw [tagged_eq]
  omega

theorem ofNat_tagged (check : BitVec 256 → BitVec 32) (x : BitVec 256) :
    BitVec.ofNat 256 (tagged check x) = x := by
  have hx := x.isLt
  rw [← BitVec.toNat_inj, BitVec.toNat_ofNat, tagged_eq]
  omega

theorem length_digits (check : BitVec 256 → BitVec 32) (x : BitVec 256) :
    (Nat.digits 58 (tagged check x)).length = 50 := by
  obtain ⟨hle, hlt⟩ := tagged_bounds check x
  apply le_antisymm
  · exact (Nat.digits_length_le_iff (by decide) _).mpr hlt
  · exact (Nat.lt_digits_length_iff (by decide) _).mpr hle

end Number

section Characters

/-- The bytes of the literal, so that it is read only once. -/
theorem base58Lookup_bytes : base58Lookup =
    [49, 50, 51, 52, 53, 54, 55, 56, 57, 65, 66, 67, 68, 69, 70, 71, 72, 74, 75, 76, 77, 78, 80,
      81, 82, 83, 84, 85, 86, 87, 88, 89, 90, 97, 98, 99, 100, 101, 102, 103, 104, 105, 106, 107,
      109, 110, 111, 112, 113, 114, 115, 116, 117, 118, 119, 120, 121, 122] := by
  decide +kernel

theorem base58Reverse_bytes : base58Reverse =
    [126, 48, 49, 50, 51, 52, 53, 54, 55, 56, 126, 126, 126, 126, 126, 126, 126, 57, 58, 59, 60,
      61, 62, 63, 64, 126, 65, 66, 67, 68, 69, 126, 70, 71, 72, 73, 74, 75, 76, 77, 78, 79, 80, 126,
      126, 126, 126, 126, 126, 81, 82, 83, 84, 85, 86, 87, 88, 89, 90, 91, 126, 92, 93, 94, 95, 96,
      97, 98, 99, 100, 101, 102, 103, 104, 105, 0] := by
  decide +kernel

theorem base58Lookup_eq : base58Lookup = (List.finRange 58).map base58Encode := by
  unfold base58Encode
  rw [base58Lookup_bytes]
  decide +kernel

theorem mem_base58Lookup {c : UInt8} : c ∈ base58Lookup ↔ ∃ d, base58Encode d = c := by
  rw [base58Lookup_eq]
  simp

theorem base58Decode_encode (beyond : ℤ → UInt8) (d : Fin 58) :
    base58Decode beyond (base58Encode d) = d.val.toUInt8 := by
  have hindex : ∀ d : Fin 58, 0 ≤ (base58Encode d).toBitVec.toInt - 0x30 ∧
      (base58Encode d).toBitVec.toInt - 0x30 < 76 := by
    unfold base58Encode
    rw [base58Lookup_bytes]
    decide +kernel
  unfold base58Decode
  dsimp only
  rw [if_pos (hindex d), base58Reverse_bytes, base58Encode, base58Lookup_bytes]
  revert d
  decide +kernel

theorem base58Decode_encode_toNat (beyond : ℤ → UInt8) (d : Fin 58) :
    (base58Decode beyond (base58Encode d)).toNat = d.val := by
  rw [base58Decode_encode]
  revert d
  decide

end Characters

section Digits

def spell (ds : List (Fin 58)) : Text := (ds.map base58Encode).reverse

theorem encodeDigits_eq (n : ℕ) :
    encodeDigits n = ((Nat.digits 58 n).map (Fin.ofNat 58)).map base58Encode := by
  induction n using Nat.strong_induction_on with
  | h n ih =>
      unfold encodeDigits
      split_ifs with h₀
      · rw [h₀]
        rfl
      · have hlt : n / 58 < n := Nat.div_lt_self (by omega) (by decide)
        have hmod : Fin.ofNat 58 (n % 58) = Fin.ofNat 58 n := by
          apply Fin.ext
          exact Nat.mod_mod n 58
        rw [Nat.digits_def' (by decide) (by omega), List.map_cons, List.map_cons, hmod, ih _ hlt]

theorem encodeBase58check_eq (check : BitVec 256 → BitVec 32) (x : BitVec 256) :
    encodeBase58check check x = spell ((Nat.digits 58 (tagged check x)).map (Fin.ofNat 58)) := by
  unfold encodeBase58check spell
  rw [encodeDigits_eq]

theorem map_val_digits (n : ℕ) :
    ((Nat.digits 58 n).map (Fin.ofNat 58)).map Fin.val = Nat.digits 58 n := by
  have hval : ∀ d ∈ Nat.digits 58 n, (Fin.val ∘ Fin.ofNat 58) d = id d := by
    intro d hd
    exact Nat.mod_eq_of_lt (Nat.digits_lt_base (by decide) hd)
  rw [List.map_map, List.map_congr_left hval, List.map_id]

theorem map_ofNat_val (ds : List (Fin 58)) : (ds.map Fin.val).map (Fin.ofNat 58) = ds := by
  have hval : ∀ d ∈ ds, (Fin.ofNat 58 ∘ Fin.val) d = id d := by
    intro d _
    apply Fin.ext
    exact Nat.mod_eq_of_lt d.isLt
  rw [List.map_map, List.map_congr_left hval, List.map_id]

theorem decodeDigits_spell (beyond : ℤ → UInt8) (ds : List (Fin 58)) :
    decodeDigits beyond 0 (spell ds) = some (Nat.ofDigits 58 (ds.map Fin.val)) := by
  have general : ∀ (cs : List (Fin 58)) (n : ℕ), decodeDigits beyond n (cs.map base58Encode) =
      some (cs.foldl (fun n d => n * 58 + d.val) n) := by
    intro cs
    induction cs with
    | nil => exact fun n => rfl
    | cons d cs ih =>
        intro n
        have hd := base58Decode_encode_toNat beyond d
        have hne : base58Decode beyond (base58Encode d) ≠ 126 := by
          intro he
          rw [he] at hd
          have hlt := d.isLt
          rw [← hd] at hlt
          revert hlt
          decide
        rw [List.map_cons, decodeDigits, if_neg hne, hd, ih]
        rfl
  unfold spell
  rw [← List.map_reverse, general, List.foldl_reverse]
  congr 1
  induction ds with
  | nil => rfl
  | cons d ds ih =>
      rw [List.foldr_cons, ih, List.map_cons, Nat.ofDigits_cons]
      omega

theorem spell_alphabet (ds : List (Fin 58)) : ∀ c ∈ spell ds, c ∈ base58Lookup := by
  intro c hc
  obtain ⟨d, _, rfl⟩ := List.mem_map.mp (List.mem_reverse.mp hc)
  exact mem_base58Lookup.mpr ⟨d, rfl⟩

theorem exists_spell {s : Text} (hs : ∀ c ∈ s, c ∈ base58Lookup) : ∃ ds, spell ds = s := by
  have hrange : s.reverse ∈ Set.range (List.map base58Encode) := by
    rw [Set.range_list_map]
    intro c hc
    exact mem_base58Lookup.mp (hs c (List.mem_reverse.mp hc))
  obtain ⟨ds, hds⟩ := hrange
  refine ⟨ds, ?_⟩
  unfold spell
  rw [hds, List.reverse_reverse]

end Digits

/-- A text of fifty characters is accepted with the number it spells. -/
theorem decode_ok {s : Text} : decodeBase58check beyond check this s = (false, x) ↔
    s.length = 50 ∧ decodeDigits beyond 0 s = some (tagged check x) := by
  unfold decodeBase58check
  constructor
  · intro h
    split_ifs at h with hlen
    · cases h
    refine ⟨not_not.mp hlen, ?_⟩
    cases hn : decodeDigits beyond 0 s with
    | none =>
        rw [hn] at h
        cases h
    | some n =>
        rw [hn] at h
        dsimp only at h
        split_ifs at h with htag
        · cases h
        obtain ⟨hcheck, hx⟩ := Prod.mk.inj h
        have hcheck := not_not.mp (of_decide_eq_false hcheck)
        have heq := (eq_tagged_iff check n).mpr ⟨not_not.mp htag, hcheck⟩
        rw [hx] at heq
        rw [heq]
  · intro h
    have heq := ofNat_tagged check x
    have hparts := (eq_tagged_iff check _).mp (congrArg (tagged check) heq).symm
    rw [if_neg (not_not.mpr h.1), h.2]
    dsimp only
    rw [if_neg (not_not.mpr hparts.1), heq, hparts.2, heq]
    simp

theorem length_encodeBase58check (check : BitVec 256 → BitVec 32) (x : BitVec 256) :
    (encodeBase58check check x).length = 50 := by
  rw [encodeBase58check_eq, spell, List.length_reverse, List.length_map, List.length_map,
    length_digits]

theorem decodeBase58check_encode (beyond : ℤ → UInt8) (check : BitVec 256 → BitVec 32)
    (this x : BitVec 256) :
    decodeBase58check beyond check this (encodeBase58check check x) = (false, x) := by
  refine decode_ok.mpr ⟨length_encodeBase58check check x, ?_⟩
  rw [encodeBase58check_eq, decodeDigits_spell, map_val_digits, Nat.ofDigits_digits]

/-- Every account number has one text, of fifty characters of the alphabet, and
that text is decoded to it. A text that is accepted is the text of its number if
and only if all its characters are of the alphabet. -/
theorem base58check_canonical (beyond : ℤ → UInt8) (check : BitVec 256 → BitVec 32) :
    (∀ x, (encodeBase58check check x).length = 50 ∧
      (∀ c ∈ encodeBase58check check x, c ∈ base58Lookup) ∧
      ∀ this, decodeBase58check beyond check this (encodeBase58check check x) = (false, x)) ∧
    ∀ this s x, decodeBase58check beyond check this s = (false, x) →
      (s = encodeBase58check check x ↔ ∀ c ∈ s, c ∈ base58Lookup) := by
  have halphabet : ∀ x, ∀ c ∈ encodeBase58check check x, c ∈ base58Lookup := by
    intro x
    rw [encodeBase58check_eq]
    exact spell_alphabet _
  constructor
  · intro x
    exact ⟨length_encodeBase58check check x, halphabet x,
      fun this => decodeBase58check_encode beyond check this x⟩
  · intro this s x h
    obtain ⟨hlen, hn⟩ := decode_ok.mp h
    constructor
    · intro hs
      rw [hs]
      exact halphabet x
    · intro hs
      obtain ⟨ds, rfl⟩ := exists_spell hs
      rw [decodeDigits_spell] at hn
      have hdigits : ds.map Fin.val = Nat.digits 58 (tagged check x) := by
        apply Nat.ofDigits_inj_of_len_eq (b := 58) (by decide)
        · rw [length_digits, List.length_map, ← hlen, spell, List.length_reverse, List.length_map]
        · intro d hd
          obtain ⟨e, _, rfl⟩ := List.mem_map.mp hd
          exact e.isLt
        · intro d hd
          exact Nat.digits_lt_base (by decide) hd
        · rw [Nat.ofDigits_digits]
          exact Option.some.inj hn
      rw [encodeBase58check_eq, ← hdigits, map_ofNat_val]

section Genesis

/-- The checksum, as it is for the account of the test genesis block. -/
def genesisCheck (x : BitVec 256) : BitVec 32 :=
  if x = 0xb0311ea55708d6a53c75cdbf88300259c6d018522fe3d4d0a242e431f9e8b6d0 then 0x96cf9ac5 else 0

def genesisText : Text := bytes "TR6ZJ4pdp6HC76xMRpVDny5x2s8AEbrhFue3NKVxYYdmKuTEib"

theorem base58check_canonical_genesis :
    decodeBase58check (fun _ => 0) genesisCheck 0 genesisText =
      (false, 0xb0311ea55708d6a53c75cdbf88300259c6d018522fe3d4d0a242e431f9e8b6d0) ∧
    genesisText = encodeBase58check genesisCheck
      0xb0311ea55708d6a53c75cdbf88300259c6d018522fe3d4d0a242e431f9e8b6d0 := by
  have h : decodeBase58check (fun _ => 0) genesisCheck 0 genesisText =
      (false, 0xb0311ea55708d6a53c75cdbf88300259c6d018522fe3d4d0a242e431f9e8b6d0) := by
    decide +kernel
  have halphabet : genesisText.all (fun c => base58Lookup.contains c) = true := by
    decide +kernel
  refine ⟨h, ((base58check_canonical (fun _ => 0) genesisCheck).2 0 genesisText _ h).mpr ?_⟩
  intro c hc
  exact List.contains_iff_mem.mp (List.all_eq_true.mp halphabet c hc)

/-- The text of the genesis account with two characters changed: the digit 20 of
`M` is written as 78, with the character zero, and one is taken from the digit
before. -/
def zeroText : Text := bytes "TR6ZJ4pdp6HC76w0RpVDny5x2s8AEbrhFue3NKVxYYdmKuTEib"

/-- A text with a character that is not of the alphabet is accepted. -/
theorem zero_character_accepted : ¬ ∀ beyond check this s x,
    decodeBase58check beyond check this s = (false, x) → s = encodeBase58check check x := by
  intro hall
  have h : decodeBase58check (fun _ => 0) genesisCheck 0 zeroText =
      (false, 0xb0311ea55708d6a53c75cdbf88300259c6d018522fe3d4d0a242e431f9e8b6d0) := by
    decide +kernel
  have heq := hall _ _ _ _ _ h
  rw [encodeBase58check_eq] at heq
  have halphabet := spell_alphabet ((Nat.digits 58 (tagged genesisCheck
    0xb0311ea55708d6a53c75cdbf88300259c6d018522fe3d4d0a242e431f9e8b6d0)).map (Fin.ofNat 58))
  rw [← heq] at halphabet
  have hzero := halphabet 48 (by decide +kernel)
  revert hzero
  decide +kernel

end Genesis

end PaperNode.Base58
