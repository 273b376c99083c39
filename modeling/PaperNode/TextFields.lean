import PaperNode.Base58
import PaperNode.HexNumerals
import PaperNode.PropertyTree

/-!
# Fields written as text

Numbers of 128, 256 and 512 bits are written as hexadecimal numerals that fill a fixed width,
work values as sixteen digits, and accounts in base 58. Each reader has its own check of the
length. The extraction of a number from a stream is taken from outside: Boost extracts the
wide numbers and may throw, the standard library extracts a word and never throws.

A property tree has texts for its names and values, and a path is written with dots.
-/
namespace PaperNode.TextFields
open Base58 HexNumerals PropertyTree

/-- What the readers take from outside: the extraction of a number in hexadecimal, the checksum of
an account, and what lies around the table of base 58. -/
structure Codec where
  /-- There is no result if the extraction throws. -/
  extract : (w : ℕ) → Text → Option (BitVec w)
  extractQword : Text → BitVec 64
  checksum : BitVec 256 → BitVec 32
  beyond : ℤ → UInt8

/-- Numerals are extracted as the numbers they spell. -/
structure Hexadecimal (C : Codec) : Prop where
  extract : ∀ w t, IsNumeral t → value t < 2 ^ w → C.extract w t = some (BitVec.ofNat w (value t))
  extractQword : ∀ t, IsNumeral t → value t < 2 ^ 64 →
    C.extractQword t = BitVec.ofNat 64 (value t)

/-- `encode_hex` of the three unions, and `to_string_hex`. -/
def encodeHex (width : ℕ) {w : ℕ} (x : BitVec w) : Text := padded width x.toNat

def encodeHex128 (x : BitVec 128) : Text := encodeHex 32 x

def encodeHex256 (x : BitVec 256) : Text := encodeHex 64 x

def encodeHex512 (x : BitVec 512) : Text := encodeHex 128 x

def toStringHex (x : BitVec 64) : Text := encodeHex 16 x

namespace Codec

def decodeHexUpTo (C : Codec) (limit w : ℕ) (text : Text) : Option (BitVec w) :=
  if limit < text.length then none else C.extract w text

def decodeHex128 (C : Codec) : Text → Option (BitVec 128) := C.decodeHexUpTo 32 128

/-- Of the three only this one refuses the empty text. -/
def decodeHex256 (C : Codec) (text : Text) : Option (BitVec 256) :=
  if text = [] then none else C.decodeHexUpTo 64 256 text

def decodeHex512 (C : Codec) : Text → Option (BitVec 512) := C.decodeHexUpTo 128 512

/-- A text of eight characters is refused, and no other. -/
def fromStringHex (C : Codec) (text : Text) : Option (BitVec 64) :=
  if text.length = 8 then none else some (C.extractQword text)

def toBase58check (C : Codec) (x : BitVec 256) : Text := encodeBase58check C.checksum x

def fromBase58check (C : Codec) (text : Text) : Option (BitVec 256) :=
  let decoded := decodeBase58check C.beyond C.checksum 0 text
  if decoded.1 then none else some decoded.2

variable {C : Codec}

section Hex
variable {w : ℕ} (width : ℕ)

theorem value_encodeHex (x : BitVec w) : value (encodeHex width x) = x.toNat :=
  value_padded width x.toNat

theorem length_encodeHex (hw : 0 < width) (hbits : w = 4 * width) (x : BitVec w) :
    (encodeHex width x).length = width := by
  have hpow : (16 : ℕ) ^ width = 2 ^ w := by rw [hbits, Nat.pow_mul]
  have hlt : x.toNat < 16 ^ width := hpow ▸ x.isLt
  exact length_padded hw hlt

theorem decodeHexUpTo_encodeHex (hC : Hexadecimal C) (hw : 0 < width) (hbits : w = 4 * width)
    (x : BitVec w) : C.decodeHexUpTo width w (encodeHex width x) = some x := by
  have hvalue := value_encodeHex width x
  have hnum : IsNumeral (encodeHex width x) := isNumeral_padded width x.toNat
  have hlt : value (encodeHex width x) < 2 ^ w := hvalue ▸ x.isLt
  rw [decodeHexUpTo, length_encodeHex width hw hbits, if_neg (lt_irrefl _),
    hC.extract w _ hnum hlt, hvalue, BitVec.ofNat_toNat,
    BitVec.setWidth_eq]

end Hex

theorem decodeHex128_encodeHex (hC : Hexadecimal C) (x : BitVec 128) :
    C.decodeHex128 (encodeHex128 x) = some x :=
  decodeHexUpTo_encodeHex 32 hC (by decide) rfl x

theorem decodeHex256_encodeHex (hC : Hexadecimal C) (x : BitVec 256) :
    C.decodeHex256 (encodeHex256 x) = some x := by
  have hne : encodeHex256 x ≠ [] := padded_ne_nil 64 x.toNat
  rw [decodeHex256, if_neg hne]
  exact decodeHexUpTo_encodeHex 64 hC (by decide) rfl x

theorem decodeHex512_encodeHex (hC : Hexadecimal C) (x : BitVec 512) :
    C.decodeHex512 (encodeHex512 x) = some x :=
  decodeHexUpTo_encodeHex 128 hC (by decide) rfl x

theorem fromStringHex_toStringHex (hC : Hexadecimal C) (x : BitVec 64) :
    C.fromStringHex (toStringHex x) = some x := by
  have hvalue : value (encodeHex 16 x) = x.toNat := value_encodeHex 16 x
  have hlength : (encodeHex 16 x).length = 16 := length_encodeHex 16 (by decide) rfl x
  have hnum : IsNumeral (encodeHex 16 x) := isNumeral_padded 16 x.toNat
  have hlt : value (encodeHex 16 x) < 2 ^ 64 := hvalue ▸ x.isLt
  rw [fromStringHex, toStringHex, hlength, if_neg (by decide),
    hC.extractQword _ hnum hlt, hvalue, BitVec.ofNat_toNat,
    BitVec.setWidth_eq]

theorem fromBase58check_toBase58check (C : Codec) (x : BitVec 256) :
    C.fromBase58check (C.toBase58check x) = some x := by
  unfold fromBase58check toBase58check
  rw [decodeBase58check_encode]
  rfl

end Codec

abbrev Ptree := PropertyTree.Tree Text Text

namespace Ptree

/-- `ptree::get` of a string; without a result it throws. -/
def text (t : Ptree) (path : Text) : Option Text := t.get (segments 46 path)

def putText (t : Ptree) (path value : Text) : Ptree := t.put (segments 46 path) value

def ofTexts (l : List (Text × Text)) : Ptree :=
  l.foldl (fun t m => putText t m.1 m.2) (.node [] [])

def Plain (name : Text) : Prop := name ≠ [] ∧ 46 ∉ name

variable {l : List (Text × Text)} {m : Text × Text}

theorem text_plain {name : Text} (t : Ptree) (h : Plain name) : text t name = t.get [name] := by
  rw [text, segments_single h.1 h.2]

theorem ofTexts_eq (hl : ∀ m ∈ l, Plain m.1) : ofTexts l = PropertyTree.Tree.ofPairs l := by
  have general : ∀ (l : List (Text × Text)) (t : Ptree), (∀ m ∈ l, Plain m.1) →
      l.foldl (fun t m => putText t m.1 m.2) t = l.foldl (fun t m => t.put [m.1] m.2) t := by
    intro l
    induction l with
    | nil => exact fun _ _ => rfl
    | cons m l ih =>
        intro t hl
        have hm := hl m (by simp)
        rw [List.foldl_cons, List.foldl_cons, putText, segments_single hm.1 hm.2]
        exact ih _ (fun x hx => hl x (by simp [hx]))
  exact general l _ hl

theorem text_ofTexts (hl : ∀ m ∈ l, Plain m.1) (hnodup : (l.map Prod.fst).Nodup) (hm : m ∈ l) :
    text (ofTexts l) m.1 = some m.2 := by
  rw [text_plain _ (hl m hm), ofTexts_eq hl]
  exact PropertyTree.Tree.get_ofPairs hnodup hm

end Ptree

theorem plain_encodeHex (width : ℕ) {w : ℕ} (x : BitVec w) : Ptree.Plain (encodeHex width x) := by
  refine ⟨padded_ne_nil width x.toNat, ?_⟩
  intro h
  obtain ⟨d, hd⟩ := mem_padded h
  exact digit_ne_dot d hd.symm

section Sample

instance decidableIsNumeral (t : Text) : Decidable (IsNumeral t) :=
  inferInstanceAs (Decidable (t ≠ [] ∧ ∀ c ∈ t, digitValue c ≠ none))

/-- Readers that extract numerals and refuse every other text. -/
def numeralCodec : Codec where
  extract := fun w t => if IsNumeral t then some (BitVec.ofNat w (value t)) else none
  extractQword := fun t => BitVec.ofNat 64 (value t)
  checksum := genesisCheck
  beyond := fun _ => 0

theorem numeralCodec_hexadecimal : Hexadecimal numeralCodec where
  extract := fun _ _ ht _ => if_pos ht
  extractQword := fun _ _ _ => rfl

end Sample

end PaperNode.TextFields
