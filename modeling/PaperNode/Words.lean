import Mathlib.Order.Lattice
import Mathlib.Algebra.Group.Nat.Defs
import Mathlib.Data.Nat.Basic
import Mathlib.Data.Fintype.EquivFin
import Mathlib.Tactic.Common

/-!
# Fixed-width words and their byte strings

Words are bit vectors. Their byte string is big-endian and has a fixed number
of bytes, so the numeric order is the lexicographic order of the byte strings
and a concatenation of byte strings can be taken apart by length.
-/
namespace PaperNode.Words

instance linearOrderBitVec (w : ℕ) : LinearOrder (BitVec w) :=
  { le := fun x y => x.toNat ≤ y.toNat
    lt := fun x y => x.toNat < y.toNat
    le_refl := fun _ => le_rfl
    le_trans := fun _ _ _ => le_trans
    lt_iff_le_not_ge := fun _ _ => lt_iff_le_not_ge
    le_antisymm := fun _ _ h h' => BitVec.eq_of_toNat_eq (le_antisymm h h')
    le_total := fun _ _ => le_total _ _
    toDecidableLE := fun x y => inferInstanceAs (Decidable (x.toNat ≤ y.toNat))
    toDecidableEq := inferInstance
    toDecidableLT := fun x y => inferInstanceAs (Decidable (x.toNat < y.toNat)) }

instance finiteBitVec (w : ℕ) : Finite (BitVec w) :=
  Finite.of_injective BitVec.toFin (fun _ _ h => BitVec.eq_of_toNat_eq (congrArg Fin.val h))

/-- The low `n` bytes of a number, most significant first. -/
def bigEndian : ℕ → ℕ → List UInt8
  | 0, _ => []
  | n + 1, x => bigEndian n (x / 256) ++ [UInt8.ofNat x]

@[simp] theorem length_bigEndian (n x : ℕ) : (bigEndian n x).length = n := by
  induction n generalizing x with
  | zero => rfl
  | succ n ih => simp [bigEndian, ih]

theorem bigEndian_inj {n x y : ℕ} (hx : x < 256 ^ n) (hy : y < 256 ^ n)
    (h : bigEndian n x = bigEndian n y) : x = y := by
  induction n generalizing x y with
  | zero => simp at hx hy; omega
  | succ n ih =>
      obtain ⟨hi, lo⟩ := List.append_inj' h rfl
      have hlow : x % 256 = y % 256 := by
        have := congrArg UInt8.toNat (List.singleton_inj.mp lo)
        simpa using this
      have hhigh : x / 256 = y / 256 := by
        refine ih ?_ ?_ hi
        · exact Nat.div_lt_of_lt_mul (by rw [Nat.mul_comm, ← Nat.pow_succ]; exact hx)
        · exact Nat.div_lt_of_lt_mul (by rw [Nat.mul_comm, ← Nat.pow_succ]; exact hy)
      omega

/-- The byte string of a word of `8 * n` bits. -/
def bytes (n : ℕ) (x : BitVec (8 * n)) : List UInt8 := bigEndian n x.toNat

@[simp] theorem length_bytes (n : ℕ) (x : BitVec (8 * n)) : (bytes n x).length = n :=
  length_bigEndian n x.toNat

theorem bytes_inj {n : ℕ} {x y : BitVec (8 * n)} : bytes n x = bytes n y ↔ x = y := by
  refine ⟨fun h => ?_, congrArg _⟩
  have hp : (2 : ℕ) ^ (8 * n) = 256 ^ n := by rw [Nat.pow_mul]
  exact BitVec.eq_of_toNat_eq (bigEndian_inj (hp ▸ x.isLt) (hp ▸ y.isLt) h)

theorem bytes_append_inj {n : ℕ} {x y : BitVec (8 * n)} {r t : List UInt8} :
    bytes n x ++ r = bytes n y ++ t ↔ x = y ∧ r = t := by
  constructor
  · intro h
    obtain ⟨hxy, hrt⟩ := List.append_inj h (by simp)
    exact ⟨bytes_inj.mp hxy, hrt⟩
  · rintro ⟨rfl, rfl⟩
    rfl

def natOfBytes (l : List UInt8) : ℕ := l.foldl (fun x b => x * 256 + b.toNat) 0

theorem natOfBytes_concat (l : List UInt8) (b : UInt8) :
    natOfBytes (l ++ [b]) = natOfBytes l * 256 + b.toNat := by
  simp [natOfBytes]

theorem natOfBytes_lt (l : List UInt8) : natOfBytes l < 256 ^ l.length := by
  induction l using List.reverseRecOn with
  | nil => simp [natOfBytes]
  | append_singleton l b ih =>
      have hb : b.toNat < 256 := b.toNat_lt
      rw [natOfBytes_concat, List.length_append, List.length_singleton, Nat.pow_succ]
      omega

theorem bigEndian_natOfBytes (l : List UInt8) : bigEndian l.length (natOfBytes l) = l := by
  induction l using List.reverseRecOn with
  | nil => rfl
  | append_singleton l b ih =>
      have hb : b.toNat < 256 := b.toNat_lt
      have hhigh : (natOfBytes l * 256 + b.toNat) / 256 = natOfBytes l := by omega
      have hlow : UInt8.ofNat (natOfBytes l * 256 + b.toNat) = b := by
        apply UInt8.toNat_inj.mp
        simp
      rw [natOfBytes_concat, List.length_append, List.length_singleton, bigEndian, hhigh, hlow, ih]

/-- The word a byte string of length `n` spells. -/
def ofBytes (n : ℕ) (l : List UInt8) : BitVec (8 * n) := BitVec.ofNat (8 * n) (natOfBytes l)

theorem bytes_ofBytes {n : ℕ} {l : List UInt8} (h : l.length = n) : bytes n (ofBytes n l) = l := by
  subst h
  have hlt : natOfBytes l < 2 ^ (8 * l.length) := by
    rw [Nat.pow_mul]
    exact natOfBytes_lt l
  rw [bytes, ofBytes, BitVec.toNat_ofNat, Nat.mod_eq_of_lt hlt, bigEndian_natOfBytes]

@[simp] theorem ofBytes_bytes (n : ℕ) (x : BitVec (8 * n)) : ofBytes n (bytes n x) = x :=
  bytes_inj.mp (bytes_ofBytes (length_bytes n x))

def littleEndian (n : ℕ) (x : BitVec (8 * n)) : List UInt8 := (bytes n x).reverse

@[simp] theorem length_littleEndian (n : ℕ) (x : BitVec (8 * n)) :
    (littleEndian n x).length = n := by
  simp [littleEndian]

end PaperNode.Words
