import PaperNode.Blocks
import PaperNode.BoundedRecursion
import PaperNode.SwapRemoval

/-!
# The key derivation function

`kdf::generate` makes a key from a password and a salt, with a table that has to be kept in memory.
A generator that is seeded with both fills the table, then writes to it again, then reads all of it
in an order of its own into the hash. An access outside the table and a remainder by zero are faults
of the model, so that a result shows that there is neither.
-/
namespace PaperNode.KeyDerivation
open BoundedRecursion Blocks SwapRemoval Words

/-- `xorshift1024star`. -/
structure Xorshift where
  s : Fin 16 → Word64
  p : Fin 16

def Xorshift.next (r : Xorshift) : Word64 × Xorshift :=
  let pn : Fin 16 := ⟨(r.p.val + 1) % 16, Nat.mod_lt _ (Nat.succ_pos 15)⟩
  let s0 := r.s r.p
  let s1 := r.s pn
  let s1 := s1 ^^^ (s1 <<< 31) -- a
  let s1 := s1 ^^^ (s1 >>> 11) -- b
  let s0 := s0 ^^^ (s0 >>> 30) -- c
  let x := s0 ^^^ s1
  (x * 1181783497276652981, ⟨Function.update r.s pn x, pn⟩)

def Xorshift.skip : ℕ → Xorshift → Xorshift
  | 0, r => r
  | k + 1, r => skip k r.next.2

def Xorshift.output (r : Xorshift) (k : ℕ) : Word64 := (r.skip k).next.1

theorem Xorshift.skip_skip (j k : ℕ) (r : Xorshift) : (r.skip j).skip k = r.skip (j + k) := by
  induction j generalizing r with
  | zero => rw [Nat.zero_add]; rfl
  | succ j ih => rw [Nat.succ_add]; exact ih r.next.2

theorem Xorshift.output_skip (j k : ℕ) (r : Xorshift) :
    (r.skip j).output k = r.output (j + k) := by
  rw [output, skip_skip]
  rfl

inductive KdfFault where
  | stepping | outOfBounds | zeroModulus
  deriving DecidableEq, Repr

abbrev KdfChecked := Check KdfFault

def fetch (data : List Word64) (i : ℕ) : KdfChecked Word64 := demand data[i]? .outOfBounds

def store (data : List Word64) (i : ℕ) (x : Word64) : KdfChecked (List Word64) := do
  require (i < data.length) .outOfBounds
  return data.set i x

def remainder (x : Word64) (m : ℕ) : KdfChecked ℕ := do
  require (m ≠ 0) .zeroModulus
  return x.toNat % m

structure Memory where
  rng : Xorshift
  data : List Word64

/-- Random-fill buffer for an initialized starting point. -/
def fill : ℕ → Xorshift → Memory
  | 0, r => ⟨r, []⟩
  | n + 1, r =>
      let rest := fill n r.next.2
      ⟨rest.rng, r.next.1 :: rest.data⟩

/-- Random-write buffer to break n+1 = f(n) relation. The writes are listed beside the memory. The
output `previous` stays the same through the loop. -/
def writeLoop (previous mask : Word64) :
    ℕ → Memory → KdfChecked (List (ℕ × Word64) × Memory)
  | 0, s => return ([], s)
  | n + 1, s => do
      let index := (previous &&& mask).toNat
      let value := s.rng.next.1
      -- Use the index from the previous random value so LSB (data[index]) != value
      let data ← store s.data index value
      let rest ← writeLoop previous mask n ⟨s.rng.next.2, data⟩
      return ((index, value) :: rest.1, rest.2)

def mask (entries : ℕ) : Word64 := BitVec.ofNat 64 entries - 1

def writePhase (entries : ℕ) (r : Xorshift) : KdfChecked (List (ℕ × Word64) × Memory) :=
  let s := fill entries r
  let previous := s.rng.next.1
  writeLoop previous (mask entries) entries ⟨s.rng.next.2, s.data⟩

/-- One turn of the inner loop of the reads, with `c` turns before it. -/
def readOne (entries c : ℕ) (s : Memory) : KdfChecked (Word64 × Memory) := do
  let index ← remainder s.rng.next.1 (entries - c)
  let value ← fetch s.data index
  let last ← fetch s.data (entries - c - 1)
  let data ← store s.data index last
  return (value, ⟨s.rng.next.2, data⟩)

def readMany (entries : ℕ) : ℕ → ℕ → Memory → KdfChecked (List Word64 × Memory)
  | 0, _, s => return ([], s)
  | k + 1, c, s => do
      let one ← readOne entries c s
      let rest ← readMany entries k (c + 1) one.2
      return (one.1 :: rest.1, rest.2)

def stepping : ℕ := 16

/-- Random-read buffer to prevent partial memorization. The blocks that are fed to the hash. -/
def readBlocks (entries : ℕ) : ℕ → ℕ → Memory → KdfChecked (List (List Word64))
  | 0, _, _ => exhaust
  | fuel + 1, i, s =>
      if i = entries then return []
      else do
        let block ← readMany entries stepping i s
        let rest ← readBlocks entries fuel (i + stepping) block.2
        return block.1 :: rest

def readPhase (entries : ℕ) (s : Memory) : KdfChecked (List (List Word64)) :=
  readBlocks entries (entries / stepping + 1) 0 s

/-- A part of a number in its bytes, as a little-endian machine reads it. -/
def qword (x : BitVec 256) (i : ℕ) : Word64 :=
  ofBytes 8 (((bytes 32 x).drop (8 * i)).take 8).reverse

def seed (input : BitVec 256) : Xorshift :=
  ⟨fun i => if i.val < 4 then qword input i else 0, ⟨0, Nat.succ_pos 15⟩⟩

/-- Derive a wallet key from a password and salt. -/
def generate (blake2b : List UInt8 → BitVec 256) (entries : ℕ) (password : List UInt8)
    (salt : BitVec 256) : KdfChecked (BitVec 256) := do
  require (entries % stepping = 0) .stepping
  let written ← writePhase entries (seed (blake2b password ^^^ salt))
  let blocks ← readPhase entries written.2
  -- Hash the memory buffer to derive encryption key
  return blake2b (blocks.flatMap fun block => block.flatMap (littleEndian 8))

theorem fill_eq (n : ℕ) (r : Xorshift) :
    (fill n r).rng = r.skip n ∧ (fill n r).data.length = n := by
  induction n generalizing r with
  | zero => exact ⟨rfl, rfl⟩
  | succ n ih =>
      obtain ⟨hrng, hlength⟩ := ih r.next.2
      exact ⟨hrng, congrArg (· + 1) hlength⟩

theorem and_mask_lt (x : Word64) {entries : ℕ} (h : 0 < entries) :
    (x &&& mask entries).toNat < entries := by
  have hle : (x &&& mask entries).toNat ≤ (mask entries).toNat := by
    rw [BitVec.toNat_and]
    exact Nat.and_le_right
  have hmask : (mask entries).toNat ≤ entries - 1 := by
    have hone : (1 : Word64).toNat = 1 := rfl
    rw [mask, BitVec.toNat_sub, BitVec.toNat_ofNat, hone]
    omega
  omega

section Writes
variable {previous m : Word64} {s : Memory}

/-- All writes go to one place, and the others are left. -/
theorem writeLoop_eq (n : ℕ) (hindex : (previous &&& m).toNat < s.data.length) :
    ∃ data, writeLoop previous m n s =
        .ok ((List.range n).map fun k => ((previous &&& m).toNat, s.rng.output k),
          ⟨s.rng.skip n, data⟩) ∧
      data.length = s.data.length ∧ ∀ j ≠ (previous &&& m).toNat, data[j]? = s.data[j]? := by
  induction n generalizing s with
  | zero => exact ⟨s.data, rfl, rfl, fun _ _ => rfl⟩
  | succ n ih =>
      have hset : (previous &&& m).toNat <
          (s.data.set (previous &&& m).toNat s.rng.next.1).length := by
        rwa [List.length_set]
      obtain ⟨data, hrun, hlength, hothers⟩ := ih (s := ⟨s.rng.next.2, _⟩) hset
      refine ⟨data, ?_, hlength.trans List.length_set, ?_⟩
      · rw [writeLoop, store, require_of hindex]
        simp only [ok_bind, pure_bind, hrun, List.range_succ_eq_map, List.map_cons, List.map_map]
        rfl
      · intro j hj
        rw [hothers j hj]
        exact List.getElem?_set_ne hj.symm

end Writes

/-- The writes of the phase. -/
theorem writePhase_eq (entries : ℕ) (r : Xorshift) :
    ∃ s, writePhase entries r =
        .ok ((List.range entries).map fun k => ((r.output entries &&& mask entries).toNat,
          r.output (entries + k + 1)), s) ∧ s.data.length = entries := by
  obtain ⟨hrng, hlength⟩ := fill_eq entries r
  rcases Nat.eq_zero_or_pos entries with rfl | hpos
  · exact ⟨_, rfl, rfl⟩
  · have hprevious : (fill entries r).rng.next.1 = r.output entries := by
      rw [hrng]
      rfl
    have hnext : (fill entries r).rng.next.2 = r.skip (entries + 1) := by
      rw [hrng, ← Xorshift.skip_skip]
      rfl
    have hindex : (r.output entries &&& mask entries).toNat < (fill entries r).data.length := by
      rw [hlength]
      exact and_mask_lt _ hpos
    obtain ⟨data, hrun, hdata, _⟩ :=
      writeLoop_eq (s := ⟨r.skip (entries + 1), (fill entries r).data⟩) entries hindex
    refine ⟨⟨(r.skip (entries + 1)).skip entries, data⟩, ?_, hdata.trans hlength⟩
    rw [writePhase, hprevious, hnext, hrun]
    simp only [Xorshift.output_skip, Nat.add_right_comm]

/-- Each write goes to the place given by the masked output that was drawn immediately before the
value it writes. -/
def FreshIndices (entries : ℕ) (r : Xorshift) : Prop :=
  ∃ s, writePhase entries r =
    .ok ((List.range entries).map fun k => ((r.output (entries + k) &&& mask entries).toNat,
      r.output (entries + k + 1)), s)

theorem freshIndices_iff_agree (entries : ℕ) (r : Xorshift) :
    FreshIndices entries r ↔
      ∀ k < entries,
        r.output (entries + k) &&& mask entries = r.output entries &&& mask entries := by
  obtain ⟨s, hrun, _⟩ := writePhase_eq entries r
  unfold FreshIndices
  rw [hrun]
  simp only [Except.ok.injEq, Prod.mk.injEq, exists_and_left, exists_eq', and_true]
  rw [List.map_inj_left]
  simp only [List.mem_range, Prod.mk.injEq, and_true, BitVec.toNat_inj, eq_comm]

/-- The indices are fresh only if the outputs that should give them agree in the masked bits. -/
theorem freshIndices_iff (blake2b : List UInt8 → BitVec 256) (entries : ℕ)
    (password : List UInt8) (salt : BitVec 256) :
    FreshIndices entries (seed (blake2b password ^^^ salt)) ↔
      ∀ k < entries, (seed (blake2b password ^^^ salt)).output (entries + k) &&& mask entries =
        (seed (blake2b password ^^^ salt)).output entries &&& mask entries :=
  freshIndices_iff_agree entries _

/-- With a table of sixteen entries the second write goes to the place of the first for a seed that
the empty password and some salt give, whatever the hash. -/
theorem stale_index_written :
    ¬ FreshIndices 16 (seed 0x0123456789abcdef) ∧ ∀ blake2b : List UInt8 → BitVec 256,
      blake2b [] ^^^ (blake2b [] ^^^ 0x0123456789abcdef) = 0x0123456789abcdef := by
  constructor
  · intro h
    have hagree := (freshIndices_iff_agree 16 _).mp h 1 (by decide)
    exact absurd hagree (by decide +kernel)
  · intro blake2b
    rw [← BitVec.xor_assoc, BitVec.xor_self, BitVec.zero_xor]

section Reads
variable {entries c : ℕ} {s : Memory}

/-- A turn of the inner loop takes one of the live entries, those in front of `entries - c`. -/
theorem readOne_eq (hlength : s.data.length = entries) (hc : c < entries) :
    ∃ value t, readOne entries c s = .ok (value, t) ∧ t.data.length = entries ∧
      (s.data.take (entries - c)).Perm (value :: t.data.take (entries - (c + 1))) := by
  have hmod : s.rng.next.1.toNat % (entries - c) < entries - c := Nat.mod_lt _ (by omega)
  have hindex : s.rng.next.1.toNat % (entries - c) < s.data.length := by omega
  have hlast : entries - c - 1 < s.data.length := by omega
  refine ⟨s.data[s.rng.next.1.toNat % (entries - c)], ⟨s.rng.next.2,
    s.data.set (s.rng.next.1.toNat % (entries - c)) s.data[entries - c - 1]⟩, ?_, ?_, ?_⟩
  · simp only [readOne, remainder, fetch, store, require_of (show entries - c ≠ 0 by omega),
      ok_bind,
      pure_bind, List.getElem?_eq_getElem hindex, List.getElem?_eq_getElem hlast, demand,
      require_of hindex]
    rfl
  · rw [List.length_set, hlength]
  · have hperm := take_perm_cons_set (l := s.data) (Nat.le_sub_one_of_lt hmod) hlast
    rw [Nat.sub_add_cancel (by omega)] at hperm
    exact hperm

theorem readMany_eq (k : ℕ) (hlength : s.data.length = entries) (hc : c + k ≤ entries) :
    ∃ values t, readMany entries k c s = .ok (values, t) ∧ t.data.length = entries ∧
      (s.data.take (entries - c)).Perm (values ++ t.data.take (entries - (c + k))) := by
  induction k generalizing c s with
  | zero => exact ⟨[], s, rfl, hlength, .refl _⟩
  | succ k ih =>
      obtain ⟨value, t, hone, ht, hperm⟩ := readOne_eq hlength (c := c) (by omega)
      obtain ⟨values, u, hmany, hu, hrest⟩ := ih (c := c + 1) ht (by omega)
      refine ⟨value :: values, u, ?_, hu, ?_⟩
      · simp only [readMany, hone, hmany, ok_bind]
        rfl
      · have hcount : c + (k + 1) = c + 1 + k := by omega
        rw [hcount]
        exact hperm.trans (hrest.cons value)

/-- From a multiple of the step on, the blocks hold the live entries. -/
theorem readBlocks_eq (blocks : ℕ) {i : ℕ} (hlength : s.data.length = entries)
    (hi : i + stepping * blocks = entries) :
    ∃ l, readBlocks entries (blocks + 1) i s = .ok l ∧
      (s.data.take (entries - i)).Perm l.flatten := by
  induction blocks generalizing i s with
  | zero =>
      refine ⟨[], ?_, ?_⟩
      · rw [readBlocks, if_pos (by omega)]
        rfl
      · rw [show entries - i = 0 by omega]
        exact .refl _
  | succ blocks ih =>
      have hpos : 0 < stepping := by decide
      rw [Nat.mul_succ] at hi
      obtain ⟨block, t, hmany, ht, hperm⟩ := readMany_eq stepping hlength (c := i) (by omega)
      obtain ⟨l, hl, hrest⟩ := ih (i := i + stepping) ht (by omega)
      refine ⟨block :: l, ?_, ?_⟩
      · rw [readBlocks, if_neg (by omega)]
        simp only [hmany, hl, ok_bind]
        rfl
      · exact hperm.trans (hrest.append_left block)

end Reads

theorem readPhase_eq {entries : ℕ} (hentries : stepping ∣ entries) {s : Memory}
    (hlength : s.data.length = entries) :
    ∃ blocks, readPhase entries s = .ok blocks ∧ blocks.flatten.Perm s.data := by
  obtain ⟨l, hl, hperm⟩ := readBlocks_eq (entries / stepping) (i := 0) hlength
    (by rw [Nat.zero_add, Nat.mul_div_cancel' hentries])
  refine ⟨l, hl, ?_⟩
  rw [Nat.sub_zero, ← hlength, List.take_length] at hperm
  exact hperm.symm

/-- The reads stay inside the table and no remainder is by zero, whatever the generator yields, and
the words that are fed to the hash are those of the table. -/
theorem reads_whole_table {entries : ℕ} (hentries : stepping ∣ entries) (rng : Xorshift)
    (data : List Word64) (hlength : data.length = entries) :
    ∃ blocks, readPhase entries ⟨rng, data⟩ = .ok blocks ∧ blocks.flatten.Perm data :=
  readPhase_eq hentries hlength

/-- A table of sixteen different words. -/
theorem reads_whole_table_sixteen :
    ∃ blocks, readPhase 16 ⟨seed 1, (List.range 16).map (BitVec.ofNat 64)⟩ = .ok blocks ∧
      blocks.flatten.Perm ((List.range 16).map (BitVec.ofNat 64)) :=
  reads_whole_table (by decide) _ _ (by decide)

end PaperNode.KeyDerivation
