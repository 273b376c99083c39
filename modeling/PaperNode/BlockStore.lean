import PaperNode.OrderedTable
import PaperNode.BoundedRecursion
import PaperNode.Blocks

/-!
# The block store

The tables of `block_store` that the ledger reads and writes, and the primitive
operations on them. A block table maps a hash to the serialized block followed
by the hash of its successor; the two parts are kept as a pair. Writing a block
also writes its hash into the successor part of its predecessor.

Every assertion the ledger and the store make is a named site. An operation
that asserts returns in the checked monad, the others are plain functions.
-/
namespace PaperNode.BlockStore
open OrderedTable BoundedRecursion Blocks

/-- What the program takes from outside the repository's ledger code: the
256-bit digest, the signature check (true is an error, as in the source), the
network's genesis account and the clock readings. `weightAssert` says whether
the weight assertion of `move_representation` is compiled in. -/
structure Env where
  blake2b : List UInt8 → BlockHash
  validateMessage : Account → BlockHash → Signature → Bool
  genesisAccount : Account
  now : ℕ → Word64
  weightAssert : Bool

def Env.hash (E : Env) (b : Block) : BlockHash := b.hash E.blake2b

/-- The assertion sites of the store and the ledger. `headStored` stands for
the unchecked dereference of the head block in `ledger::rollback`. -/
inductive Assertion where
  | predecessorStored | successorSet | blockDeleted | accountDeleted
  | frontierDeleted | pendingDeleted | checksumPrefix | checksumPresent
  | accountBlock | accountSource | amountOfChange | amountSource | amountUnknown
  | balanceBlock | representativeBlock | representativeStored
  | sourceBlock | sourceRep | destinationBlock | destinationRep | sourceWeight
  | rollbackAccount | headStored
  | frontierAccount | headIsPrevious | frontierIsDestination | pendingSource
  | genesisEmpty
  deriving DecidableEq, Repr

abbrev Checked := Check Assertion

structure AccountInfo where
  head : BlockHash := 0
  repBlock : BlockHash := 0
  balance : Amount := 0
  modified : Word64 := 0
  deriving DecidableEq, Repr

/-- An uncollected send: source account, amount, target account. -/
structure Receivable where
  source : Account := 0
  amount : Amount := 0
  destination : Account := 0
  deriving DecidableEq, Repr

structure Stored (β : Type) where
  block : β
  successor : BlockHash

structure Store where
  frontiers : Table BlockHash Account
  accounts : Table Account AccountInfo
  sendBlocks : Table BlockHash (Stored SendBlock)
  receiveBlocks : Table BlockHash (Stored ReceiveBlock)
  openBlocks : Table BlockHash (Stored OpenBlock)
  changeBlocks : Table BlockHash (Stored ChangeBlock)
  pending : Table BlockHash Receivable
  representation : Table Account Amount
  checksum : Table Word64 BlockHash
  /-- How many times the clock has been read. -/
  clock : ℕ

namespace Store

/-- The four tables are searched in this order. -/
def blockGetRaw (s : Store) (h : BlockHash) : Option (Stored Block) :=
  match s.sendBlocks.get h with
  | some e => some ⟨.sendBlock e.block, e.successor⟩
  | none =>
      match s.receiveBlocks.get h with
      | some e => some ⟨.receiveBlock e.block, e.successor⟩
      | none =>
          match s.openBlocks.get h with
          | some e => some ⟨.openBlock e.block, e.successor⟩
          | none =>
              match s.changeBlocks.get h with
              | some e => some ⟨.changeBlock e.block, e.successor⟩
              | none => none

def blockSuccessor (s : Store) (h : BlockHash) : BlockHash :=
  match s.blockGetRaw h with
  | some e => e.successor
  | none => 0

def blockGet (s : Store) (h : BlockHash) : Option Block := (s.blockGetRaw h).map Stored.block

def blockExists (s : Store) (h : BlockHash) : Bool :=
  (s.sendBlocks.get h).isSome || (s.receiveBlocks.get h).isSome ||
    (s.openBlocks.get h).isSome || (s.changeBlocks.get h).isSome

/-- `block_put_raw` into the table of the block's type. -/
def blockPutRaw (s : Store) (h : BlockHash) (e : Stored Block) : Store :=
  match e.block with
  | .sendBlock b => { s with sendBlocks := s.sendBlocks.put h ⟨b, e.successor⟩ }
  | .receiveBlock b => { s with receiveBlocks := s.receiveBlocks.put h ⟨b, e.successor⟩ }
  | .openBlock b => { s with openBlocks := s.openBlocks.put h ⟨b, e.successor⟩ }
  | .changeBlock b => { s with changeBlocks := s.changeBlocks.put h ⟨b, e.successor⟩ }

/-- Overwrite the successor part of the predecessor's value. -/
def fillValue (s : Store) (previous hash : BlockHash) : Checked Store :=
  match s.blockGetRaw previous with
  | none => fail .predecessorStored
  | some e => .ok (s.blockPutRaw previous { e with successor := hash })

/-- Open blocks have no predecessor to fill. -/
def setPredecessor (E : Env) (s : Store) : Block → Checked Store
  | .sendBlock b => s.fillValue b.hashables.previous (E.hash (.sendBlock b))
  | .receiveBlock b => s.fillValue b.hashables.previous (E.hash (.receiveBlock b))
  | .openBlock _ => .ok s
  | .changeBlock b => s.fillValue b.hashables.previous (E.hash (.changeBlock b))

def blockPut (E : Env) (s : Store) (h : BlockHash) (b : Block) : Checked Store := do
  let s ← setPredecessor E (s.blockPutRaw h ⟨b, 0⟩) b
  require (b.previous = 0 ∨ s.blockSuccessor b.previous = h) .successorSet
  return s

def blockDel (s : Store) (h : BlockHash) : Checked Store :=
  if (s.sendBlocks.get h).isSome then .ok { s with sendBlocks := s.sendBlocks.del h }
  else if (s.receiveBlocks.get h).isSome then
    .ok { s with receiveBlocks := s.receiveBlocks.del h }
  else if (s.openBlocks.get h).isSome then .ok { s with openBlocks := s.openBlocks.del h }
  else if (s.changeBlocks.get h).isSome then
    .ok { s with changeBlocks := s.changeBlocks.del h }
  else fail .blockDeleted

def accountGet (s : Store) (a : Account) : Option AccountInfo := s.accounts.get a

def accountPut (s : Store) (a : Account) (info : AccountInfo) : Store :=
  { s with accounts := s.accounts.put a info }

def accountDel (s : Store) (a : Account) : Checked Store := do
  require (s.accounts.get a).isSome .accountDeleted
  return { s with accounts := s.accounts.del a }

/-- An absent frontier reads as account zero. -/
def frontierGet (s : Store) (h : BlockHash) : Account := (s.frontiers.get h).getD 0

def frontierPut (s : Store) (h : BlockHash) (a : Account) : Store :=
  { s with frontiers := s.frontiers.put h a }

def frontierDel (s : Store) (h : BlockHash) : Checked Store := do
  require (s.frontiers.get h).isSome .frontierDeleted
  return { s with frontiers := s.frontiers.del h }

def pendingGet (s : Store) (h : BlockHash) : Option Receivable := s.pending.get h

def pendingPut (s : Store) (h : BlockHash) (r : Receivable) : Store :=
  { s with pending := s.pending.put h r }

def pendingDel (s : Store) (h : BlockHash) : Checked Store := do
  require (s.pending.get h).isSome .pendingDeleted
  return { s with pending := s.pending.del h }

def representationGet (s : Store) (a : Account) : Amount := (s.representation.get a).getD 0

def representationPut (s : Store) (a : Account) (v : Amount) : Store :=
  { s with representation := s.representation.put a v }

/-- A region is named by a prefix with a free low byte and a mask. -/
def checksumPut (s : Store) (region : Word64) (mask : BitVec 8) (v : BlockHash) :
    Checked Store := do
  require (region &&& 0xff = 0) .checksumPrefix
  return { s with checksum := s.checksum.put (region ||| mask.setWidth 64) v }

def checksumGet (s : Store) (region : Word64) (mask : BitVec 8) :
    Checked (Option BlockHash) := do
  require (region &&& 0xff = 0) .checksumPrefix
  return s.checksum.get (region ||| mask.setWidth 64)

/-- `block_store::now` returns the next reading of the clock. -/
def tick (s : Store) : Store := { s with clock := s.clock + 1 }

structure SameLedger (s s' : Store) : Prop where
  frontiers : s'.frontiers = s.frontiers
  accounts : s'.accounts = s.accounts
  pending : s'.pending = s.pending
  representation : s'.representation = s.representation
  checksum : s'.checksum = s.checksum
  clock : s'.clock = s.clock

theorem SameLedger.trans {s t u : Store} (h : SameLedger s t) (h' : SameLedger t u) :
    SameLedger s u :=
  ⟨h'.1.trans h.1, h'.2.trans h.2, h'.3.trans h.3, h'.4.trans h.4, h'.5.trans h.5,
    h'.6.trans h.6⟩

def holding (s : Store) (h : BlockHash) : ℕ :=
  (s.sendBlocks.get h).isSome.toNat + (s.receiveBlocks.get h).isSome.toNat +
    (s.openBlocks.get h).isSome.toNat + (s.changeBlocks.get h).isSome.toNat

def Exclusive (s : Store) : Prop := ∀ h, s.holding h ≤ 1

theorem blockExists_eq (s : Store) (h : BlockHash) : s.blockExists h = (s.blockGet h).isSome := by
  unfold blockExists blockGet blockGetRaw
  cases s.sendBlocks.get h <;> cases s.receiveBlocks.get h <;> cases s.openBlocks.get h <;>
    cases s.changeBlocks.get h <;> rfl

theorem blockExists_iff {s : Store} {h : BlockHash} :
    s.blockExists h = true ↔ ∃ b, s.blockGet h = some b := by
  rw [blockExists_eq, Option.isSome_iff_exists]

theorem blockExists_eq_false {s : Store} {h : BlockHash} :
    s.blockExists h = false ↔ s.blockGet h = none := by
  rw [blockExists_eq, Option.isSome_eq_false_iff, Option.isNone_iff_eq_none]

theorem holding_eq_zero {s : Store} {h : BlockHash} (hn : s.blockGet h = none) :
    s.holding h = 0 := by
  unfold blockGet blockGetRaw at hn
  unfold holding
  cases h₁ : s.sendBlocks.get h <;> cases h₂ : s.receiveBlocks.get h <;>
    cases h₃ : s.openBlocks.get h <;> cases h₄ : s.changeBlocks.get h <;> simp_all

theorem sameLedger_blockPutRaw (s : Store) (h : BlockHash) (e : Stored Block) :
    SameLedger s (s.blockPutRaw h e) := by
  unfold blockPutRaw
  cases e.block <;> exact ⟨rfl, rfl, rfl, rfl, rfl, rfl⟩

theorem blockGetRaw_blockPutRaw_ne (s : Store) {h k : BlockHash} (e : Stored Block) (hk : k ≠ h) :
    (s.blockPutRaw h e).blockGetRaw k = s.blockGetRaw k := by
  obtain ⟨b, x⟩ := e
  cases b <;> simp only [blockPutRaw, blockGetRaw, Table.get_put_ne _ _ hk]

theorem holding_blockPutRaw_ne (s : Store) {h k : BlockHash} (e : Stored Block) (hk : k ≠ h) :
    (s.blockPutRaw h e).holding k = s.holding k := by
  obtain ⟨b, x⟩ := e
  cases b <;> simp only [blockPutRaw, holding, Table.get_put_ne _ _ hk]

theorem blockPutRaw_fresh {s : Store} {h : BlockHash} (hn : s.blockGet h = none)
    (e : Stored Block) :
    (s.blockPutRaw h e).blockGetRaw h = some e ∧ (s.blockPutRaw h e).holding h = 1 := by
  unfold blockGet blockGetRaw at hn
  obtain ⟨b, x⟩ := e
  cases h₁ : s.sendBlocks.get h <;> cases h₂ : s.receiveBlocks.get h <;>
    cases h₃ : s.openBlocks.get h <;> cases h₄ : s.changeBlocks.get h <;> simp_all
  cases b <;> simp [blockPutRaw, blockGetRaw, holding, h₁, h₂, h₃, h₄]

/-- Writing back a stored block with another successor keeps it where it was. -/
theorem blockPutRaw_same {s : Store} {h : BlockHash} {e : Stored Block}
    (he : s.blockGetRaw h = some e) (x : BlockHash) :
    (s.blockPutRaw h { e with successor := x }).blockGetRaw h = some { e with successor := x } ∧
      (s.blockPutRaw h { e with successor := x }).holding h = s.holding h := by
  unfold blockGetRaw at he
  cases h₁ : s.sendBlocks.get h with
  | some t =>
      rw [h₁] at he
      cases he
      simp [blockPutRaw, blockGetRaw, holding, h₁]
  | none =>
      cases h₂ : s.receiveBlocks.get h with
      | some t =>
          rw [h₁, h₂] at he
          cases he
          simp [blockPutRaw, blockGetRaw, holding, h₁, h₂]
      | none =>
          cases h₃ : s.openBlocks.get h with
          | some t =>
              rw [h₁, h₂, h₃] at he
              cases he
              simp [blockPutRaw, blockGetRaw, holding, h₁, h₂, h₃]
          | none =>
              cases h₄ : s.changeBlocks.get h with
              | some t =>
                  rw [h₁, h₂, h₃, h₄] at he
                  cases he
                  simp [blockPutRaw, blockGetRaw, holding, h₁, h₂, h₃, h₄]
              | none =>
                  rw [h₁, h₂, h₃, h₄] at he
                  cases he

theorem blockGet_fillValue {s s' : Store} {p h : BlockHash} (hs : s.fillValue p h = .ok s') :
    s'.blockGet = s.blockGet ∧ s'.blockSuccessor p = h ∧ SameLedger s s' ∧
      ∀ k, s'.holding k = s.holding k := by
  unfold fillValue at hs
  cases he : s.blockGetRaw p with
  | none => simp [he] at hs
  | some e =>
      rw [he] at hs
      cases hs
      have hp := blockPutRaw_same he h
      refine ⟨?_, ?_, sameLedger_blockPutRaw s p _, ?_⟩
      · funext k
        unfold blockGet
        by_cases hk : k = p
        · subst hk
          rw [hp.1, he]
          rfl
        · rw [blockGetRaw_blockPutRaw_ne s _ hk]
      · unfold blockSuccessor
        rw [hp.1]
      · intro k
        by_cases hk : k = p
        · subst hk
          exact hp.2
        · exact holding_blockPutRaw_ne s _ hk

theorem blockPutRaw_insert {s : Store} {h : BlockHash} (hn : s.blockGet h = none)
    (e : Stored Block) :
    (s.blockPutRaw h e).blockGet = Function.update s.blockGet h (some e.block) ∧
      (s.Exclusive → (s.blockPutRaw h e).Exclusive) := by
  have hf := blockPutRaw_fresh hn e
  refine ⟨?_, ?_⟩
  · funext k
    by_cases hk : k = h
    · subst hk
      rw [Function.update_self]
      unfold blockGet
      rw [hf.1]
      rfl
    · rw [Function.update_of_ne hk]
      unfold blockGet
      rw [blockGetRaw_blockPutRaw_ne s e hk]
  · intro hx k
    by_cases hk : k = h
    · subst hk
      exact hf.2.le
    · rw [holding_blockPutRaw_ne s e hk]
      exact hx k

theorem blockGet_setPredecessor {E : Env} {s s' : Store} {b : Block}
    (hs : setPredecessor E s b = .ok s') :
    s'.blockGet = s.blockGet ∧ SameLedger s s' ∧ (∀ k, s'.holding k = s.holding k) ∧
      ∀ p, b.previousLink = some p → s'.blockSuccessor p = E.hash b := by
  cases b with
  | openBlock b =>
      cases hs
      exact ⟨rfl, ⟨rfl, rfl, rfl, rfl, rfl, rfl⟩, fun _ => rfl, fun _ hp => nomatch hp⟩
  | sendBlock b | receiveBlock b | changeBlock b =>
      obtain ⟨hb, hx, hl, hc⟩ := blockGet_fillValue hs
      refine ⟨hb, hl, hc, ?_⟩
      intro p hp
      cases hp
      exact hx

/-- The assertion at the end of `blockPut` changes nothing. -/
theorem setPredecessor_of_blockPut {E : Env} {s s' : Store} {h : BlockHash} {b : Block}
    (hs : s.blockPut E h b = .ok s') :
    setPredecessor E (s.blockPutRaw h ⟨b, 0⟩) b = .ok s' := by
  unfold blockPut at hs
  obtain ⟨t, ht, hs⟩ := bind_eq_ok.mp hs
  obtain ⟨_, _, hs⟩ := bind_eq_ok.mp hs
  cases hs
  exact ht

theorem blockPut_ok {E : Env} {s s' : Store} {h : BlockHash} {b : Block}
    (hs : s.blockPut E h b = .ok s') (hn : s.blockGet h = none) :
    s'.blockGet = Function.update s.blockGet h (some b) ∧ SameLedger s s' ∧
      (s.Exclusive → s'.Exclusive) := by
  obtain ⟨hb, hl, hc, _⟩ := blockGet_setPredecessor (setPredecessor_of_blockPut hs)
  obtain ⟨hi, hx⟩ := blockPutRaw_insert hn ⟨b, 0⟩
  refine ⟨hb.trans hi, (sameLedger_blockPutRaw s h _).trans hl, ?_⟩
  intro he k
  rw [hc k]
  exact hx he k

/-- A block whose predecessor is stored can be stored. -/
theorem exists_blockPut (E : Env) {s : Store} {b : Block} (hn : s.blockGet (E.hash b) = none)
    (hp : ∀ p, b.previousLink = some p → s.blockGet p ≠ none) :
    ∃ s', s.blockPut E (E.hash b) b = .ok s' := by
  obtain ⟨hi, _⟩ := blockPutRaw_insert hn ⟨b, 0⟩
  -- The raw write leaves the predecessor where it was, so it can be filled.
  have hfill : ∃ t, setPredecessor E (s.blockPutRaw (E.hash b) ⟨b, 0⟩) b = .ok t := by
    have hraw : ∀ p, b.previousLink = some p →
        ∃ e, (s.blockPutRaw (E.hash b) ⟨b, 0⟩).blockGetRaw p = some e := by
      intro p hbp
      have hpne : p ≠ E.hash b := fun he => hp p hbp (he ▸ hn)
      have hg := congrFun hi p
      rw [Function.update_of_ne hpne] at hg
      have hsome := hp p hbp
      rw [← hg] at hsome
      unfold blockGet at hsome
      exact Option.ne_none_iff_exists'.mp (fun he => hsome (by rw [he]; rfl))
    cases b with
    | openBlock b => exact ⟨_, rfl⟩
    | sendBlock b | receiveBlock b | changeBlock b =>
        obtain ⟨e, he⟩ := hraw _ rfl
        unfold setPredecessor fillValue
        simp only [he]
        exact ⟨_, rfl⟩
  obtain ⟨t, ht⟩ := hfill
  refine ⟨t, ?_⟩
  unfold blockPut
  rw [ht, ok_bind, require_of]
  · rfl
  · obtain ⟨_, _, _, hsucc⟩ := blockGet_setPredecessor ht
    cases hl : b.previousLink with
    | none => exact Or.inl (by rw [Block.previous_eq, hl]; rfl)
    | some p =>
        refine Or.inr ?_
        rw [Block.previous_eq, hl]
        exact hsucc p hl

theorem holding_pos {s : Store} {h : BlockHash} {b : Block} (hb : s.blockGet h = some b) :
    0 < s.holding h := by
  unfold blockGet blockGetRaw at hb
  unfold holding
  cases h₁ : s.sendBlocks.get h <;> cases h₂ : s.receiveBlocks.get h <;>
    cases h₃ : s.openBlocks.get h <;> cases h₄ : s.changeBlocks.get h <;> simp_all

theorem holding_eq_zero_iff {s : Store} {h : BlockHash} :
    s.holding h = 0 ↔ s.blockGet h = none := by
  refine ⟨fun h₀ => ?_, holding_eq_zero⟩
  by_contra hne
  obtain ⟨b, hb⟩ := Option.ne_none_iff_exists'.mp hne
  have := holding_pos hb
  omega

/-- Removal takes the hash out of the first table that holds it. -/
theorem blockDel_holding {s s' : Store} {h : BlockHash} (hs : s.blockDel h = .ok s') :
    s'.holding h + 1 = s.holding h ∧ SameLedger s s' ∧
      ∀ k, k ≠ h → s'.blockGet k = s.blockGet k ∧ s'.holding k = s.holding k := by
  have step : ∀ t : Store, s' = t → SameLedger s t → t.holding h + 1 = s.holding h →
      (∀ k, k ≠ h → t.blockGet k = s.blockGet k ∧ t.holding k = s.holding k) →
      s'.holding h + 1 = s.holding h ∧ SameLedger s s' ∧
        ∀ k, k ≠ h → s'.blockGet k = s.blockGet k ∧ s'.holding k = s.holding k := by
    intro t ht hl hh hk
    subst ht
    exact ⟨hh, hl, hk⟩
  have other : ∀ k, k ≠ h → ∀ {β : Type} (t : Table BlockHash (Stored β)),
      (t.del h).get k = t.get k := fun k hk _ t => t.get_del_ne hk
  unfold blockDel at hs
  by_cases h₁ : (s.sendBlocks.get h).isSome
  · rw [if_pos h₁] at hs
    refine step _ (Except.ok.inj hs).symm ⟨rfl, rfl, rfl, rfl, rfl, rfl⟩ ?_ ?_
    · simp only [holding, Table.get_del_self, Option.isSome_none, h₁, Bool.toNat_true,
        Bool.toNat_false]
      omega
    · intro k hk
      simp only [blockGet, blockGetRaw, holding, other k hk, and_self]
  rw [if_neg h₁] at hs
  by_cases h₂ : (s.receiveBlocks.get h).isSome
  · rw [if_pos h₂] at hs
    refine step _ (Except.ok.inj hs).symm ⟨rfl, rfl, rfl, rfl, rfl, rfl⟩ ?_ ?_
    · simp only [holding, Table.get_del_self, Option.isSome_none, h₂, Bool.toNat_true,
        Bool.toNat_false]
      omega
    · intro k hk
      simp only [blockGet, blockGetRaw, holding, other k hk, and_self]
  rw [if_neg h₂] at hs
  by_cases h₃ : (s.openBlocks.get h).isSome
  · rw [if_pos h₃] at hs
    refine step _ (Except.ok.inj hs).symm ⟨rfl, rfl, rfl, rfl, rfl, rfl⟩ ?_ ?_
    · simp only [holding, Table.get_del_self, Option.isSome_none, h₃, Bool.toNat_true,
        Bool.toNat_false]
      omega
    · intro k hk
      simp only [blockGet, blockGetRaw, holding, other k hk, and_self]
  rw [if_neg h₃] at hs
  by_cases h₄ : (s.changeBlocks.get h).isSome
  · rw [if_pos h₄] at hs
    refine step _ (Except.ok.inj hs).symm ⟨rfl, rfl, rfl, rfl, rfl, rfl⟩ ?_ ?_
    · simp only [holding, Table.get_del_self, Option.isSome_none, h₄, Bool.toNat_true,
        Bool.toNat_false]
    · intro k hk
      simp only [blockGet, blockGetRaw, holding, other k hk, and_self]
  · rw [if_neg h₄] at hs
    exact absurd hs (fail_ne_ok _ _)

/-- Removing a block, given that no second table holds its hash. -/
theorem blockDel_ok {s s' : Store} {h : BlockHash} (hs : s.blockDel h = .ok s')
    (he : s.Exclusive) :
    s'.blockGet = Function.update s.blockGet h none ∧ SameLedger s s' ∧ s'.Exclusive := by
  obtain ⟨hh, hl, hk⟩ := blockDel_holding hs
  have h₁ := he h
  refine ⟨?_, hl, ?_⟩
  · funext k
    by_cases hkh : k = h
    · subst hkh
      rw [Function.update_self]
      exact holding_eq_zero_iff.mp (by omega)
    · rw [Function.update_of_ne hkh]
      exact (hk k hkh).1
  · intro k
    by_cases hkh : k = h
    · subst hkh
      omega
    · rw [(hk k hkh).2]
      exact he k

theorem exists_blockDel {s : Store} {h : BlockHash} {b : Block} (hb : s.blockGet h = some b) :
    ∃ s', s.blockDel h = .ok s' := by
  have hp := holding_pos hb
  unfold holding at hp
  unfold blockDel
  split_ifs with h₁ h₂ h₃ h₄
  · exact ⟨_, rfl⟩
  · exact ⟨_, rfl⟩
  · exact ⟨_, rfl⟩
  · exact ⟨_, rfl⟩
  · simp [h₁, h₂, h₃, h₄] at hp

end Store
end PaperNode.BlockStore
