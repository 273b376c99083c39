import PaperNode.LedgerQueries

/-!
# Processing a block

`ledger.process` dispatches on the block type. Each visitor runs its checks in
the order of the source and reports the first one that fails; only a block that
passes all of them is written. The tables are updated in the order of the source
too, since an assertion in the middle stops the transaction.
-/
namespace PaperNode.LedgerProcess
open BoundedRecursion Blocks BlockStore LedgerQueries

inductive ProcessResult where
  | progress | badSignature | old | overspend | fork | unreceivable
  | gapPrevious | gapSource | notReceiveFromSend | accountMismatch
  deriving DecidableEq, Repr

/-- The account is assigned only together with `progress`. -/
structure ProcessReturn where
  code : ProcessResult
  account : Option Account
  deriving DecidableEq, Repr

def checksumUpdate (s : Store) (h : BlockHash) : Checked Store := do
  let value ← demand (← s.checksumGet 0 0) .checksumPresent
  s.checksumPut 0 0 (value ^^^ h)

/-- The head an account has, if any, leaves the checksum. -/
def checksumForget (s : Store) (a : Account) : Checked Store :=
  match s.accountGet a with
  | some info => checksumUpdate s info.head
  | none => .ok s

/-- Hash zero stands for an account left without blocks. -/
def changeLatest (E : Env) (s : Store) (a : Account) (h repBlock : BlockHash)
    (balance : Amount) : Checked Store := do
  let s ← checksumForget s a
  if h ≠ 0 then
    let s := (s.accountPut a ⟨h, repBlock, balance, E.now s.clock⟩).tick
    checksumUpdate s h
  else s.accountDel a

/-- Move weight between the representatives two blocks name. -/
def moveRepresentation (E : Env) (s : Store) (source destination : BlockHash)
    (amount : Amount) : Checked Store := do
  let sourceBlock ← demand (s.blockGet source) .sourceBlock
  let sourceRep := sourceBlock.representative
  require (sourceRep ≠ 0) .sourceRep
  let destinationBlock ← demand (s.blockGet destination) .destinationBlock
  let destinationRep := destinationBlock.representative
  require (destinationRep ≠ 0) .destinationRep
  let sourcePrevious := s.representationGet sourceRep
  require (E.weightAssert = true → amount.toNat ≤ sourcePrevious.toNat) .sourceWeight
  let s := s.representationPut sourceRep (sourcePrevious - amount)
  let destinationPrevious := s.representationGet destinationRep
  return s.representationPut destinationRep (destinationPrevious + amount)

section Updates
open OrderedTable
variable {E : Env} {s s' : Store}

theorem accountDel_eq_ok {a : Account} : s.accountDel a = .ok s' ↔
    (s.accounts.get a).isSome ∧ { s with accounts := s.accounts.del a } = s' := by
  unfold Store.accountDel
  simp [bind_eq_ok, pure, Except.pure]

theorem frontierDel_eq_ok {h : BlockHash} : s.frontierDel h = .ok s' ↔
    (s.frontiers.get h).isSome ∧ { s with frontiers := s.frontiers.del h } = s' := by
  unfold Store.frontierDel
  simp [bind_eq_ok, pure, Except.pure]

theorem pendingDel_eq_ok {h : BlockHash} : s.pendingDel h = .ok s' ↔
    (s.pending.get h).isSome ∧ { s with pending := s.pending.del h } = s' := by
  unfold Store.pendingDel
  simp [bind_eq_ok, pure, Except.pure]

theorem checksumUpdate_eq_ok {h : BlockHash} : checksumUpdate s h = .ok s' ↔
    ∃ c, s.checksum.get 0 = some c ∧ { s with checksum := s.checksum.put 0 (c ^^^ h) } = s' := by
  unfold checksumUpdate Store.checksumGet Store.checksumPut
  simp [bind_eq_ok, pure, Except.pure]

def headSum (t : Table Account AccountInfo) : BlockHash :=
  t.fold (fun x y : BlockHash => x ^^^ y) 0#256 (fun _ info => info.head)

def Summed (s : Store) : Prop := s.checksum.get 0 = some (headSum s.accounts)

theorem headSum_del (t : Table Account AccountInfo) (a : Account) :
    headSum (t.del a) = headSum t ^^^ (t.get a).elim 0#256 AccountInfo.head := by
  have h : headSum (t.del a) ^^^ (t.get a).elim 0#256 AccountInfo.head = headSum t :=
    Table.fold_del (fun x y : BlockHash => x ^^^ y) 0#256 (fun _ i => AccountInfo.head i) t a
  rw [← h, BitVec.xor_assoc, BitVec.xor_self, BitVec.xor_zero]

theorem headSum_put (t : Table Account AccountInfo) (a : Account) (info : AccountInfo) :
    headSum (t.put a info) =
      headSum t ^^^ (t.get a).elim 0#256 AccountInfo.head ^^^ info.head := by
  have h := headSum_del (t.put a info) a
  rw [Table.put_del, headSum_del, Table.get_put_self, Option.elim_some] at h
  rw [h, BitVec.xor_assoc, BitVec.xor_self, BitVec.xor_zero]

/-- The account table after `change_latest`. -/
def latestTable (t : Table Account AccountInfo) (a : Account) (info : AccountInfo) :
    Table Account AccountInfo :=
  if info.head = 0 then t.del a else t.put a info

/-- `change_latest` writes the account, the checksum and nothing else. -/
theorem changeLatest_ok {a : Account} {h r : BlockHash} {v : Amount}
    (hs : changeLatest E s a h r v = .ok s') : ∃ m c n,
      { s with accounts := latestTable s.accounts a ⟨h, r, v, m⟩, checksum := c, clock := n } = s' ∧
      (Summed s → Summed s') := by
  unfold changeLatest at hs
  obtain ⟨t, ht, hs⟩ := bind_eq_ok.mp hs
  -- After the first update the sum lacks the old head of this account.
  have hold : ∃ c, { s with checksum := c } = t ∧ (Summed s →
      c.get 0 = some (headSum s.accounts ^^^ (s.accounts.get a).elim 0#256 AccountInfo.head)) := by
    unfold checksumForget Store.accountGet at ht
    cases ha : s.accounts.get a with
    | none =>
        rw [ha] at ht
        cases ht
        refine ⟨s.checksum, rfl, fun h₀ => ?_⟩
        rw [Option.elim_none, BitVec.xor_zero]
        exact h₀
    | some info =>
        rw [ha] at ht
        obtain ⟨c, hc, rfl⟩ := checksumUpdate_eq_ok.mp ht
        refine ⟨_, rfl, fun h₀ => ?_⟩
        rw [Table.get_put_self, Option.elim_some]
        rw [Summed, hc] at h₀
        rw [Option.some.inj h₀]
  obtain ⟨c, rfl, hc⟩ := hold
  by_cases h₀ : h = 0
  · rw [if_neg (not_not.mpr h₀)] at hs
    obtain ⟨_, rfl⟩ := accountDel_eq_ok.mp hs
    refine ⟨0, c, s.clock, by simp [latestTable, h₀], fun hS => ?_⟩
    unfold Summed
    rw [headSum_del]
    exact hc hS
  · rw [if_pos h₀] at hs
    obtain ⟨c', hc', rfl⟩ := checksumUpdate_eq_ok.mp hs
    refine ⟨E.now s.clock, c.put 0 (c' ^^^ h), s.clock + 1, ?_, fun hS => ?_⟩
    · simp only [latestTable, if_neg h₀]
      rfl
    · have he : c.get 0 = some c' := hc'
      rw [hc hS] at he
      unfold Summed
      change (c.put 0 (c' ^^^ h)).get 0 = some (headSum (s.accounts.put a _))
      rw [Table.get_put_self, headSum_put, Option.some.inj he]

theorem exists_checksumUpdate (h : BlockHash) (hc : (s.checksum.get 0).isSome) :
    ∃ c, checksumUpdate s h = .ok { s with checksum := c } ∧ (c.get 0).isSome := by
  obtain ⟨c, hc⟩ := Option.isSome_iff_exists.mp hc
  refine ⟨s.checksum.put 0 (c ^^^ h), checksumUpdate_eq_ok.mpr ⟨c, hc, rfl⟩, ?_⟩
  rw [Table.get_put_self]
  rfl

/-- `change_latest` asserts that the checksum is there, and that an account to
be deleted is. -/
theorem exists_changeLatest (E : Env) (a : Account) {h : BlockHash} (r : BlockHash) (v : Amount)
    (hc : (s.checksum.get 0).isSome) (h₀ : h = 0 → (s.accounts.get a).isSome) :
    ∃ s', changeLatest E s a h r v = .ok s' := by
  have hf : ∃ c, checksumForget s a = .ok { s with checksum := c } ∧ (c.get 0).isSome := by
    unfold checksumForget Store.accountGet
    cases s.accounts.get a with
    | none => exact ⟨s.checksum, rfl, hc⟩
    | some info => exact exists_checksumUpdate info.head hc
  obtain ⟨c, hf, hc'⟩ := hf
  unfold changeLatest
  rw [hf, ok_bind]
  by_cases hz : h = 0
  · rw [if_neg (not_not.mpr hz)]
    exact ⟨_, accountDel_eq_ok.mpr ⟨h₀ hz, rfl⟩⟩
  · rw [if_pos hz]
    obtain ⟨c', hu, _⟩ := exists_checksumUpdate
      (s := (Store.accountPut { s with checksum := c } a ⟨h, r, v, E.now s.clock⟩).tick) h hc'
    exact ⟨_, hu⟩

/-- Weight moved from one representative to another, modulo 2^128. -/
def shiftWeight (t : Table Account Amount) (source destination : Account) (v : Amount) :
    Table Account Amount :=
  let taken := t.put source ((t.get source).getD 0 - v)
  taken.put destination ((taken.get destination).getD 0 + v)

theorem moveRepresentation_eq_ok {x y : BlockHash} {v : Amount} :
    moveRepresentation E s x y v = .ok s' ↔ ∃ b c,
      s.blockGet x = some b ∧ b.representative ≠ 0 ∧
      s.blockGet y = some c ∧ c.representative ≠ 0 ∧
      (E.weightAssert = true → v.toNat ≤ (weight s b.representative).toNat) ∧
      { s with representation :=
          (shiftWeight s.representation b.representative c.representative v) } = s' := by
  unfold moveRepresentation
  simp only [bind_eq_ok, demand_eq_ok, require_eq_ok, exists_const, pure, Except.pure,
    Except.ok.injEq]
  constructor
  · intro h
    obtain ⟨b, hb, hb₀, c, hc, hc₀, hw, hs⟩ := h
    exact ⟨b, c, hb, hb₀, hc, hc₀, hw, hs⟩
  · intro h
    obtain ⟨b, c, hb, hb₀, hc, hc₀, hw, hs⟩ := h
    exact ⟨b, hb, hb₀, c, hc, hc₀, hw, hs⟩

end Updates

def reject (s : Store) (code : ProcessResult) : Checked (ProcessReturn × Store) :=
  .ok (⟨code, none⟩, s)

def changeBlock (E : Env) (fuel : ℕ) (s : Store) (b : ChangeBlock) :
    Checked (ProcessReturn × Store) :=
  let hash := E.hash (.changeBlock b)
  if s.blockExists hash then reject s .old
  else if !s.blockExists b.hashables.previous then reject s .gapPrevious
  else
    let account := s.frontierGet b.hashables.previous
    if account = 0 then reject s .fork
    else do
      let info ← demand (s.accountGet account) .frontierAccount
      require (info.head = b.hashables.previous) .headIsPrevious
      if E.validateMessage account hash b.signature then reject s .badSignature
      else do
        let s ← s.blockPut E hash (.changeBlock b)
        let moved ← balance E s.blockGet fuel b.hashables.previous
        let s ← moveRepresentation E s info.repBlock hash moved
        let s ← changeLatest E s account hash hash info.balance
        let s ← s.frontierDel b.hashables.previous
        return (⟨.progress, some account⟩, s.frontierPut hash account)

def sendBlock (E : Env) (s : Store) (b : SendBlock) : Checked (ProcessReturn × Store) :=
  let hash := E.hash (.sendBlock b)
  if s.blockExists hash then reject s .old
  else if !s.blockExists b.hashables.previous then reject s .gapPrevious
  else
    let account := s.frontierGet b.hashables.previous
    if account = 0 then reject s .fork
    else if E.validateMessage account hash b.signature then reject s .badSignature
    else do
      let info ← demand (s.accountGet account) .frontierAccount
      require (info.head = b.hashables.previous) .headIsPrevious
      if info.balance.toNat < b.hashables.balance.toNat then reject s .overspend
      else do
        let s ← s.blockPut E hash (.sendBlock b)
        let s ← changeLatest E s account hash info.repBlock b.hashables.balance
        let s := s.pendingPut hash
          ⟨account, info.balance - b.hashables.balance, b.hashables.destination⟩
        let s ← s.frontierDel b.hashables.previous
        return (⟨.progress, some account⟩, s.frontierPut hash account)

def receiveBlock (E : Env) (s : Store) (b : ReceiveBlock) : Checked (ProcessReturn × Store) :=
  let hash := E.hash (.receiveBlock b)
  if s.blockExists hash then reject s .old
  else if !s.blockExists b.hashables.source then reject s .gapSource
  else
    match s.pendingGet b.hashables.source with
    | none => reject s .unreceivable
    | some receivable =>
        if E.validateMessage receivable.destination hash b.signature then
          reject s .badSignature
        else
          match s.accountGet receivable.destination with
          | none => reject s .gapPrevious
          | some info =>
              if info.head = b.hashables.previous then do
                require (s.frontierGet b.hashables.previous = receivable.destination)
                  .frontierIsDestination
                let newBalance := info.balance + receivable.amount
                let sourceInfo ← demand (s.accountGet receivable.source) .pendingSource
                let s ← s.pendingDel b.hashables.source
                let s ← s.blockPut E hash (.receiveBlock b)
                let s ← changeLatest E s receivable.destination hash info.repBlock newBalance
                let s ← moveRepresentation E s sourceInfo.repBlock info.repBlock
                  receivable.amount
                let s ← s.frontierDel b.hashables.previous
                return (⟨.progress, some receivable.destination⟩,
                  s.frontierPut hash receivable.destination)
              else if s.blockExists b.hashables.previous then reject s .fork
              else reject s .gapPrevious

def openBlock (E : Env) (s : Store) (b : OpenBlock) : Checked (ProcessReturn × Store) :=
  let hash := E.hash (.openBlock b)
  if s.blockExists hash then reject s .old
  else if !s.blockExists b.hashables.source then reject s .gapSource
  else
    match s.pendingGet b.hashables.source with
    | none => reject s .unreceivable
    | some receivable =>
        if receivable.destination ≠ b.hashables.account then reject s .accountMismatch
        else if E.validateMessage receivable.destination hash b.signature then
          reject s .badSignature
        else
          match s.accountGet receivable.destination with
          | some _ => reject s .fork
          | none => do
              let sourceInfo ← demand (s.accountGet receivable.source) .pendingSource
              let s ← s.pendingDel b.hashables.source
              let s ← s.blockPut E hash (.openBlock b)
              let s ← changeLatest E s receivable.destination hash hash receivable.amount
              let s ← moveRepresentation E s sourceInfo.repBlock hash receivable.amount
              return (⟨.progress, some receivable.destination⟩,
                s.frontierPut hash receivable.destination)

def process (E : Env) (fuel : ℕ) (s : Store) : Block → Checked (ProcessReturn × Store)
  | .sendBlock b => sendBlock E s b
  | .receiveBlock b => receiveBlock E s b
  | .openBlock b => openBlock E s b
  | .changeBlock b => changeBlock E fuel s b

def genesisOpen (E : Env) : OpenBlock :=
  ⟨⟨E.genesisAccount, E.genesisAccount, E.genesisAccount⟩, 0, 0⟩

def genesisHash (E : Env) : BlockHash := E.hash (.openBlock (genesisOpen E))

def newStore : Store :=
  { frontiers := ∅, accounts := ∅, sendBlocks := ∅, receiveBlocks := ∅, openBlocks := ∅
    changeBlocks := ∅, pending := ∅, representation := ∅
    checksum := (∅ : OrderedTable.Table Word64 BlockHash).put 0 0, clock := 0 }

/-- `genesis::initialize`. -/
def genesisInitialize (E : Env) (s : Store) : Checked Store := do
  let hash := genesisHash E
  require (s.accounts.entries.length = 0) .genesisEmpty
  let s ← s.blockPut E hash (.openBlock (genesisOpen E))
  let s := (s.accountPut E.genesisAccount ⟨hash, hash, genesisAmount, E.now s.clock⟩).tick
  let s := s.representationPut E.genesisAccount genesisAmount
  let s ← s.checksumPut 0 0 hash
  return s.frontierPut hash E.genesisAccount

end PaperNode.LedgerProcess
