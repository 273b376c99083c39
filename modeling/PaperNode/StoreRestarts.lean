import PaperNode.LedgerRuns

/-!
# Closing and reopening the store

The tables of the store persist in a file. The constructor of the store opens them
and then writes a zero checksum, whether the file is new or not; the node adds the
genesis block if it finds no account. A store that is opened again therefore has
all its blocks and accounts and a checksum of none of them.
-/
namespace PaperNode.StoreRestarts
open BoundedRecursion OrderedTable TransitionRuns Blocks BlockStore LedgerProcess LedgerRollback
open BlockLattice ProcessSteps ChainInvariant IndexInvariant RollbackRuns

/-- `ledger::checksum`; the bounds of the range are not used. -/
def checksum (s : Store) : Checked BlockHash := do
  demand (← s.checksumGet 0 0) .checksumPresent

def blockStore (file : Store) : Checked Store := file.checksumPut 0 0 0

/-- The node opens its store, and initializes the ledger if it has no account. -/
def openLedger (E : Env) (file : Store) : Checked Store := do
  let s ← blockStore file
  if s.accounts.entries.length = 0 then genesisInitialize E s else return s

def newFile : Store :=
  { frontiers := ∅, accounts := ∅, sendBlocks := ∅, receiveBlocks := ∅, openBlocks := ∅
    changeBlocks := ∅, pending := ∅, representation := ∅, checksum := ∅, clock := 0 }

inductive Event where
  | call (x : LedgerRuns.Action)
  | reopen

inductive Step (E : Env) (s : Store) : Event → Store → Prop
  | call {x : LedgerRuns.Action} {s' : Store} :
      LedgerRuns.Step E s x s' → Step E s (.call x) s'
  | reopen {s' : Store} : openLedger E s = .ok s' → Step E s .reopen s'

def Initial (E : Env) (s : Store) : Prop := openLedger E newFile = .ok s

def Checksummed (s : Store) : Prop := checksum s = .ok (headSum s.accounts)

/-- The store is reopened only when the heads cancel out. -/
def Cancelled (s : Store) : Event → Prop
  | .call _ => True
  | .reopen => headSum s.accounts = 0

variable {E : Env} {s s' : Store}

theorem checksummed_iff : Checksummed s ↔ Summed s := by
  unfold Checksummed Summed checksum Store.checksumGet
  simp [bind_eq_ok, pure, Except.pure]

theorem initial_iff : Initial E s ↔ LedgerRuns.Initial E s := Iff.rfl

theorem sound_checksum (hs : Sound E s) (c : Table Word64 BlockHash) :
    Sound E { s with checksum := c } where
  linked := ⟨hs.linked.exclusive, hs.linked.chains, hs.linked.signed, hs.linked.heads,
    hs.linked.pending⟩
  indexed := fun hE => ⟨(hs.indexed hE).headed, (hs.indexed hE).frontiers,
    (hs.indexed hE).pendingAll⟩

/-- The genesis block is never rolled back, so there always is an account. -/
theorem accounts_ne_nil (hE : Proper E) (hs : Sound E s) : s.accounts.entries ≠ [] := by
  intro hempty
  obtain ⟨a, ho⟩ := hs.linked.chains.exists_owner hs.linked.chains.genesis
  refine not_owner_of_unknown hs.linked (hs.indexed hE.hashed) ?_ ho
  rw [Table.eq_empty hempty]
  exact Table.get_empty a

/-- A ledger that is opened again has lost its checksum and nothing else. -/
theorem openLedger_eq (hE : Proper E) (hs : Sound E s) :
    openLedger E s = .ok { s with checksum := s.checksum.put 0 0 } := by
  have hne : s.accounts.entries.length ≠ 0 :=
    fun h => accounts_ne_nil hE hs (List.length_eq_zero_iff.mp h)
  have hopen : blockStore s = .ok { s with checksum := s.checksum.put 0 0 } := rfl
  simp only [openLedger, hopen, ok_bind, if_neg hne]
  rfl

theorem summed_reopened : Summed { s with checksum := s.checksum.put 0 0 } ↔
    headSum s.accounts = 0 := by
  unfold Summed
  rw [Table.get_put_self]
  exact ⟨fun h => (Option.some.inj h).symm, fun h => congrArg some h.symm⟩

theorem sound_step {e : Event} (hE : Proper E) (hs : Sound E s) (h : Step E s e s') :
    Sound E s' := by
  cases h with
  | call h => exact LedgerRuns.Sound.step hs h
  | reopen h =>
      rw [openLedger_eq hE hs] at h
      cases h
      exact sound_checksum hs _

theorem summed_step_iff {e : Event} (hE : Proper E) (hs : Sound E s) (hsum : Summed s)
    (h : Step E s e s') : Summed s' ↔ Cancelled s e := by
  cases h with
  | call h => exact iff_of_true (LedgerRuns.summed_step hs hsum h) trivial
  | reopen h =>
      rw [openLedger_eq hE hs] at h
      cases h
      exact summed_reopened

/-- The runs along which the checksum is the XOR of the heads of all accounts are those in which
the store is reopened only when that XOR is zero. -/
theorem checksummed_run_iff (hE : Proper E) {s₀ : Store} {es : List Event}
    (h₀ : Initial E s₀) :
    Run (Ensured Checksummed (Step E)) s₀ es s ↔ Run (Guarded Cancelled (Step E)) s₀ es s := by
  have hg := genesisInitialize_ok (initial_iff.mp h₀)
  refine Run.ensured_iff (J := fun t => Sound E t ∧ Summed t) ⟨Sound.genesis hg, hg.summed⟩ ?_ ?_
  · intro t e u ht hstep
    rw [checksummed_iff]
    exact summed_step_iff hE ht.1 ht.2 hstep
  · intro t e u ht hstep hguard
    exact ⟨sound_step hE ht.1 hstep, (summed_step_iff hE ht.1 ht.2 hstep).mpr hguard⟩

theorem run_calls {xs : List LedgerRuns.Action} (h : Run (LedgerRuns.Step E) s xs s') :
    Run (Guarded Cancelled (Step E)) s (xs.map .call) s' := by
  induction h with
  | nil => exact .nil
  | snoc _ hstep ih =>
      rw [List.map_append]
      exact .snoc ih ⟨trivial, .call hstep⟩

/-- A send, and the store is not reopened. -/
theorem checksummed_run_sent :
    ∃ s₀ s, Initial LedgerRuns.smallNetwork s₀ ∧
      Run (Ensured Checksummed (Step LedgerRuns.smallNetwork)) s₀
        [.call (.process LedgerRuns.send₁)] s ∧ s.blockExists LedgerRuns.send₁Hash = true := by
  have hexecutes : LedgerRuns.executes LedgerRuns.smallNetwork 9 [.process LedgerRuns.send₁]
      (fun s => s.blockExists LedgerRuns.send₁Hash) = true := by decide +kernel
  obtain ⟨s, hs, htest⟩ := LedgerRuns.exists_of_executes hexecutes
  obtain ⟨s₀, h₀, hs⟩ := bind_eq_ok.mp hs
  have hrun := run_calls (LedgerRuns.performAll_run hs)
  exact ⟨s₀, s, h₀, (checksummed_run_iff LedgerRuns.smallNetwork_proper h₀).mpr hrun, htest⟩

/-- The genesis ledger, closed and opened again. -/
theorem checksum_lost :
    ∃ s₀ s, Initial LedgerRuns.smallNetwork s₀ ∧
      Run (Step LedgerRuns.smallNetwork) s₀ [.reopen] s ∧ checksum s = .ok 0 ∧
      headSum s.accounts = LedgerRuns.testGenesisHash := by
  obtain ⟨s₀, h₀⟩ := exists_genesisInitialize LedgerRuns.smallNetwork
  have hg := genesisInitialize_ok h₀
  have hreopened := openLedger_eq LedgerRuns.smallNetwork_proper (Sound.genesis hg)
  obtain ⟨m, haccounts⟩ := hg.accounts
  refine ⟨s₀, _, h₀, .snoc .nil (.reopen hreopened), ?_, ?_⟩
  · simp [checksum, Store.checksumGet, demand, require, pure, Except.pure]
  · rw [haccounts, headSum_put]
    change 0#256 ^^^ 0#256 ^^^ genesisHash LedgerRuns.smallNetwork = LedgerRuns.testGenesisHash
    decide +kernel

end PaperNode.StoreRestarts
