import PaperNode.LedgerRuns

/-!
# Rejected and repeated blocks

Every visitor of `ledger.process` makes all its checks before its first write. So a
block that is not accepted leaves all tables of the store as they were, in whatever
state they are; nothing here asks for a reachable ledger. A block that is accepted
is stored, and processing never removes a block. Offered again it is old, until a
rollback takes it away.
-/
namespace PaperNode.RepeatedBlocks
open BoundedRecursion OrderedTable LinkedNodes TransitionRuns Words Blocks BlockStore
open LedgerProcess ProcessSteps LedgerRuns

/-- The twelve tables of `block_store`: those of the ledger, and the three that
bootstrapping keeps in the same file. -/
structure Database where
  ledger : Store
  unchecked : Table BlockHash Block
  unsynced : Table BlockHash Unit
  stack : Table Word64 BlockHash

/-- `ledger::process` in a transaction on the whole file. -/
def Database.process (E : Env) (fuel : ℕ) (d : Database) (b : Block) :
    Checked (ProcessReturn × Database) := do
  let (ret, s) ← LedgerProcess.process E fuel d.ledger b
  return (ret, { d with ledger := s })

/-- A call of the ledger that does not roll back the block `h`. The other three tables
may change at any time. -/
def Keeping (E : Env) (h : BlockHash) (d : Database) (x : Action) (d' : Database) : Prop :=
  Step E d.ledger x d'.ledger ∧ ∀ k, x = .rollback k → d'.ledger.blockExists h = true

variable {E : Env} {s s' : Store} {d d' : Database} {b : Block} {fuel : ℕ} {ret : ProcessReturn}
  {h : BlockHash}

theorem database_process_eq_ok : d.process E fuel b = .ok (ret, d') ↔
    ∃ s, process E fuel d.ledger b = .ok (ret, s) ∧ { d with ledger := s } = d' := by
  unfold Database.process
  rw [bind_eq_ok]
  constructor
  · rintro ⟨⟨r, s⟩, hs, he⟩
    cases he
    exact ⟨s, hs, rfl⟩
  · rintro ⟨s, hs, rfl⟩
    exact ⟨(ret, s), hs, rfl⟩

theorem process_keeps (hp : process E fuel s b = .ok (ret, s')) (hh : s.blockExists h = true) :
    s'.blockExists h = true := by
  rcases process_ok hp with ⟨_, rfl⟩ | ⟨_, a, info, hl, _⟩
  · exact hh
  · obtain ⟨c, hc⟩ := Store.blockExists_iff.mp hh
    exact Store.blockExists_iff.mpr ⟨c, hl.within h c hc⟩

theorem keeping_run {xs : List Action} (hh : d.ledger.blockExists h = true)
    (hr : Run (Keeping E h) d xs d') : d'.ledger.blockExists h = true := by
  refine hr.invariant (I := fun _ u => u.ledger.blockExists h = true) hh ?_
  intro xs t x u ht hstep
  obtain ⟨hstep, hkeep⟩ := hstep
  cases hx : x with
  | process c =>
      subst hx
      cases hstep with
      | process hp => exact process_keeps hp ht
  | rollback k => exact hkeep k hx

/-- A block that is not accepted changes no table. A block that was accepted is old and
changes no table, through any further calls, as long as none of them rolls it back. -/
theorem rejected_or_accepted_once (E : Env) :
    (∀ (d d' : Database) (b : Block) (fuel : ℕ) (ret : ProcessReturn),
      d.process E fuel b = .ok (ret, d') → ret.code ≠ .progress → d' = d) ∧
    ∀ (d d' u : Database) (b : Block) (fuel : ℕ) (ret : ProcessReturn) (xs : List Action),
      d.process E fuel b = .ok (ret, d') → ret.code = .progress →
      Run (Keeping E (E.hash b)) d' xs u →
      ∀ n, u.process E n b = .ok (⟨.old, none⟩, u) := by
  constructor
  · intro d d' b fuel ret hp hne
    obtain ⟨s, hs, rfl⟩ := database_process_eq_ok.mp hp
    rcases process_ok hs with ⟨_, rfl⟩ | ⟨hret, _⟩
    · rfl
    · exact absurd hret hne
  · intro d d' u b fuel ret xs hp hret hr n
    obtain ⟨s, hs, rfl⟩ := database_process_eq_ok.mp hp
    rcases process_ok hs with ⟨hne, _⟩ | ⟨_, a, info, hl, _⟩
    · exact absurd hret hne
    · have hstored : s.blockExists (E.hash b) = true :=
        Store.blockExists_iff.mpr ⟨b, hl.stored⟩
      have hkept := keeping_run hstored hr
      exact database_process_eq_ok.mpr ⟨u.ledger, process_old hkept, rfl⟩

/-- The send is accepted, the open block follows, and the send is old. -/
theorem accepted_once_send : ∃ d d' u : Database,
    Run (Keeping smallNetwork send₁Hash) d' [.process open₁] u ∧
    u.ledger.blockGet open₁Hash = some open₁ ∧
    (∃ ret, d.process smallNetwork 20 send₁ = .ok (ret, d') ∧ ret.code = .progress) ∧
    u.process smallNetwork 20 send₁ = .ok (⟨.old, none⟩, u) := by
  have hrun : returns (do
      let s₀ ← genesisInitialize smallNetwork newStore
      let (r₁, s₁) ← process smallNetwork 20 s₀ send₁
      let (r₂, s₂) ← process smallNetwork 20 s₁ open₁
      return (r₁, r₂, s₂)) (fun p => decide (p.1.code = .progress) &&
        decide (p.2.2.blockGet open₁Hash = some open₁)) = true := by
    decide +kernel
  obtain ⟨⟨r₁, r₂, s₂⟩, hx, ht⟩ := exists_of_returns hrun
  simp only [Bool.and_eq_true, decide_eq_true_eq] at ht
  obtain ⟨s₀, _, hx⟩ := bind_eq_ok.mp hx
  obtain ⟨⟨q₁, s₁⟩, h₁, hx⟩ := bind_eq_ok.mp hx
  obtain ⟨⟨q₂, t₂⟩, h₂, hx⟩ := bind_eq_ok.mp hx
  cases hx
  have hsend : (Database.mk s₀ ∅ ∅ ∅).process smallNetwork 20 send₁ =
      .ok (r₁, ⟨s₁, ∅, ∅, ∅⟩) := database_process_eq_ok.mpr ⟨s₁, h₁, rfl⟩
  have hopen : Run (Keeping smallNetwork send₁Hash) (Database.mk s₁ ∅ ∅ ∅) [.process open₁]
      ⟨s₂, ∅, ∅, ∅⟩ := Run.nil.snoc ⟨.process h₂, fun k hk => nomatch hk⟩
  have hhash : smallNetwork.hash send₁ = send₁Hash := by
    decide +kernel
  refine ⟨_, _, _, hopen, ht.2, ⟨r₁, hsend, ht.1⟩, ?_⟩
  exact (rejected_or_accepted_once smallNetwork).2 _ _ _ _ _ _ _ hsend ht.1 (hhash.symm ▸ hopen) 20

end PaperNode.RepeatedBlocks
