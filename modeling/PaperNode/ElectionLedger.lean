import PaperNode.Elections
import PaperNode.ProcessReturns

/-!
# The winner and the ledger

`election::vote` rolls the last winner back before it knows whether the ledger
accepts the new one. A block that the ledger rejects, such as one whose signature
a relay has changed, becomes the last winner all the same, and the next rollback
is of a block that is not there.

The winner stays in the ledger as long as every block voted for could stand in
the place of the last winner. What that means is said about the stored blocks: of
those that do not depend on the last winner, the block must fit on top.
-/
namespace PaperNode.ElectionLedger
open BoundedRecursion OrderedTable LinkedNodes TransitionRuns Blocks BlockStore LedgerQueries
open LedgerProcess LedgerRollback BlockLattice ProcessSteps ChainInvariant IndexInvariant
open RollbackSteps LedgerRuns MoneyInvariant VoteWeight ProcessReturns VoteRecords Tally Elections
open RollbackFuture hiding returns

open Classical in
/-- The stored blocks that do not depend on `h`. -/
noncomputable def remaining (s : Store) (h : BlockHash) : Lattice :=
  fun k => if DependsOn s k h then none else s.blockGet k

/-- Block `b` of account `a` could be the block after the root instead of `last`. -/
structure Substitutes (E : Env) (s : Store) (last b : Block) (a : Account) : Prop where
  fits : Fits E (remaining s (E.hash last)) b a
  signed : E.validateMessage a (E.hash b) b.signature = false
  covered : ∀ t, b = .sendBlock t → ∃ w, Replay E (remaining s (E.hash last))
    t.hashables.previous w ∧ t.hashables.balance.toNat ≤ w
  unopened : ∀ o, b = .openBlock o → ∀ k, ¬ Owner (remaining s (E.hash last)) k a

/-- Every block voted for, with this vote, could stand in the place of the last
winner. -/
def Substitutable (E : Env) (p : Store × Election) (v : Vote) : Prop :=
  ∀ b, Voted (p.2.votesWith E v) b → b ≠ p.2.lastWinner →
    ∃ a, Substitutes E p.1 p.2.lastWinner b a

variable {E : Env} {s s' u : Store} {e e' : Election} {b last : Block} {a : Account}
  {h p : BlockHash} {fuel : ℕ}

theorem rollback_remaining (hE : Proper E) (hs : Healthy E s)
    (hn : rollback E fuel s h = .ok s') : Healthy E s' ∧ s'.blockGet = remaining s h := by
  obtain ⟨hs', hiff⟩ := rollback_kept_iff hE hs hn
  refine ⟨hs', ?_⟩
  funext k
  apply Option.ext
  intro c
  unfold remaining
  rw [hiff k c]
  by_cases hd : DependsOn s k h
  · simp [hd]
  · simp [hd]

theorem Substitutes.passes (hE : Proper E) (hb : Substitutes E u last b a) (hs : Healthy E s)
    (hB : s.blockGet = remaining u (E.hash last)) : Passes E s b := by
  obtain ⟨hf, hv, hcov, hunop⟩ := hb
  rw [← hB] at hf hcov hunop
  exact passes_of_fits hE hs hf hv hcov hunop

/-- Only a substitute is accepted by the ledger that is left. -/
theorem substitutes_of_accepted (hs : Healthy E s) (hB : s.blockGet = remaining u (E.hash last))
    (hb : Accepted E s b s') : ∃ a, Substitutes E u last b a := by
  obtain ⟨a, info, hl, hp⟩ := hb
  refine ⟨a, ?_⟩
  constructor
  case fits =>
    rw [← hB]
    exact hs.linked.fits hl hp
  case signed => exact hl.valid
  case covered =>
    intro t ht
    subst ht
    rw [← hB]
    obtain ⟨j, hj, hh⟩ := hl.onHead _ rfl
    cases hp with
    | send hi hle =>
        cases hi.symm.trans hj
        refine ⟨_, ?_, hle⟩
        rw [← hh]
        exact hs.funded.balances a j hj
  case unopened =>
    intro o ho k hk
    subst ho
    rw [← hB] at hk
    cases hp with
    | opened hnone => exact not_owner_of_unknown hs.linked hs.indexed hnone hk

/-- The ledger stays one that runs build, and a substitute ends up stored. -/
theorem installWinner_ok (hE : Proper E) (hs : Reachable E s)
    (hlast : s.blockExists (E.hash last) = true)
    (hb : b ≠ last → ∃ a, Substitutes E s last b a)
    (h : installWinner E fuel s last b = .ok s') :
    Reachable E s' ∧ s'.blockExists (E.hash b) = true := by
  unfold installWinner at h
  rcases ite_eq_ok.mp h with ⟨heq, h⟩ | ⟨hne, h⟩
  · cases h
    rw [heq]
    exact ⟨hs, hlast⟩
  obtain ⟨t, ht, h⟩ := bind_eq_ok.mp h
  obtain ⟨⟨ret, w⟩, hw, h⟩ := bind_eq_ok.mp h
  cases h
  have ht := relabel_eq_ok.mp ht
  have hw := relabel_eq_ok.mp hw
  obtain ⟨a, hsub⟩ := hb hne
  obtain ⟨hh, hB⟩ := rollback_remaining hE (reachable_healthy hE hs) ht
  have hprogress := passes_progress (hsub.passes hE hh hB) hw
  refine ⟨(hs.next (.rollback ht)).next (.process hw), ?_⟩
  obtain ⟨x, info, hl, _⟩ := Progressed.accepted ⟨_, _, hw, hprogress⟩
  exact Store.blockExists_iff.mpr ⟨b, hl.stored⟩

def WinnerStored (E : Env) (p : Store × Election) : Prop :=
  Reachable E p.1 ∧ p.1.blockExists (E.hash p.2.lastWinner) = true

theorem WinnerStored.vote {it : Iteration} {v : Vote} {action : Option Block} (hE : Proper E)
    (hp : WinnerStored E (s, e)) (hsub : Substitutable E (s, e) v)
    (h : e.vote E it fuel s v = .ok (s', e', action)) : WinnerStored E (s', e') := by
  rcases vote_ok h with ⟨_, rfl, rfl⟩ | ⟨_, total, hd⟩
  · exact hp
  · obtain ⟨hv, _⟩ := tally_first hd.first
    exact installWinner_ok hE hp.1 hp.2 (fun hne => hsub _ hv hne) hd.installed

theorem voted_new {id : BlockHash} {v : Vote} (h : Voted ((Votes.new id).vote E v).2 b) :
    b = v.block := by
  obtain ⟨a, q, hg⟩ := h
  have hEff := vote_effect E (Votes.new id) v
  generalize (Votes.new id).vote E v = r at hEff hg
  cases hEff with
  | unsigned | late | same => cases hg
  | first =>
      dsimp only at hg
      rw [Table.get_put] at hg
      split_ifs at hg
      · cases hg
        rfl
      · cases hg
  | changed _ hg' => cases hg'

theorem WinnerStored.opening {q : Store × Election} (hE : Proper E) (h : Opening E q) :
    WinnerStored E q := by
  obtain ⟨it, fuel, s, b, anonymous, signature, action, hs, h⟩ := h
  unfold Election.start at h
  obtain ⟨_, hb, h⟩ := bind_eq_ok.mp h
  have hstart : WinnerStored E (s, ⟨Votes.new b.root, b, false⟩) := ⟨hs, require_eq_ok.mp hb⟩
  apply hstart.vote hE ?_ h
  intro c hc hne
  exact absurd (voted_new hc) hne

/-- As long as every block voted for could stand in the place of the last winner,
the last winner is in the ledger after each vote. -/
theorem winner_in_ledger (hE : Proper E)
    (h : Reached (Opening E) (Guarded (Substitutable E) (Cast E)) (s, e)) :
    s.blockExists (E.hash e.lastWinner) = true := by
  have hall : WinnerStored E (s, e) := by
    refine h.invariant (fun q hq => WinnerStored.opening hE hq) ?_
    intro q v r hq hstep
    obtain ⟨hsub, it, fuel, action, hvote⟩ := hstep
    exact hq.vote hE hsub hvote
  exact hall.2

section Moves

/-- The genesis account's vote moves the election from one send to the other. -/
theorem winner_in_ledger_moved : ∃ s, ∃ e : Election,
    Reached (Opening ballotNetwork) (Guarded (Substitutable ballotNetwork) (Cast ballotNetwork))
      (s, e) ∧ e.lastWinner = sendOdd ∧ s.blockExists (ballotNetwork.hash sendOdd) = true := by
  have hrun : executes ballotNetwork 20 [.process send₁] (fun s =>
      returns (Election.start ballotNetwork .inPlace 20 s send₁ secondAccount
        openingBallot.signature) (fun r =>
          decide (r.2.1.lastWinner = send₁) &&
          ((r.2.1.votesWith ballotNetwork ballot₃).repVotes.entries.map (fun f => f.2.2)).all
            (fun b => decide (b ≠ send₁ → b = sendOdd)) &&
          returns (rollback ballotNetwork 20 r.1 (ballotNetwork.hash send₁)) (fun u =>
            returns (process ballotNetwork 20 u sendOdd) (fun x =>
              decide (x.1.code = .progress))) &&
          returns (r.2.1.vote ballotNetwork .inPlace 20 r.1 ballot₃) (fun t =>
            decide (t.2.1.lastWinner = sendOdd)))) = true := by
    decide +kernel
  obtain ⟨s, hx, hrun⟩ := exists_of_executes hrun
  obtain ⟨⟨s₁, e₁, act₁⟩, hstart, hrun⟩ := exists_of_returns hrun
  simp only [Bool.and_eq_true, decide_eq_true_eq, List.all_eq_true] at hrun
  obtain ⟨⟨⟨hlast, hvoted⟩, hback⟩, hmove⟩ := hrun
  obtain ⟨u, hback, hrun⟩ := exists_of_returns hback
  obtain ⟨⟨ret, w⟩, hw, hret⟩ := exists_of_returns hrun
  obtain ⟨⟨s₂, e₂, act₂⟩, hvote, hwin⟩ := exists_of_returns hmove
  have hopen : Opening ballotNetwork (s₁, e₁) :=
    ⟨_, _, s, _, _, _, _, execute_reachable hx, hstart⟩
  obtain ⟨hs₁, hstored⟩ := WinnerStored.opening ballotNetwork_proper hopen
  -- The other send is accepted once the first is rolled back.
  have hsub : Substitutable ballotNetwork (s₁, e₁) ballot₃ := by
    intro b hb hne
    cases hvoted b (voted_iff.mp hb) (by rw [← hlast]; exact hne)
    dsimp only at hlast ⊢
    rw [hlast]
    obtain ⟨hu, hB⟩ := rollback_remaining ballotNetwork_proper
      (reachable_healthy ballotNetwork_proper hs₁) hback
    exact substitutes_of_accepted hu hB
      (Progressed.accepted ⟨_, _, hw, of_decide_eq_true hret⟩)
  have hreach : Reached (Opening ballotNetwork)
      (Guarded (Substitutable ballotNetwork) (Cast ballotNetwork)) (s₂, e₂) :=
    (Reached.start hopen).next ⟨hsub, _, _, _, hvote⟩
  have hwin : e₂.lastWinner = sendOdd := of_decide_eq_true hwin
  refine ⟨s₂, e₂, hreach, hwin, ?_⟩
  rw [← hwin]
  exact winner_in_ledger ballotNetwork_proper hreach

/-- A relay changes the signature of the block in the genesis account's vote. The
vote, which signs the hash of the block, stays good. -/
def spoiledBallot : Vote := { ballot₃ with
  block := .sendBlock ⟨⟨testGenesisHash, testGenesisHash, genesisAmount - 100⟩, 0, 0⟩ }

/-- The send is rolled back, and the block with the changed signature, which the
ledger rejects, is the last winner. -/
theorem spoiled_winner_not_stored : ¬ ∀ E s, ∀ e : Election, Proper E →
    Reached (Opening E) (Guarded (fun p v => v.block.root = p.2.votes.id) (Cast E)) (s, e) →
      s.blockExists (E.hash e.lastWinner) = true := by
  intro hall
  have hrun : executes ballotNetwork 20 [.process send₁] (fun s =>
      returns (Election.start ballotNetwork .inPlace 20 s send₁ secondAccount
        openingBallot.signature) (fun r =>
          decide (spoiledBallot.block.root = r.2.1.votes.id) &&
          returns (r.2.1.vote ballotNetwork .inPlace 20 r.1 spoiledBallot) (fun t =>
            !t.1.blockExists (ballotNetwork.hash t.2.1.lastWinner)))) = true := by
    decide +kernel
  obtain ⟨s, hx, hrun⟩ := exists_of_executes hrun
  obtain ⟨⟨s₁, e₁, act₁⟩, hstart, hrun⟩ := exists_of_returns hrun
  simp only [Bool.and_eq_true, decide_eq_true_eq] at hrun
  obtain ⟨hroot, hrun⟩ := hrun
  obtain ⟨⟨s₂, e₂, act₂⟩, hvote, ht⟩ := exists_of_returns hrun
  have hopen : Opening ballotNetwork (s₁, e₁) :=
    ⟨_, _, s, _, _, _, _, execute_reachable hx, hstart⟩
  have hstored := hall ballotNetwork s₂ e₂ ballotNetwork_proper
    ((Reached.start hopen).next ⟨hroot, _, _, _, hvote⟩)
  rw [hstored] at ht
  cases ht

end Moves

end PaperNode.ElectionLedger
