import PaperNode.Tally

/-!
# Elections between forked blocks

An election starts on a stored block and takes votes for blocks with the same
root. Whenever a vote changes the record, the votes are tallied; if another block
than the last winner comes out on top, the last winner is rolled back and the new
one processed, whatever that returns. The election is confirmed once the winner's
total exceeds a threshold, which is lower while the tally has one entry.

The tally has one entry both when all votes are for one block and when the blocks
voted for are tied. A tie therefore decides two things it should not: which block
stands in the ledger, and whether fifteen sixteenths are asked for or one half.
-/
namespace PaperNode.Elections
open BoundedRecursion OrderedTable TransitionRuns Blocks BlockStore LedgerQueries LedgerProcess
open LedgerRollback LedgerRuns VoteRecords Tally

/-- The assertion sites of the node, those of the ledger among them. -/
inductive NodeAssertion where
  | ledger (site : Assertion)
  | electionBlock | tallyEmpty
  deriving DecidableEq, Repr

abbrev NodeChecked := Check NodeAssertion

def accountBalance (s : Store) (a : Account) : Amount :=
  match s.accountGet a with
  | none => 0
  | some info => info.balance

/-- `ledger::supply`: the money the genesis account has given out. -/
def supply (E : Env) (s : Store) : Amount := genesisAmount - accountBalance s E.genesisAccount

def uncontestedThreshold (E : Env) (s : Store) : Amount := supply E s / 2

def contestedThreshold (E : Env) (s : Store) : Amount := supply E s / 16 * 15

theorem supply_toNat (E : Env) (s : Store) :
    (supply E s).toNat = genesisAmount.toNat - (accountBalance s E.genesisAccount).toNat := by
  unfold supply
  apply BitVec.toNat_sub_of_le
  have := (accountBalance s E.genesisAccount).isLt
  simp only [genesisAmount, BitVec.le_def, BitVec.toNat_allOnes]
  omega

theorem uncontestedThreshold_toNat (E : Env) (s : Store) :
    (uncontestedThreshold E s).toNat = (supply E s).toNat / 2 := by
  simp [uncontestedThreshold]

theorem contestedThreshold_toNat (E : Env) (s : Store) :
    (contestedThreshold E s).toNat = (supply E s).toNat / 16 * 15 := by
  have hlt := (supply E s).isLt
  have h₁₆ : (16 : Amount).toNat = 16 := rfl
  have h₁₅ : (15 : Amount).toNat = 15 := rfl
  rw [contestedThreshold, BitVec.toNat_mul, BitVec.toNat_udiv, h₁₆, h₁₅]
  omega

structure Election where
  votes : Votes
  lastWinner : Block
  confirmed : Bool

/-- The ledger is left alone while the winner stays. The result of processing a
new winner is not looked at. -/
def installWinner (E : Env) (fuel : ℕ) (s : Store) (last winner : Block) : NodeChecked Store :=
  if winner = last then .ok s
  else do
    let s ← relabel .ledger (rollback E fuel s (E.hash last))
    let processed ← relabel .ledger (process E fuel s winner)
    return processed.2

/-- `election::vote`, with the block that the confirmation action is scheduled
for, if it is. -/
def Election.vote (E : Env) (it : Iteration) (fuel : ℕ) (s : Store) (e : Election) (v : Vote) :
    NodeChecked (Store × Election × Option Block) :=
  let voted := e.votes.vote E v
  if !e.confirmed && voted.1 then do
    let tally := tally s it voted.2
    let top ← demand tally.first .tallyEmpty
    let s ← installWinner E fuel s e.lastWinner top.2
    let threshold :=
      if tally.entries.length = 1 then uncontestedThreshold E s else contestedThreshold E s
    let confirmed := decide (threshold.toNat < (OrderDual.ofDual top.1).toNat)
    return (s, ⟨voted.2, top.2, confirmed⟩, if confirmed then some top.2 else none)
  else return (s, { e with votes := voted.2 }, none)

/-- The constructor: a vote with number zero is cast under a new key. -/
def Election.start (E : Env) (it : Iteration) (fuel : ℕ) (s : Store) (b : Block)
    (anonymous : Account) (signature : Signature) :
    NodeChecked (Store × Election × Option Block) := do
  require (s.blockExists (E.hash b)) .electionBlock
  Election.vote E it fuel s ⟨Votes.new b.root, b, false⟩ ⟨0, b, anonymous, signature⟩

abbrev Election.votesWith (E : Env) (e : Election) (v : Vote) : Votes := (e.votes.vote E v).2

def Counted (E : Env) (e : Election) (v : Vote) : Prop :=
  e.confirmed = false ∧ (e.votes.vote E v).1 = true

/-- The vote makes block `b` replace the last winner. -/
def Replaces (E : Env) (it : Iteration) (s : Store) (e : Election) (v : Vote) (b : Block) : Prop :=
  Counted E e v ∧ b ≠ e.lastWinner ∧ ∃ w, (tally s it (e.votesWith E v)).first = some (w, b)

structure Decided (E : Env) (it : Iteration) (fuel : ℕ) (s : Store) (e : Election) (v : Vote)
    (s' : Store) (e' : Election) (total : Amount) : Prop where
  first : (tally s it (e.votesWith E v)).first = some (OrderDual.toDual total, e'.lastWinner)
  votes : e'.votes = e.votesWith E v
  installed : installWinner E fuel s e.lastWinner e'.lastWinner = .ok s'
  confirmed : e'.confirmed = true ↔
    (if (tally s it (e.votesWith E v)).entries.length = 1 then uncontestedThreshold E s'
      else contestedThreshold E s').toNat < total.toNat

variable {E : Env} {it : Iteration} {fuel : ℕ} {s s' : Store} {e e' : Election} {v : Vote}
  {b c : Block} {action : Option Block}

theorem vote_ok (h : e.vote E it fuel s v = .ok (s', e', action)) :
    (¬ Counted E e v ∧ s' = s ∧ e' = { e with votes := e.votesWith E v }) ∨
      (Counted E e v ∧ ∃ total, Decided E it fuel s e v s' e' total) := by
  unfold Election.vote at h
  rcases ite_eq_ok.mp h with ⟨hc, h⟩ | ⟨hc, h⟩
  · refine Or.inr ⟨?_, ?_⟩
    · rw [Bool.and_eq_true, Bool.not_eq_true'] at hc
      exact hc
    · obtain ⟨top, hf, h⟩ := bind_eq_ok.mp h
      obtain ⟨t, ht, h⟩ := bind_eq_ok.mp h
      cases h
      refine ⟨OrderDual.ofDual top.1, demand_eq_ok.mp hf, rfl, ht, ?_⟩
      simp
  · cases h
    refine Or.inl ⟨?_, rfl, rfl⟩
    rw [Bool.and_eq_true, Bool.not_eq_true'] at hc
    exact hc

theorem replaces_of_vote (h : e.vote E it fuel s v = .ok (s', e', action))
    (hne : e'.lastWinner ≠ e.lastWinner) : Replaces E it s e v e'.lastWinner := by
  rcases vote_ok h with ⟨_, _, rfl⟩ | ⟨hc, total, hd⟩
  · exact absurd rfl hne
  · exact ⟨hc, hne, _, hd.first⟩

def Opening (E : Env) (p : Store × Election) : Prop :=
  ∃ it fuel s b anonymous signature action, Reachable E s ∧
    Election.start E it fuel s b anonymous signature = .ok (p.1, p.2, action)

def Cast (E : Env) (p : Store × Election) (v : Vote) (q : Store × Election) : Prop :=
  ∃ it fuel action, p.2.vote E it fuel p.1 v = .ok (q.1, q.2, action)

def Tied (s : Store) (vs : Votes) (last : Block) : Prop :=
  ∃ b, Voted vs b ∧ b ≠ last ∧ votesFor s vs b = votesFor s vs last ∧
    ∀ c, Voted vs c → votesFor s vs c ≤ votesFor s vs last

theorem votesFor_eq_zero {vs : Votes} (h : ¬ Voted vs b) : votesFor s vs b = 0 := by
  have hzero : votesFor s vs b = vs.repVotes.total (fun _ _ => 0) := by
    unfold votesFor Table.total
    apply Table.fold_congr
    intro a f hf
    rw [if_neg]
    intro he
    exact h ⟨a, f.1, by rw [hf, ← he]⟩
  rw [hzero]
  unfold Table.total Table.fold
  induction vs.repVotes.entries with
  | nil => rfl
  | cons f fs ih => exact (Nat.zero_add _).trans ih

/-- Where the voters' weights do not wrap, a vote makes only a strictly heavier
block replace the last winner, in every order of the two maps, exactly when no
other block is tied with the last winner for the greatest total. -/
theorem replaced_by_heavier_iff (E : Env) (s : Store) (e : Election) (v : Vote)
    (hsum : votingWeight s (e.votesWith E v) < 2 ^ 128) :
    (∀ it b, Replaces E it s e v b →
        votesFor s (e.votesWith E v) e.lastWinner < votesFor s (e.votesWith E v) b) ↔
      (Counted E e v → ¬ Tied s (e.votesWith E v) e.lastWinner) := by
  have total := totalFor_toNat hsum
  constructor
  · intro hall hc ht
    obtain ⟨b, hb, hne, heq, hmax⟩ := ht
    have hfirst := tally_first_lastly (s := s) hb (by
      intro c hc
      rw [total, total, heq]
      exact hmax c hc)
    have hlt := hall _ b ⟨hc, hne, _, hfirst⟩
    omega
  · intro hnot it b hr
    obtain ⟨hc, hne, w, hfirst⟩ := hr
    obtain ⟨hb, _, hmax⟩ := tally_first hfirst
    simp only [total] at hmax
    by_contra hle
    apply hnot hc
    refine ⟨b, hb, hne, ?_, ?_⟩
    · by_cases hv : Voted (e.votesWith E v) e.lastWinner
      · have := hmax _ hv
        omega
      · have := votesFor_eq_zero (s := s) hv
        omega
    · intro c hc
      have := hmax c hc
      omega

theorem voted_iff {vs : Votes} : Voted vs b ↔ b ∈ vs.repVotes.entries.map (fun f => f.2.2) := by
  simp only [Voted, List.mem_map, Prod.exists, Table.mem_entries]
  constructor
  · intro h
    obtain ⟨a, q, hg⟩ := h
    exact ⟨a, q, b, hg, rfl⟩
  · intro h
    obtain ⟨a, q, c, hg, rfl⟩ := h
    exact ⟨a, q, hg⟩

/-- The votes of an election on the send, before and after the genesis account
votes for the other send. -/
def sendElection : Election := ⟨(Votes.new testGenesisHash).voteAll ballotNetwork [openingBallot],
  send₁, false⟩

theorem replaced_by_heavier_iff_genesis : ∃ s, Reachable ballotNetwork s ∧
    ∀ it b, Replaces ballotNetwork it s sendElection ballot₃ b →
      votesFor s (sendElection.votesWith ballotNetwork ballot₃) send₁ <
        votesFor s (sendElection.votesWith ballotNetwork ballot₃) b := by
  have hrun : executes ballotNetwork 20 [.process send₁] (fun s =>
      decide (votesFor s (sendElection.votesWith ballotNetwork ballot₃) send₁ <
        votesFor s (sendElection.votesWith ballotNetwork ballot₃) sendOdd)) = true := by
    decide +kernel
  obtain ⟨s, hx, ht⟩ := exists_of_executes hrun
  have hs := execute_reachable hx
  have hsum := reachable_votingWeight rfl hs (sendElection.votesWith ballotNetwork ballot₃)
  refine ⟨s, hs, (replaced_by_heavier_iff ballotNetwork s sendElection ballot₃ hsum).mpr ?_⟩
  intro _ htie
  obtain ⟨_, _, _, _, hmax⟩ := htie
  have hodd : Voted (sendElection.votesWith ballotNetwork ballot₃) sendOdd :=
    voted_iff.mpr (by decide +kernel)
  have hle := hmax sendOdd hodd
  have hlt := of_decide_eq_true ht
  exact absurd hlt (not_lt.mpr hle)

/-- The election on the send, with no vote of any weight. A vote of an account
without weight puts the other send in its place. -/
theorem weightless_vote_flips : ¬ ∀ E it s e v b, Reached (Opening E) (Cast E) (s, e) →
    Replaces E it s e v b →
      votesFor s (e.votesWith E v) e.lastWinner < votesFor s (e.votesWith E v) b := by
  intro hall
  have hrun : executes ballotNetwork 20 [.process send₁] (fun s =>
      returns (Election.start ballotNetwork .inPlace 20 s send₁ secondAccount
        openingBallot.signature) (fun r =>
          returns (r.2.1.vote ballotNetwork (.lastly (sendOdd, 0)) 20 r.1 oddBallot) (fun t =>
            decide (t.2.1.lastWinner ≠ r.2.1.lastWinner) && decide (t.1.blockExists sendOddHash) &&
            decide (votesFor r.1 (r.2.1.votesWith ballotNetwork oddBallot) t.2.1.lastWinner ≤
              votesFor r.1 (r.2.1.votesWith ballotNetwork oddBallot) r.2.1.lastWinner)))) =
        true := by
    decide +kernel
  obtain ⟨s, hx, hrun⟩ := exists_of_executes hrun
  obtain ⟨⟨s₁, e₁, act₁⟩, hstart, hrun⟩ := exists_of_returns hrun
  obtain ⟨⟨s₂, e₂, act₂⟩, hvote, ht⟩ := exists_of_returns hrun
  simp only [Bool.and_eq_true, decide_eq_true_eq] at ht
  have hopen : Reached (Opening ballotNetwork) (Cast ballotNetwork) (s₁, e₁) :=
    Reached.start ⟨_, _, s, _, _, _, _, execute_reachable hx, hstart⟩
  have hlt := hall _ _ s₁ e₁ oddBallot _ hopen (replaces_of_vote hvote ht.1.1)
  exact absurd hlt (not_lt.mpr ht.2)

def Contested (vs : Votes) : Prop := ∃ b c, Voted vs b ∧ Voted vs c ∧ b ≠ c

def AllTied (s : Store) (vs : Votes) : Prop :=
  ∀ b c, Voted vs b → Voted vs c → totalFor s vs b = totalFor s vs c

theorem totalFor_le (s : Store) (vs : Votes) (b : Block) :
    (totalFor s vs b).toNat ≤ votesFor s vs b := by
  unfold totalFor
  rw [BitVec.toNat_ofNat]
  exact Nat.mod_le _ _

/-- A vote that confirms the election, other than by a tie between blocks, does so
with the quorum: fifteen sixteenths of the supply if two blocks are voted for, one
half if there is only one. The supply is that of the ledger the call leaves. -/
theorem confirmed_with_quorum (h : e.vote E it fuel s v = .ok (s', e', action))
    (hopen : e.confirmed = false) (hconf : e'.confirmed = true)
    (htie : Contested (e.votesWith E v) → ¬ AllTied s (e.votesWith E v)) :
    (Contested (e.votesWith E v) →
        (genesisAmount.toNat - (accountBalance s' E.genesisAccount).toNat) / 16 * 15 <
          votesFor s (e.votesWith E v) e'.lastWinner) ∧
      (¬ Contested (e.votesWith E v) →
        (genesisAmount.toNat - (accountBalance s' E.genesisAccount).toNat) / 2 <
          votesFor s (e.votesWith E v) e'.lastWinner) := by
  rcases vote_ok h with ⟨_, _, rfl⟩ | ⟨_, total, hd⟩
  · cases hopen.symm.trans hconf
  obtain ⟨hv, htotal, _⟩ := tally_first hd.first
  have hle := totalFor_le s (e.votesWith E v) e'.lastWinner
  rw [← htotal] at hle
  have hlt := hd.confirmed.mp hconf
  -- The tally has one entry exactly when all totals agree.
  have hone : (tally s it (e.votesWith E v)).entries.length = 1 ↔ AllTied s (e.votesWith E v) := by
    rw [tally_length_eq_one hd.first]
    constructor
    · intro hall b c hb hc
      rw [hall b hb, hall c hc]
    · intro hall c hc
      rw [htotal]
      exact hall c _ hc hv
  constructor
  · intro hcon
    rw [if_neg (fun h₁ => htie hcon (hone.mp h₁)), contestedThreshold_toNat, supply_toNat] at hlt
    omega
  · intro hcon
    have htied : AllTied s (e.votesWith E v) := by
      intro b c hb hc
      by_contra hne
      exact hcon ⟨b, c, hb, hc, fun hbc => hne (by rw [hbc])⟩
    rw [if_pos (hone.mpr htied), uncontestedThreshold_toNat, supply_toNat] at hlt
    omega

section TiedElection

/-- Three eighths of the money, which the genesis account and the first account
both represent in the end. -/
def share : Amount := 0x60000000000000000000000000000000

def thirdAccount : Account := 0x5b311db40f31f96f9f68911bd408d0c3e565cbef78f3e8d11f2df4a661490614

def shareSendHash : BlockHash := 0xcf9355892ccb26b663cb5115c7136b7f4e85b0cf64de10768a9fded16774b6a5

def shareSend : Block := .sendBlock ⟨⟨testGenesisHash, firstAccount, genesisAmount - share⟩,
  0x7be977feab236a22afb7a55cc97b0d29a163a8ce984fa22c3ae1fe7ac7e965dc3b4e4d9d68ab77fa830e30de28c42e6c2b7780a4b5a6546e4ab268aa67ff5206, 0⟩

def shareOpenHash : BlockHash := 0xfc995407e070ed48cc9af1aa0d95d7d488e2d63f280474d53a19069d520c7356

def shareOpen : Block := .openBlock ⟨⟨shareSendHash, firstAccount, firstAccount⟩,
  0x6423428de673d2c4d69e3d14da8b1c09ac91baf8f3b2832579456b066c4ffefc1d659b89f3b8f62181790c1775ff23dce872b344bb29e6690d1ae001ab1a6d0e, 0⟩

def restSendHash : BlockHash := 0x9d8e75f3cc9e981fa37f32b3daa3230f120f907282bb00973cdd2a7aa788d3cc

def restSend : Block := .sendBlock ⟨⟨shareSendHash, secondAccount, share⟩,
  0x8e60bea15be7ceae418d27bd6833eb19fd7e077e5757b15ddc204a61db59575fd9e13045f4df1932a0b17adc21d25c8254acf85d7cab6051a98ee1dbc6535504, 0⟩

def restOpenHash : BlockHash := 0x97cc6a1b246663c308c1ba32d50b39dcfe5a6a06b4a1d7a5c69ad63a009753fd

def restOpen : Block := .openBlock ⟨⟨restSendHash, secondAccount, secondAccount⟩,
  0x61382dd55c0cc225c41263f566c76e38b4b6d77b990b73a722931a0de28b2c435959c86fcd2569452a17b648d6e07f75abd61305456c74a380552900dab18207, 0⟩

/-- The first account sends nothing to the second account, and instead nothing to
the genesis account. -/
def emptySendHash : BlockHash := 0x376fdd123022de42e617a6bfb580844fe721111d733d90d7b825c3bab50250c

def emptySend : Block := .sendBlock ⟨⟨shareOpenHash, secondAccount, share⟩,
  0xdbe2101960c36eab9f13b212e25b35aa5aed0282fb88922b9e75af9c07af6aa0b34461310b83719d99435d22fd78aa4ed6b464b51c4b181706d2f0e862c9dd03, 0⟩

def emptyForkHash : BlockHash := 0x6661182ab6e2f928ed2e176b97ba120df990c0e56f3d60b7eaa5aa3a4a0ee7ca

def emptyFork : Block := .sendBlock ⟨⟨shareOpenHash, paperTestAccount, share⟩,
  0x5dce82ef13ae145de06398e8a9f993dc3afda8e4b081475d0fbc65ea6574a4f6319618ca6adffdfbe2a9dabe499ce580221c12d90226340ca4e68977fafa8a07, 0⟩

def tieOpening : Signature := 0x7cbbcc42e1a438a26eaf59619258ea6c9908c644d57411adcfa610e7eb082695d9959d7320e746b22e009b11cab72086ea0152aa51a2a95d261e3da96deb710c

def forkBallot : Vote := ⟨1, emptyFork, firstAccount,
  0xed2b1885af769ecefdc113ea7a75097610fe627f957d686f197c91a17da1c6f5ced2e52354d5b10d0d0688f416bd28a8d2fa30b561592ef05cc5b6407de66f0a⟩

def sendBallot : Vote := ⟨1, emptySend, paperTestAccount,
  0x4e3bcc75538b128785a9e09728fb0f08152d33117dd53b2d87400cd06805237660bf18d69ba9e3dee603c2339101a7813a161c11a6bc2151ad1f8c9ee034100b⟩

def tieDigests : List (List UInt8 × BlockHash) :=
  [((Block.openBlock ⟨⟨paperTestAccount, paperTestAccount, paperTestAccount⟩, 0, 0⟩).hashed,
      testGenesisHash),
    (shareSend.hashed, shareSendHash), (shareOpen.hashed, shareOpenHash),
    (restSend.hashed, restSendHash), (restOpen.hashed, restOpenHash),
    (emptySend.hashed, emptySendHash), (emptyFork.hashed, emptyForkHash),
    (ballotBytes emptySendHash 0,
      0x470ff25267642ad79cc93925089783b7f5f42a98f467b8d3b680849bf6aac5c1),
    (ballotBytes emptyForkHash 1,
      0xce5378e0fc7f1e5e3316e0d3e1d26b6e33b304e00dbcaef854568f589d841024),
    (ballotBytes emptySendHash 1,
      0x271b8c4296f2c3e7d8c8da1aa6e04c291008a6c6311fc904b2bb3363819ac0e0)]

def tieSignatures : List (Account × BlockHash × Signature) :=
  [(paperTestAccount, shareSendHash, shareSend.signature),
    (firstAccount, shareOpenHash, shareOpen.signature),
    (paperTestAccount, restSendHash, restSend.signature),
    (secondAccount, restOpenHash, restOpen.signature),
    (firstAccount, emptySendHash, emptySend.signature),
    (firstAccount, emptyForkHash, emptyFork.signature),
    (thirdAccount, 0x470ff25267642ad79cc93925089783b7f5f42a98f467b8d3b680849bf6aac5c1, tieOpening),
    (firstAccount, 0xce5378e0fc7f1e5e3316e0d3e1d26b6e33b304e00dbcaef854568f589d841024,
      forkBallot.signature),
    (paperTestAccount, 0x271b8c4296f2c3e7d8c8da1aa6e04c291008a6c6311fc904b2bb3363819ac0e0,
      sendBallot.signature)]

def tieNetwork : Env := tableNetwork tieDigests tieSignatures

def tieLedger : List Action :=
  [.process shareSend, .process shareOpen, .process restSend, .process restOpen,
    .process emptySend]

/-- The genesis account alone confirms the block with more than half. -/
theorem confirmed_with_quorum_genesis : ∃ it fuel s, ∃ e e' : Election, ∃ s' action,
    e.vote tieNetwork it fuel s sendBallot = .ok (s', e', action) ∧ e'.confirmed = true ∧
    (genesisAmount.toNat - (accountBalance s' paperTestAccount).toNat) / 2 <
      votesFor s (e.votesWith tieNetwork sendBallot) e'.lastWinner := by
  have hrun : executes tieNetwork 20 tieLedger (fun s =>
      returns (Election.start tieNetwork .inPlace 20 s emptySend thirdAccount tieOpening) (fun r =>
        returns (r.2.1.vote tieNetwork .inPlace 20 r.1 sendBallot) (fun t =>
          !r.2.1.confirmed && t.2.1.confirmed &&
          (r.2.1.votesWith tieNetwork sendBallot).repVotes.entries.all
            (fun f => decide (f.2.2 = emptySend))))) = true := by
    decide +kernel
  obtain ⟨s, _, hrun⟩ := exists_of_executes hrun
  obtain ⟨⟨s₁, e₁, act₁⟩, _, hrun⟩ := exists_of_returns hrun
  obtain ⟨⟨s₂, e₂, act₂⟩, hvote, ht⟩ := exists_of_returns hrun
  simp only [Bool.and_eq_true, Bool.not_eq_true', List.all_eq_true, decide_eq_true_eq] at ht
  obtain ⟨⟨hopen, hconf⟩, hall⟩ := ht
  have hone : ∀ b, Voted (e₁.votesWith tieNetwork sendBallot) b → b = emptySend := by
    intro b hb
    obtain ⟨f, hf, rfl⟩ := List.mem_map.mp (voted_iff.mp hb)
    exact hall f hf
  have hcon : ¬ Contested (e₁.votesWith tieNetwork sendBallot) := by
    intro h
    obtain ⟨b, c, hb, hc, hne⟩ := h
    exact hne ((hone b hb).trans (hone c hc).symm)
  have hq := confirmed_with_quorum hvote hopen hconf (fun h => absurd h hcon)
  exact ⟨_, _, _, _, _, _, _, hvote, hconf, hq.2 hcon⟩

/-- Two blocks with equal totals are voted for, and the election is confirmed with
three fifths of the supply. -/
theorem tie_confirms : ¬ ∀ E it fuel s e v s' e' action, Reached (Opening E) (Cast E) (s, e) →
    e.vote E it fuel s v = .ok (s', e', action) → e.confirmed = false → e'.confirmed = true →
    Contested (e.votesWith E v) →
      (genesisAmount.toNat - (accountBalance s' E.genesisAccount).toNat) / 16 * 15 <
        votesFor s (e.votesWith E v) e'.lastWinner := by
  intro hall
  have hrun : executes tieNetwork 20 tieLedger (fun s =>
      returns (Election.start tieNetwork .inPlace 20 s emptySend thirdAccount tieOpening) (fun r =>
        returns (r.2.1.vote tieNetwork .inPlace 20 r.1 forkBallot) (fun u =>
          returns (u.2.1.vote tieNetwork (.lastly (emptyFork, share)) 20 u.1 sendBallot) (fun t =>
            !u.2.1.confirmed && t.2.1.confirmed &&
            decide (emptySend ∈
              (u.2.1.votesWith tieNetwork sendBallot).repVotes.entries.map (fun f => f.2.2)) &&
            decide (emptyFork ∈
              (u.2.1.votesWith tieNetwork sendBallot).repVotes.entries.map (fun f => f.2.2)) &&
            decide (votesFor u.1 (u.2.1.votesWith tieNetwork sendBallot) t.2.1.lastWinner ≤
              (genesisAmount.toNat - (accountBalance t.1 paperTestAccount).toNat) / 16 * 15))))) =
        true := by
    decide +kernel
  obtain ⟨s, hx, hrun⟩ := exists_of_executes hrun
  obtain ⟨⟨s₁, e₁, act₁⟩, hstart, hrun⟩ := exists_of_returns hrun
  obtain ⟨⟨s₂, e₂, act₂⟩, hfirst, hrun⟩ := exists_of_returns hrun
  obtain ⟨⟨s₃, e₃, act₃⟩, hvote, ht⟩ := exists_of_returns hrun
  simp only [Bool.and_eq_true, Bool.not_eq_true', decide_eq_true_eq] at ht
  obtain ⟨⟨⟨⟨hopen, hconf⟩, hsend⟩, hfork⟩, hle⟩ := ht
  have hreach : Reached (Opening tieNetwork) (Cast tieNetwork) (s₂, e₂) :=
    (Reached.start (s := (s₁, e₁)) ⟨_, _, s, _, _, _, _, execute_reachable hx, hstart⟩).next
      ⟨_, _, _, hfirst⟩
  have hcon : Contested (e₂.votesWith tieNetwork sendBallot) :=
    ⟨emptySend, emptyFork, voted_iff.mpr hsend, voted_iff.mpr hfork, by decide +kernel⟩
  have hlt := hall _ _ _ s₂ e₂ sendBallot s₃ e₃ _ hreach hvote hopen hconf hcon
  exact absurd hlt (not_lt.mpr hle)

end TiedElection

end PaperNode.Elections
