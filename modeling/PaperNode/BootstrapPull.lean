import PaperNode.BulkPull
import PaperNode.BlockSynchronization

/-!
# Catching up with another node

After the pulls, `bulk_pull_client::process_end` hands the blocks of the table `unchecked`
to the node, the ones a block depends on before the block. Here the blocks that were pulled
are those of the other ledger that are missing, and what such a block depends on is stored
or was pulled with it. So no block is refused, none is dropped, and in the end the node has
every block of the other.
-/
namespace PaperNode.BootstrapPull
open BoundedRecursion OrderedTable LinkedNodes TransitionRuns Blocks BlockStore LedgerQueries
open LedgerProcess BlockLattice ChainInvariant IndexInvariant LedgerRuns Representatives VoteWeight
open ProcessReturns
open PartialLedger GapCache FrontierExchange BulkPull BlockSynchronization
open RollbackFuture hiding returns

/-- The ledger and the gap cache of the node that pulls, and its table `unchecked`. -/
structure PullData where
  node : Node
  unchecked : Unchecked

/-- `pull_synchronization` with the target of `bulk_pull_client::process_end`. What the target
does about a fork beyond `process_receive` is sent to other nodes. -/
def pullSynchronization (E : Env) : Synchronization PullData where
  synchronized d hash := (d.node.store.blockExists hash, d)
  retrieve d hash := d.unchecked.get hash
  target fuel d block := do
    let (_, node) ← relabel .receive (processReceive E fuel d.node block)
    return ⟨node, d.unchecked.del (E.hash block)⟩

theorem pullSynchronization_asks (E : Env) :
    Asks (pullSynchronization E) (fun d h => d.node.store.blockExists h) (fun d _ => d) := by
  intro d h
  cases ht : d.node.store.blockExists h
  all_goals simp [pullSynchronization, ht]

/-- `bulk_pull_client::first`. -/
def first (unchecked : Unchecked) : BlockHash :=
  match unchecked.first with
  | some (hash, _) => hash
  | none => 0

def giveUp (st : Stacked PullData) : Stacked PullData :=
  ⟨{ st.data with unchecked := st.blocks.foldl Table.del st.data.unchecked }, []⟩

/-- The loop of `bulk_pull_client::process_end`. -/
def processEndLoop (v : Synchronization PullData) : ℕ → Stacked PullData →
    Check SynchronizationAssertion (Stacked PullData)
  | 0, _ => exhaust
  | fuel + 1, st =>
      let block := first st.data.unchecked
      if block = 0 then return st
      else do
        let (error, st) ← v.synchronize fuel st block
        if error then processEndLoop v fuel (giveUp st) else processEndLoop v fuel st

/-- `bulk_pull_client::process_end`. -/
def processEnd (E : Env) (fuel : ℕ) (d : PullData) : Check SynchronizationAssertion PullData := do
  let st ← processEndLoop (pullSynchronization E) fuel ⟨d, []⟩
  return st.data

/-- While the node catches up with the ledger `B`, what it has not stored of `B` is in
`unchecked`, and nothing else is. The stack leads down from block to dependency. -/
structure Pulling (E : Env) (rank : BlockHash → ℕ) (B u : Store) (st : Stacked PullData) :
    Prop where
  part : Part E st.data.node.store u
  cached : Cached st.data.node.store
  pulled : ∀ h b, st.data.unchecked.get h = some b ↔
    B.blockGet h = some b ∧ st.data.node.store.blockGet h = none
  waiting : ∀ h ∈ st.blocks, st.data.unchecked.get h ≠ none
  ordered : st.blocks.Pairwise (fun h k => rank h < rank k)

variable {E : Env} {rank : BlockHash → ℕ} {A B U : Store} {st : Stacked PullData} {d : PullData}
  {b : Block} {h k : BlockHash} {ks : List BlockHash}

section Replay
variable (hE : Proper E) (hw : E.weightAssert = false) (hB : Part E B U)
  (hrank : Ranked U.blockGet (Needs E) rank)

include hB in
theorem Pulling.block (hp : Pulling E rank B U st) (hb : st.data.unchecked.get h = some b) :
    E.hash b = h ∧ U.blockGet h = some b ∧ st.data.node.store.blockGet h = none := by
  obtain ⟨hstored, hnew⟩ := (hp.pulled h b).mp hb
  exact ⟨hB.part.linked.chains.keyed h b hstored, hB.within h b hstored, hnew⟩

include hB in
theorem Pulling.needed (hp : Pulling E rank B U st) (hb : st.data.unchecked.get h = some b)
    (hk : Needs E b k) (hnot : st.data.node.store.blockGet k = none) :
    st.data.unchecked.get k ≠ none := by
  have hstored := hB.part.linked.chains.needed_stored ⟨b, ((hp.pulled h b).mp hb).1, hk⟩
  obtain ⟨c, hc⟩ := Option.ne_none_iff_exists'.mp hstored
  rw [(hp.pulled k c).mpr ⟨hc, hnot⟩]
  exact (nomatch ·)

include hB hrank in
theorem Pulling.push (hp : Pulling E rank B U ⟨d, h :: ks⟩) (hb : d.unchecked.get h = some b)
    (hk : Needs E b k) (hnot : d.node.store.blockGet k = none) :
    Pulling E rank B U ⟨d, k :: h :: ks⟩ ∧ rank k < rank h := by
  have hlt : rank k < rank h := hrank h k ⟨b, (hp.block hB hb).2.1, hk⟩
  have hneeded := hp.needed hB hb hk hnot
  have hordered := hp.ordered
  refine ⟨⟨hp.part, hp.cached, hp.pulled, ?_, ?_⟩, hlt⟩
  · intro j hj
    rcases List.mem_cons.mp hj with rfl | hj
    · exact hneeded
    · exact hp.waiting j hj
  · exact List.pairwise_cons.mpr ⟨lt_of_lt_top hordered hlt, hordered⟩

include hB hrank in
/-- `fill_dependencies` ends with a block on top that depends on nothing that is missing. -/
theorem Pulling.fill (hp : Pulling E rank B U ⟨d, h :: ks⟩) :
    ∃ j js c, Settles (fun n => (pullSynchronization E).fillDependencies n ⟨d, h :: ks⟩)
      (false, ⟨d, j :: js⟩) ∧ Pulling E rank B U ⟨d, j :: js⟩ ∧ d.unchecked.get j = some c ∧
      missing d.node.store c = none := by
  have hpush : ∀ {d' h ks b p}, d' = d ∧ Pulling E rank B U ⟨d', h :: ks⟩ →
      d'.unchecked.get h = some b → Names b p → d'.node.store.blockExists p = false →
      (d' = d ∧ Pulling E rank B U ⟨d', p :: h :: ks⟩) ∧ rank p < rank h := by
    intro d' h ks b p hI hb hn hnot
    obtain ⟨heq, hp'⟩ := hI
    have hg : b ≠ genesisBlock E := by
      obtain ⟨hkey, _, hnew⟩ := hp'.block hB hb
      exact hp'.part.ne_genesis (hkey ▸ hnew)
    obtain ⟨hpush, hlt⟩ := hp'.push hB hrank hb (hn.imp id (fun hq => ⟨hg, hq⟩))
      (Store.blockExists_eq_false.mp hnot)
    exact ⟨⟨heq, hpush⟩, hlt⟩
  obtain ⟨r, hset, hI, hfilled⟩ := fill_settles (pullSynchronization_asks E)
    (fun st => st.data = d ∧ Pulling E rank B U st) (fun st => (st.blocks.head?.map rank).getD 0)
    hpush ⟨rfl, hp⟩
  cases hfilled with
  | missing hnone => exact absurd hnone (hI.2.waiting _ List.mem_cons_self)
  | @ready d' j js c hc hall =>
      obtain ⟨rfl, hp'⟩ := hI
      refine ⟨j, js, c, hset, hp', hc, List.find?_eq_none.mpr ?_⟩
      intro p hmem
      rw [List.mem_append, Option.mem_toList, Option.mem_toList] at hmem
      simpa using hall p hmem.symm

include hE hw hB in
/-- The block on top is accepted and leaves the table. -/
theorem Pulling.handOn (hp : Pulling E rank B U ⟨d, k :: ks⟩) (hb : d.unchecked.get k = some b)
    (hmiss : missing d.node.store b = none) :
    ∃ d', Settles (fun n => (pullSynchronization E).target n d b) d' ∧
      Pulling E rank B U ⟨d', ks⟩ ∧ unstored U d'.node.store < unstored U d.node.store := by
  obtain ⟨rfl, hU, hnew⟩ := hp.block hB hb
  have hpart := hp.part
  obtain ⟨ret, store, hset, hcode⟩ := hpart.progress hU hnew hE hmiss (fun hpass =>
    Cached.movable hE hpart.part hp.cached hpass
      (fun hn => hpart.whole.represented _ b hU hn (hpart.ne_genesis hnew))
      (fun hassert => nomatch hw.symm.trans hassert)
      (fun hassert => nomatch hw.symm.trans hassert))
  obtain ⟨n, hn⟩ := hset.exists_ok
  obtain ⟨hpart', hstore⟩ := hpart.processed hU hE hn hcode
  have hordered := List.pairwise_cons.mp hp.ordered
  refine ⟨⟨⟨store, d.node.gapCache⟩, d.unchecked.del (E.hash b)⟩, ?_, ?_, ?_⟩
  · filter_upwards [hset] with n hn
    have hreceive : (relabel .receive (processReceive E n d.node b) :
        Check SynchronizationAssertion (ProcessReturn × Node)) =
          .ok (ret, ⟨store, d.node.gapCache⟩) :=
      relabel_eq_ok.mpr (receive_progress hn hcode)
    simp only [pullSynchronization, hreceive, ok_bind]
    rfl
  · constructor
    case part => exact hpart'
    case cached => exact hp.cached.accepted (Progressed.accepted ⟨n, ret, hn, hcode⟩)
    case pulled =>
      intro j c
      change (d.unchecked.del (E.hash b)).get j = some c ↔ _ ∧ store.blockGet j = none
      rw [Table.get_del, hstore]
      by_cases hj : j = E.hash b
      · subst hj
        simp [withBlock_self]
      · rw [if_neg hj, withBlock_of_ne hj]
        exact hp.pulled j c
    case waiting =>
      intro j hj
      have hne : j ≠ E.hash b := fun heq => (hordered.1 j hj).ne' (congrArg rank heq)
      change (d.unchecked.del (E.hash b)).get j ≠ none
      rw [Table.get_del_ne _ hne]
      exact hp.waiting j (List.mem_cons_of_mem _ hj)
    case ordered => exact hordered.2
  · exact unstored_lt hU hnew hstore

include hE hw hB hrank

theorem Pulling.one (hp : Pulling E rank B U ⟨d, h :: ks⟩) :
    ∃ st', Settles (fun n => (pullSynchronization E).synchronizeOne n ⟨d, h :: ks⟩) (false, st') ∧
      Pulling E rank B U st' ∧ unstored U st'.data.node.store < unstored U d.node.store := by
  obtain ⟨j, js, c, hfill, hp', hc, hmiss⟩ := hp.fill hB hrank
  obtain ⟨d', htarget, hp'', hlt⟩ := hp'.handOn hE hw hB hc hmiss
  exact ⟨⟨d', js⟩, one_ready hfill hc htarget, hp'', hlt⟩

/-- `synchronize` works the stack off. -/
theorem Pulling.all (hp : Pulling E rank B U st) :
    ∃ st', Settles (fun n => (pullSynchronization E).synchronizeAll n st) (false, st') ∧
      Pulling E rank B U st' ∧ st'.blocks = [] ∧
      unstored U st'.data.node.store ≤ unstored U st.data.node.store ∧
      (st.blocks ≠ [] → unstored U st'.data.node.store < unstored U st.data.node.store) := by
  induction hn : unstored U st.data.node.store using Nat.strong_induction_on generalizing st with
  | _ n ih =>
      obtain ⟨d, blocks⟩ := st
      cases blocks with
      | nil => exact ⟨⟨d, []⟩, all_empty d, hp, rfl, hn.le, fun hne => absurd rfl hne⟩
      | cons h ks =>
          obtain ⟨st₁, hone, hp₁, hlt⟩ := hp.one hE hw hB hrank
          have hlt : unstored U st₁.data.node.store < n := hn ▸ hlt
          obtain ⟨st', hall, hp', hempty, hle, _⟩ := ih _ hlt hp₁ rfl
          exact ⟨st', (all_next_iff (List.cons_ne_nil h ks) hone).mpr hall, hp', hempty,
            (hle.trans_lt hlt).le, fun _ => hle.trans_lt hlt⟩

/-- Every turn of `process_end` leaves fewer blocks to be stored, and the last one an empty
table. -/
theorem Pulling.processEnd (hp : Pulling E rank B U ⟨d, []⟩) :
    ∃ st', Settles (fun n => processEndLoop (pullSynchronization E) n ⟨d, []⟩) st' ∧
      Pulling E rank B U st' ∧ ∀ h, st'.data.unchecked.get h = none := by
  induction hn : unstored U d.node.store using Nat.strong_induction_on generalizing d with
  | _ n ih =>
      cases hf : d.unchecked.first with
      | none =>
          have hzero : first d.unchecked = 0 := by rw [first, hf]
          refine ⟨⟨d, []⟩, Settles.of_succ (fun n => ?_), hp, ?_⟩
          · rw [processEndLoop]
            simp only [hzero, if_true]
            rfl
          · intro h
            by_contra hne
            obtain ⟨b, hb⟩ := Option.ne_none_iff_exists'.mp hne
            obtain ⟨e, he⟩ := Table.exists_first hb
            cases hf.symm.trans he
      | some e =>
          obtain ⟨h, b⟩ := e
          have hfirst : first d.unchecked = h := by rw [first, hf]
          have hb : d.unchecked.get h = some b := (Table.first_eq_some.mp hf).1
          obtain ⟨_, hU, _⟩ := hp.block hB hb
          have hne := (Linked.bottomed hE.hashed hp.part.whole.linked).ne_zero hU
          have hpush : Pulling E rank B U ⟨d, [h]⟩ := by
            refine ⟨hp.part, hp.cached, hp.pulled, ?_, List.pairwise_singleton _ _⟩
            intro j hj
            rw [List.mem_singleton.mp hj, hb]
            exact (nomatch ·)
          obtain ⟨⟨d₁, blocks⟩, hall, hp₁, rfl, _, hlt⟩ := hpush.all hE hw hB hrank
          obtain ⟨st', hend, hp', hempty⟩ := ih _ (hn ▸ hlt (List.cons_ne_nil h [])) hp₁ rfl
          have hnext : Settles (fun n => (pullSynchronization E).synchronizeAll n ⟨d, [h]⟩ >>=
              fun r => if r.1 then processEndLoop (pullSynchronization E) n (giveUp r.2)
                else processEndLoop (pullSynchronization E) n r.2) st' := hall.bind hend
          refine ⟨st', hnext.succ (fun n => ?_), hp', hempty⟩
          rw [processEndLoop]
          simp only [hfirst, if_neg hne]
          rfl

end Replay

/-- Two nodes with ledgers that do not conflict: `U` holds the blocks of both. After `A` has
asked `B` for its frontiers, pulled the accounts it noted, in any order, and run `process_end`,
it has every block of `B`. -/
theorem bootstrap_pull_complete (clock clock' : ℕ → Word64) (hE : Proper E)
    (hw : E.weightAssert = false) (hA : Reached (Initial E) (Processed E) A)
    (hB : Reached (Initial { E with now := clock }) (Processed { E with now := clock }) B)
    (hU : Reached (Initial { E with now := clock' }) (Processed { E with now := clock' }) U)
    (hAU : Within A.blockGet U.blockGet) (hBU : Within B.blockGet U.blockGet)
    (hoA : Ordinary A) (hoB : Ordinary B) (now : Word64) (gapCache : Cache) :
    ∃ f pairs client, (∀ n, frontierReqServer B now n ⟨0, BitVec.allOnes 32⟩ = .ok f) ∧
      Settles (fun n => sendFrontiers B n f) pairs ∧
      Settles (fun n => receiveFrontiers A n (frontierReqClient A) pairs) client ∧
      ∀ π, π.Perm client.pulls.entries → ∃ unchecked d,
        Settles (fun n => pullAll E B n ∅ π) unchecked ∧
        Settles (fun n => processEnd E n ⟨⟨A, gapCache⟩, unchecked⟩) d ∧
        ∀ h b, B.blockGet h = some b → d.node.store.blockGet h = some b := by
  have hhA : Healthy E A := reachable_healthy hE (reached_reachable hA)
  have hhB : Healthy E B := (reachable_healthy (hE.configured clock E.weightAssert)
    (reached_reachable hB)).configured E.now E.weightAssert
  have hhU : Healthy E U := (reachable_healthy (hE.configured clock' E.weightAssert)
    (reached_reachable hU)).configured E.now E.weightAssert
  have hpartA : Part E A U := ⟨hhA, hhU, hAU⟩
  have hpartB : Part E B U := ⟨hhB, hhU, hBU⟩
  obtain ⟨rank, hrank⟩ := hhU.linked.chains.ranked
  obtain ⟨f, pairs, client, hserver, hsent, hclient, hpulls, _⟩ :=
    exchange_settles hhA.linked hoA hoB now
  refine ⟨f, pairs, client, hserver, hsent, hclient, ?_⟩
  intro π hπ
  obtain ⟨unchecked, hpull, hspec⟩ := pulled_iff hE hpartA hpartB hoB hpulls hπ
  have hstart : Pulling E rank B U ⟨⟨⟨A, gapCache⟩, unchecked⟩, []⟩ :=
    ⟨hpartA, reached_cached hA, hspec, by simp, List.Pairwise.nil⟩
  obtain ⟨st, hend, hp, hempty⟩ := hstart.processEnd hE hw hpartB hrank
  refine ⟨unchecked, st.data, hpull, hend.bind (Settles.of_forall fun _ => rfl), ?_⟩
  intro h b hb
  refine hp.part.within.get_of_stored (fun hnot => ?_) (hBU h b hb)
  -- the table would still have it
  have hget := (hp.pulled h b).mpr ⟨hb, hnot⟩
  rw [hempty] at hget
  cases hget

/-- A node with the genesis ledger catches up with a send and the open block that collects it. -/
theorem bootstrap_pull_complete_open : ∃ (A B : Store) (pairs : List (Account × BlockHash))
    (client : Client) (unchecked : Unchecked) (d : PullData),
    A.blockGet send₁Hash = none ∧ B.blockGet send₁Hash = some send₁ ∧
    Settles (fun n => receiveFrontiers A n (frontierReqClient A) pairs) client ∧
    Settles (fun n => pullAll { smallNetwork with weightAssert := false } B n ∅
      client.pulls.entries) unchecked ∧
    Settles (fun n => processEnd { smallNetwork with weightAssert := false } n
      ⟨⟨A, []⟩, unchecked⟩) d ∧
    d.node.store.blockGet send₁Hash = some send₁ := by
  have hrun : accepts { smallNetwork with weightAssert := false } 9 [] (fun s =>
      (s.accounts.entries.all fun e => decide (e.1 ≠ 0) && decide (e.1 ≠ BitVec.allOnes 256)) &&
      decide (s.blockGet send₁Hash = none) &&
      (acceptAll { smallNetwork with weightAssert := false } 9 s [send₁, open₁]).any (fun t =>
        (t.accounts.entries.all fun e => decide (e.1 ≠ 0) && decide (e.1 ≠ BitVec.allOnes 256)) &&
        decide (t.blockGet send₁Hash = some send₁))) = true := by
    decide +kernel
  obtain ⟨s₀, A, h₀, hA, htest⟩ := exists_of_accepts hrun
  simp only [Bool.and_eq_true, decide_eq_true_eq, Option.any_eq_true] at htest
  obtain ⟨⟨hoA, hnot⟩, B, hB, hoB, hstored⟩ := htest
  have hB := acceptAll_run hB
  have hreachedB := progressed_reached h₀ (hA.append hB)
  obtain ⟨_, pairs, client, _, _, hclient, hpulls⟩ := bootstrap_pull_complete smallNetwork.now
    smallNetwork.now (smallNetwork_proper.configured smallNetwork.now false) rfl
    (progressed_reached h₀ hA) hreachedB hreachedB (run_blocks hB).1 (fun _ _ hb => hb)
    (ordinary_of_all hoA) (ordinary_of_all hoB) 0 []
  obtain ⟨unchecked, d, hpull, hend, hall⟩ := hpulls _ (List.Perm.refl _)
  exact ⟨A, B, pairs, client, unchecked, d, hnot, hstored, hclient, hpull, hend,
    hall _ _ hstored⟩

end PaperNode.BootstrapPull
