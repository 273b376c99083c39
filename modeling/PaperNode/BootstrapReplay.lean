import PaperNode.BootstrapPull
import PaperNode.VoteRecords

/-!
# The replay of pulled blocks

A peer can send anything: blocks that are refused, and blocks that depend on others it has left
out. `bulk_pull_client::process_end` gets through the table `unchecked` all the same. A block
that was handed on is deleted, whatever became of it, and when a block cannot be retrieved the
whole stack is deleted, with the block at the bottom that was taken from the table.

What can stop it is `move_representation` in `ledger.process`: a block that passes the checks and
names representative zero, or an account whose representative block is gone. The assertions in
the fork branch of `process_receive` are left out here.
-/
namespace PaperNode.BootstrapReplay
open BoundedRecursion OrderedTable LinkedNodes TransitionRuns Blocks BlockStore LedgerProcess
open IndexInvariant LedgerRuns VoteWeight ProcessReturns GapCache BulkPull BlockSynchronization
open BootstrapPull VoteRecords
open BlockLattice (Names)
open RollbackFuture hiding returns

/-- The cache after `node::process_receive`. -/
def filed (E : Env) (node : Node) (b : Block) : ProcessResult → Cache
  | .gapPrevious => add E node.gapCache b b.previous
  | .gapSource => add E node.gapCache b b.source
  | _ => node.gapCache

/-- `node::process_receive` without the assertions of its fork branch. The election that this
branch starts does not change the ledger or the cache. -/
def processReceiveQuietly (E : Env) (fuel : ℕ) (node : Node) (b : Block) :
    Check ReceiveAssertion (ProcessReturn × Node) := do
  let (result, store) ← relabel .ledger (process E fuel node.store b)
  return (result, ⟨store, filed E node b result.code⟩)

/-- `pull_synchronization` with the target of `bulk_pull_client::process_end`, but for the
assertions about forks. -/
def replaySynchronization (E : Env) : Synchronization PullData where
  synchronized := (pullSynchronization E).synchronized
  retrieve := (pullSynchronization E).retrieve
  target fuel d block := do
    let (_, node) ← relabel .receive (processReceiveQuietly E fuel d.node block)
    return ⟨node, d.unchecked.del (E.hash block)⟩

/-- `bulk_pull_client::process_end` without the assertions about forks. -/
def processEndQuietly (E : Env) (fuel : ℕ) (d : PullData) :
    Check SynchronizationAssertion PullData := do
  let st ← processEndLoop (replaySynchronization E) fuel ⟨d, []⟩
  return st.data

variable {E : Env} {rank : BlockHash → ℕ} {U : Unchecked} {v v' : Synchronization PullData}
  {st st' r : Stacked PullData} {d d' : PullData} {node : Node} {b : Block} {h : BlockHash}
  {ks : List BlockHash} {k n : ℕ}

theorem processReceive_quietly {x : ProcessReturn × Node}
    (h : processReceive E n node b = .ok x) : processReceiveQuietly E n node b = .ok x := by
  refine bind_ok_mono (fun _ h => h) (fun y h => ?_) h
  obtain ⟨⟨code⟩, store⟩ := y
  cases code with
  | fork =>
      obtain ⟨_, _, h⟩ := bind_eq_ok.mp h
      exact h
  | _ => exact h

theorem processEndLoop_follows (hf : Follows k v v') (h : processEndLoop v n st = .ok r) :
    processEndLoop v' (n + k) st = .ok r := by
  induction n generalizing st with
  | zero => exact absurd h (exhaust_ne_ok r)
  | succ n ih =>
      rw [Nat.succ_add]
      rw [processEndLoop] at h ⊢
      refine ite_ok_mono (fun h => h) (fun h => ?_) h
      exact bind_ok_mono (fun _ h => hf.all h) (fun _ h => ite_ok_mono ih ih h) h

/-- Where no assertion fails, leaving some out makes no difference. -/
theorem processEnd_quietly (h : processEnd E n d = .ok d') :
    processEndQuietly E n d = .ok d' := by
  have hf : Follows 0 (pullSynchronization E) (replaySynchronization E) := by
    refine ⟨rfl, rfl, fun h => ?_⟩
    refine bind_ok_mono (fun x h => ?_) (fun _ h => h) h
    rw [relabel_eq_ok] at h ⊢
    exact processReceive_quietly h
  refine bind_ok_mono (fun st h => ?_) (fun _ h => h) h
  exact processEndLoop_follows hf h

theorem replay_follows (E : Env) :
    Follows 1 (replaySynchronization E) (replaySynchronization E) := by
  refine ⟨rfl, rfl, fun h => ?_⟩
  refine bind_ok_mono (fun x h => ?_) (fun _ h => h) h
  rw [relabel_eq_ok] at h ⊢
  refine bind_ok_mono (fun y h => ?_) (fun _ h => h) h
  rw [relabel_eq_ok] at h ⊢
  exact process_steady E _ _ _ y h

theorem replay_asks (E : Env) :
    Asks (replaySynchronization E) (fun d h => d.node.store.blockExists h) (fun d _ => d) :=
  pullSynchronization_asks E

theorem target_ok (h : (replaySynchronization E).target n d b = .ok d') :
    ∃ ret store cache, process E n d.node.store b = .ok (ret, store) ∧
      d' = ⟨⟨store, cache⟩, d.unchecked.del (E.hash b)⟩ := by
  obtain ⟨⟨ret, node⟩, hreceive, hd⟩ := bind_eq_ok.mp h
  obtain ⟨⟨ret', store⟩, hprocess, hnode⟩ := bind_eq_ok.mp (relabel_eq_ok.mp hreceive)
  cases hnode
  exact ⟨_, _, _, relabel_eq_ok.mp hprocess, (Except.ok.inj hd).symm⟩

theorem target_completes (hc : Completes (fun n => process E n d.node.store b)) :
    Completes (fun n => (replaySynchronization E).target n d b) := by
  obtain ⟨⟨ret, store⟩, hset⟩ := hc
  refine ⟨⟨⟨store, filed E d.node b ret.code⟩, d.unchecked.del (E.hash b)⟩, ?_⟩
  filter_upwards [hset] with n hn
  have hreceive : (relabel .receive (processReceiveQuietly E n d.node b) :
      Check SynchronizationAssertion (ProcessReturn × Node)) =
        .ok (ret, ⟨store, filed E d.node b ret.code⟩) := by
    rw [relabel_eq_ok, processReceiveQuietly, relabel_eq_ok.mpr hn]
    rfl
  simp only [replaySynchronization, hreceive, ok_bind]
  rfl

/-- What happens between two calls of `synchronize_one`. -/
inductive Turn (E : Env) : Stacked PullData → Stacked PullData → Prop
  | take {d : PullData} : first d.unchecked ≠ 0 → Turn E ⟨d, []⟩ ⟨d, [first d.unchecked]⟩
  | handOn {st st' : Stacked PullData} : st.blocks ≠ [] →
      Settles (fun n => (replaySynchronization E).synchronizeOne n st) (false, st') → Turn E st st'
  | drop {st st' : Stacked PullData} : st.blocks ≠ [] →
      Settles (fun n => (replaySynchronization E).synchronizeOne n st) (true, st') →
      Turn E st (giveUp st')

/-- The block `b` is the next to be handed on, with the tables `d`. -/
def Next (E : Env) (st : Stacked PullData) (d : PullData) (b : Block) : Prop :=
  st.blocks ≠ [] ∧ ∃ h ks, d.unchecked.get h = some b ∧
    Settles (fun n => (replaySynchronization E).fillDependencies n st) (false, ⟨d, h :: ks⟩)

/-- While `process_end` runs on the tables `d₀`, the block `b` is handed on with the tables `d`. -/
def Handed (E : Env) (d₀ d : PullData) (b : Block) : Prop :=
  ∃ st, Relation.ReflTransGen (Turn E) ⟨d₀, []⟩ st ∧ Next E st d b

/-- From the stack `st` on, `process_end` ends with `r`. -/
def Ends (E : Env) (st r : Stacked PullData) : Prop :=
  ∃ x, Settles (fun n => (replaySynchronization E).synchronizeAll n st) x ∧
    Settles
      (fun n => processEndLoop (replaySynchronization E) n (if x.1 then giveUp x.2 else x.2)) r

theorem ends_empty_iff : Ends E ⟨d, []⟩ r ↔
    Settles (fun n => processEndLoop (replaySynchronization E) n ⟨d, []⟩) r := by
  constructor
  · intro h
    obtain ⟨x, hall, hloop⟩ := h
    cases (all_empty d).unique hall
    exact hloop
  · intro h
    exact ⟨_, all_empty d, h⟩

/-- No turn changes how `process_end` ends. -/
theorem turn_ends (ht : Turn E st st') : Ends E st r ↔ Ends E st' r := by
  cases ht with
  | @take d hne =>
      have hsucc : ∀ n, processEndLoop (replaySynchronization E) (n + 1) ⟨d, []⟩ =
          (replaySynchronization E).synchronizeAll n ⟨d, [first d.unchecked]⟩ >>= fun x =>
            processEndLoop (replaySynchronization E) n (if x.1 then giveUp x.2 else x.2) := by
        intro n
        rw [processEndLoop]
        simp only [if_neg hne, Synchronization.synchronize]
        congr 1
        funext x
        cases x.1 <;> rfl
      rw [ends_empty_iff]
      constructor
      · intro h
        obtain ⟨n, hn⟩ := (h.shift hsucc).exists_ok
        obtain ⟨x, hall, hloop⟩ := bind_eq_ok.mp hn
        exact ⟨x, Steady.settles (fun _ _ h => (replay_follows E).all h) hall,
          Steady.settles (fun _ _ h => processEndLoop_follows (replay_follows E) h) hloop⟩
      · intro h
        obtain ⟨x, hall, hloop⟩ := h
        have hnext : Settles (fun n =>
            (replaySynchronization E).synchronizeAll n ⟨d, [first d.unchecked]⟩ >>= fun x =>
              processEndLoop (replaySynchronization E) n (if x.1 then giveUp x.2 else x.2)) r :=
          hall.bind hloop
        exact hnext.succ hsucc
  | handOn hne hone => exact exists_congr fun x => and_congr_left fun _ => all_next_iff hne hone
  | @drop st st₁ hne hone =>
      have hall := all_stopped hne hone
      rw [giveUp, ends_empty_iff]
      constructor
      · intro h
        obtain ⟨x, hx, hloop⟩ := h
        cases hall.unique hx
        exact hloop
      · intro h
        exact ⟨_, hall, h⟩

/-- If `process_end` returns, every block it hands on was processed. -/
theorem handed_processed {d₀ : PullData} (hset : Settles (fun n => processEndQuietly E n d₀) d')
    (hb : Handed E d₀ d b) : ∃ n x, process E n d.node.store b = .ok x := by
  obtain ⟨st, hreach, hne, h, ks, hget, hfill⟩ := hb
  obtain ⟨n, hn⟩ := hset.exists_ok
  obtain ⟨r, hloop, _⟩ := bind_eq_ok.mp hn
  have hends : Ends E st r := by
    clear hne hfill
    induction hreach with
    | refl =>
        exact ends_empty_iff.mpr
          (Steady.settles (fun _ _ h => processEndLoop_follows (replay_follows E) h) hloop)
    | tail _ ht ih => exact (turn_ends ht).mp ih
  obtain ⟨x, hall, _⟩ := hends
  obtain ⟨n, hn⟩ := (hall.shift (synchronizeAll_succ hne)).exists_ok
  obtain ⟨y, hone, _⟩ := bind_eq_ok.mp hn
  obtain ⟨n, d', htarget, _⟩ := one_of_ready hfill hget
    (Steady.settles (fun _ _ h => (replay_follows E).one h) hone)
  obtain ⟨ret, store, _, hprocess, _⟩ := target_ok htarget
  exact ⟨n, _, hprocess⟩

/-- While `process_end` runs, the table has only blocks it had at the start, the stack leads
down from a block to one that names it, and the block at the bottom is in the table. -/
structure Replaying (E : Env) (rank : BlockHash → ℕ) (U : Unchecked) (st : Stacked PullData) :
    Prop where
  healthy : Healthy E st.data.node.store
  within : Within st.data.unchecked.get U.get
  ordered : st.blocks.Pairwise (fun h k => rank h < rank k)
  bottom : ∀ h ∈ st.blocks.getLast?, st.data.unchecked.get h ≠ none

/-- The blocks left in the table; taking one of them onto the empty stack counts as well. -/
def remaining (st : Stacked PullData) : ℕ :=
  2 * st.data.unchecked.keys.length + if st.blocks = [] then 1 else 0

theorem remaining_lt (hlt : st'.data.unchecked.keys.length < st.data.unchecked.keys.length) :
    remaining st' < remaining st := by
  unfold remaining
  split_ifs <;> omega

theorem Replaying.start (rank : BlockHash → ℕ) (hs : Healthy E d.node.store) :
    Replaying E rank d.unchecked ⟨d, []⟩ :=
  ⟨hs, fun _ _ h => h, List.Pairwise.nil, by simp⟩

section Replaying
variable (hE : Proper E) (hkey : ∀ h b, U.get h = some b → E.hash b = h)
  (hrank : Ranked U.get Names rank)

include hrank in
/-- `fill_dependencies` returns, and leaves the tables as they are. -/
theorem Replaying.fill (hp : Replaying E rank U ⟨d, h :: ks⟩) :
    ∃ x, Settles (fun n => (replaySynchronization E).fillDependencies n ⟨d, h :: ks⟩) x ∧
      (x.2.data = d ∧ Replaying E rank U x.2) ∧
      Filled (replaySynchronization E) (fun d h => d.node.store.blockExists h) x := by
  refine fill_settles (replay_asks E) (fun st => st.data = d ∧ Replaying E rank U st)
    (fun st => (st.blocks.head?.map rank).getD 0) ?_ ⟨rfl, hp⟩
  intro d' j js b p hI hb hn _
  obtain ⟨heq, hp'⟩ := hI
  have hlt : rank p < rank j := hrank j p ⟨b, hp'.within j b hb, hn⟩
  have hordered := List.pairwise_cons.mpr ⟨lt_of_lt_top hp'.ordered hlt, hp'.ordered⟩
  refine ⟨⟨heq, hp'.healthy, hp'.within, hordered, ?_⟩, hlt⟩
  intro k hk
  rw [List.getLast?_cons_cons] at hk
  exact hp'.bottom k hk

include hE hkey in
/-- The block that was handed on leaves the table. -/
theorem Replaying.received {n : ℕ} {ret : ProcessReturn} {store : Store} (cache : Cache)
    (hp : Replaying E rank U ⟨d, h :: ks⟩) (hb : d.unchecked.get h = some b)
    (hprocess : process E n d.node.store b = .ok (ret, store)) :
    Replaying E rank U ⟨⟨⟨store, cache⟩, d.unchecked.del (E.hash b)⟩, ks⟩ ∧
      (d.unchecked.del (E.hash b)).keys.length < d.unchecked.keys.length := by
  obtain rfl := hkey h b (hp.within h b hb)
  obtain ⟨hlt, hordered⟩ := List.pairwise_cons.mp hp.ordered
  refine ⟨⟨?_, ?_, hordered, ?_⟩, ?_⟩
  · rcases Processed.cases ⟨n, ret, hprocess⟩ with hsame | hacc
    · exact hsame ▸ hp.healthy
    · exact hp.healthy.accepted hE hacc
  · intro j c hj
    have hj : (d.unchecked.del (E.hash b)).get j = some c := hj
    rw [Table.get_del] at hj
    split_ifs at hj
    exact hp.within j c hj
  · intro j hj
    have hmem := List.mem_of_getLast? hj
    have hne : j ≠ E.hash b := fun heq => (hlt j hmem).ne' (congrArg rank heq)
    change (d.unchecked.del (E.hash b)).get j ≠ none
    rw [Table.get_del_ne _ hne]
    refine hp.bottom j ?_
    rw [List.getLast?_cons_of_ne_nil (List.ne_nil_of_mem hmem)]
    exact hj
  · have hget : d.unchecked.get (E.hash b) ≠ none := by
      rw [hb]
      exact Option.some_ne_none _
    rw [(Table.perm_keys_del hget).length_eq, List.length_cons]
    exact Nat.lt_succ_self _

theorem Replaying.givenUp (hp : Replaying E rank U st) (hne : st.blocks ≠ []) :
    Replaying E rank U (giveUp st) ∧
      (giveUp st).data.unchecked.keys.length < st.data.unchecked.keys.length := by
  have hget : ∀ j, (giveUp st).data.unchecked.get j =
      if j ∈ st.blocks then none else st.data.unchecked.get j := Table.get_foldl_del _ _
  refine ⟨⟨hp.healthy, ?_, List.Pairwise.nil, by simp [giveUp]⟩, ?_⟩
  · intro j c hj
    rw [hget] at hj
    split_ifs at hj
    exact hp.within j c hj
  · have hlast := List.getLast?_eq_some_getLast hne
    refine Table.length_keys_lt (fun j hj => ?_) (hp.bottom _ hlast) ?_
    · rw [hget] at hj
      split_ifs at hj with hmem
      · exact absurd rfl hj
      · exact hj
    · rw [hget, if_pos (List.getLast_mem hne)]

include hE hkey hrank

/-- Every turn leaves less to do. -/
theorem Replaying.turn (hp : Replaying E rank U st) (ht : Turn E st st') :
    Replaying E rank U st' ∧ remaining st' < remaining st := by
  cases ht with
  | @take d hne =>
      cases hf : d.unchecked.first with
      | none => exact absurd (by rw [first, hf]) hne
      | some e =>
          obtain ⟨h, b⟩ := e
          have hfirst : first d.unchecked = h := by rw [first, hf]
          have hb := (Table.first_eq_some.mp hf).1
          rw [hfirst]
          refine ⟨⟨hp.healthy, hp.within, List.pairwise_singleton _ _, ?_⟩, ?_⟩
          · intro j hj
            cases hj
            change d.unchecked.get h ≠ none
            rw [hb]
            exact Option.some_ne_none _
          · simp [remaining]
  | handOn hne hone =>
      obtain ⟨d, blocks⟩ := st
      obtain ⟨h, ks, rfl⟩ := List.exists_cons_of_ne_nil hne
      obtain ⟨x, hfill, ⟨hdata, hp'⟩, hfilled⟩ := hp.fill hrank
      cases hfilled with
      | missing hnone => cases (one_missing hfill).unique hone
      | @ready d' j js b hb _ =>
          cases hdata
          obtain ⟨n, d'', htarget, heq⟩ := one_of_ready hfill hb hone
          obtain ⟨ret, store, cache, hprocess, rfl⟩ := target_ok htarget
          cases heq
          obtain ⟨hreceived, hlt⟩ := hp'.received hE hkey cache hb hprocess
          exact ⟨hreceived, remaining_lt hlt⟩
  | @drop st st₁ hne hone =>
      obtain ⟨d, blocks⟩ := st
      obtain ⟨h, ks, rfl⟩ := List.exists_cons_of_ne_nil hne
      obtain ⟨x, hfill, ⟨hdata, hp'⟩, hfilled⟩ := hp.fill hrank
      cases hfilled with
      | @missing d' j js hnone =>
          cases hdata
          cases (one_missing hfill).unique hone
          obtain ⟨hgiven, hlt⟩ := hp'.givenUp (List.cons_ne_nil j js)
          exact ⟨hgiven, remaining_lt hlt⟩
      | @ready d' j js b hb _ =>
          obtain ⟨n, d'', _, heq⟩ := one_of_ready hfill hb hone
          cases heq

theorem Replaying.handed {d₀ : PullData} (hp : Replaying E rank U ⟨d₀, []⟩)
    (hb : Handed E d₀ d b) : Healthy E d.node.store ∧ U.get (E.hash b) = some b := by
  obtain ⟨st, hreach, hne, h, ks, hget, hfill⟩ := hb
  have hp' : Replaying E rank U st := by
    clear hne hfill
    induction hreach with
    | refl => exact hp
    | tail _ ht ih => exact (ih.turn hE hkey hrank ht).1
  obtain ⟨d', blocks⟩ := st
  obtain ⟨j, js, rfl⟩ := List.exists_cons_of_ne_nil hne
  obtain ⟨x, hfill', ⟨_, hp''⟩, _⟩ := hp'.fill hrank
  cases hfill.unique hfill'
  have hU := hp''.within h b hget
  exact ⟨hp''.healthy, (hkey h b hU).symm ▸ hU⟩

omit hkey in
/-- As long as the next block to be handed on is processed to the end, there is a next turn
unless the table is empty. -/
theorem Replaying.exists_turn (hp : Replaying E rank U st)
    (hnext : ∀ d b, Next E st d b → Passes E d.node.store b → Movable E d.node.store b) :
    (∃ st', Turn E st st') ∨ st.blocks = [] ∧ first st.data.unchecked = 0 := by
  obtain ⟨d, blocks⟩ := st
  cases blocks with
  | nil =>
      by_cases hne : first d.unchecked = 0
      · exact Or.inr ⟨rfl, hne⟩
      · exact Or.inl ⟨_, Turn.take hne⟩
  | cons h ks =>
      have hcons : h :: ks ≠ [] := List.cons_ne_nil h ks
      obtain ⟨x, hfill, ⟨hdata, hp'⟩, hfilled⟩ := hp.fill hrank
      refine Or.inl ?_
      cases hfilled with
      | missing hnone => exact ⟨_, Turn.drop hcons (one_missing hfill)⟩
      | @ready d' j js b hb _ =>
          have hmovable := hnext d' b ⟨hcons, j, js, hb, hfill⟩
          obtain ⟨d'', htarget⟩ := target_completes (Movable.completes hE hp'.healthy hmovable)
          exact ⟨_, Turn.handOn hcons (one_ready hfill hb htarget)⟩

/-- Turn after turn the table gets empty. -/
theorem Replaying.finishes (hp : Replaying E rank U st)
    (hall : ∀ st' d b, Relation.ReflTransGen (Turn E) st st' → Next E st' d b →
      Passes E d.node.store b → Movable E d.node.store b) :
    ∃ r, Ends E st r ∧ r.data.unchecked = ∅ := by
  induction hn : remaining st using Nat.strong_induction_on generalizing st with
  | _ n ih =>
      rcases hp.exists_turn hE hrank (fun d b => hall st d b .refl) with ⟨st₁, ht⟩ | ⟨hnil, hzero⟩
      · obtain ⟨hp₁, hlt⟩ := hp.turn hE hkey hrank ht
        obtain ⟨r, hends, hempty⟩ := ih _ (hn ▸ hlt) hp₁
          (fun st' d b hreach => hall st' d b (.head ht hreach)) rfl
        exact ⟨r, (turn_ends ht).mpr hends, hempty⟩
      · obtain ⟨d, blocks⟩ := st
        cases hnil
        refine ⟨⟨d, []⟩, ends_empty_iff.mpr (Settles.of_succ fun n => ?_), ?_⟩
        · rw [processEndLoop]
          exact if_pos hzero
        · refine Table.first_eq_none.mp ?_
          cases hf : d.unchecked.first with
          | none => rfl
          | some e =>
              -- the first key would be the hash of a block, and zero
              have hb := (Table.first_eq_some.mp hf).1
              have hfirst : first d.unchecked = e.1 := by rw [first, hf]
              rw [hfirst] at hzero
              exact absurd ((hkey _ _ (hp.within _ _ hb)).trans hzero) (hE.hash_ne_zero _)

end Replaying

/-- For every table of blocks under their own hashes whose links have no cycle, `process_end`
returns and leaves the table empty exactly if every block that is handed on and passes the
checks finds the assertions of `move_representation` true. -/
theorem replay_finishes_iff (hE : Proper E) (hs : Reachable E d.node.store)
    (hkey : ∀ h b, d.unchecked.get h = some b → E.hash b = h)
    (hacyclic : ∀ h, ¬ Relation.TransGen (Link d.unchecked.get Names) h h) :
    (∃ d', Settles (fun n => processEndQuietly E n d) d' ∧ d'.unchecked = ∅) ↔
      ∀ d' b, Handed E d d' b → Passes E d'.node.store b → Movable E d'.node.store b := by
  obtain ⟨rank, hrank⟩ := exists_ranked_iff.mpr hacyclic
  have hstart := Replaying.start rank (reachable_healthy hE hs)
  constructor
  · intro h d' b hb hpass
    obtain ⟨_, hset, _⟩ := h
    obtain ⟨n, ⟨ret, store⟩, hprocess⟩ := handed_processed hset hb
    have haccepted := Progressed.accepted ⟨n, ret, hprocess, passes_progress hpass hprocess⟩
    exact movable_of_accepted hE (hstart.handed hE hkey hrank hb).1 haccepted
  · intro h
    obtain ⟨r, hends, hempty⟩ := hstart.finishes hE hkey hrank
      (fun st d' b hreach hnext => h d' b ⟨st, hreach, hnext⟩)
    exact ⟨r.data, (ends_empty_iff.mp hends).bind (Settles.of_forall fun _ => rfl), hempty⟩

def pulledSends : Unchecked := Table.ofEntries [(send₁Hash, send₁), (send₂Hash, send₂)]

/-- Two sends that were pulled, one on top of the other, are replayed. -/
theorem replay_finishes_sends : ∃ s d', Reachable smallNetwork s ∧
    Settles (fun n => processEndQuietly smallNetwork n ⟨⟨s, []⟩, pulledSends⟩) d' ∧
    d'.unchecked = ∅ := by
  have hrun : accepts smallNetwork 9 [] (fun _ => true) = true := by decide +kernel
  obtain ⟨s₀, s, h₀, hs, _⟩ := exists_of_accepts hrun
  have hreach := reached_reachable (progressed_reached h₀ hs)
  have hmem : ∀ h b, pulledSends.get h = some b →
      h = send₁Hash ∧ b = send₁ ∨ h = send₂Hash ∧ b = send₂ := by
    intro h b hb
    simpa using Table.mem_of_get_ofEntries hb
  have hkey : ∀ h b, pulledSends.get h = some b → smallNetwork.hash b = h := by
    intro h b hb
    rcases hmem h b hb with ⟨rfl, rfl⟩ | ⟨rfl, rfl⟩
    · decide +kernel
    · decide +kernel
  let rank : BlockHash → ℕ := fun h => if h = send₂Hash then 2 else if h = send₁Hash then 1 else 0
  have hrank : Ranked pulledSends.get Names rank := by
    intro h p hl
    obtain ⟨b, hb, hn⟩ := hl
    rcases hmem h b hb with ⟨rfl, rfl⟩ | ⟨rfl, rfl⟩
    · rcases hn with hn | hn <;> cases hn
      decide
    · rcases hn with hn | hn <;> cases hn
      decide
  have hstart := Replaying.start (d := ⟨⟨s, []⟩, pulledSends⟩) rank
    (reachable_healthy smallNetwork_proper hreach)
  -- a send moves no weight
  have hmovable : ∀ d' b, Handed smallNetwork ⟨⟨s, []⟩, pulledSends⟩ d' b →
      Passes smallNetwork d'.node.store b → Movable smallNetwork d'.node.store b := by
    intro d' b hb _
    rcases hmem _ b (hstart.handed smallNetwork_proper hkey hrank hb).2 with ⟨_, rfl⟩ | ⟨_, rfl⟩
    · trivial
    · trivial
  obtain ⟨d', hset, hempty⟩ := (replay_finishes_iff smallNetwork_proper hreach hkey
    (exists_ranked_iff.mp ⟨_, hrank⟩)).mpr hmovable
  exact ⟨s, d', hreach, hset, hempty⟩

/-- The genesis account sends again, after its change of representative, and the first account
receives it. -/
def send₃Hash : BlockHash := 0x3e60517e12d4da3dd46e830e64b8396800d548c7e3afd1aa391aea914c6b4988

def send₃ : Block := .sendBlock
  ⟨⟨change₁Hash, firstAccount, LedgerQueries.genesisAmount - 200⟩, 1, 0⟩

def receive₃Hash : BlockHash := 0xaed49b62025f8fef1db8fa8f6f7626cf78e410dac2c87187256df94cc91b9798

def receive₃ : Block := .receiveBlock ⟨⟨open₁Hash, send₃Hash⟩, 1, 0⟩

/-- The first account names the second as its representative. -/
def change₃Hash : BlockHash := 0x757233ba86ab2c3fcf36a539ced9740366db7afa9dd5fcfdd86dc65eb06086de

def change₃ : Block := .changeBlock ⟨⟨open₁Hash, secondAccount⟩, 1, 0⟩

/-- The small network with these blocks, and without the assertion on weights. -/
def laterNetwork : Env :=
  { tableNetwork (digests.map (fun d => (d.1.hashed, d.2)) ++
      [(send₃.hashed, send₃Hash), (receive₃.hashed, receive₃Hash), (change₃.hashed, change₃Hash)])
    (signatures ++ [(paperTestAccount, send₃Hash, 1), (firstAccount, receive₃Hash, 1),
      (firstAccount, change₃Hash, 1)]) with weightAssert := false }

theorem laterNetwork_proper : Proper laterNetwork :=
  (tableNetwork_proper (by decide +kernel) (by decide +kernel)).configured _ _

def pulledChange : Unchecked := Table.ofEntries [(change₃Hash, change₃)]

/-- The receive block is rolled back, which leaves the first account with the representative
block of the sender, and then that block is rolled back. A change block of the first account
that a peer has sent now stops `process_end`. -/
theorem missing_representative_stops_replay : ¬ ∀ E d, Proper E → E.weightAssert = false →
    Reachable E d.node.store → (∀ h b, d.unchecked.get h = some b → E.hash b = h) →
    (∀ h, ¬ Relation.TransGen (Link d.unchecked.get Names) h h) →
    ∃ d', Settles (fun n => processEndQuietly E n d) d' ∧ d'.unchecked = ∅ := by
  intro hall
  have hrun : executes laterNetwork 30 [.process send₁, .process open₁, .process change₁,
      .process send₃, .process receive₃, .rollback receive₃Hash, .rollback change₁Hash] (fun s =>
        decide ((s.accountGet firstAccount).map AccountInfo.repBlock = some change₁Hash) &&
        decide (s.blockGet change₁Hash = none) && !s.blockExists change₃Hash &&
        s.blockExists open₁Hash && decide (s.frontierGet open₁Hash = firstAccount)) = true := by
    decide +kernel
  obtain ⟨s, hx, ht⟩ := exists_of_executes hrun
  have hs := execute_reachable hx
  simp only [Bool.and_eq_true, Bool.not_eq_true', decide_eq_true_eq] at ht
  obtain ⟨⟨⟨⟨hrep, hgone⟩, hnew⟩, hopen⟩, hfront⟩ := ht
  obtain ⟨i, hi, hrep⟩ := Option.map_eq_some_iff.mp hrep
  have hmem : ∀ h b, pulledChange.get h = some b → h = change₃Hash ∧ b = change₃ := by
    intro h b hb
    simpa using Table.mem_of_get_ofEntries hb
  have hhash : laterNetwork.hash change₃ = change₃Hash := by decide +kernel
  have hkey : ∀ h b, pulledChange.get h = some b → laterNetwork.hash b = h := by
    intro h b hb
    obtain ⟨rfl, rfl⟩ := hmem h b hb
    exact hhash
  have hrank : Ranked pulledChange.get Names (fun h => if h = change₃Hash then 1 else 0) := by
    intro h p hl
    obtain ⟨b, hb, hn⟩ := hl
    obtain ⟨rfl, rfl⟩ := hmem h b hb
    rcases hn with hn | hn <;> cases hn
    decide
  obtain ⟨d', hset, _⟩ := hall laterNetwork ⟨⟨s, []⟩, pulledChange⟩ laterNetwork_proper rfl hs hkey
    (exists_ranked_iff.mp ⟨_, hrank⟩)
  -- the change block is the first to be handed on
  have hfirst : first pulledChange ≠ 0 := by decide
  have hget : pulledChange.get change₃Hash = some change₃ := rfl
  have hnext : Next laterNetwork ⟨⟨⟨s, []⟩, pulledChange⟩, [change₃Hash]⟩
      ⟨⟨s, []⟩, pulledChange⟩ change₃ := by
    refine ⟨List.cons_ne_nil _ _, change₃Hash, [], hget, fill_ready hget ?_⟩
    simp [Synchronization.addDependency, Synchronization.addHash, change₃, replaySynchronization,
      pullSynchronization, hopen]
  have hhanded : Handed laterNetwork ⟨⟨s, []⟩, pulledChange⟩ ⟨⟨s, []⟩, pulledChange⟩ change₃ :=
    ⟨_, Relation.ReflTransGen.single (Turn.take hfirst), hnext⟩
  obtain ⟨n, ⟨ret, u⟩, hprocess⟩ := handed_processed hset hhanded
  have hpass : Passes laterNetwork s change₃ :=
    passes_change hhash hnew hopen hfront (by decide) (by decide +kernel)
  have hmovable := movable_of_accepted laterNetwork_proper
    (reachable_healthy laterNetwork_proper hs)
    (Progressed.accepted ⟨n, ret, hprocess, passes_progress hpass hprocess⟩)
  obtain ⟨c, _, hc, _⟩ := hmovable i (hfront ▸ hi)
  have hne : change₁Hash ≠ laterNetwork.hash change₃ := by
    rw [hhash]
    decide
  have hc : withBlock laterNetwork s change₃ i.repBlock = some c := hc
  rw [hrep, withBlock_of_ne hne, hgone] at hc
  cases hc

end PaperNode.BootstrapReplay
