import PaperNode.BlockSynchronization

/-!
# Pushing blocks to another node

`bulk_push_client` sends the blocks that are noted in the table `unsynced`. `push` takes the
first of them onto the stack, a block is written once nothing it names is in the table, and
the handler of the write goes on with the stack or, when it is empty, with `push`.

Asking whether a block is synchronized takes it out of the table. A block that has been asked
for is therefore on the stack or sent, and since the stack leads down from a block to one that
names it, it is sent before the block that asked.
-/
namespace PaperNode.BulkPush
open BoundedRecursion OrderedTable LinkedNodes TransitionRuns Blocks BlockStore BlockLattice
open LedgerProcess ChainInvariant IndexInvariant LedgerRuns BlockSynchronization

/-- The tables of the node that pushes, and the blocks it has written to the connection. -/
structure PushData where
  store : Store
  unsynced : Table BlockHash Unit
  sent : List Block := []

/-- `block_store::unsynced_exists`. -/
def unsyncedExists (unsynced : Table BlockHash Unit) (hash : BlockHash) : Bool :=
  match (unsynced.seek hash).head? with
  | some (key, _) => decide (key = hash)
  | none => false

/-- `push_synchronization` with the target of `bulk_push_client`, where every write succeeds. -/
def pushSynchronization : Synchronization PushData where
  synchronized d hash :=
    let result := !unsyncedExists d.unsynced hash
    if result then (result, d) else (result, { d with unsynced := d.unsynced.del hash })
  retrieve d hash := d.store.blockGet hash
  target _ d block := .ok { d with sent := d.sent ++ [block] }

/-- `bulk_push_client::push`, and whether it calls `synchronize_one` next. If not, it has called
`send_finished`. -/
def push (st : Stacked PushData) : Bool × Stacked PushData :=
  let (hash, data) : BlockHash × PushData :=
    match st.data.unsynced.first with
    | some (hash, _) => (hash, { st.data with unsynced := st.data.unsynced.del hash })
    | none => (0, st.data)
  if hash ≠ 0 then (true, ⟨data, hash :: st.blocks⟩) else (false, ⟨data, st.blocks⟩)

/-- The handler of the write in `bulk_push_client::push_block`. -/
def written (st : Stacked PushData) : Bool × Stacked PushData :=
  if st.blocks ≠ [] then (true, st) else push st

/-- From one call of `synchronize_one` to the next. The result is whether `send_finished` was
called in the end. -/
def sendBlocks : ℕ → Bool × Stacked PushData →
    Check SynchronizationAssertion (Bool × Stacked PushData)
  | 0, _ => exhaust
  | fuel + 1, (more, st) =>
      if more then do
        let (error, st) ← pushSynchronization.synchronizeOne fuel st
        -- after an error nothing is written, and no handler is called
        if error then return (false, st) else sendBlocks fuel (written st)
      else return (true, st)

/-- `bulk_push_client` from its first call of `push` on. -/
def bulkPush (fuel : ℕ) (d : PushData) : Check SynchronizationAssertion (Bool × Stacked PushData) :=
  sendBlocks fuel (push ⟨d, []⟩)

/-- No block comes before one that it names and that is in the table. -/
def InOrder (E : Env) (unsynced : Table BlockHash Unit) (bs : List Block) : Prop :=
  ∀ l b r, bs = l ++ b :: r → ∀ p, Names b p → unsynced.get p ≠ none → p ∈ l.map E.hash

/-- While the blocks of the table `U` are pushed, each is in the table, on the stack or sent.
The stack leads down from a block to one that names it. -/
structure Pushing (E : Env) (rank : BlockHash → ℕ) (s : Store) (U : Table BlockHash Unit)
    (st : Stacked PushData) : Prop where
  store : st.data.store = s
  shared : U.keys.Perm (st.data.unsynced.keys ++ (st.blocks ++ st.data.sent.map E.hash))
  ordered : st.blocks.Pairwise (fun h k => rank h < rank k)
  stored : ∀ b ∈ st.data.sent, s.blockGet (E.hash b) = some b
  inOrder : InOrder E U st.data.sent

variable {E : Env} {rank : BlockHash → ℕ} {s : Store} {U : Table BlockHash Unit}
  {st : Stacked PushData} {d : PushData} {b : Block} {h p : BlockHash} {ks : List BlockHash}

theorem unsyncedExists_iff {unsynced : Table BlockHash Unit} :
    unsyncedExists unsynced h = true ↔ unsynced.get h ≠ none := by
  unfold unsyncedExists
  constructor
  · intro hex
    split at hex
    · rename_i key v hseek
      cases of_decide_eq_true hex
      rw [Table.head_seek.mp hseek]
      exact Option.some_ne_none _
    · cases hex
  · intro hne
    obtain ⟨v, hv⟩ := Option.ne_none_iff_exists'.mp hne
    rw [Table.head_seek.mpr hv]
    exact decide_eq_true rfl

theorem pushSynchronization_asks :
    Asks pushSynchronization (fun d h => !unsyncedExists d.unsynced h)
      (fun d h => { d with unsynced := d.unsynced.del h }) := by
  intro d h
  cases ht : unsyncedExists d.unsynced h
  all_goals simp [pushSynchronization, ht]

theorem InOrder.snoc {bs : List Block} (hbs : InOrder E U bs)
    (hb : ∀ p, Names b p → U.get p ≠ none → p ∈ bs.map E.hash) : InOrder E U (bs ++ [b]) := by
  intro l c r heq p hp hU
  rcases List.eq_nil_or_concat r with rfl | ⟨r, x, rfl⟩
  · obtain ⟨rfl, hc⟩ := List.append_inj' heq rfl
    cases hc
    exact hb p hp hU
  · rw [List.concat_eq_append, ← List.cons_append, ← List.append_assoc] at heq
    exact hbs l c r (List.append_inj' heq rfl).1 p hp hU

section Pushing

theorem Pushing.nodup (hp : Pushing E rank s U st) :
    (st.data.unsynced.keys ++ (st.blocks ++ st.data.sent.map E.hash)).Nodup :=
  hp.shared.nodup_iff.mp U.nodup_keys

theorem Pushing.mem_iff (hp : Pushing E rank s U st) : U.get h ≠ none ↔
    st.data.unsynced.get h ≠ none ∨ h ∈ st.blocks ∨ h ∈ st.data.sent.map E.hash := by
  rw [← Table.mem_keys, hp.shared.mem_iff, List.mem_append, List.mem_append, Table.mem_keys]

theorem Pushing.length (hp : Pushing E rank s U st) :
    U.keys.length = st.data.unsynced.keys.length + (st.blocks.length + st.data.sent.length) := by
  have hlength := hp.shared.length_eq
  simpa only [List.length_append, List.length_map] using hlength

theorem Pushing.take (hp : Pushing E rank s U ⟨d, ks⟩) (hh : d.unsynced.get h ≠ none)
    (hlt : ∀ k ∈ ks, rank h < rank k) :
    Pushing E rank s U ⟨{ d with unsynced := d.unsynced.del h }, h :: ks⟩ := by
  refine ⟨hp.store, hp.shared.trans ?_, List.pairwise_cons.mpr ⟨hlt, hp.ordered⟩, hp.stored,
    hp.inOrder⟩
  exact ((Table.perm_keys_del hh).append_right _).trans List.perm_middle.symm

variable (hE : Hashed E) (hs : Linked E s) (hrank : Ranked s.blockGet (Needs E) rank)
  (hU : ∀ h, U.get h ≠ none → s.blockGet h ≠ none)

include hE hs hrank hU

/-- What a block names and is in the table has a lower rank. The genesis block names its account,
which is not the hash of a block. -/
theorem rank_lt (hb : s.blockGet h = some b) (hn : Names b p) (hp : U.get p ≠ none) :
    rank p < rank h := by
  refine hrank h p ⟨b, hb, hn.imp id (fun hq => ⟨?_, hq⟩)⟩
  intro hg
  subst hg
  cases hq
  exact hU _ hp (Linked.bottomed hE hs).genesis

/-- The block on top is sent once nothing it names is in the table. -/
theorem Pushing.send (hp : Pushing E rank s U ⟨d, h :: ks⟩) (hb : s.blockGet h = some b)
    (hall : ∀ p, Names b p → d.unsynced.get p = none) :
    Pushing E rank s U ⟨{ d with sent := d.sent ++ [b] }, ks⟩ := by
  have hkey := hs.chains.keyed h b hb
  obtain ⟨hlt, hordered⟩ := List.pairwise_cons.mp hp.ordered
  constructor
  case store => exact hp.store
  case shared =>
    refine hp.shared.trans (List.Perm.append_left _ ?_)
    rw [List.map_append, List.map_singleton, hkey, ← List.append_assoc]
    exact (List.perm_append_singleton h _).symm
  case ordered => exact hordered
  case stored =>
    intro c hc
    rcases List.mem_append.mp hc with hc | hc
    · exact hp.stored c hc
    · rw [List.mem_singleton.mp hc, hkey, hb]
  case inOrder =>
    refine hp.inOrder.snoc ?_
    intro p hn hpU
    have hrk := rank_lt hE hs hrank hU hb hn hpU
    rcases hp.mem_iff.mp hpU with hp' | hp' | hp'
    · exact absurd (hall p hn) hp'
    · -- on the stack are only blocks of higher rank
      rcases List.mem_cons.mp hp' with rfl | hp'
      · exact absurd hrk (lt_irrefl _)
      · exact absurd hrk (lt_asymm (hlt p hp'))
    · exact hp'

/-- `synchronize_one` sends a block. -/
theorem Pushing.one (hp : Pushing E rank s U ⟨d, h :: ks⟩) :
    ∃ st', Settles (fun n => pushSynchronization.synchronizeOne n ⟨d, h :: ks⟩) (false, st') ∧
      Pushing E rank s U st' ∧ d.sent.length < st'.data.sent.length := by
  have hpush : ∀ {d' h ks b p},
      d'.sent = d.sent ∧ Pushing E rank s U ⟨d', h :: ks⟩ → d'.store.blockGet h = some b →
      Names b p → (!unsyncedExists d'.unsynced p) = false →
      (d'.sent = d.sent ∧
        Pushing E rank s U ⟨{ d' with unsynced := d'.unsynced.del p }, p :: h :: ks⟩) ∧
      (d'.unsynced.del p).keys.length < d'.unsynced.keys.length := by
    intro d' h ks b p hI hb hn hnot
    obtain ⟨heq, hp'⟩ := hI
    have hex : d'.unsynced.get p ≠ none := unsyncedExists_iff.mp (by simpa using hnot)
    rw [hp'.store] at hb
    have hrk := rank_lt hE hs hrank hU hb hn (hp'.mem_iff.mpr (Or.inl hex))
    refine ⟨⟨heq, hp'.take hex (lt_of_lt_top hp'.ordered hrk)⟩, ?_⟩
    rw [(Table.perm_keys_del hex).length_eq, List.length_cons]
    exact Nat.lt_succ_self _
  obtain ⟨r, hfill, hI, hfilled⟩ := fill_settles pushSynchronization_asks
    (fun st => st.data.sent = d.sent ∧ Pushing E rank s U st)
    (fun st => st.data.unsynced.keys.length) hpush ⟨rfl, hp⟩
  cases hfilled with
  | @missing d' j js hnone =>
      -- what is on the stack is stored
      have hj := hU j (hI.2.mem_iff.mpr (Or.inr (Or.inl List.mem_cons_self)))
      rw [← hI.2.store] at hj
      exact absurd hnone hj
  | @ready d' j js c hc hall =>
      obtain ⟨heq, hp'⟩ := hI
      have hget : s.blockGet j = some c := by
        rw [← hp'.store]
        exact hc
      refine ⟨_, one_ready hfill hc (Settles.of_forall fun _ => rfl),
        hp'.send hE hs hrank hU hget ?_, ?_⟩
      · intro p hn
        have hnot : ¬ unsyncedExists d'.unsynced p = true := by simpa using hall p hn
        exact not_not.mp (fun hne => hnot (unsyncedExists_iff.mpr hne))
      · have heq : d'.sent = d.sent := heq
        simp [heq]

omit hrank in
/-- After a write, the stack is not empty or everything has been sent. -/
theorem Pushing.written (hp : Pushing E rank s U st) :
    ∃ more st', BulkPush.written st = (more, st') ∧ Pushing E rank s U st' ∧
      st'.data.sent = st.data.sent ∧
      if more then st'.blocks ≠ [] else st'.blocks = [] ∧ st'.data.unsynced = ∅ := by
  obtain ⟨d, blocks⟩ := st
  cases blocks with
  | cons h ks => exact ⟨true, _, rfl, hp, rfl, List.cons_ne_nil h ks⟩
  | nil =>
      cases hf : d.unsynced.first with
      | none =>
          refine ⟨false, ⟨d, []⟩, ?_, hp, rfl, rfl, Table.first_eq_none.mp hf⟩
          simp [BulkPush.written, push, hf]
      | some e =>
          obtain ⟨h, v⟩ := e
          have hget : d.unsynced.get h ≠ none := by
            rw [(Table.first_eq_some.mp hf).1]
            exact Option.some_ne_none _
          obtain ⟨b, hb⟩ := Option.ne_none_iff_exists'.mp
            (hU h (hp.mem_iff.mpr (Or.inl hget)))
          have hne := (Linked.bottomed hE hs).ne_zero hb
          refine ⟨true, ⟨{ d with unsynced := d.unsynced.del h }, [h]⟩, ?_,
            hp.take hget (by simp), rfl, List.cons_ne_nil h []⟩
          rw [BulkPush.written, if_neg (by simp)]
          simp only [push, hf]
          rw [if_pos hne]

/-- The client goes on until every block is sent, because every call of `synchronize_one` sends
one. -/
theorem Pushing.finishes (hp : Pushing E rank s U st) :
    ∃ sent, Settles (fun n => sendBlocks n (BulkPush.written st)) (true, ⟨⟨s, ∅, sent⟩, []⟩) ∧
      Pushing E rank s U ⟨⟨s, ∅, sent⟩, []⟩ := by
  induction hn : U.keys.length - st.data.sent.length using Nat.strong_induction_on
    generalizing st with
  | _ n ih =>
      obtain ⟨more, ⟨d, blocks⟩, hw, hp', hsent, hmore⟩ := hp.written hE hs hU
      cases more with
      | false =>
          obtain ⟨store, unsynced, sent⟩ := d
          obtain ⟨rfl, rfl⟩ := hmore
          cases hp'.store
          refine ⟨sent, Settles.of_succ (fun n => ?_), hp'⟩
          rw [hw]
          rfl
      | true =>
          obtain ⟨h, ks, rfl⟩ := List.exists_cons_of_ne_nil hmore
          obtain ⟨st₁, hone, hp₁, hlt⟩ := hp'.one hE hs hrank hU
          have hlength := hp₁.length
          have hlt : U.keys.length - st₁.data.sent.length < n := by
            have hsent : d.sent = st.data.sent := hsent
            rw [hsent] at hlt
            omega
          obtain ⟨sent, hrest, hdone⟩ := ih _ hlt hp₁ rfl
          have hnext : Settles (fun n => pushSynchronization.synchronizeOne n ⟨d, h :: ks⟩ >>=
              fun r => if r.1 then pure (false, r.2) else sendBlocks n (BulkPush.written r.2))
              (true, ⟨⟨s, ∅, sent⟩, []⟩) := hone.bind hrest
          refine ⟨sent, hnext.succ (fun n => ?_), hdone⟩
          rw [hw]
          rfl

end Pushing

/-- Whatever stored blocks the table `unsynced` has, `bulk_push_client` sends each of them once,
none before one that it names, and ends with an empty table and an empty stack. -/
theorem pushed_in_order (hE : Hashed E) (hs : Reachable E s) (unsynced : Table BlockHash Unit)
    (hstored : ∀ h, unsynced.get h ≠ none → s.blockGet h ≠ none) :
    ∃ sent, Settles (fun n => bulkPush n ⟨s, unsynced, []⟩) (true, ⟨⟨s, ∅, sent⟩, []⟩) ∧
      (∀ h, h ∈ sent.map E.hash ↔ unsynced.get h ≠ none) ∧ (sent.map E.hash).Nodup ∧
      (∀ b ∈ sent, s.blockGet (E.hash b) = some b) ∧ InOrder E unsynced sent := by
  have hl := (reachable_sound hs).linked
  obtain ⟨rank, hrank⟩ := hl.chains.ranked
  have hstart : Pushing E rank s unsynced ⟨⟨s, unsynced, []⟩, []⟩ := by
    refine ⟨rfl, ?_, List.Pairwise.nil, by simp, ?_⟩
    · simp
    · intro l b r heq
      simp at heq
  obtain ⟨sent, hset, hdone⟩ := hstart.finishes hE hl hrank hstored
  refine ⟨sent, hset, ?_, ?_, hdone.stored, hdone.inOrder⟩
  · intro h
    rw [hdone.mem_iff]
    simp
  · exact hdone.nodup.sublist (by simp)

/-- A send and the open block that collects it are pushed. -/
theorem pushed_in_order_open : ∃ s sent, Reachable smallNetwork s ∧
    Settles (fun n => bulkPush n
      ⟨s, Table.ofEntries [(open₁Hash, ()), (send₁Hash, ())], []⟩) (true, ⟨⟨s, ∅, sent⟩, []⟩) ∧
    InOrder smallNetwork (Table.ofEntries [(open₁Hash, ()), (send₁Hash, ())]) sent := by
  have hrun : accepts smallNetwork 9 [send₁, open₁] (fun s =>
      s.blockExists open₁Hash && s.blockExists send₁Hash) = true := by
    decide +kernel
  obtain ⟨s₀, s, h₀, hs, htest⟩ := exists_of_accepts hrun
  obtain ⟨hopen, hsend⟩ := Bool.and_eq_true_iff.mp htest
  have hreach := reached_reachable (progressed_reached h₀ hs)
  have hstored : ∀ h, (Table.ofEntries [(open₁Hash, ()), (send₁Hash, ())]).get h ≠ none →
      s.blockGet h ≠ none := by
    intro h hne
    obtain ⟨v, hv⟩ := Option.ne_none_iff_exists'.mp hne
    have hmem := Table.mem_of_get_ofEntries hv
    simp only [List.mem_cons, Prod.mk.injEq, List.not_mem_nil, or_false, and_true] at hmem
    rcases hmem with rfl | rfl
    · exact Option.ne_none_iff_exists'.mpr (Store.blockExists_iff.mp hopen)
    · exact Option.ne_none_iff_exists'.mpr (Store.blockExists_iff.mp hsend)
  obtain ⟨sent, hset, _, _, _, horder⟩ :=
    pushed_in_order smallNetwork_proper.hashed hreach _ hstored
  exact ⟨s, sent, hreach, hset, horder⟩

end PaperNode.BulkPush
