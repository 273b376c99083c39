import PaperNode.BlockDelivery
import PaperNode.BootstrapPull
import PaperNode.BulkPush
import PaperNode.BulkStream
import PaperNode.RepublishLoop

/-!
# A bootstrap session

The client of a session asks for the frontiers of the server, pulls the accounts whose head it
does not have, hands the pulled blocks to its ledger, and then pushes the blocks it has noted as
unsynced. The server hands each block that is pushed to `process_receive_republish`.

The two ledgers may each be ahead of the other, as long as they do not conflict. A block that is
pushed finds everything it names: what the server did not have has been sent before it. So the
session ends with the blocks of both on both sides, whatever blocks of the network wait in the
gap caches, and with the same accounts, balances and pending sends.
-/
namespace PaperNode.BootstrapSession
open BoundedRecursion OrderedTable LinkedNodes TransitionRuns Blocks BlockStore LedgerQueries
open LedgerProcess ProcessSteps BlockLattice ChainInvariant IndexInvariant LedgerRuns
open MoneyInvariant Representatives VoteWeight ProcessReturns BlockSetLedger PartialLedger GapCache
open BlockDelivery FrontierExchange BulkPull BlockSynchronization BootstrapPull BulkPush
open BlockFormat BulkStream
open RepublishLoop (processReceive_ok)
open RollbackFuture hiding returns

inductive SessionAssertion where
  | frontier (site : FrontierAssertion)
  | pull (site : PullAssertion)
  | synchronization (site : SynchronizationAssertion)
  | receive (site : ReceiveAssertion)
  deriving DecidableEq, Repr

/-- The two nodes, and the table `unsynced` of the client. -/
structure Session where
  client : Node
  server : Node
  unsynced : Table BlockHash Unit

/-- `block_store::unsynced_put` for each hash of a list. -/
def unsyncedPut (unsynced : Table BlockHash Unit) (hashes : List BlockHash) :
    Table BlockHash Unit :=
  hashes.foldl (fun t h => t.put h ()) unsynced

/-- What `bulk_push_client` has written behind its request. -/
def pushStream (finished : Bool) (sent : List Block) : List UInt8 :=
  if finished then sendStream sent else sent.flatMap serializeBlock

/-- `bulk_push_server`. Reading goes on whatever becomes of a block. -/
def bulkPushServer (E : Env) (fuel : ℕ) (node : Node) (socket : List UInt8) :
    Check ReceiveAssertion Node :=
  deliver E fuel node (pushServerReceive socket).blocks

/-- `bootstrap_client` from `connect_action` on. The server has a clock of its own, and `order` is
the order in which the client walks through its map of pulls. -/
def bootstrap (E : Env) (clock : ℕ → Word64) (now : Word64)
    (order : List (Account × BlockHash) → List (Account × BlockHash)) (fuel : ℕ) (s : Session) :
    Check SessionAssertion Session := do
  let f ← relabel .frontier
    (frontierReqServer s.server.store now fuel ⟨0, BitVec.allOnes 32⟩)
  let pairs ← relabel .frontier (sendFrontiers s.server.store fuel f)
  let c ← relabel .frontier
    (receiveFrontiers s.client.store fuel (frontierReqClient s.client.store) pairs)
  let unchecked ← relabel .pull (pullAll E s.server.store fuel ∅ (order c.pulls.entries))
  let d ← relabel .synchronization (processEnd E fuel ⟨s.client, unchecked⟩)
  let (finished, st) ← relabel .synchronization
    (bulkPush fuel ⟨d.node.store, unsyncedPut s.unsynced c.unsynced, []⟩)
  let server ← relabel .receive
    (bulkPushServer { E with now := clock } fuel s.server (pushStream finished st.data.sent))
  return ⟨d.node, server, st.data.unsynced⟩

variable {E : Env} {A B U s : Store} {node node' : Node} {b c : Block} {h p : BlockHash}
  {bs : List Block}

theorem get_unsyncedPut (t : Table BlockHash Unit) (hashes : List BlockHash) (h : BlockHash) :
    (unsyncedPut t hashes).get h ≠ none ↔ t.get h ≠ none ∨ h ∈ hashes := by
  induction hashes generalizing t with
  | nil => simp [unsyncedPut]
  | cons k hashes ih =>
      have hstep : unsyncedPut t (k :: hashes) = unsyncedPut (t.put k ()) hashes := rfl
      rw [hstep, ih, Table.get_put, List.mem_cons]
      by_cases hk : h = k
      · simp [hk]
      · simp [hk]

section Exchange

/-- A block of `A` is noted exactly if the server does not have it. -/
theorem noted_iff_missing (hE : Hashed E) (hA : Part E A U) (hB : Part E B U) :
    (∃ a i, A.accounts.get a = some i ∧
      Noted A i ((B.accounts.get a).map AccountInfo.head) h) ↔
      A.blockGet h ≠ none ∧ B.blockGet h = none := by
  have hl := hA.part.linked
  have h₀ := (Linked.bottomed hE hl).zero
  constructor
  · rintro ⟨a, i, hi, hn⟩
    obtain ⟨hr, hall⟩ := (noted_iff hl h₀ hi _).mp hn
    have howner := (Owner.reach hr).mp (hl.heads a i hi).1
    refine ⟨howner.stored, ?_⟩
    cases hj : B.accounts.get a with
    | none => exact not_stored_of_unknown hB hA hj howner
    | some j =>
        obtain ⟨_, hstored, hnot⟩ := hall j.head (by rw [hj]; rfl)
        exact (not_stored_iff hB hA hj hstored howner).mpr hnot
  · rintro ⟨hstored, hmissing⟩
    obtain ⟨b, hb⟩ := Option.ne_none_iff_exists'.mp hstored
    obtain ⟨a, howner⟩ := hl.chains.exists_owner hb
    obtain ⟨i, hi, hr⟩ := exists_head hl hA.part.indexed howner
    refine ⟨a, i, hi, (noted_iff hl h₀ hi _).mpr ⟨hr, ?_⟩⟩
    intro latest hlatest
    obtain ⟨j, hj, rfl⟩ := Option.map_eq_some_iff.mp hlatest
    -- with the head of this account the server would have the block
    have hhead : B.blockGet i.head = none := by
      by_contra hne
      exact stored_below hB hA hne hr hmissing
    have hbelow : Reach A.blockGet Previous i.head j.head := reach_head hB hA hj hi hhead
    refine ⟨?_, ((Owner.reach hbelow).mp (hl.heads a i hi).1).stored, fun hnot => ?_⟩
    · intro heq
      exact (hB.part.linked.heads a j hj).1.stored (heq ▸ hhead)
    · exact stored_below hB hA (hB.part.linked.heads a j hj).1.stored hnot hmissing

theorem exchange_splits (hE : Hashed E) (hA : Part E A U) (hB : Part E B U) (hoA : Ordinary A)
    (hoB : Ordinary B) (now : Word64) :
    ∃ f pairs client, (∀ n, frontierReqServer B now n ⟨0, BitVec.allOnes 32⟩ = .ok f) ∧
      Settles (fun n => sendFrontiers B n f) pairs ∧
      Settles (fun n => receiveFrontiers A n (frontierReqClient A) pairs) client ∧
      (∀ x, client.pulls.get x = (B.accounts.get x).bind (fun j => wanted A x j.head)) ∧
      ∀ h, h ∈ client.unsynced ↔ A.blockGet h ≠ none ∧ B.blockGet h = none := by
  obtain ⟨f, pairs, client, hserver, hsent, hclient, hpulls, hnoted⟩ :=
    exchange_settles hA.part.linked hoA hoB now
  refine ⟨f, pairs, client, hserver, hsent, hclient, hpulls, fun h => ?_⟩
  rw [hnoted h, noted_iff_missing hE hA hB]

end Exchange

/-- A node whose ledger is part of `U`, with blocks of `U` in the gap cache. -/
structure Following (E : Env) (U : Store) (node : Node) : Prop where
  part : Part E node.store U
  cached : Cached node.store
  blocks : ∀ g ∈ node.gapCache, U.blockGet (E.hash g.block) = some g.block
  needed : ∀ g ∈ node.gapCache, Needs E g.block g.required

section Following

theorem mem_add {blocks : Cache} {g : GapInformation} {needed : BlockHash}
    (hg : g ∈ add E blocks b needed) : g ∈ blocks ∨ g = ⟨needed, E.hash b, b⟩ := by
  cases hfind : blocks.find? (waitsFor needed) with
  | some existing =>
      rw [add, hfind] at hg
      rcases List.mem_append.mp hg with hg | hg
      · exact Or.inl (List.mem_of_mem_eraseP hg)
      · rw [List.mem_singleton.mp hg]
        exact Or.inl (List.mem_of_find?_eq_some hfind)
  | none =>
      have hmem : ∀ g ∈ (if blocks.any (fun g => decide (g.hash = E.hash b)) then blocks
          else blocks ++ [⟨needed, E.hash b, b⟩]), g ∈ blocks ∨ g = ⟨needed, E.hash b, b⟩ := by
        intro g hg
        split_ifs at hg
        · exact Or.inl hg
        · simpa using hg
      rw [add, hfind] at hg
      dsimp only at hg
      generalize (if blocks.any (fun g => decide (g.hash = E.hash b)) then blocks
        else blocks ++ [⟨needed, E.hash b, b⟩]) = filed at hg hmem
      split_ifs at hg
      · exact hmem g (List.mem_of_mem_tail hg)
      · exact hmem g hg

/-- A block of `U` is old, accepted or put into the cache. If all it needs is stored, so is it. -/
theorem Following.receive (hE : Proper E) (hw : E.weightAssert = false)
    (hf : Following E U node) (hb : U.blockGet (E.hash b) = some b) :
    ∃ ret node', Settles (fun n => processReceive E n node b) (ret, node') ∧
      Following E U node' ∧ Within node.store.blockGet node'.store.blockGet ∧
      ((∀ p, Needs E b p → node.store.blockGet p ≠ none) →
        node'.store.blockGet (E.hash b) = some b) := by
  have hpart := hf.part
  by_cases hold : node.store.blockGet (E.hash b) = none
  · cases hmiss : missing node.store b with
    | none =>
        obtain ⟨ret, store, hset, hcode⟩ := hpart.progress hb hold hE hmiss (fun hpass =>
          Cached.movable hE hpart.part hf.cached hpass
            (fun hn => hpart.whole.represented _ b hb hn (hpart.ne_genesis hold))
            (fun hassert => nomatch hw.symm.trans hassert)
            (fun hassert => nomatch hw.symm.trans hassert))
        obtain ⟨n, hn⟩ := hset.exists_ok
        obtain ⟨hpart', hstore⟩ := hpart.processed hb hE hn hcode
        have hcached := hf.cached.accepted (Progressed.accepted ⟨n, ret, hn, hcode⟩)
        refine ⟨ret, ⟨store, node.gapCache⟩, ?_, ⟨hpart', hcached, hf.blocks, hf.needed⟩, ?_, ?_⟩
        · filter_upwards [hset] with n hn
          exact receive_progress hn hcode
        · dsimp only
          rw [hstore]
          exact within_insert hold
        · intro _
          dsimp only
          rw [hstore, withBlock_self]
    | some p =>
        obtain ⟨ret, hret, hcode⟩ := hpart.gap hb hold hmiss
        obtain ⟨hneeds, hnone⟩ := missing_some (hpart.ne_genesis hold) hmiss
        refine ⟨ret, ⟨node.store, add E node.gapCache b p⟩, Settles.of_forall fun n => ?_,
          ⟨hpart, hf.cached, fun g hg => ?_, fun g hg => ?_⟩, fun _ _ hd => hd,
          fun hall => absurd hnone (hall p hneeds)⟩
        · have hprocess : (relabel .ledger (process E n node.store b) :
              Check ReceiveAssertion (ProcessReturn × Store)) = .ok (ret, node.store) :=
            relabel_eq_ok.mpr (hret n)
          rw [processReceive, hprocess, ok_bind]
          rcases hcode with ⟨hcode, rfl⟩ | ⟨hcode, rfl⟩
          · simp only [hcode]
            rfl
          · simp only [hcode]
            rfl
        · rcases mem_add hg with hg | rfl
          · exact hf.blocks g hg
          · exact hb
        · rcases mem_add hg with hg | rfl
          · exact hf.needed g hg
          · exact hneeds
  · have hstored := hpart.within.get_of_stored hold hb
    refine ⟨⟨.old, none⟩, node, Settles.of_forall fun n => ?_, hf, fun _ _ hd => hd,
      fun _ => hstored⟩
    have hprocess : (relabel .ledger (process E n node.store b) :
        Check ReceiveAssertion (ProcessReturn × Store)) = .ok (⟨.old, none⟩, node.store) :=
      relabel_eq_ok.mpr (process_old (Store.blockExists_iff.mpr ⟨b, hstored⟩))
    rw [processReceive, hprocess, ok_bind]
    rfl

theorem Following.fetch (hf : Following E U node) (h : BlockHash) :
    Following E U ⟨node.store, (get node.gapCache h).2⟩ ∧
      ∀ c ∈ (get node.gapCache h).1, U.blockGet (E.hash c) = some c ∧ Needs E c h := by
  rcases get_cases node.gapCache h with ⟨hget, _⟩ | ⟨g, rfl, hg, hperm⟩
  · rw [hget]
    exact ⟨hf, by simp⟩
  · have hmem : ∀ x ∈ (get node.gapCache g.required).2, x ∈ node.gapCache :=
      fun x hx => hperm.mem_iff.mpr (List.mem_cons_of_mem _ hx)
    have hin := hperm.mem_iff.mpr List.mem_cons_self
    refine ⟨⟨hf.part, hf.cached, fun x hx => hf.blocks x (hmem x hx),
      fun x hx => hf.needed x (hmem x hx)⟩, fun c hc => ?_⟩
    rw [hg] at hc
    cases hc
    exact ⟨hf.blocks g hin, hf.needed g hin⟩

theorem above_lt (hU : Healthy E U) (hb : U.blockGet (E.hash b) = some b)
    (hc : U.blockGet (E.hash c) = some c) (hn : Needs E c (E.hash b)) :
    above E U c < above E U b := by
  obtain ⟨rank, hrank⟩ := hU.linked.chains.ranked
  have hlink : Link U.blockGet (Needs E) (E.hash c) (E.hash b) := ⟨c, hc, hn⟩
  have hne : E.hash c ≠ E.hash b := by
    intro heq
    have hlt := hrank _ _ hlink
    rw [heq] at hlt
    exact lt_irrefl _ hlt
  exact hrank.dependents_lt (.single hlink) hne (Option.ne_none_iff_exists'.mpr ⟨_, hb⟩)

/-- `process_receive_republish` goes up from a block to one that needs it, so it ends. -/
theorem Following.republish (hE : Proper E) (hw : E.weightAssert = false)
    (hf : Following E U node) (hb : U.blockGet (E.hash b) = some b) :
    ∃ node', Settles (fun n => processReceiveRepublish E n node b) node' ∧
      Following E U node' ∧ Within node.store.blockGet node'.store.blockGet ∧
      ((∀ p, Needs E b p → node.store.blockGet p ≠ none) →
        node'.store.blockGet (E.hash b) = some b) := by
  induction hn : above E U b using Nat.strong_induction_on generalizing node b with
  | _ n ih =>
      obtain ⟨ret, middle, hreceive, hmiddle, hgrown, hstored⟩ := hf.receive hE hw hb
      obtain ⟨hfetched, hnext⟩ := hmiddle.fetch (E.hash b)
      have hturn : Settles (fun n => turn E n node b) ((get middle.gapCache (E.hash b)).1,
          ⟨middle.store, (get middle.gapCache (E.hash b)).2⟩) :=
        hreceive.bind (Settles.of_forall fun _ => rfl)
      generalize (get middle.gapCache (E.hash b)).1 = next at hturn hnext
      cases next with
      | none =>
          refine ⟨_, Settles.succ ?_ (fun n => by rw [processReceiveRepublish]), hfetched, hgrown,
            hstored⟩
          exact hturn.bind (Settles.of_forall (fun _ => rfl))
      | some c =>
          obtain ⟨hc, hneeds⟩ := hnext c rfl
          have hlt := above_lt hf.part.whole hb hc hneeds
          obtain ⟨last, hlast, hfollow, hwithin, _⟩ := ih _ (hn ▸ hlt) hfetched hc rfl
          refine ⟨last, Settles.succ ?_ (fun n => by rw [processReceiveRepublish]), hfollow,
            hgrown.trans hwithin, fun hall => hwithin _ b (hstored hall)⟩
          exact hturn.bind hlast

/-- Blocks that come in an order in which each finds what it needs are stored. -/
theorem Following.deliver (hE : Proper E) (hw : E.weightAssert = false)
    (hf : Following E U node) (hbs : ∀ b ∈ bs, U.blockGet (E.hash b) = some b)
    (horder : ∀ l b r, bs = l ++ b :: r → ∀ p, Needs E b p →
      node.store.blockGet p ≠ none ∨ p ∈ l.map E.hash) :
    ∃ node', Settles (fun n => BlockDelivery.deliver E n node bs) node' ∧ Following E U node' ∧
      Within node.store.blockGet node'.store.blockGet ∧
      ∀ b ∈ bs, node'.store.blockGet (E.hash b) = some b := by
  induction bs generalizing node with
  | nil => exact ⟨node, Settles.of_forall fun _ => rfl, hf, fun _ _ hd => hd, by simp⟩
  | cons b bs ih =>
      obtain ⟨middle, hone, hmiddle, hgrown, hstored⟩ :=
        hf.republish hE hw (hbs b List.mem_cons_self)
      have hstored := hstored (fun p hp => (horder [] b bs rfl p hp).resolve_right (by simp))
      have horder' : ∀ l c r, bs = l ++ c :: r → ∀ p, Needs E c p →
          middle.store.blockGet p ≠ none ∨ p ∈ l.map E.hash := by
        intro l c r heq p hp
        rcases horder (b :: l) c r (by rw [heq]; rfl) p hp with hold | hsent
        · obtain ⟨d, hd⟩ := Option.ne_none_iff_exists'.mp hold
          exact Or.inl (Option.ne_none_iff_exists'.mpr ⟨d, hgrown p d hd⟩)
        · rcases List.mem_cons.mp hsent with rfl | hsent
          · exact Or.inl (Option.ne_none_iff_exists'.mpr ⟨b, hstored⟩)
          · exact Or.inr hsent
      obtain ⟨last, hrest, hlast, hwithin, hall⟩ :=
        ih hmiddle (fun c hc => hbs c (List.mem_cons_of_mem _ hc)) horder'
      refine ⟨last, hone.bind hrest, hlast, hgrown.trans hwithin, fun c hc => ?_⟩
      rcases List.mem_cons.mp hc with rfl | hc
      · exact hwithin _ _ hstored
      · exact hall c hc

end Following

theorem healthy_describes (hE : Proper E) (hs : Healthy E s) : Describes E s.blockGet s := by
  constructor
  case opened => exact fun a => account_iff_opened hs.linked hs.indexed
  case accounts =>
    exact fun a i hi => ⟨lastBlock_of_head hs.linked hs.indexed hi, hs.funded.balances a i hi⟩
  case frontiers => exact hs.indexed.frontiers
  case pending => exact fun h r => pending_iff_uncollected hE hs.linked hs.indexed hs.funded
  case checksum => exact hs.summed

/-- The blocks that are pushed reach the server, and no others. -/
theorem push_delivers (hE : Proper E) (hw : E.weightAssert = false) {A' : Store}
    (hA : Part E A U) (hA' : Part E A' U) (hAA : Within A.blockGet A'.blockGet)
    (hf : Following E U node) {unsynced : Table BlockHash Unit}
    (hunsynced : ∀ h, unsynced.get h ≠ none → A.blockGet h ≠ none)
    (hcover : ∀ h, A.blockGet h ≠ none → unsynced.get h = none → node.store.blockGet h ≠ none) :
    ∃ sent node', Settles (fun n => bulkPush n ⟨A', unsynced, []⟩) (true, ⟨⟨A', ∅, sent⟩, []⟩) ∧
      Settles (fun n => bulkPushServer E n node (pushStream true sent)) node' ∧
      Following E U node' ∧ Within node.store.blockGet node'.store.blockGet ∧
      Within A.blockGet node'.store.blockGet := by
  have hl := hA'.part.linked
  obtain ⟨rank, hrank⟩ := hl.chains.ranked
  have hstart : Pushing E rank A' unsynced ⟨⟨A', unsynced, []⟩, []⟩ := by
    refine ⟨rfl, by simp, List.Pairwise.nil, by simp, ?_⟩
    intro l b r heq
    simp at heq
  have hstored : ∀ h, unsynced.get h ≠ none → A'.blockGet h ≠ none := by
    intro h hh
    obtain ⟨b, hb⟩ := Option.ne_none_iff_exists'.mp (hunsynced h hh)
    exact Option.ne_none_iff_exists'.mpr ⟨b, hAA h b hb⟩
  obtain ⟨sent, hset, hdone⟩ := hstart.finishes hE.hashed hl hrank hstored
  have hmem : ∀ h, unsynced.get h ≠ none ↔ h ∈ sent.map E.hash := by
    intro h
    rw [hdone.mem_iff]
    simp
  have hblocks : ∀ b ∈ sent, A.blockGet (E.hash b) = some b := by
    intro b hb
    have hin := hunsynced _ ((hmem _).mpr (List.mem_map_of_mem hb))
    exact hAA.get_of_stored hin (hdone.stored b hb)
  have horder : ∀ l b r, sent = l ++ b :: r → ∀ p, Needs E b p →
      node.store.blockGet p ≠ none ∨ p ∈ l.map E.hash := by
    intro l b r heq p hp
    have hb := hblocks b (by rw [heq]; simp)
    have hp' : A.blockGet p ≠ none := hA.part.linked.chains.needed_stored ⟨b, hb, hp⟩
    by_cases hun : unsynced.get p = none
    · exact Or.inl (hcover p hp' hun)
    · exact Or.inr (hdone.inOrder l b r heq p (hp.imp id And.right) hun)
  obtain ⟨node', hdeliver, hfollow, hwithin, hall⟩ :=
    hf.deliver hE hw (fun b hb => hA.within _ b (hblocks b hb)) horder
  refine ⟨sent, node', hset, ?_, hfollow, hwithin, ?_⟩
  · have hstream : (pushServerReceive (pushStream true sent)).blocks = sent := by
      have hread : receiveLoop 256 (sendStream sent ++ []) = ⟨sent, .terminator, []⟩ :=
        receiveLoop_stream (by decide) sent []
      rw [List.append_nil] at hread
      exact congrArg Received.blocks hread
    simpa only [bulkPushServer, hstream] using hdeliver
  · intro h b hb
    by_cases hun : unsynced.get h = none
    · have hne := hcover h (Option.ne_none_iff_exists'.mpr ⟨b, hb⟩) hun
      exact hwithin h b (hf.part.within.get_of_stored hne (hA.within h b hb))
    · obtain ⟨c, hc, rfl⟩ := List.mem_map.mp ((hmem h).mp hun)
      rw [hall c hc, ← hblocks c hc, hb]

section Kept
variable {σ : Type} {v : Synchronization σ} {test : σ → BlockHash → Bool} {I : σ → Prop}
  {st : Stacked σ} {r : Bool × Stacked σ} {n : ℕ}

theorem fill_data (hv : Asks v test (fun d _ => d)) (h : v.fillDependencies n st = .ok r) :
    r.2.data = st.data := by
  induction n generalizing st with
  | zero => exact absurd h (exhaust_ne_ok r)
  | succ n ih =>
      rw [Synchronization.fillDependencies] at h
      obtain ⟨top, _, h⟩ := bind_eq_ok.mp h
      split at h
      · rename_i b _
        rcases addDependency_cases hv st b with ⟨hadd, _⟩ | ⟨p, hadd, _, _⟩
        · rw [hadd] at h
          cases h
          rfl
        · rw [hadd] at h
          have hdata : r.2.data = (⟨st.data, p :: st.blocks⟩ : Stacked σ).data := ih h
          exact hdata
      · cases h
        rfl

variable (hv : Asks v test (fun d _ => d))
  (htarget : ∀ {n d h b d'}, I d → v.retrieve d h = some b → v.target n d b = .ok d' → I d')
include hv htarget

theorem one_keeps (hI : I st.data) (h : v.synchronizeOne n st = .ok r) : I r.2.data := by
  obtain ⟨⟨error, st'⟩, hfill, h⟩ := bind_eq_ok.mp h
  have hdata : st'.data = st.data := fill_data hv hfill
  rw [← hdata] at hI
  rcases ite_eq_ok.mp h with ⟨_, h⟩ | ⟨_, h⟩
  · cases h
    exact hI
  · obtain ⟨top, _, h⟩ := bind_eq_ok.mp h
    split at h
    · rename_i b hb
      obtain ⟨d, hd, h⟩ := bind_eq_ok.mp h
      cases h
      exact htarget hI hb hd
    · cases h
      exact hI

theorem all_keeps (hI : I st.data) (h : v.synchronizeAll n st = .ok r) : I r.2.data := by
  induction n generalizing st with
  | zero => exact absurd h (exhaust_ne_ok r)
  | succ n ih =>
      rw [Synchronization.synchronizeAll] at h
      rcases ite_eq_ok.mp h with ⟨_, h⟩ | ⟨_, h⟩
      · cases h
        exact hI
      · obtain ⟨x, hone, h⟩ := bind_eq_ok.mp h
        have hx := one_keeps hv htarget hI hone
        rcases ite_eq_ok.mp h with ⟨_, h⟩ | ⟨_, h⟩
        · cases h
          exact hx
        · exact ih hx h

end Kept

/-- What the ledger has besides the blocks of `A` comes from the table, where only blocks of `B`
are. -/
structure Joining (E : Env) (A B : Store) (d : PullData) : Prop where
  kept : Within A.blockGet d.node.store.blockGet
  bounded : ∀ h b, d.node.store.blockGet h = some b → A.blockGet h = some b ∨ B.blockGet h = some b
  pulled : ∀ h b, d.unchecked.get h = some b → B.blockGet h = some b

section Joining
variable {d d' : PullData} {n : ℕ}

theorem Joining.del (hj : Joining E A B d) (ks : List BlockHash) :
    Joining E A B { d with unchecked := ks.foldl Table.del d.unchecked } := by
  refine ⟨hj.kept, hj.bounded, fun h b hb => hj.pulled h b ?_⟩
  rw [Table.get_foldl_del] at hb
  exact (ite_eq_iff.mp hb).elim (fun h => nomatch h.2) And.right

/-- A block that is handed on is stored, or changes nothing. -/
theorem Joining.target (hB : Linked E B) (hj : Joining E A B d) (hb : d.unchecked.get h = some b)
    (hd : (pullSynchronization E).target n d b = .ok d') : Joining E A B d' := by
  obtain ⟨⟨ret, node⟩, hreceive, hd⟩ := bind_eq_ok.mp hd
  cases hd
  obtain ⟨hprocess, _⟩ := processReceive_ok (relabel_eq_ok.mp hreceive)
  have hkey := hB.chains.keyed h b (hj.pulled h b hb)
  have hpulled : ∀ k c, (d.unchecked.del (E.hash b)).get k = some c → B.blockGet k = some c := by
    intro k c hc
    rw [Table.get_del] at hc
    exact hj.pulled k c ((ite_eq_iff.mp hc).elim (fun h => nomatch h.2) And.right)
  rcases process_ok hprocess with ⟨_, hsame⟩ | ⟨_, haccepted⟩
  · have hsame : node.store = d.node.store := hsame
    exact ⟨hsame ▸ hj.kept, hsame ▸ hj.bounded, hpulled⟩
  · obtain ⟨a, info, hl, _⟩ := haccepted
    refine ⟨hj.kept.trans hl.within, fun k c hc => ?_, hpulled⟩
    by_cases hk : k = E.hash b
    · subst hk
      cases hl.stored.symm.trans hc
      exact Or.inr (hkey ▸ hj.pulled h b hb)
    · exact hj.bounded k c ((hl.other hk).symm.trans hc)

theorem Joining.loop (hB : Linked E B) {st st' : Stacked PullData} (hj : Joining E A B st.data)
    (h : processEndLoop (pullSynchronization E) n st = .ok st') : Joining E A B st'.data := by
  induction n generalizing st with
  | zero => exact absurd h (exhaust_ne_ok st')
  | succ n ih =>
      rw [processEndLoop] at h
      rcases ite_eq_ok.mp h with ⟨_, h⟩ | ⟨_, h⟩
      · cases h
        exact hj
      · obtain ⟨⟨error, st₁⟩, hall, h⟩ := bind_eq_ok.mp h
        have hpushed : Joining E A B
            (Stacked.mk st.data (first st.data.unchecked :: st.blocks)).data := hj
        have hj₁ : Joining E A B (error, st₁).2.data := all_keeps (pullSynchronization_asks E)
          (fun hj hb hd => Joining.target hB hj hb hd) hpushed hall
        rcases ite_eq_ok.mp h with ⟨_, h⟩ | ⟨_, h⟩
        · exact ih (hj₁.del st₁.blocks) h
        · exact ih hj₁ h

end Joining

/-- After the pulls, the client has the blocks of both. -/
theorem pull_joins (hE : Proper E) (hw : E.weightAssert = false) (hA : Part E node.store U)
    (hc : Cached node.store) (hB : Part E B U) {unchecked : Unchecked}
    (hspec : ∀ h b, unchecked.get h = some b ↔
      B.blockGet h = some b ∧ node.store.blockGet h = none) :
    ∃ d, Settles (fun n => processEnd E n ⟨node, unchecked⟩) d ∧ Healthy E d.node.store ∧
      ∀ h, d.node.store.blockGet h = (node.store.blockGet h).or (B.blockGet h) := by
  obtain ⟨rank, hrank⟩ := hA.whole.linked.chains.ranked
  have hstart : Pulling E rank B U ⟨⟨node, unchecked⟩, []⟩ :=
    ⟨hA, hc, hspec, by simp, List.Pairwise.nil⟩
  obtain ⟨st, hend, hp, hempty⟩ := hstart.processEnd hE hw hB hrank
  obtain ⟨n, hn⟩ := hend.exists_ok
  have hj : Joining E node.store B st.data := by
    refine Joining.loop hB.part.linked ?_ hn
    exact ⟨fun _ _ hb => hb, fun _ _ hb => Or.inl hb, fun h b hb => ((hspec h b).mp hb).1⟩
  refine ⟨st.data, hend.bind (Settles.of_forall fun _ => rfl), hp.part.part, fun h => ?_⟩
  cases hb : node.store.blockGet h with
  | some b => exact hj.kept h b hb
  | none =>
      cases hb' : B.blockGet h with
      | some b =>
          refine hp.part.within.get_of_stored (fun hnot => ?_) (hB.within h b hb')
          -- the table would still have it
          have hget := (hp.pulled h b).mpr ⟨hb', hnot⟩
          rw [hempty] at hget
          cases hget
      | none =>
          by_contra hne
          obtain ⟨c, hc⟩ := Option.ne_none_iff_exists'.mp hne
          rcases hj.bounded h c hc with hold | hnew
          · cases hb.symm.trans hold
          · cases hb'.symm.trans hnew

/-- Two nodes with ledgers that do not conflict: `U` holds the blocks of both. After a session both
have the blocks of both, and the same tables. In the gap cache of the server may wait blocks of
either, and in the table `unsynced` hashes that were noted before. -/
theorem session_converges (clock clock' : ℕ → Word64) (hE : Proper E)
    (hw : E.weightAssert = false) (t : Session)
    (hA : Reached (Initial E) (Processed E) t.client.store)
    (hB : Reached (Initial { E with now := clock }) (Processed { E with now := clock })
      t.server.store)
    (hU : Reached (Initial { E with now := clock' }) (Processed { E with now := clock' }) U)
    (hAU : Within t.client.store.blockGet U.blockGet)
    (hBU : Within t.server.store.blockGet U.blockGet)
    (hoA : Ordinary t.client.store) (hoB : Ordinary t.server.store)
    (hgaps : ∀ g ∈ t.server.gapCache, Needs E g.block g.required ∧
      (t.client.store.blockGet (E.hash g.block) = some g.block ∨
        t.server.store.blockGet (E.hash g.block) = some g.block))
    (hnoted : ∀ h, t.unsynced.get h ≠ none → t.client.store.blockGet h ≠ none) (now : Word64)
    (order : List (Account × BlockHash) → List (Account × BlockHash))
    (horder : ∀ l, (order l).Perm l) :
    ∃ t', Settles (fun n => bootstrap E clock now order n t) t' ∧
      (∀ h, t'.client.store.blockGet h =
        (t.client.store.blockGet h).or (t.server.store.blockGet h)) ∧
      t'.server.store.blockGet = t'.client.store.blockGet ∧
      SameTables t'.client.store t'.server.store ∧ t'.unsynced = ∅ := by
  obtain ⟨⟨A, gapsA⟩, ⟨B, gapsB⟩, noted⟩ := t
  dsimp only at *
  have hE' : Proper { E with now := clock } := hE.configured clock E.weightAssert
  have hhA : Healthy E A := reachable_healthy hE (reached_reachable hA)
  have hhB : Healthy { E with now := clock } B := reachable_healthy hE' (reached_reachable hB)
  have hhU : Healthy E U := (reachable_healthy (hE.configured clock' E.weightAssert)
    (reached_reachable hU)).configured E.now E.weightAssert
  have hpartA : Part E (Node.mk A gapsA).store U := ⟨hhA, hhU, hAU⟩
  have hpartB : Part E B U := ⟨hhB.configured E.now E.weightAssert, hhU, hBU⟩
  -- the client
  obtain ⟨f, pairs, c, hserver, hsent, hclient, hpulls, hmissing⟩ :=
    exchange_splits hE.hashed hpartA hpartB hoA hoB now
  obtain ⟨unchecked, hpull, hspec⟩ :=
    pulled_iff hE hpartA hpartB hoB hpulls (horder c.pulls.entries)
  obtain ⟨d, hend, hhealthy, hunion⟩ :=
    pull_joins hE hw hpartA (reached_cached hA) hpartB hspec
  have hAd : Within A.blockGet d.node.store.blockGet := by
    intro h b hb
    rw [hunion, hb]
    rfl
  have hBd : Within B.blockGet d.node.store.blockGet := by
    intro h b hb
    rw [hunion]
    cases ha : A.blockGet h with
    | none => exact hb
    | some x => exact congrArg some (Option.some.inj ((hAU h x ha).symm.trans (hBU h b hb)))
  -- the server, as part of what the client has now
  have hd : Healthy { E with now := clock } d.node.store := hhealthy.configured clock E.weightAssert
  have hunsynced := get_unsyncedPut noted c.unsynced
  have hserved : Following { E with now := clock } d.node.store ⟨B, gapsB⟩ :=
    ⟨⟨hhB, hd, hBd⟩, reached_cached hB,
      fun g hg => (hgaps g hg).2.elim (fun hb => hAd _ _ hb) (fun hb => hBd _ _ hb),
      fun g hg => (hgaps g hg).1⟩
  obtain ⟨sent, server, hpush, hdeliver, hfollow, hBs, hAs⟩ := push_delivers hE' hw
    ⟨hhA.configured clock E.weightAssert, hd, hAd⟩ ⟨hd, hd, fun _ _ hb => hb⟩ hAd hserved
    (fun h hh => ((hunsynced h).mp hh).elim (hnoted h) (fun hmem => ((hmissing h).mp hmem).1))
    (fun h hh hnot hb => (hunsynced h).mpr (Or.inr ((hmissing h).mpr ⟨hh, hb⟩)) hnot)
  have hsame : server.store.blockGet = d.node.store.blockGet := by
    funext h
    cases hb : d.node.store.blockGet h with
    | none =>
        by_contra hne
        obtain ⟨x, hx⟩ := Option.ne_none_iff_exists'.mp hne
        cases hb.symm.trans (hfollow.part.within h x hx)
    | some b =>
        rcases Option.or_eq_some_iff.mp ((hunion h).symm.trans hb) with ha | ⟨_, hb'⟩
        · exact hAs h b ha
        · exact hBs h b hb'
  refine ⟨⟨d.node, server, ∅⟩, ?_, hunion, hsame, ?_, rfl⟩
  · filter_upwards [hsent, hclient, hpull, hend, hpush, hdeliver] with n h₁ h₂ h₃ h₄ h₅ h₆
    simp only [bootstrap, relabel_eq_ok.mpr (hserver n), relabel_eq_ok.mpr h₁,
      relabel_eq_ok.mpr h₂, relabel_eq_ok.mpr h₃, relabel_eq_ok.mpr h₄, relabel_eq_ok.mpr h₅,
      relabel_eq_ok.mpr h₆, ok_bind]
    rfl
  · have hdescribed := healthy_describes hE (hfollow.part.part.configured E.now E.weightAssert)
    rw [hsame] at hdescribed
    exact (healthy_describes hE hhealthy).unique hdescribed

/-- The client has opened an account and the server has a second send. The open block waits in the
gap cache of the server as well. -/
theorem session_converges_apart : ∃ (A B : Store) (t : Session),
    A.blockGet send₂Hash = none ∧ B.blockGet open₁Hash = none ∧
    Settles (fun n => bootstrap { smallNetwork with weightAssert := false } smallNetwork.now 0 id n
      ⟨⟨A, []⟩, ⟨B, [⟨send₁Hash, open₁Hash, open₁⟩]⟩, ∅⟩) t ∧
    t.client.store.blockGet send₂Hash = some send₂ ∧
    t.server.store.blockGet open₁Hash = some open₁ := by
  have hrun : accepts { smallNetwork with weightAssert := false } 9 [send₁] (fun s =>
      (acceptAll { smallNetwork with weightAssert := false } 9 s [open₁]).any (fun t =>
        (t.accounts.entries.all fun e => decide (e.1 ≠ 0) && decide (e.1 ≠ BitVec.allOnes 256)) &&
        decide (t.blockGet send₂Hash = none)) &&
      (acceptAll { smallNetwork with weightAssert := false } 9 s [send₂]).any (fun t =>
        (t.accounts.entries.all fun e => decide (e.1 ≠ 0) && decide (e.1 ≠ BitVec.allOnes 256)) &&
        decide (t.blockGet open₁Hash = none) &&
        (acceptAll { smallNetwork with weightAssert := false } 9 t [open₁]).isSome)) = true := by
    decide +kernel
  obtain ⟨s₀, s, h₀, hs, htest⟩ := exists_of_accepts hrun
  simp only [Bool.and_eq_true, decide_eq_true_eq, Option.any_eq_true,
    Option.isSome_iff_exists] at htest
  obtain ⟨⟨A, hA, hoA, hnotA⟩, B, hB, ⟨hoB, hnotB⟩, U, hU⟩ := htest
  have hA := acceptAll_run hA
  have hB := acceptAll_run hB
  have hU := acceptAll_run hU
  have hopenA : A.blockGet open₁Hash = some open₁ := ((run_blocks hA).2.1 open₁ (by simp)).1
  have hsendB : B.blockGet send₂Hash = some send₂ := ((run_blocks hB).2.1 send₂ (by simp)).1
  have hopenU : U.blockGet open₁Hash = some open₁ := ((run_blocks hU).2.1 open₁ (by simp)).1
  have hAU : Within A.blockGet U.blockGet := by
    intro h c hc
    rcases (run_blocks hA).2.2.2 h c hc with hold | ⟨hmem, rfl⟩
    · exact (run_blocks hU).1 h c ((run_blocks hB).1 h c hold)
    · cases List.mem_singleton.mp hmem
      exact hopenU
  obtain ⟨t, hset, hclient, hserver, _⟩ := session_converges smallNetwork.now smallNetwork.now
    (smallNetwork_proper.configured smallNetwork.now false) rfl
    ⟨⟨A, []⟩, ⟨B, [⟨send₁Hash, open₁Hash, open₁⟩]⟩, ∅⟩ (progressed_reached h₀ (hs.append hA))
    (progressed_reached h₀ (hs.append hB))
    (progressed_reached h₀ ((hs.append hB).append hU)) hAU (run_blocks hU).1
    (ordinary_of_all hoA) (ordinary_of_all hoB)
    (by
      intro g hg
      cases List.mem_singleton.mp hg
      exact ⟨Or.inr ⟨by decide, rfl⟩, Or.inl hopenA⟩)
    (by simp) 0 id (fun l => List.Perm.refl l)
  refine ⟨A, B, t, hnotA, hnotB, hset, ?_, ?_⟩
  · have hnotA' : A.blockGet send₂Hash = none := hnotA
    rw [hclient, hnotA']
    exact hsendB
  · rw [hserver, hclient, hopenA]
    rfl

end PaperNode.BootstrapSession
