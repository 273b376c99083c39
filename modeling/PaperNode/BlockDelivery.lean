import PaperNode.GapCache

/-!
# Delivering blocks in any order

Blocks that `ledger.process` would accept one after the other are delivered to a node in
another order, each through `process_receive_republish`, which goes on with the blocks of
the cache that waited for the one it processed. Every delivery ends: a turn stores a block
or goes on with one that depends on the one in hand.

All blocks are stored in the end exactly if no block comes to hand while another in the
cache waits for the same missing block. Otherwise it is dropped and never stored.
-/
namespace PaperNode.BlockDelivery
open BoundedRecursion LinkedNodes TransitionRuns Blocks BlockStore LedgerQueries LedgerProcess
open BlockLattice ProcessSteps ChainInvariant IndexInvariant LedgerRuns VoteWeight ProcessReturns
open PartialLedger GapCache
open RollbackFuture hiding returns

variable {E : Env} {s u : Store} {node node' : Node} {b c : Block} {rest bs : List Block}
  {n : ℕ} {h : BlockHash}

theorem run_reachable (hs : Reachable E s) (h : Run (Progressed E) s bs u) : Reachable E u := by
  induction h with
  | nil => exact hs
  | snoc _ hstep ih =>
      obtain ⟨fuel, ret, hstep, _⟩ := hstep
      exact ih.next (.process hstep)

noncomputable def above (E : Env) (u : Store) (b : Block) : ℕ :=
  (dependents u.blockGet (Needs E) (E.hash b)).ncard

theorem received_decreases {middle : Node} (hr : Received E u node b middle)
    (hstore : middle.store = node'.store) (ht : Tracked E s u none (node, b :: rest))
    (ht' : Tracked E s u none (node', c :: rest)) (hc : Needs E c (E.hash b)) :
    Prod.Lex (· < ·) (· < ·) (unstored u node'.store, above E u c)
      (unstored u node.store, above E u b) := by
  obtain ⟨rank, hrank⟩ := ht.part.whole.linked.chains.ranked
  have hlink : Link u.blockGet (Needs E) (E.hash c) (E.hash b) := ⟨c, ht'.new.1, hc⟩
  have hne : E.hash c ≠ E.hash b := by
    intro heq
    have hlt := hrank _ _ hlink
    rw [heq] at hlt
    exact lt_irrefl _ hlt
  have habove : above E u c < above E u b :=
    hrank.dependents_lt (.single hlink) hne (Option.ne_none_iff_exists'.mpr ⟨_, ht.new.1⟩)
  rw [← hstore]
  cases hr with
  | stored _ _ hput => exact .left _ _ (unstored_lt ht.new.1 ht.new.2 hput)
  | filed | refused => exact .right _ habove

section Delivered
variable {π : List Block} (hE : Proper E) (hs : Reachable E s) (hrun : Run (Progressed E) s bs u)
  (hperm : π.Perm bs)
  (hroom : ∀ node b rest, Handled E s π node b rest → missing node.store b ≠ none →
    node.gapCache.length < gapCacheMax)
include hE hs hrun hperm hroom

theorem reached_tracked {c : Node × List Block}
    (hc : Reached (· = (⟨s, []⟩, π)) (Turn E) c) : Tracked E s u none c := by
  obtain ⟨hwithin, hnew, hnodup, _⟩ := run_blocks hrun
  refine hc.induction ?_ ?_
  · rintro _ rfl
    have hwaiting : waiting E (⟨s, []⟩, π) = π.map E.hash := List.append_nil _
    have hpart : Part E s u :=
      ⟨reachable_healthy hE hs, reachable_healthy hE (run_reachable hs hrun), hwithin⟩
    refine ⟨hpart, fun _ _ hb => hb, fun b hb => (hnew b (hperm.mem_iff.mp hb)).1, by simp,
      by simp, by simp, by simp, by simp, ?_, ?_⟩
    · rw [hwaiting]
      exact (hperm.map E.hash).nodup_iff.mpr hnodup
    · intro h hh
      rw [hwaiting] at hh
      obtain ⟨b, hb, rfl⟩ := List.mem_map.mp hh
      exact (hnew b (hperm.mem_iff.mp hb)).2
  · intro t b t' ht htracked hstep
    obtain ⟨hset⟩ := hstep
    obtain ⟨n, hn⟩ := hset.exists_ok
    obtain ⟨_, _, _, htracked', _, _⟩ := htracked.turn hE (hroom _ _ _ ht) hn
    exact htracked'

theorem turn_received {t t' : Node × List Block}
    (ht : Reached (· = (⟨s, []⟩, π)) (Turn E) t) (hstep : Turn E t b t') :
    ∃ node rest middle, t = (node, b :: rest) ∧ Received E u node b middle ∧
      ∀ h, Held E t' h ↔ Held E (middle, rest) h := by
  have htracked := reached_tracked hE hs hrun hperm hroom ht
  obtain ⟨hset⟩ := hstep
  obtain ⟨n, hn⟩ := hset.exists_ok
  obtain ⟨middle, hr, hstore, _, hwaiting, _⟩ := htracked.turn hE (hroom _ _ _ ht) hn
  exact ⟨_, _, middle, rfl, hr, fun _ => held_congr hstore.symm hwaiting⟩

theorem reached_held {c : Node × List Block}
    (hkept : ∀ node b rest, Handled E s π node b rest → Kept E node b)
    (hc : Reached (· = (⟨s, []⟩, π)) (Turn E) c) (hu : u.blockGet h ≠ none) : Held E c h := by
  refine hc.induction (I := fun c => Held E c h) ?_ ?_
  · rintro _ rfl
    obtain ⟨b, hb⟩ := Option.ne_none_iff_exists'.mp hu
    rcases (run_blocks hrun).2.2.2 h b hb with hold | ⟨hmem, rfl⟩
    · exact Or.inl (Option.ne_none_iff_exists'.mpr ⟨_, hold⟩)
    · refine Or.inr (List.mem_append_left _ ?_)
      exact List.mem_map_of_mem (hperm.mem_iff.mpr hmem)
  · intro t b t' ht hheld hstep
    obtain ⟨node, rest, middle, rfl, hr, hiff⟩ := turn_received hE hs hrun hperm hroom ht hstep
    have hnew := (reached_tracked hE hs hrun hperm hroom ht).new.2
    exact (hiff h).mpr (hr.held hnew (hkept _ _ _ ht).unclaimed hheld)

/-- Once all blocks are delivered, none waits: it would wait for another that waits. -/
theorem reached_stored (hkept : ∀ node b rest, Handled E s π node b rest → Kept E node b)
    (hc : Reached (· = (⟨s, []⟩, π)) (Turn E) (node, [])) (hu : u.blockGet h ≠ none) :
    node.store.blockGet h ≠ none := by
  have htracked := reached_tracked hE hs hrun hperm hroom hc
  have hchains := htracked.part.whole.linked.chains
  obtain ⟨rank, hrank⟩ := hchains.ranked
  have hnone : ∀ k, ¬ k ∈ waiting E (node, []) := by
    refine hrank.not_blocked ?_
    intro k hk
    obtain ⟨g, hg, rfl⟩ := List.mem_map.mp hk
    have hlink : Link u.blockGet (Needs E) (E.hash g.block) g.required :=
      ⟨g.block, htracked.cached g hg, htracked.needed g hg⟩
    have hheld := reached_held hE hs hrun hperm hroom hkept hc (hchains.needed_stored hlink)
    rcases hheld with hstored | hwaiting
    · exact absurd (htracked.blocked g hg (nomatch ·)) hstored
    · exact ⟨g.required, hwaiting, hlink⟩
  rcases reached_held hE hs hrun hperm hroom hkept hc hu with hstored | hwaiting
  · exact hstored
  · exact absurd hwaiting (hnone h)

/-- The loop of `process_receive_republish` ends. -/
theorem exists_delivery (hmove : ∀ node b rest, Handled E s π node b rest →
      Passes E node.store b → Movable E node.store b)
    (node : Node) (b : Block) (rest : List Block) (hb : Handled E s π node b rest) :
    ∃ node', Delivery E node b node' ∧ Reached (· = (⟨s, []⟩, π)) (Turn E) (node', rest) := by
  have ht := reached_tracked hE hs hrun hperm hroom hb
  obtain ⟨next, node', hset⟩ := ht.exists_turn hE (hmove node b rest hb)
  have hnext := hb.next (.turn hset)
  cases next with
  | none =>
      refine ⟨node', Settles.succ ?_ (fun n => by rw [processReceiveRepublish]), hnext⟩
      exact hset.bind (Settles.of_forall (fun _ => rfl))
  | some c =>
      obtain ⟨n, hn⟩ := hset.exists_ok
      obtain ⟨middle, hr, hstore, ht', _, hneeds⟩ := ht.turn hE (hroom _ _ _ hb) hn
      have hdec := received_decreases hr hstore ht ht' (hneeds c rfl)
      obtain ⟨last, hlast, hreached⟩ := exists_delivery hmove node' c rest hnext
      refine ⟨last, Settles.succ ?_ (fun n => by rw [processReceiveRepublish]), hreached⟩
      exact hset.bind hlast
termination_by (unstored u node.store, above E u b)
decreasing_by exact hdec

theorem exists_deliveries (hmove : ∀ node b rest, Handled E s π node b rest →
      Passes E node.store b → Movable E node.store b) {queue : List Block}
    (hc : Reached (· = (⟨s, []⟩, π)) (Turn E) (node, queue)) :
    ∃ node', Run (Delivery E) node queue node' ∧
      Reached (· = (⟨s, []⟩, π)) (Turn E) (node', []) := by
  induction queue generalizing node with
  | nil => exact ⟨node, .nil, hc⟩
  | cons b rest ih =>
      obtain ⟨middle, hb, hmiddle⟩ :=
        exists_delivery hE hs hrun hperm hroom hmove node b rest hc
      obtain ⟨last, hrest, hlast⟩ := ih hmiddle
      exact ⟨last, .cons hb hrest, hlast⟩

theorem not_held_run {c c' : Node × List Block} {cs : List Block}
    (hc : Reached (· = (⟨s, []⟩, π)) (Turn E) c) (hr : Run (Turn E) c cs c')
    (hh : ¬ Held E c h) : ¬ Held E c' h := by
  induction hr with
  | nil => exact hh
  | @snoc cs t t' b hrest hstep ih =>
      obtain ⟨node, rest, middle, rfl, hr, hiff⟩ :=
        turn_received hE hs hrun hperm hroom (hc.run hrest) hstep
      rw [hiff]
      exact hr.not_held ih

/-- Where all blocks get stored, no block was refused and the weight of each could be moved. -/
theorem kept_of_stored {last : Node} (hlast : Run (Delivery E) ⟨s, []⟩ π last)
    (hstored : ∀ b ∈ bs, last.store.blockGet (E.hash b) = some b)
    (hb : Handled E s π node b rest) : Kept E node b := by
  have ht := reached_tracked hE hs hrun hperm hroom hb
  have hend : ∃ cs, Run (Turn E) (node, b :: rest) cs (last, []) := by
    obtain ⟨cs, hcs⟩ := run_of_deliveries hlast
    obtain ⟨_, ds, rfl, hds⟩ := hb
    exact hcs.through turn_det (fun _ _ hstep => nomatch hstep) hds
  obtain ⟨cs, hcs⟩ := hend
  rcases hcs.cases_head with ⟨_, heq⟩ | ⟨b', t, ds, _, hstep, hds⟩
  · cases heq
  have hnext := hb.next hstep
  obtain ⟨hset⟩ := hstep
  obtain ⟨n, hn⟩ := hset.exists_ok
  constructor
  case movable =>
    intro hp
    obtain ⟨ret, middle, hreceive, _⟩ := turn_ok hn
    obtain ⟨⟨ret', store⟩, hprocess, _⟩ := bind_eq_ok.mp hreceive
    have hprocess := relabel_eq_ok.mp hprocess
    exact movable_of_accepted hE ht.part.part
      (Progressed.accepted ⟨n, ret', hprocess, passes_progress hp hprocess⟩)
  case unclaimed =>
    intro p hmiss g hg hkey
    obtain ⟨middle, hr, hstore, _, hwaiting, _⟩ := ht.turn hE (hroom _ _ _ hb) hn
    have hlost := hr.lost ht hmiss hg hkey
    rw [← held_congr hstore.symm hwaiting] at hlost
    refine not_held_run hE hs hrun hperm hroom hnext hds hlost (Or.inl ?_)
    -- the block is one of the sequence, so it is stored in the end
    rcases (run_blocks hrun).2.2.2 _ b ht.new.1 with hold | ⟨hmem, _⟩
    · cases ht.new.2.symm.trans (ht.kept _ b hold)
    · rw [hstored b hmem]
      exact (nomatch ·)

end Delivered

/-- Blocks that are accepted one after the other and delivered in another order are all stored
in the end exactly if, whenever a block comes to hand, no block in the cache waits for the block
it misses and the assertions on its weight hold. -/
theorem delivered_iff {π : List Block} (hE : Proper E) (hs : Reachable E s)
    (hrun : Run (Progressed E) s bs u) (hperm : π.Perm bs)
    (hroom : ∀ node b rest, Handled E s π node b rest → missing node.store b ≠ none →
      node.gapCache.length < gapCacheMax) :
    (∃ node, Run (Delivery E) ⟨s, []⟩ π node ∧
        ∀ b ∈ bs, node.store.blockGet (E.hash b) = some b) ↔
      ∀ node b rest, Handled E s π node b rest → Kept E node b := by
  constructor
  · rintro ⟨last, hlast, hstored⟩ node b rest hb
    exact kept_of_stored hE hs hrun hperm hroom hlast hstored hb
  · intro hkept
    obtain ⟨last, hlast, hreached⟩ := exists_deliveries hE hs hrun hperm hroom
      (fun node b rest hb => (hkept node b rest hb).movable) (.start rfl)
    refine ⟨last, hlast, ?_⟩
    intro b hb
    have hu := ((run_blocks hrun).2.1 b hb).1
    have hne := reached_stored hE hs hrun hperm hroom hkept hreached
      (Option.ne_none_iff_exists'.mpr ⟨_, hu⟩)
    have hpart := (reached_tracked hE hs hrun hperm hroom hreached).part
    exact hpart.within.get_of_stored hne hu

section Short

theorem add_length_le (E : Env) (blocks : Cache) (b : Block) (needed : BlockHash) :
    (add E blocks b needed).length ≤ blocks.length + 1 := by
  unfold add
  cases hg : blocks.find? (waitsFor needed) with
  | some g =>
      have hlength := (perm_of_find hg).length_eq
      simp only [List.length_append, List.length_cons, List.length_nil] at hlength ⊢
      omega
  | none =>
      dsimp only
      split_ifs with hany
      · rw [List.length_tail]
        omega
      · exact Nat.le_succ _
      · rw [List.length_tail, List.length_append, List.length_singleton]
        omega
      · rw [List.length_append, List.length_singleton]

theorem get_length (blocks : Cache) (h : BlockHash) :
    (get blocks h).1.toList.length + (get blocks h).2.length = blocks.length := by
  rcases get_cases blocks h with ⟨hnone, _⟩ | ⟨g, _, hsome, hperm⟩
  · simp [hnone]
  · rw [hsome, hperm.length_eq, List.length_cons]
    exact Nat.add_comm _ _

theorem receive_length_le {ret : ProcessReturn}
    (h : processReceive E n node b = .ok (ret, node')) :
    node'.gapCache.length ≤ node.gapCache.length + 1 := by
  obtain ⟨⟨ret', store⟩, _, h⟩ := bind_eq_ok.mp h
  dsimp only at h
  split at h
  · cases h
    exact add_length_le ..
  · cases h
    exact add_length_le ..
  · obtain ⟨_, _, h⟩ := bind_eq_ok.mp h
    cases h
    exact Nat.le_succ _
  · cases h
    exact Nat.le_succ _

theorem handled_length {π : List Block} (hb : Handled E s π node b rest) :
    node.gapCache.length + (b :: rest).length ≤ π.length := by
  refine Reached.invariant (I := fun c => c.1.gapCache.length + c.2.length ≤ π.length) ?_ ?_ hb
  · rintro _ rfl
    simp
  · intro t c t' ht hstep
    obtain ⟨hset⟩ := hstep
    obtain ⟨n, hn⟩ := hset.exists_ok
    obtain ⟨ret, middle, hreceive, rfl, rfl⟩ := turn_ok hn
    have hreceived := receive_length_le hreceive
    have hget := get_length middle.gapCache (E.hash c)
    simp only [List.length_append, List.length_cons] at ht ⊢
    omega

theorem room_of_length {π : List Block} (hπ : π.length ≤ gapCacheMax) (node : Node) (b : Block)
    (rest : List Block) (hb : Handled E s π node b rest) :
    node.gapCache.length < gapCacheMax := by
  have hlength := handled_length hb
  rw [List.length_cons] at hlength
  omega

/-- Delivers blocks one after the other. -/
def deliver (E : Env) (fuel : ℕ) : Node → List Block → Check ReceiveAssertion Node
  | node, [] => .ok node
  | node, b :: bs => do
      let node ← processReceiveRepublish E fuel node b
      deliver E fuel node bs

theorem deliver_run (h : deliver E n node bs = .ok node') : Run (Delivery E) node bs node' := by
  induction bs generalizing node with
  | nil =>
      cases h
      exact .nil
  | cons b bs ih =>
      obtain ⟨middle, hb, h⟩ := bind_eq_ok.mp h
      exact .cons ((republish_steady E node b).settles hb) (ih h)

/-- The blocks `bs` are accepted by the genesis ledger, and delivered in the order `π` they lead
to a ledger that passes a test. -/
theorem exists_of_deliver {π : List Block} (test : Store → Bool)
    (h : accepts E n [] (fun s => (acceptAll E n s bs).isSome &&
      returns (deliver E n ⟨s, []⟩ π) (fun node => test node.store)) = true) :
    ∃ s u node, Reachable E s ∧ Run (Progressed E) s bs u ∧
      Run (Delivery E) ⟨s, []⟩ π node ∧ test node.store = true := by
  obtain ⟨s₀, s, h₀, hs, htest⟩ := exists_of_accepts h
  rw [Bool.and_eq_true, Option.isSome_iff_exists] at htest
  obtain ⟨⟨u, hu⟩, hdeliver⟩ := htest
  obtain ⟨node, hnode, hstore⟩ := exists_of_returns hdeliver
  exact ⟨s, u, node, reached_reachable (progressed_reached h₀ hs), acceptAll_run hu,
    deliver_run hnode, hstore⟩

/-- Two sends, the second first. -/
theorem delivered_iff_sends : ∃ s u, Reachable smallNetwork s ∧
    Run (Progressed smallNetwork) s [send₁, send₂] u ∧
    ∀ node b rest, Handled smallNetwork s [send₂, send₁] node b rest →
      Kept smallNetwork node b := by
  have hdeliver : accepts smallNetwork 9 [] (fun s =>
      (acceptAll smallNetwork 9 s [send₁, send₂]).isSome &&
      returns (deliver smallNetwork 9 ⟨s, []⟩ [send₂, send₁]) (fun node =>
        decide (node.store.blockGet (smallNetwork.hash send₁) = some send₁) &&
        decide (node.store.blockGet (smallNetwork.hash send₂) = some send₂))) = true := by
    decide +kernel
  obtain ⟨s, u, last, hs, hu, hlast, htest⟩ := exists_of_deliver
    (fun s => decide (s.blockGet (smallNetwork.hash send₁) = some send₁) &&
      decide (s.blockGet (smallNetwork.hash send₂) = some send₂)) hdeliver
  simp only [Bool.and_eq_true, decide_eq_true_eq] at htest
  have hroom := room_of_length (E := smallNetwork) (s := s) (π := [send₂, send₁]) (by decide)
  refine ⟨s, u, hs, hu, ?_⟩
  refine (delivered_iff smallNetwork_proper hs hu (List.Perm.swap ..)
    (fun node b rest hb _ => hroom node b rest hb)).mp ⟨last, hlast, ?_⟩
  intro b hb
  rcases List.mem_cons.mp hb with rfl | hb
  · exact htest.1
  · rw [List.mem_singleton.mp hb]
    exact htest.2

/-- A second send and the open block both wait for the first send; the open block is dropped. -/
theorem open_block_dropped : ∃ s u node, Reachable smallNetwork s ∧
    Run (Progressed smallNetwork) s [send₁, send₂, open₁] u ∧
    Run (Delivery smallNetwork) ⟨s, []⟩ [send₂, open₁, send₁] node ∧
    node.store.blockGet open₁Hash = none ∧
    ∀ node b rest, Handled smallNetwork s [send₂, open₁, send₁] node b rest →
      node.gapCache.length < gapCacheMax := by
  have hdeliver : accepts smallNetwork 9 [] (fun s =>
      (acceptAll smallNetwork 9 s [send₁, send₂, open₁]).isSome &&
      returns (deliver smallNetwork 9 ⟨s, []⟩ [send₂, open₁, send₁]) (fun node =>
        decide (node.store.blockGet open₁Hash = none))) = true := by
    decide +kernel
  obtain ⟨s, u, node, hs, hu, hnode, htest⟩ := exists_of_deliver
    (fun s => decide (s.blockGet open₁Hash = none)) hdeliver
  exact ⟨s, u, node, hs, hu, hnode, of_decide_eq_true htest, room_of_length (by decide)⟩

end Short

end PaperNode.BlockDelivery
