import PaperNode.MoneyInvariant
import PaperNode.Representatives

/-!
# Rollback removes exactly the causal future

With the weight assertion of `move_representation` left out, a rollback of any
stored block but the genesis block returns, and it has removed the block and the
blocks that depend on it through previous and source links, and no other.

Termination is by the number of stored blocks that depend on the block at hand.
The inner rollback of a received send starts at a block further up, which has
fewer dependents, and every removal leaves fewer of them for the rest of a loop.
-/
namespace PaperNode.RollbackFuture
open BoundedRecursion OrderedTable LinkedNodes TransitionRuns Blocks BlockStore LedgerQueries
open LedgerProcess LedgerRollback BlockLattice QueryCorrectness ProcessSteps ChainInvariant
open RollbackSteps IndexInvariant RollbackRuns LedgerRuns MoneyInvariant Representatives

/-- What the visitor relies on, in every state of a rollback. -/
structure Healthy (E : Env) (s : Store) : Prop where
  linked : Linked E s
  indexed : Indexed E s
  funded : Funded E s
  represented : Represented E s
  summed : Summed s

variable {E : Env} {s s' : Store} {h : BlockHash} {b : Block} {a : Account}

theorem reachable_healthy (hE : Proper E) (hs : Reachable E s) : Healthy E s :=
  ⟨(reachable_sound hs).linked, (reachable_sound hs).indexed hE.hashed,
    reachable_funded hE.hashed hs, reachable_represented hs, reachable_summed hs⟩

theorem Healthy.sound (hs : Healthy E s) : Sound E s := ⟨hs.linked, fun _ => hs.indexed⟩

theorem Healthy.accepted (hE : Proper E) (hs : Healthy E s) (ha : Accepted E s b s') :
    Healthy E s' :=
  ⟨hs.linked.accepted ha, (hs.sound.accepted ha).indexed hE.hashed,
    hs.funded.accepted hE.hashed hs.linked ha, hs.represented.accepted ha,
    summed_accepted hs.summed ha⟩

theorem Healthy.popped (hE : Proper E) (hs : Healthy E s) (hp : Popped E s h s') :
    Healthy E s' := by
  have hsound := hs.sound.popped hp
  have hrep := hs.represented.popped hp
  obtain ⟨b, a, info, hr, hv⟩ := hp
  exact ⟨hsound.linked, hsound.indexed hE.hashed,
    hs.funded.removed hE.hashed hs.linked hs.indexed hr hv, hrep, hr.summed hs.summed⟩

theorem Healthy.pops {F : BlockHash → Prop} (hE : Proper E) (hs : Healthy E s)
    (hp : Pops E F s s') : Healthy E s' :=
  hp.invariant (I := Healthy E) (fun _ _ _ ht _ hpop => ht.popped hE hpop) hs

section Visits

theorem Healthy.head_frontier (hs : Healthy E s) (hb : s.blockGet h = some b) (ht : Top s h)
    (ho : Owner s.blockGet h a) :
    (∃ i, s.accounts.get a = some i ∧ i.head = h) ∧ s.frontiers.get h = some a := by
  obtain ⟨x, i, hx, hh⟩ := hs.indexed.headed h b hb ht
  have hox := (hs.linked.heads x i hx).1
  rw [hh] at hox
  cases hox.unique ho
  exact ⟨⟨i, hx, hh⟩, (hs.indexed.frontiers h a).mpr ⟨i, hx, hh⟩⟩

/-- The account whose top block is `p` has it as its head and frontier. -/
theorem Healthy.top_account (hs : Healthy E s) (ho : Owner s.blockGet p a) (ht : Top s p) :
    ∃ i, s.accounts.get a = some i ∧ i.head = p ∧ s.frontierGet p = a := by
  obtain ⟨c, hc⟩ := Option.ne_none_iff_exists'.mp ho.stored
  obtain ⟨⟨i, hi, hh⟩, _⟩ := hs.head_frontier hc ht ho
  refine ⟨i, hi, hh, ?_⟩
  rw [← hh]
  exact hs.indexed.frontierGet_head hi

theorem Healthy.pending_send {q : BlockHash} {t : SendBlock} (hs : Healthy E s)
    (ht : s.blockGet q = some (.sendBlock t)) (hd : t.hashables.destination = a)
    (hq : ∀ k, ¬ Link s.blockGet (Collects E) k q) :
    s.blockExists q = true ∧ ∃ r, s.pendingGet q = some r ∧ r.destination = a := by
  obtain ⟨r, hr⟩ := Option.ne_none_iff_exists'.mp (hs.indexed.pendingAll q t ht hq)
  obtain ⟨⟨t', ht', hdest⟩, _⟩ := hs.linked.pending q r hr
  cases ht.symm.trans ht'
  exact ⟨Store.blockExists_iff.mpr ⟨_, ht⟩, r, hr, hdest.symm.trans hd⟩

theorem Healthy.replay (hs : Healthy E s) (hb : s.blockGet h = some b) :
    ∃ v, Replay E s.blockGet h v := by
  obtain ⟨v, hv, _⟩ := hs.funded.replays h b hb
  exact ⟨v, hv⟩

theorem Healthy.previous_stored {p : BlockHash} (hE : Proper E) (hs : Healthy E s)
    (hb : s.blockGet h = some b) (hp : b.previousLink = some p) :
    ∃ c, s.blockGet p = some c ∧ p ≠ 0 := by
  obtain ⟨c, hc⟩ := Option.ne_none_iff_exists'.mp (hs.linked.chains.previous h p ⟨b, hb, hp⟩)
  exact ⟨c, hc, (Linked.bottomed hE.hashed hs.linked).ne_zero hc⟩

theorem exists_latest_del (E : Env) (hb : s.blockGet h = some b) (hc : Summed s)
    {p r : BlockHash} {v : Amount} (hp : p = 0 → (s.accounts.get a).isSome) :
    ∃ u x, changeLatest E s a p r v = .ok u ∧ u.blockDel h = .ok x ∧
      x.frontiers = s.frontiers ∧
      (s.Exclusive → x.blockGet = Function.update s.blockGet h none) := by
  have hsome : (s.checksum.get 0).isSome := by
    rw [hc]
    rfl
  obtain ⟨u, hu⟩ := exists_changeLatest E a r v hsome hp
  obtain ⟨m, c, n, rfl, _⟩ := changeLatest_ok hu
  obtain ⟨x, hx⟩ := Store.exists_blockDel (s := { s with
    accounts := latestTable s.accounts a ⟨p, r, v, m⟩, checksum := c, clock := n }) hb
  refine ⟨_, x, hu, hx, (Store.blockDel_holding hx).2.1.frontiers, fun he => ?_⟩
  exact (Store.blockDel_ok hx he).1

theorem frontierDel_of_get (hf : s.frontiers.get h = some a) :
    s.frontierDel h = .ok { s with frontiers := s.frontiers.del h } :=
  frontierDel_eq_ok.mpr ⟨by rw [hf]; rfl, rfl⟩

theorem undoSend_settles {t : SendBlock} {r : Receivable} (hE : Proper E) (hs : Healthy E s)
    (hb : s.blockGet (E.hash (.sendBlock t)) = some (.sendBlock t))
    (ht : Top s (E.hash (.sendBlock t))) (hr : s.pending.get (E.hash (.sendBlock t)) = some r) :
    ∃ s', Settles (fun n => undoSend E n s t r) s' := by
  obtain ⟨_, ho, _⟩ := hs.linked.pending _ r hr
  obtain ⟨_, hfront⟩ := hs.head_frontier hb ht ho
  obtain ⟨c, hc, hp₀⟩ := hs.previous_stored hE hb rfl
  obtain ⟨w, hw⟩ := hs.replay hc
  have hbal := balance_settles (Linked.bottomed hE.hashed hs.linked) hw
  have hdel : s.pendingDel (E.hash (.sendBlock t)) =
      .ok { s with pending := s.pending.del (E.hash (.sendBlock t)) } :=
    pendingDel_eq_ok.mpr ⟨by rw [hr]; rfl, rfl⟩
  obtain ⟨u, x, hu, hx, hxf, _⟩ := exists_latest_del
    (s := { s with pending := s.pending.del (E.hash (.sendBlock t)) }) (a := r.source)
    (p := t.hashables.previous) (r := ((s.accounts.get r.source).getD {}).repBlock)
    (v := BitVec.ofNat 128 w) E hb hs.summed (fun h₀ => absurd h₀ hp₀)
  have hy : x.frontierDel (E.hash (.sendBlock t)) = _ := frontierDel_of_get (hxf ▸ hfront)
  refine ⟨Store.frontierPut { x with frontiers := x.frontiers.del (E.hash (.sendBlock t)) }
    t.hashables.previous r.source, ?_⟩
  filter_upwards [hbal] with n hn
  unfold undoSend
  exact bind_eq_ok.mpr ⟨_, hdel, bind_eq_ok.mpr ⟨_, hn, bind_eq_ok.mpr ⟨_, hu,
    bind_eq_ok.mpr ⟨_, hx, bind_eq_ok.mpr ⟨_, hy, rfl⟩⟩⟩⟩⟩

/-- Without its weight assertion, `move_representation` only asks that both
blocks are stored and name somebody. -/
theorem exists_moveRepresentation (hE : Proper E) (hw : E.weightAssert = false)
    (hs : Healthy E s) (hb : s.blockGet h = some b) (hg : b ≠ genesisBlock E) {j k x y : BlockHash}
    (hx : RepBlock s.blockGet j x) (hy : RepBlock s.blockGet k y) (v : Amount) :
    ∃ t, moveRepresentation E s x y v = .ok { s with representation := t } := by
  obtain ⟨c, hc, hcn⟩ := Nearest.target hx
  obtain ⟨d, hd, hdn⟩ := Nearest.target hy
  refine ⟨_, moveRepresentation_eq_ok.mpr ⟨c, d, hc, ?_, hd, ?_, ?_, rfl⟩⟩
  · exact representative_ne_zero hE hs.linked hs.represented hb hg hc hcn
  · exact representative_ne_zero hE hs.linked hs.represented hb hg hd hdn
  · intro ht
    rw [hw] at ht
    cases ht

theorem undoChange_settles {c : ChangeBlock} (hE : Proper E) (hw : E.weightAssert = false)
    (hs : Healthy E s) (hb : s.blockGet (E.hash (.changeBlock c)) = some (.changeBlock c))
    (ht : Top s (E.hash (.changeBlock c))) : ∃ s', Settles (fun n => undoChange E n s c) s' := by
  obtain ⟨d, hd, hp₀⟩ := hs.previous_stored hE hb rfl
  obtain ⟨a, ha⟩ := hs.linked.chains.exists_owner hd
  obtain ⟨_, hfront⟩ := hs.head_frontier hb ht ((owner_previous hb rfl).mpr ha)
  obtain ⟨rep, hrep⟩ := hs.linked.chains.exists_repBlock hd
  obtain ⟨v, hv⟩ := hs.replay hd
  have hbal := balance_settles (Linked.bottomed hE.hashed hs.linked) hv
  have hacc := account_settles hs.linked.chains.addressed ha
    (owner_ne_zero hE hs.linked hb (nomatch ·) ha)
  have hrepS := representative_settles hs.linked.chains.keyed hrep
  obtain ⟨w, hmove⟩ := exists_moveRepresentation hE hw hs hb (nomatch ·)
    ((repBlock_here hb trivial).mpr rfl) hrep (BitVec.ofNat 128 v)
  obtain ⟨x, hx⟩ := Store.exists_blockDel (s := { s with representation := w }) hb
  obtain ⟨hxb, hl, _⟩ := Store.blockDel_ok hx hs.linked.exclusive
  have hsome : (x.checksum.get 0).isSome := by
    rw [hl.checksum]
    exact Option.isSome_iff_exists.mpr ⟨_, hs.summed⟩
  obtain ⟨u, hu⟩ := exists_changeLatest E a rep ((s.accountGet a).getD {}).balance hsome
    (fun h₀ => absurd h₀ hp₀)
  have huf : u.frontiers = s.frontiers := by
    obtain ⟨m, k, n, rfl, _⟩ := changeLatest_ok hu
    exact hl.frontiers
  have hy : u.frontierDel (E.hash (.changeBlock c)) = _ := frontierDel_of_get (huf ▸ hfront)
  refine ⟨Store.frontierPut { u with frontiers := u.frontiers.del (E.hash (.changeBlock c)) }
    c.hashables.previous a, ?_⟩
  filter_upwards [hrepS, hacc, hbal] with n h₁ h₂ h₃
  unfold undoChange
  exact bind_eq_ok.mpr ⟨_, h₁, bind_eq_ok.mpr ⟨_, h₂, bind_eq_ok.mpr ⟨_, h₃, bind_eq_ok.mpr
    ⟨_, hmove, bind_eq_ok.mpr ⟨_, hx, bind_eq_ok.mpr ⟨_, hu, bind_eq_ok.mpr ⟨_, hy, rfl⟩⟩⟩⟩⟩⟩⟩

/-- The queries that undoing a receive or an open block makes about its source. -/
theorem Healthy.source (hE : Proper E) (hs : Healthy E s) (hb : s.blockGet h = some b)
    (hg : b ≠ genesisBlock E) (ht : Top s h) (hsend : ∀ t, b ≠ .sendBlock t) {q : BlockHash}
    (hq : b.sourceLink = some q) : ∃ a source rep own d,
      Owner s.blockGet h a ∧ RepBlock s.blockGet q rep ∧ RepBlock s.blockGet h own ∧
      Settles (fun n => representative E s n q) rep ∧
      Settles (fun n => amount E s.blockGet n q) (BitVec.ofNat 128 d) ∧
      Settles (fun n => account s.blockGet n h) a ∧
      Settles (fun n => representative E s n h) own ∧
      Settles (fun n => account (Function.update s.blockGet h none) n q) source := by
  have hc : Collects E b q := ⟨hg, hq⟩
  have loose := loose_of_top hs.linked hb hg ht hsend
  obtain ⟨t, hqt, _⟩ := hs.linked.chains.collects h b q hb hc
  have hne : q ≠ h := fun he => loose.uncollected h ⟨b, hb, he ▸ hc⟩
  obtain ⟨a, ha⟩ := hs.linked.chains.exists_owner hb
  obtain ⟨source, hsource⟩ := hs.linked.chains.exists_owner hqt
  obtain ⟨rep, hrep⟩ := hs.linked.chains.exists_repBlock hqt
  obtain ⟨own, hown⟩ := hs.linked.chains.exists_repBlock hb
  obtain ⟨d, hd⟩ := hs.funded.sends q t hqt
  refine ⟨a, source, rep, own, d, ha, hrep, hown, ?_, ?_, ?_, ?_, ?_⟩
  · exact representative_settles hs.linked.chains.keyed hrep
  · exact amount_settles (Linked.bottomed hE.hashed hs.linked) hd
  · exact account_settles hs.linked.chains.addressed ha (owner_ne_zero hE hs.linked hb hg ha)
  · exact representative_settles hs.linked.chains.keyed hown
  · exact account_settles (hs.linked.chains.erase loose).addressed
      (hsource.erase loose.unprevious hne) (owner_ne_zero hE hs.linked hb hg hsource)

theorem undoReceive_settles {c : ReceiveBlock} (hE : Proper E) (hw : E.weightAssert = false)
    (hs : Healthy E s) (hb : s.blockGet (E.hash (.receiveBlock c)) = some (.receiveBlock c))
    (ht : Top s (E.hash (.receiveBlock c))) :
    ∃ s', Settles (fun n => undoReceive E n s c) s' := by
  obtain ⟨a, source, rep, own, d, ha, hrep, hown, h₁, h₂, h₃, h₄, h₅⟩ :=
    hs.source hE hb (nomatch ·) ht (fun _ => (nomatch ·)) rfl
  obtain ⟨_, hfront⟩ := hs.head_frontier hb ht ha
  obtain ⟨e, he, hp₀⟩ := hs.previous_stored hE hb rfl
  obtain ⟨v, hv⟩ := hs.replay he
  have hbal := balance_settles (Linked.bottomed hE.hashed hs.linked) hv
  obtain ⟨w, hmove⟩ := exists_moveRepresentation hE hw hs hb (nomatch ·) hown hrep
    (BitVec.ofNat 128 d)
  obtain ⟨u, x, hu, hx, hxf, hxb⟩ := exists_latest_del (s := { s with representation := w })
    (a := a) (p := c.hashables.previous) (r := rep) (v := BitVec.ofNat 128 v) E hb hs.summed
    (fun h₀ => absurd h₀ hp₀)
  have hy : (x.pendingPut c.hashables.source ⟨source, BitVec.ofNat 128 d, a⟩).frontierDel
      (E.hash (.receiveBlock c)) = _ := frontierDel_of_get (hxf ▸ hfront)
  have hxb : x.blockGet = Function.update s.blockGet (E.hash (.receiveBlock c)) none :=
    hxb hs.linked.exclusive
  rw [← hxb] at h₅
  refine ⟨Store.frontierPut { x.pendingPut c.hashables.source ⟨source, BitVec.ofNat 128 d, a⟩ with
    frontiers := x.frontiers.del (E.hash (.receiveBlock c)) } c.hashables.previous a, ?_⟩
  filter_upwards [h₁, h₂, h₃, h₄, h₅, hbal] with n h₁ h₂ h₃ h₄ h₅ h₆
  unfold undoReceive
  exact bind_eq_ok.mpr ⟨_, h₁, bind_eq_ok.mpr ⟨_, h₂, bind_eq_ok.mpr ⟨_, h₃, bind_eq_ok.mpr
    ⟨_, h₄, bind_eq_ok.mpr ⟨_, hmove, bind_eq_ok.mpr ⟨_, h₆, bind_eq_ok.mpr ⟨_, hu,
    bind_eq_ok.mpr ⟨_, hx, bind_eq_ok.mpr ⟨_, h₅, bind_eq_ok.mpr ⟨_, hy, rfl⟩⟩⟩⟩⟩⟩⟩⟩⟩⟩

theorem undoOpen_settles {o : OpenBlock} (hE : Proper E) (hw : E.weightAssert = false)
    (hs : Healthy E s) (hb : s.blockGet (E.hash (.openBlock o)) = some (.openBlock o))
    (hg : Block.openBlock o ≠ genesisBlock E) (ht : Top s (E.hash (.openBlock o))) :
    ∃ s', Settles (fun n => undoOpen E n s o) s' := by
  obtain ⟨a, source, rep, own, d, ha, hrep, hown, h₁, h₂, h₃, h₄, h₅⟩ :=
    hs.source hE hb hg ht (fun _ => (nomatch ·)) rfl
  obtain ⟨⟨i, hi, _⟩, hfront⟩ := hs.head_frontier hb ht ha
  obtain ⟨w, hmove⟩ := exists_moveRepresentation hE hw hs hb hg hown hrep (BitVec.ofNat 128 d)
  obtain ⟨u, x, hu, hx, hxf, hxb⟩ := exists_latest_del (s := { s with representation := w })
    (a := a) (p := 0) (r := rep) (v := 0) E hb hs.summed
    (fun _ => Option.isSome_iff_exists.mpr ⟨i, hi⟩)
  have hy : (x.pendingPut o.hashables.source ⟨source, BitVec.ofNat 128 d, a⟩).frontierDel
      (E.hash (.openBlock o)) = _ := frontierDel_of_get (hxf ▸ hfront)
  have hxb : x.blockGet = Function.update s.blockGet (E.hash (.openBlock o)) none :=
    hxb hs.linked.exclusive
  rw [← hxb] at h₅
  refine ⟨{ x.pendingPut o.hashables.source ⟨source, BitVec.ofNat 128 d, a⟩ with
    frontiers := x.frontiers.del (E.hash (.openBlock o)) }, ?_⟩
  filter_upwards [h₁, h₂, h₃, h₄, h₅] with n h₁ h₂ h₃ h₄ h₅
  unfold undoOpen
  exact bind_eq_ok.mpr ⟨_, h₁, bind_eq_ok.mpr ⟨_, h₂, bind_eq_ok.mpr ⟨_, h₃, bind_eq_ok.mpr
    ⟨_, h₄, bind_eq_ok.mpr ⟨_, hmove, bind_eq_ok.mpr ⟨_, hu, bind_eq_ok.mpr ⟨_, hx,
    bind_eq_ok.mpr ⟨_, h₅, hy⟩⟩⟩⟩⟩⟩⟩⟩

end Visits

section Recursion

noncomputable def load (E : Env) (s : Store) (h : BlockHash) : ℕ :=
  (dependents s.blockGet (Needs E) h).ncard

theorem load_pos (hb : s.blockGet h = some b) : 0 < load E s h := by
  refine (Set.ncard_pos (Set.toFinite _)).mpr ⟨h, ?_, Relation.ReflTransGen.refl⟩
  rw [hb]
  exact (nomatch ·)

theorem load_lt_of_above {k : BlockHash} (hs : Healthy E s) (hb : s.blockGet h = some b)
    (hr : Reach s.blockGet (Needs E) k h) (hne : k ≠ h) : load E s k < load E s h := by
  obtain ⟨rank, hrank⟩ := hs.linked.chains.ranked
  exact hrank.dependents_lt hr hne (Option.ne_none_iff_exists'.mpr ⟨_, hb⟩)

theorem load_lt_of_gone {k : BlockHash} {c : Block} (hw : Within s'.blockGet s.blockGet)
    (hc : s.blockGet k = some c) (hr : Reach s.blockGet (Needs E) k h)
    (gone : s'.blockGet k = none) : load E s' h < load E s h :=
  hw.dependents_lt ⟨Option.ne_none_iff_exists'.mpr ⟨_, hc⟩, hr⟩ gone

/-- All four procedures return on blocks with at most `N` dependents. -/
structure Returns (E : Env) (N : ℕ) : Prop where
  receivers : ∀ s h t, Healthy E s → s.blockGet h = some (.sendBlock t) → load E s h ≤ N →
    ∃ s' r, Settles (fun n => rollbackReceivers E n s h t.hashables.destination) (s', r)
  visit : ∀ s b, Healthy E s → s.blockGet (E.hash b) = some b → Top s (E.hash b) →
    b ≠ genesisBlock E → load E s (E.hash b) ≤ N →
    ∃ s', Settles (fun n => rollbackVisit E n s b) s'
  loop : ∀ s a h b, Healthy E s → s.blockGet h = some b → b ≠ genesisBlock E →
    Owner s.blockGet h a → load E s h ≤ N → ∃ s', Settles (fun n => rollbackLoop E n s a h) s'
  rollback : ∀ s h b, Healthy E s → s.blockGet h = some b → b ≠ genesisBlock E →
    load E s h ≤ N → ∃ s', Settles (fun n => rollback E n s h) s'

variable {N : ℕ}

/-- What the inner rollback of a received send leaves behind. -/
theorem returns_receivers {t : SendBlock} (hE : Proper E) (ih : Returns E N) (hs : Healthy E s)
    (ht : s.blockGet h = some (.sendBlock t)) (hN : load E s h ≤ N + 1) :
    ∃ s' r, Settles (fun n => rollbackReceivers E n s h t.hashables.destination) (s', r) := by
  cases hp : s.pending.get h with
  | some r =>
      refine ⟨s, r, Settles.of_succ (fun n => ?_)⟩
      rw [rollbackReceivers, Store.pendingGet, hp]
      rfl
  | none =>
      obtain ⟨i, k, hi, hik, hk⟩ := collected_below_head hs.linked hs.indexed ht hp
      obtain ⟨hreach, hne⟩ := latest_above hE.hashed hs.sound ht hp
      have hlatest : latest s t.hashables.destination = i.head := by
        unfold latest Store.accountGet
        rw [hi]
      rw [hlatest] at hreach hne
      obtain ⟨c, hc⟩ := Option.ne_none_iff_exists'.mp (hs.linked.heads _ i hi).1.stored
      -- The head is not the genesis block, which collects nothing.
      have hg : c ≠ genesisBlock E := by
        intro hg
        subst hg
        obtain ⟨d, hd, hq⟩ := hk
        cases Reach.eq_of_orphan hc rfl hik
        cases hc.symm.trans hd
        exact hq.1 rfl
      have hlt := load_lt_of_above hs ht hreach hne
      obtain ⟨u, hu⟩ := ih.rollback s i.head c hs hc hg (by omega)
      obtain ⟨n, hn⟩ := hu.exists_ok
      obtain ⟨hpops, hgone⟩ := rollback_ok hs.sound hn
      have hkept : u.blockGet h = some (.sendBlock t) :=
        hpops.kept (not_above hs.linked.chains hE.hashed hreach hne) ht
      have hlt' := load_lt_of_gone hpops.within hc hreach hgone
      obtain ⟨s', r, hrest⟩ := ih.receivers u h t (hs.pops hE hpops) hkept (by omega)
      have hboth := Settles.bind
        (g := fun n v => rollbackReceivers E n v h t.hashables.destination) hu hrest
      refine ⟨s', r, hboth.succ ?_⟩
      intro n
      rw [rollbackReceivers, Store.pendingGet, hp, hlatest]

theorem returns_visit (hE : Proper E) (hw : E.weightAssert = false) (ih : Returns E N)
    (hs : Healthy E s) (hb : s.blockGet (E.hash b) = some b) (ht : Top s (E.hash b))
    (hg : b ≠ genesisBlock E) (hN : load E s (E.hash b) ≤ N + 1) :
    ∃ s', Settles (fun n => rollbackVisit E n s b) s' := by
  cases b with
  | sendBlock t =>
      obtain ⟨u, r, hu⟩ := returns_receivers hE ih hs hb hN
      obtain ⟨n, hn⟩ := hu.exists_ok
      obtain ⟨hpops, hr⟩ := (sweeps E n).receivers s _ t u r hs.sound (fun _ => hb) hn
      have hhu := hs.pops hE hpops
      have hbu : u.blockGet (E.hash (.sendBlock t)) = some (.sendBlock t) := by
        obtain ⟨⟨t', ht', _⟩, _⟩ := hhu.linked.pending _ r hr
        cases hb.symm.trans (hpops.within _ _ ht')
        exact ht'
      obtain ⟨s', hs'⟩ := undoSend_settles hE hhu hbu (Within.top hpops.within ht) hr
      have hboth := Settles.bind
        (g := fun n (v : Store × Receivable) => undoSend E n v.1 t v.2) hu hs'
      exact ⟨s', hboth.succ (fun n => by rw [rollbackVisit])⟩
  | receiveBlock c =>
      obtain ⟨s', hs'⟩ := undoReceive_settles hE hw hs hb ht
      exact ⟨s', hs'.succ (fun n => by rw [rollbackVisit])⟩
  | openBlock o =>
      obtain ⟨s', hs'⟩ := undoOpen_settles hE hw hs hb hg ht
      exact ⟨s', hs'.succ (fun n => by rw [rollbackVisit])⟩
  | changeBlock c =>
      obtain ⟨s', hs'⟩ := undoChange_settles hE hw hs hb ht
      exact ⟨s', hs'.succ (fun n => by rw [rollbackVisit])⟩

theorem returns_loop (hE : Proper E) (hw : E.weightAssert = false) (ih : Returns E N)
    (hs : Healthy E s) (hb : s.blockGet h = some b) (hg : b ≠ genesisBlock E)
    (ho : Owner s.blockGet h a) (hN : load E s h ≤ N + 1) :
    ∃ s', Settles (fun n => rollbackLoop E n s a h) s' := by
  obtain ⟨i, hi, hr⟩ := exists_head hs.linked hs.indexed ho
  have hreach : Reach s.blockGet (Needs E) i.head h := reach_needs hr
  obtain ⟨hown, htop⟩ := hs.linked.heads a i hi
  obtain ⟨d, hd⟩ := Option.ne_none_iff_exists'.mp hown.stored
  have hkey := hs.linked.chains.keyed i.head d hd
  have hdg : d ≠ genesisBlock E := by
    intro he
    subst he
    cases Reach.eq_of_orphan hd rfl hr
    cases hb.symm.trans hd
    exact hg rfl
  have hload : load E s i.head ≤ N + 1 := by
    by_cases hne : i.head = h
    · rw [hne]
      exact hN
    · have hlt := load_lt_of_above hs hb hreach hne
      omega
  have hvisit : ∃ u, Settles (fun n => rollbackVisit E n s d) u := by
    rw [← hkey] at hd htop hload
    exact returns_visit hE hw ih hs hd htop hdg hload
  obtain ⟨u, hu⟩ := hvisit
  obtain ⟨n, hn⟩ := hu.exists_ok
  have hswept : Pops E (Above E s.blockGet i.head) s u ∧ u.blockGet i.head = none := by
    have hd' := hd
    have htop' := htop
    rw [← hkey] at hd' htop' ⊢
    exact (sweeps E n).visit s d u hs.sound hd' htop' hn
  obtain ⟨hpops, hgone⟩ := hswept
  -- The rest of the loop, after the head has been removed.
  have hrest : ∃ s', Settles (fun n =>
      if i.head ≠ h then rollbackLoop E n u a h else (.ok u : Checked Store)) s' := by
    by_cases hne : i.head = h
    · exact ⟨u, Settles.of_forall (fun n => if_neg (not_not.mpr hne))⟩
    · have hkept : u.blockGet h = some b :=
        hpops.kept (not_above hs.linked.chains hE.hashed hreach hne) hb
      have hhu := hs.pops hE hpops
      have hou := hhu.linked.chains.owner_of_within hpops.within hkept ho
      have hlt := load_lt_of_gone hpops.within hd hreach hgone
      obtain ⟨s', hs'⟩ := ih.loop u a h b hhu hkept hg hou (by omega)
      exact ⟨s', hs'.congr (fun n => if_pos hne)⟩
  obtain ⟨s', hs'⟩ := hrest
  have hboth := Settles.bind (g := fun n v =>
    if i.head ≠ h then rollbackLoop E n v a h else (.ok v : Checked Store)) hu hs'
  refine ⟨s', hboth.succ ?_⟩
  intro n
  rw [rollbackLoop, Store.accountGet, hi]
  simp only [demand, ok_bind, hd]
  rfl

theorem returns (hE : Proper E) (hw : E.weightAssert = false) (N : ℕ) : Returns E N := by
  induction N with
  | zero =>
      have none : ∀ {s h b}, s.blockGet h = some b → ¬ load E s h ≤ 0 := by
        intro s h b hb
        have := load_pos (E := E) hb
        omega
      constructor
      case receivers => exact fun s h t _ hb hN => absurd hN (none hb)
      case visit => exact fun s b _ hb _ _ hN => absurd hN (none hb)
      case loop => exact fun s a h b _ hb _ _ hN => absurd hN (none hb)
      case rollback => exact fun s h b _ hb _ hN => absurd hN (none hb)
  | succ N ih =>
      constructor
      case receivers => exact fun s h t hs hb hN => returns_receivers hE ih hs hb hN
      case visit => exact fun s b hs hb ht hg hN => returns_visit hE hw ih hs hb ht hg hN
      case loop => exact fun s a h b hs hb hg ho hN => returns_loop hE hw ih hs hb hg ho hN
      case rollback =>
        intro s h b hs hb hg hN
        obtain ⟨a, ha⟩ := hs.linked.chains.exists_owner hb
        have hacc := account_settles hs.linked.chains.addressed ha
          (owner_ne_zero hE hs.linked hb hg ha)
        obtain ⟨s', hs'⟩ := returns_loop hE hw ih hs hb hg ha hN
        have hloop := Settles.bind (g := fun n x => rollbackLoop E n s x h) hacc hs'
        refine ⟨s', hloop.succ ?_⟩
        intro n
        rw [rollback]

end Recursion

/-- A chain of previous and source links leads from `k` to `h`. -/
def DependsOn (s : Store) (k h : BlockHash) : Prop :=
  Reach s.blockGet (fun b p => b.previousLink = some p ∨ b.sourceLink = some p) k h

/-- The one link the ledger does not follow, from the genesis block to its
account number, leads to no stored block. -/
theorem dependsOn_iff {k : BlockHash} (hE : Hashed E) (hs : Linked E s)
    (hb : s.blockGet h = some b) : DependsOn s k h ↔ Reach s.blockGet (Needs E) k h := by
  constructor
  · intro hd
    induction hd using Relation.ReflTransGen.head_induction_on with
    | refl => exact Relation.ReflTransGen.refl
    | @head j p hjp _ ih =>
        obtain ⟨c, hc, hl⟩ := hjp
        rcases hl with hl | hl
        · exact Relation.ReflTransGen.head ⟨c, hc, Or.inl hl⟩ ih
        · by_cases hg : c = genesisBlock E
          · subst hg
            have hnone : s.blockGet p = none := by
              cases hl
              exact (Linked.bottomed hE hs).genesis
            rcases Relation.ReflTransGen.cases_head ih with rfl | ⟨q, ⟨d, hd, _⟩, _⟩
            · rw [hnone] at hb
              cases hb
            · rw [hnone] at hd
              cases hd
          · exact Relation.ReflTransGen.head ⟨c, hc, Or.inr ⟨hg, hl⟩⟩ ih
  · intro hr
    refine Relation.ReflTransGen.mono ?_ _ _ hr
    intro j p hl
    obtain ⟨c, hc, hn⟩ := hl
    exact ⟨c, hc, hn.imp (fun hp => hp) (fun hq => hq.2)⟩

/-- None of this is about the clock or the weight assertion. -/
theorem Healthy.configured (hs : Healthy E s) (clock : ℕ → Word64) (assertion : Bool) :
    Healthy { E with now := clock, weightAssert := assertion } s := by
  have replay : ∀ {h v}, Replay E s.blockGet h v →
      Replay { E with now := clock, weightAssert := assertion } s.blockGet h v :=
    fun hv => hv.of_genesisAccount rfl
  have sent : ∀ {h d}, Sent E s.blockGet h d →
      Sent { E with now := clock, weightAssert := assertion } s.blockGet h d := by
    intro h d hd
    obtain ⟨t, w, ht, hw, hle, he⟩ := hd
    exact ⟨t, w, ht, replay hw, hle, he⟩
  obtain ⟨hl, hi, hf, hr, hc⟩ := hs
  constructor
  case linked =>
    obtain ⟨hx, ⟨h₁, h₂, h₃, h₄, h₅, h₆, h₇⟩, hsig, hh, hp⟩ := hl
    exact ⟨hx, ⟨h₁, h₂, h₃, h₄, h₅, h₆, h₇⟩, hsig, hh, hp⟩
  case indexed => exact ⟨hi.headed, hi.frontiers, hi.pendingAll⟩
  case funded =>
    constructor
    case replays =>
      intro h b hb
      obtain ⟨v, hv, hlt⟩ := hf.replays h b hb
      exact ⟨v, replay hv, hlt⟩
    case sends =>
      intro h t ht
      obtain ⟨d, hd⟩ := hf.sends h t ht
      exact ⟨d, sent hd⟩
    case balances => exact fun a i hia => replay (hf.balances a i hia)
    case amounts => exact fun h r hhr => sent (hf.amounts h r hhr)
    case conserved => exact hf.conserved
  case represented => exact hr
  case summed => exact hc

theorem rollback_stored {fuel : ℕ} (hs : Linked E s) (hn : rollback E fuel s h = .ok s') :
    ∃ b, s.blockGet h = some b := by
  cases fuel with
  | zero => exact absurd hn (exhaust_ne_ok s')
  | succ fuel =>
      rw [rollback] at hn
      obtain ⟨a, ha, _⟩ := bind_eq_ok.mp hn
      have ho := (account_ok hs.chains.addressed ha).1
      exact Option.ne_none_iff_exists'.mp ho.stored

/-- A rollback that returns leaves what was stored and does not depend on the
block. -/
theorem rollback_kept {fuel : ℕ} (hE : Hashed E) (hs : Sound E s)
    (hn : rollback E fuel s h = .ok s') (k : BlockHash) (c : Block) :
    s'.blockGet k = some c ↔ s.blockGet k = some c ∧ ¬ DependsOn s k h := by
  obtain ⟨b, hb⟩ := rollback_stored hs.linked hn
  obtain ⟨hpops, hgone⟩ := rollback_ok hs hn
  rw [dependsOn_iff hE hs.linked hb]
  constructor
  · intro hk
    refine ⟨hpops.within k c hk, ?_⟩
    -- A dependent that was left would still need the block that is gone.
    intro hr
    refine hpops.within.stored_of_reach ?_ (Option.ne_none_iff_exists'.mpr ⟨_, hk⟩)
      (Option.ne_none_iff_exists'.mpr ⟨_, hb⟩) hr hgone
    exact fun j p hl _ => (hpops.sound hs).linked.chains.needed_stored hl
  · intro hk
    exact hpops.kept (fun ha => hk.2 (ha hE)) hk.1

theorem rollback_kept_iff {fuel : ℕ} (hE : Proper E) (hs : Healthy E s)
    (hn : rollback E fuel s h = .ok s') :
    Healthy E s' ∧
      ∀ k c, s'.blockGet k = some c ↔ s.blockGet k = some c ∧ ¬ DependsOn s k h :=
  ⟨hs.pops hE (rollback_ok hs.sound hn).1, rollback_kept hE.hashed hs.sound hn⟩

/-- With the weight assertion left out, the rollback of a stored block other than
the genesis block returns under every large enough budget. What is stored
afterwards is what was stored before and does not depend on the block. -/
theorem rollback_removes_future (hE : Proper E) (hs : Reachable E s) (hb : s.blockGet h = some b)
    (hg : b ≠ genesisBlock E) :
    ∃ s', Settles (fun n => rollback { E with weightAssert := false } n s h) s' ∧
      ∀ k c, s'.blockGet k = some c ↔ s.blockGet k = some c ∧ ¬ DependsOn s k h := by
  have hE' : Proper { E with weightAssert := false } := hE.configured E.now false
  have hh := (reachable_healthy hE hs).configured E.now false
  obtain ⟨s', hs'⟩ := (returns hE' rfl _).rollback s h b hh hb hg le_rfl
  obtain ⟨n, hn⟩ := hs'.exists_ok
  exact ⟨s', hs', (rollback_kept_iff hE' hh hn).2⟩

theorem rollback_removes_future_send : ∃ s s', Reachable smallNetwork s ∧
    s.blockGet send₁Hash = some send₁ ∧
    Settles (fun n => rollback { smallNetwork with weightAssert := false } n s send₁Hash) s' ∧
    ∀ k c, s'.blockGet k = some c ↔ s.blockGet k = some c ∧ ¬ DependsOn s k send₁Hash := by
  obtain ⟨s, hs, hb, _⟩ := exists_opened
  obtain ⟨s', hs'⟩ := rollback_removes_future smallNetwork_proper hs hb (by decide)
  exact ⟨s, s', hs, hb, hs'⟩

end PaperNode.RollbackFuture
