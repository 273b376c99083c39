import PaperNode.RollbackFuture
import PaperNode.VoteWeight

/-!
# Processing a block returns

`process` asserts what it expects of the tables: that frontiers and pending
sources belong to accounts, that the head of an account is its frontier, and that
weight is moved between accounts other than zero and is there to be moved. The
assertions on the tables hold in every ledger. The other two do not hold of every
block: nothing keeps a block from naming account zero as its representative, and
a receipt that draws from the wrong account leaves weights that are too small.
Where neither happens, every block is processed to the end.
-/
namespace PaperNode.ProcessReturns
open BoundedRecursion OrderedTable LinkedNodes TransitionRuns Blocks BlockStore LedgerQueries
open LedgerProcess BlockLattice QueryCorrectness ProcessSteps ChainInvariant IndexInvariant
open RollbackRuns LedgerRuns MoneyInvariant Representatives RollbackFuture VoteWeight

/-- What the visitors assert, in terms of the whole ledger. -/
structure Ready (E : Env) (s : Store) : Prop extends Healthy E s where
  cached : Cached s
  weights : ∀ R, (weight s R).toNat = delegated s R + inTransit s R

variable {E : Env} {s u : Store} {b c d : Block} {a : Account} {i k : AccountInfo}
  {p q x y : BlockHash} {r : Receivable} {v : Amount}

theorem reached_ready (hE : Proper E)
    (hs : Reached (Initial E) (Guarded (DrawsRight E) (Processed E)) s) : Ready E s := by
  have hp : Reached (Initial E) (Processed E) s := hs.mono (fun _ _ _ hstep => hstep.2)
  exact ⟨reachable_healthy hE (reached_reachable hp), reached_cached hp, guarded_weight hE hs⟩

section Tables

theorem frontier_account (hs : Healthy E s) (hf : s.frontierGet p ≠ 0) :
    ∃ i, s.accountGet (s.frontierGet p) = some i ∧ i.head = p ∧
      s.frontiers.get p = some (s.frontierGet p) := by
  unfold Store.frontierGet at *
  cases ha : s.frontiers.get p with
  | none =>
      rw [ha] at hf
      exact absurd rfl hf
  | some a =>
      obtain ⟨i, hi, hh⟩ := (hs.indexed.frontiers p a).mp ha
      exact ⟨i, hi, hh, rfl⟩

theorem head_frontierGet (hs : Healthy E s) (hi : s.accounts.get a = some i) :
    s.frontiers.get i.head = some a ∧ s.frontierGet i.head = a := by
  exact ⟨(hs.indexed.frontiers i.head a).mpr ⟨i, hi, rfl⟩, hs.indexed.frontierGet_head hi⟩

theorem pending_source (hs : Healthy E s) (hr : s.pending.get q = some r) :
    ∃ k, s.accounts.get r.source = some k := by
  obtain ⟨_, ho, _⟩ := hs.linked.pending q r hr
  obtain ⟨k, hk, _⟩ := exists_head hs.linked hs.indexed ho
  exact ⟨k, hk⟩

theorem previous_stored (hs : Healthy E s) (hi : s.accounts.get a = some i)
    (hb : b.previousLink = some i.head) : ∀ p, b.previousLink = some p → s.blockGet p ≠ none := by
  intro p hp
  cases hb.symm.trans hp
  exact (hs.linked.heads a i hi).1.stored

theorem pending_representative (hE : Proper E) (hs : Healthy E s) (hc : Cached s)
    (hr : s.pending.get q = some r) (hi : s.accounts.get a = some i) :
    ∃ c, s.blockGet i.repBlock = some c ∧ c.representative ≠ 0 := by
  obtain ⟨⟨t, ht, _⟩, _⟩ := hs.linked.pending q r hr
  obtain ⟨c, hd, hn⟩ := hc.stored hi
  exact ⟨c, hd, Representatives.representative_ne_zero hE hs.linked hs.represented ht
    (nomatch ·) hd hn⟩

theorem own_representative (hs : Healthy E s) (hc : Cached s) (hi : s.accounts.get a = some i)
    (ha : a ≠ 0) : ∃ c, s.blockGet i.repBlock = some c ∧ c.representative ≠ 0 := by
  obtain ⟨c, hd, hn⟩ := hc.stored hi
  refine ⟨c, hd, ?_⟩
  by_cases hg : c = genesisBlock E
  · -- The genesis block represents its own account, and this is its chain.
    subst hg
    have ho := (Owner.reach (Nearest.reach (hc a i hi))).mp (hs.linked.heads a i hi).1
    rw [← (owner_open hd).mp ho] at ha
    exact ha
  · exact hs.represented _ c hd hn hg

theorem Ready.account_weight (hs : Ready E s) (hi : s.accounts.get a = some i)
    (hc : s.blockGet i.repBlock = some c) :
    i.balance.toNat ≤ (weight s c.representative).toNat := by
  have hle := Table.le_total (fun _ i => backing s.blockGet c.representative i) hi
  rw [backing_eq hc, if_pos rfl] at hle
  rw [hs.weights]
  exact hle.trans (Nat.le_add_right _ _)

theorem Ready.pending_weight (hs : Ready E s) (hu : SenderUnchanged s b)
    (hq : b.sourceLink = some q) (hr : s.pending.get q = some r)
    (hk : s.accounts.get r.source = some k) (hc : s.blockGet k.repBlock = some c) :
    r.amount.toNat ≤ (weight s c.representative).toNat := by
  rcases hu q r hq hr with hz | hrep
  · rw [hz]
    exact Nat.zero_le _
  · have hcur : currentRepresentative s r.source = some c.representative := by
      unfold currentRepresentative
      rw [hk, Option.bind_some, hc, Option.map_some]
    have hle := Table.le_total (transit s.blockGet c.representative) hr
    unfold transit at hle
    rw [if_pos ((hrep _).mp hcur)] at hle
    rw [hs.weights]
    exact hle.trans (Nat.le_add_left _ _)

end Tables

section Movable

/-- Weight `v` can be moved from the representative that block `x` names to the one that `y`
names. -/
def Transfers (E : Env) (B : Lattice) (s : Store) (x y : BlockHash) (v : Amount) : Prop :=
  ∃ c d, B x = some c ∧ c.representative ≠ 0 ∧ B y = some d ∧ d.representative ≠ 0 ∧
    (E.weightAssert = true → v.toNat ≤ (weight s c.representative).toNat)

/-- The stored blocks once `b` is one of them. -/
def withBlock (E : Env) (s : Store) (b : Block) : Lattice :=
  Function.update s.blockGet (E.hash b) (some b)

/-- What `move_representation` asserts when a block gets that far. -/
def Movable (E : Env) (s : Store) : Block → Prop
  | .sendBlock _ => True
  | .receiveBlock c => ∀ r k i, s.pendingGet c.hashables.source = some r →
      s.accountGet r.source = some k → s.accountGet r.destination = some i →
      Transfers E (withBlock E s (.receiveBlock c)) s k.repBlock i.repBlock r.amount
  | .openBlock o => ∀ r k, s.pendingGet o.hashables.source = some r →
      s.accountGet r.source = some k →
      Transfers E (withBlock E s (.openBlock o)) s k.repBlock (E.hash (.openBlock o)) r.amount
  | .changeBlock c => ∀ i, s.accountGet (s.frontierGet c.hashables.previous) = some i →
      Transfers E (withBlock E s (.changeBlock c)) s i.repBlock (E.hash (.changeBlock c)) i.balance

theorem withBlock_self (E : Env) (s : Store) (b : Block) :
    withBlock E s b (E.hash b) = some b := Function.update_self ..

theorem withBlock_of_ne (h : x ≠ E.hash b) : withBlock E s b x = s.blockGet x :=
  Function.update_of_ne h ..

theorem within_withBlock (hn : s.blockExists (E.hash b) = false) :
    Within s.blockGet (withBlock E s b) :=
  within_insert (Store.blockExists_eq_false.mp hn)

/-- Accounts whose cached representative blocks are those of their chains ask for no more than
a representative other than zero, and weight where weight is asserted. -/
theorem Cached.movable (hE : Proper E) (hs : Healthy E s) (hc : Cached s) (hp : Passes E s b)
    (hn : NamesRepresentative b → b.representative ≠ 0)
    (hacc : E.weightAssert = true → ∀ a i c, s.accounts.get a = some i →
      s.blockGet i.repBlock = some c → i.balance.toNat ≤ (weight s c.representative).toNat)
    (hpend : E.weightAssert = true → ∀ q r k c, b.sourceLink = some q →
      s.pending.get q = some r → s.accounts.get r.source = some k →
      s.blockGet k.repBlock = some c → r.amount.toNat ≤ (weight s c.representative).toNat) :
    Movable E s b := by
  cases hp with
  | send => trivial
  | receive hnew _ _ _ _ _ =>
      intro r k i hr hk hi
      have hin := within_withBlock hnew
      obtain ⟨x, hx, hx₀⟩ := pending_representative hE hs hc hr hk
      obtain ⟨y, hy, hy₀⟩ := pending_representative hE hs hc hr hi
      exact ⟨x, y, hin _ _ hx, hx₀, hin _ _ hy, hy₀, fun hw => hpend hw _ r k x rfl hr hk hx⟩
  | @opened o _ hnew _ _ _ _ _ =>
      intro r k hr hk
      obtain ⟨x, hx, hx₀⟩ := pending_representative hE hs hc hr hk
      exact ⟨x, .openBlock o, within_withBlock hnew _ _ hx, hx₀, withBlock_self .., hn trivial,
        fun hw => hpend hw _ r k x rfl hr hk hx⟩
  | @change c hnew _ hf _ =>
      intro i hi
      obtain ⟨x, hx, hx₀⟩ := own_representative hs hc hi hf
      exact ⟨x, .changeBlock c, within_withBlock hnew _ _ hx, hx₀, withBlock_self .., hn trivial,
        fun hw => hacc hw _ i x hi hx⟩

theorem Ready.movable (hE : Proper E) (hs : Ready E s) (hp : Passes E s b)
    (hn : NamesRepresentative b → b.representative ≠ 0) (hu : SenderUnchanged s b) :
    Movable E s b := by
  refine Cached.movable hE hs.toHealthy hs.cached hp hn ?_ ?_
  · intro _ a i c hi hc
    exact hs.account_weight hi hc
  · intro _ q r k c hq hr hk hc
    exact hs.pending_weight hu hq hr hk hc

/-- An accepted block moved its weight. -/
theorem movable_of_accepted (hE : Proper E) (hs : Healthy E s) (ha : Accepted E s b u) :
    Movable E s b := by
  have hfunded := hs.funded.accepted hE.hashed hs.linked ha
  have hlinked := hs.linked.accepted ha
  obtain ⟨a, info, hl, hpost⟩ := ha
  have hB : u.blockGet = withBlock E s b := hl.blocks
  cases hpost with
  | send => trivial
  | receive hi hr hd hk _ _ _ hm =>
      intro r' k' i' hr' hk' hi'
      cases hr.symm.trans hr'
      cases hk.symm.trans hk'
      rw [hd] at hi'
      cases hi.symm.trans hi'
      obtain ⟨x, y, hx, hx₀, hy, hy₀, hw, _⟩ := hm
      rw [hB] at hx hy
      exact ⟨x, y, hx, hx₀, hy, hy₀, hw⟩
  | opened _ _ hr _ hk _ _ _ hm =>
      intro r' k' hr' hk'
      cases hr.symm.trans hr'
      cases hk.symm.trans hk'
      obtain ⟨x, y, hx, hx₀, hy, hy₀, hw, _⟩ := hm
      rw [hB] at hx hy
      exact ⟨x, y, hx, hx₀, hy, hy₀, hw⟩
  | change hj _ _ _ hbal hm =>
      intro i hi
      obtain ⟨k, hk, hh⟩ := hl.onHead _ rfl
      rw [← hh, hs.indexed.frontierGet_head hk] at hi
      cases hk.symm.trans hi
      cases hk.symm.trans hj
      have hv := (hs.funded.balances a _ hk).within hl.within
      rw [hh] at hv
      obtain ⟨x, y, hx, hx₀, hy, hy₀, hw, _⟩ := hm
      rw [hfunded.balance_toNat hE.hashed hlinked hv hbal] at hw
      rw [hB] at hx hy
      exact ⟨x, y, hx, hx₀, hy, hy₀, hw⟩

end Movable

section Updates

theorem exists_put (hn : ¬ s.blockExists (E.hash b) = true)
    (hp : ∀ p, b.previousLink = some p → s.blockGet p ≠ none) :
    ∃ t, s.blockPut E (E.hash b) b = .ok t ∧ Store.SameLedger s t ∧
      t.blockGet = withBlock E s b ∧ Within s.blockGet t.blockGet := by
  have hfresh := blockGet_of_not_exists hn
  obtain ⟨t, ht⟩ := Store.exists_blockPut E hfresh hp
  obtain ⟨hb, hl, _⟩ := Store.blockPut_ok ht hfresh
  refine ⟨t, ht, hl, hb, ?_⟩
  rw [hb]
  exact within_insert hfresh

theorem bottomed_insert (hE : Proper E) (hs : Linked E s) (b : Block) :
    Bottomed E (withBlock E s b) := by
  have hB := Linked.bottomed hE.hashed hs
  constructor
  · rw [withBlock_of_ne (hE.hash_ne_zero b).symm]
    exact hB.zero
  · rw [withBlock_of_ne (hE.hash_ne_genesis b).symm]
    exact hB.genesis

theorem head_balance_settles (hE : Proper E) (hs : Healthy E s) (hi : s.accounts.get a = some i)
    (b : Block) (hin : Within s.blockGet (withBlock E s b)) :
    Settles (fun n => balance E (withBlock E s b) n i.head) i.balance := by
  have hset := balance_settles (bottomed_insert hE hs.linked b)
    ((hs.funded.balances a i hi).within hin)
  rwa [BitVec.ofNat_toNat, BitVec.setWidth_eq] at hset

theorem exists_latest (hE : Proper E) (hs : Summed s) (b : Block) (a : Account) (x : BlockHash)
    (v : Amount) : ∃ u, changeLatest E s a (E.hash b) x v = .ok u ∧ u.blockGet = s.blockGet ∧
      u.frontiers = s.frontiers ∧ ∀ R, weight u R = weight s R := by
  have hsome : (s.checksum.get 0).isSome := by
    rw [hs]
    rfl
  obtain ⟨u, hu⟩ := exists_changeLatest E a x v hsome (fun h₀ => absurd h₀ (hE.hash_ne_zero b))
  obtain ⟨m, c, n, rfl, _⟩ := changeLatest_ok hu
  exact ⟨_, hu, rfl, rfl, fun _ => rfl⟩

theorem exists_move (hm : Transfers E u.blockGet s x y v) (hw : ∀ R, weight u R = weight s R) :
    ∃ t, moveRepresentation E u x y v = .ok t ∧ t.frontiers = u.frontiers ∧
      (Summed u → Summed t) := by
  obtain ⟨c, d, hx, hc, hy, hd, hle⟩ := hm
  rw [← hw] at hle
  exact ⟨_, moveRepresentation_eq_ok.mpr ⟨c, d, hx, hc, hy, hd, hle, rfl⟩, rfl, id⟩

theorem exists_collect (hE : Proper E) (hs : Healthy E s)
    (hn : ¬ s.blockExists (E.hash b) = true)
    (hp : ∀ p, b.previousLink = some p → s.blockGet p ≠ none) (hr : s.pending.get q = some r)
    (hm : Transfers E (withBlock E s b) s x y r.amount) (v : Amount) :
    ∃ s₁ s₂ s₃ s₄, s.pendingDel q = .ok s₁ ∧ s₁.blockPut E (E.hash b) b = .ok s₂ ∧
      changeLatest E s₂ r.destination (E.hash b) y v = .ok s₃ ∧
      moveRepresentation E s₃ x y r.amount = .ok s₄ ∧ s₄.frontiers = s.frontiers := by
  have hdel : s.pendingDel q = .ok { s with pending := s.pending.del q } :=
    pendingDel_eq_ok.mpr ⟨Option.isSome_iff_exists.mpr ⟨r, hr⟩, rfl⟩
  obtain ⟨s₂, hs₂, hl, hb, _⟩ := exists_put (s := { s with pending := s.pending.del q }) hn hp
  obtain ⟨s₃, hs₃, hb₃, hf₃, hw₃⟩ :=
    exists_latest hE (summed_of_same hl hs.summed) b r.destination y v
  have hB : s₃.blockGet = withBlock E s b := hb₃.trans hb
  rw [← hB] at hm
  have hweight : ∀ R, weight s₃ R = weight s R := fun R => (hw₃ R).trans (weight_eq_of_same hl R)
  obtain ⟨s₄, hs₄, hf₄, _⟩ := exists_move hm hweight
  exact ⟨_, s₂, s₃, s₄, hdel, hs₂, hs₃, hs₄, hf₄.trans (hf₃.trans hl.frontiers)⟩

end Updates

section Visitors

theorem sendBlock_completes (hE : Proper E) (hs : Healthy E s) (t : SendBlock) :
    Completes (fun _ => sendBlock E s t) := by
  unfold sendBlock
  refine .ite (fun _ => .of_ok (fun _ => rfl)) (fun h₁ => ?_)
  refine .ite (fun _ => .of_ok (fun _ => rfl)) (fun _ => ?_)
  refine .ite (fun _ => .of_ok (fun _ => rfl)) (fun h₂ => ?_)
  refine .ite (fun _ => .of_ok (fun _ => rfl)) (fun _ => ?_)
  obtain ⟨i, hi, hh, hf⟩ := frontier_account hs h₂
  refine .bind_ok (demand_eq_ok.mpr hi) (.bind_ok (require_of hh _) ?_)
  refine .ite (fun _ => .of_ok (fun _ => rfl)) (fun _ => ?_)
  obtain ⟨w, hw, hl, _⟩ :=
    exists_put (b := .sendBlock t) h₁ (previous_stored hs hi (congrArg some hh.symm))
  obtain ⟨u, hu, _, hfu, _⟩ := exists_latest hE (summed_of_same hl hs.summed) (.sendBlock t)
    (s.frontierGet t.hashables.previous) i.repBlock t.hashables.balance
  rw [← hl.frontiers, ← hfu] at hf
  exact .bind_ok hw (.bind_ok hu (.bind_ok (frontierDel_of_get hf) (.of_ok (fun _ => rfl))))

theorem changeBlock_completes (hE : Proper E) (hs : Healthy E s) (c : ChangeBlock)
    (hc : Passes E s (.changeBlock c) → Movable E s (.changeBlock c)) :
    Completes (fun n => changeBlock E n s c) := by
  unfold changeBlock
  refine .ite (fun _ => .of_ok (fun _ => rfl)) (fun h₁ => ?_)
  refine .ite (fun _ => .of_ok (fun _ => rfl)) (fun h₂ => ?_)
  refine .ite (fun _ => .of_ok (fun _ => rfl)) (fun h₃ => ?_)
  obtain ⟨i, hi, hh, hf⟩ := frontier_account hs h₃
  refine .bind_ok (demand_eq_ok.mpr hi) (.bind_ok (require_of hh _) ?_)
  refine .ite (fun _ => .of_ok (fun _ => rfl)) (fun h₄ => ?_)
  have hm := hc (.change (by simpa using h₁) (by simpa using h₂) h₃ (by simpa using h₄)) i hi
  obtain ⟨w, hw, hl, hb, hin⟩ :=
    exists_put (b := .changeBlock c) h₁ (previous_stored hs hi (congrArg some hh.symm))
  have hbal := head_balance_settles hE hs hi (.changeBlock c) (hb ▸ hin)
  rw [hh, ← hb] at hbal
  rw [← hb] at hm
  obtain ⟨x, hx, hfx, hsx⟩ := exists_move hm (weight_eq_of_same hl)
  obtain ⟨u, hu, _, hfu, _⟩ := exists_latest hE (hsx (summed_of_same hl hs.summed))
    (.changeBlock c) (s.frontierGet c.hashables.previous) (E.hash (.changeBlock c)) i.balance
  rw [← hl.frontiers, ← hfx, ← hfu] at hf
  exact .bind_ok hw (.bind hbal (.bind_ok hx (.bind_ok hu
    (.bind_ok (frontierDel_of_get hf) (.of_ok (fun _ => rfl))))))

theorem receiveBlock_completes (hE : Proper E) (hs : Healthy E s) (c : ReceiveBlock)
    (hc : Passes E s (.receiveBlock c) → Movable E s (.receiveBlock c)) :
    Completes (fun _ => receiveBlock E s c) := by
  unfold receiveBlock
  refine .ite (fun _ => .of_ok (fun _ => rfl)) (fun h₁ => ?_)
  refine .ite (fun _ => .of_ok (fun _ => rfl)) (fun h₂ => ?_)
  cases hr : s.pendingGet c.hashables.source with
  | none => exact .of_ok (fun _ => rfl)
  | some r =>
  refine .ite (fun _ => .of_ok (fun _ => rfl)) (fun h₃ => ?_)
  cases hi : s.accountGet r.destination with
  | none => exact .of_ok (fun _ => rfl)
  | some i =>
  refine .ite (fun hh => ?_) (fun _ => .ite (fun _ => .of_ok (fun _ => rfl))
    (fun _ => .of_ok (fun _ => rfl)))
  obtain ⟨k, hk⟩ := pending_source hs hr
  have hm := hc (.receive (by simpa using h₁) (by simpa using h₂) hr (by simpa using h₃) hi hh)
    r k i hr hk hi
  have hprev := previous_stored (b := .receiveBlock c) hs hi (congrArg some hh.symm)
  obtain ⟨hf, hfg⟩ := head_frontierGet hs hi
  rw [hh] at hf hfg
  obtain ⟨s₁, s₂, s₃, s₄, hs₁, hs₂, hs₃, hs₄, hf₄⟩ :=
    exists_collect hE hs h₁ hprev hr hm (i.balance + r.amount)
  rw [← hf₄] at hf
  exact .bind_ok (require_of hfg _) (.bind_ok (demand_eq_ok.mpr hk) (.bind_ok hs₁ (.bind_ok hs₂
    (.bind_ok hs₃ (.bind_ok hs₄ (.bind_ok (frontierDel_of_get hf) (.of_ok (fun _ => rfl))))))))

theorem openBlock_completes (hE : Proper E) (hs : Healthy E s) (o : OpenBlock)
    (hc : Passes E s (.openBlock o) → Movable E s (.openBlock o)) :
    Completes (fun _ => openBlock E s o) := by
  unfold openBlock
  refine .ite (fun _ => .of_ok (fun _ => rfl)) (fun h₁ => ?_)
  refine .ite (fun _ => .of_ok (fun _ => rfl)) (fun h₂ => ?_)
  cases hr : s.pendingGet o.hashables.source with
  | none => exact .of_ok (fun _ => rfl)
  | some r =>
  refine .ite (fun _ => .of_ok (fun _ => rfl)) (fun h₃ => ?_)
  refine .ite (fun _ => .of_ok (fun _ => rfl)) (fun h₄ => ?_)
  cases hi : s.accountGet r.destination with
  | some i => exact .of_ok (fun _ => rfl)
  | none =>
  obtain ⟨k, hk⟩ := pending_source hs hr
  have hm := hc (.opened (by simpa using h₁) (by simpa using h₂) hr (not_not.mp h₃)
    (by simpa using h₄) hi) r k hr hk
  obtain ⟨s₁, s₂, s₃, s₄, hs₁, hs₂, hs₃, hs₄, _⟩ :=
    exists_collect (b := .openBlock o) hE hs h₁ (fun _ hp => nomatch hp) hr hm r.amount
  exact .bind_ok (demand_eq_ok.mpr hk) (.bind_ok hs₁ (.bind_ok hs₂ (.bind_ok hs₃
    (.bind_ok hs₄ (.of_ok (fun _ => rfl))))))

end Visitors

theorem Movable.completes (hE : Proper E) (hs : Healthy E s)
    (hb : Passes E s b → Movable E s b) : Completes (fun n => process E n s b) := by
  cases b with
  | sendBlock t => exact sendBlock_completes hE hs t
  | receiveBlock c => exact receiveBlock_completes hE hs c hb
  | openBlock o => exact openBlock_completes hE hs o hb
  | changeBlock c => exact changeBlock_completes hE hs c hb

/-- In every run of `process` calls whose accepted receive and open blocks find
the sender with the representative it had as of the send, a further block is
processed to the end, with every assertion true, if in case it passes the checks
it does not name account zero and finds its sender unchanged too. -/
theorem process_completes (hE : Proper E)
    (hs : Reached (Initial E) (Guarded (DrawsRight E) (Processed E)) s) (b : Block)
    (hb : Passes E s b →
      (NamesRepresentative b → b.representative ≠ 0) ∧ SenderUnchanged s b) :
    Completes (fun n => process E n s b) := by
  have hr := reached_ready hE hs
  refine Movable.completes hE hr.toHealthy ?_
  intro hp
  exact hr.movable hE hp (hb hp).1 (hb hp).2

theorem process_completes_open : ∃ s, Reached (Initial smallNetwork)
    (Guarded (DrawsRight smallNetwork) (Processed smallNetwork)) s ∧
    SenderUnchanged s open₁ ∧ Completes (fun n => process smallNetwork n s open₁) := by
  obtain ⟨s, s', hs, hu, _⟩ := exists_guarded_open
  refine ⟨s, hs, hu, process_completes smallNetwork_proper hs open₁ (fun _ => ⟨fun _ => ?_, hu⟩)⟩
  decide

/-- More budget never changes what `process` returns. -/
theorem process_steady (E : Env) (s : Store) (b : Block) : Steady (fun n => process E n s b) := by
  cases b with
  | sendBlock | receiveBlock | openBlock => exact fun _ _ h => h
  | changeBlock c =>
      intro n r h
      change changeBlock E n s c = .ok r at h
      change changeBlock E (n + 1) s c = .ok r
      unfold changeBlock at h ⊢
      refine ite_ok_mono (fun h => h) (fun h => ?_) h
      refine ite_ok_mono (fun h => h) (fun h => ?_) h
      refine ite_ok_mono (fun h => h) (fun h => ?_) h
      refine bind_ok_mono (fun _ h => h) (fun i h => ?_) h
      refine bind_ok_mono (fun _ h => h) (fun _ h => ?_) h
      refine ite_ok_mono (fun h => h) (fun h => ?_) h
      refine bind_ok_mono (fun _ h => h) (fun w h => ?_) h
      exact bind_ok_mono ((balance_amount_steady E w.blockGet n).1 _ 0) (fun _ h => h) h

/-- A block that fits on top of the chain of its signer, does not overspend and opens no account
twice passes the checks. -/
theorem passes_of_fits (hE : Proper E) (hs : Healthy E s) (hf : Fits E s.blockGet b a)
    (hv : E.validateMessage a (E.hash b) b.signature = false)
    (hcov : ∀ t, b = .sendBlock t → ∃ w, Replay E s.blockGet t.hashables.previous w ∧
      t.hashables.balance.toNat ≤ w)
    (hunop : ∀ o, b = .openBlock o → ∀ k, ¬ Owner s.blockGet k a) : Passes E s b := by
  obtain ⟨hfresh, htop, hacc, hsrc⟩ := hf
  have hnew := Store.blockExists_eq_false.mpr hfresh
  have ha := hE.signer_ne_zero hv
  have stored : ∀ {k}, Owner s.blockGet k a → s.blockExists k = true := by
    intro k hk
    exact Store.blockExists_iff.mpr (Option.ne_none_iff_exists'.mp hk.stored)
  cases b with
  | sendBlock t =>
      obtain ⟨ho, ht⟩ := htop _ rfl
      obtain ⟨i, hi, hh, hf⟩ := hs.top_account ho ht
      obtain ⟨w, hw, hle⟩ := hcov t rfl
      have hbal := hs.funded.balances a i hi
      rw [hh] at hbal
      rw [hw.unique hbal] at hle
      rw [← hf] at ha hv hi
      exact .send hnew (stored ho) ha hv hi hle
  | changeBlock c =>
      obtain ⟨ho, ht⟩ := htop _ rfl
      obtain ⟨i, hi, hh, hf⟩ := hs.top_account ho ht
      rw [← hf] at ha hv
      exact .change hnew (stored ho) ha hv
  | receiveBlock c =>
      obtain ⟨ho, ht⟩ := htop _ rfl
      obtain ⟨i, hi, hh, _⟩ := hs.top_account ho ht
      obtain ⟨⟨t, hsend, hd⟩, hq⟩ := hsrc _ rfl
      obtain ⟨hx, r, hr, rfl⟩ := hs.pending_send hsend hd hq
      exact .receive hnew hx hr hv hi hh
  | openBlock o =>
      obtain ⟨⟨t, hsend, hd⟩, hq⟩ := hsrc _ rfl
      obtain ⟨hx, r, hr, rfl⟩ := hs.pending_send hsend hd hq
      refine .opened hnew hx hr (hacc o rfl).symm hv ?_
      by_contra hne
      obtain ⟨i, hi⟩ := Option.ne_none_iff_exists'.mp hne
      exact hunop o rfl i.head (hs.linked.heads _ i hi).1

/-- A block that passes the checks is not rejected: it makes progress or an
assertion stops it. -/
theorem passes_progress {fuel : ℕ} {ret : ProcessReturn} (hp : Passes E s b)
    (h : process E fuel s b = .ok (ret, u)) : ret.code = .progress := by
  cases hp with
  | send h₁ h₂ h₃ h₄ hi hle =>
      change sendBlock E s _ = _ at h
      unfold sendBlock at h
      simp only [h₁, h₂, h₃, h₄, hi, if_false, Bool.not_true, Bool.false_eq_true] at h
      obtain ⟨_, hj, h⟩ := bind_eq_ok.mp h
      cases demand_eq_ok.mp hj
      obtain ⟨_, _, h⟩ := bind_eq_ok.mp h
      rw [if_neg (Nat.not_lt.mpr hle)] at h
      obtain ⟨_, _, h⟩ := bind_eq_ok.mp h
      obtain ⟨_, _, h⟩ := bind_eq_ok.mp h
      obtain ⟨_, _, h⟩ := bind_eq_ok.mp h
      cases h
      rfl
  | receive h₁ h₂ hr h₃ hi hh =>
      change receiveBlock E s _ = _ at h
      unfold receiveBlock at h
      simp only [h₁, h₂, hr, h₃, hi, hh, if_false, if_true, Bool.not_true,
        Bool.false_eq_true] at h
      obtain ⟨_, _, h⟩ := bind_eq_ok.mp h
      obtain ⟨_, _, h⟩ := bind_eq_ok.mp h
      obtain ⟨_, _, h⟩ := bind_eq_ok.mp h
      obtain ⟨_, _, h⟩ := bind_eq_ok.mp h
      obtain ⟨_, _, h⟩ := bind_eq_ok.mp h
      obtain ⟨_, _, h⟩ := bind_eq_ok.mp h
      obtain ⟨_, _, h⟩ := bind_eq_ok.mp h
      cases h
      rfl
  | opened h₁ h₂ hr hd h₃ hi =>
      change openBlock E s _ = _ at h
      unfold openBlock at h
      simp only [h₁, h₂, hr, not_not.mpr hd, h₃, hi, if_false, Bool.not_true,
        Bool.false_eq_true] at h
      obtain ⟨_, _, h⟩ := bind_eq_ok.mp h
      obtain ⟨_, _, h⟩ := bind_eq_ok.mp h
      obtain ⟨_, _, h⟩ := bind_eq_ok.mp h
      obtain ⟨_, _, h⟩ := bind_eq_ok.mp h
      obtain ⟨_, _, h⟩ := bind_eq_ok.mp h
      cases h
      rfl
  | change h₁ h₂ h₃ h₄ =>
      change changeBlock E fuel s _ = _ at h
      unfold changeBlock at h
      simp only [h₁, h₂, h₃, h₄, if_false, Bool.not_true, Bool.false_eq_true] at h
      obtain ⟨_, _, h⟩ := bind_eq_ok.mp h
      obtain ⟨_, _, h⟩ := bind_eq_ok.mp h
      obtain ⟨_, _, h⟩ := bind_eq_ok.mp h
      obtain ⟨_, _, h⟩ := bind_eq_ok.mp h
      obtain ⟨_, _, h⟩ := bind_eq_ok.mp h
      obtain ⟨_, _, h⟩ := bind_eq_ok.mp h
      obtain ⟨_, _, h⟩ := bind_eq_ok.mp h
      cases h
      rfl

/-- A block that passes the checks and names account zero is never processed to
the end: the assertion on the new representative stops it. -/
theorem zero_representative_aborts {fuel : ℕ} {ret : ProcessReturn} (hp : Passes E s b)
    (hn : NamesRepresentative b) (h₀ : b.representative = 0) :
    process E fuel s b ≠ .ok (ret, u) := by
  intro h
  rcases process_ok h with ⟨hcode, _⟩ | ⟨_, ha⟩
  · exact hcode (passes_progress hp h)
  · exact accepted_representative ha hn h₀

theorem passes_change {c : ChangeBlock} {h : BlockHash} (hh : E.hash (.changeBlock c) = h)
    (hnew : s.blockExists h = false) (hprev : s.blockExists c.hashables.previous = true)
    (hfront : s.frontierGet c.hashables.previous = a) (ha : a ≠ 0)
    (hv : E.validateMessage a h c.signature = false) : Passes E s (.changeBlock c) := by
  subst hh hfront
  exact .change hnew hprev ha hv

/-- The genesis account signs a change block that names account zero. -/
theorem change_to_zero_aborts : ¬ ∀ E s b, Proper E → Reached (Initial E) (Processed E) s →
    Completes (fun n => process E n s b) := by
  intro hall
  have hrun : accepts smallNetwork 20 [] (fun s =>
      !s.blockExists change₀Hash && s.blockExists testGenesisHash &&
      decide (s.frontierGet testGenesisHash = paperTestAccount)) = true := by
    decide +kernel
  obtain ⟨s₀, s, h₀, hs, ht⟩ := exists_of_accepts hrun
  simp only [Bool.and_eq_true, Bool.not_eq_true', decide_eq_true_eq] at ht
  obtain ⟨⟨hnew, hprev⟩, hfront⟩ := ht
  have hpass : Passes smallNetwork s change₀ :=
    passes_change (h := change₀Hash) (by decide +kernel) hnew hprev hfront (by decide)
      (by decide +kernel)
  have hproc := progressed_reached h₀ hs
  obtain ⟨⟨ret, u⟩, hc⟩ := hall smallNetwork s change₀ smallNetwork_proper hproc
  obtain ⟨n, hn⟩ := hc.exists_ok
  exact zero_representative_aborts hpass trivial rfl hn

/-- A change block of an account whose representative has less weight than the
account has money is never processed to the end either. -/
theorem light_representative_aborts {fuel : ℕ} {ret : ProcessReturn} {c : ChangeBlock}
    (hE : Proper E) (hs : Healthy E s) (hw : E.weightAssert = true)
    (hp : Passes E s (.changeBlock c))
    (hi : s.accountGet (s.frontierGet c.hashables.previous) = some i)
    (hd : s.blockGet i.repBlock = some d)
    (hlt : (weight s d.representative).toNat < i.balance.toNat) :
    process E fuel s (.changeBlock c) ≠ .ok (ret, u) := by
  intro h
  rcases process_ok h with ⟨hcode, _⟩ | ⟨_, ha⟩
  · exact hcode (passes_progress hp h)
  · have hf := hs.funded.accepted hE.hashed hs.linked ha
    have hlinked := hs.linked.accepted ha
    obtain ⟨a, info, hl, hpost⟩ := ha
    have hin := hl.within
    obtain ⟨k, hk, hh⟩ := hl.onHead _ rfl
    rw [← hh, hs.indexed.frontierGet_head hk] at hi
    cases hi.symm.trans hk
    have hv := (hs.funded.balances a i hk).within hin
    rw [hh] at hv
    cases hpost with
    | change hj _ _ _ hbal hm =>
        cases hk.symm.trans hj
        obtain ⟨y, z, hy, _, _, _, hle, _⟩ := hm
        cases (hin _ _ hd).symm.trans hy
        have hbound := hle hw
        rw [hf.balance_toNat hE.hashed hlinked hv hbal] at hbound
        omega

/-- After a receipt that drew from the wrong representative, the sender cannot
change its representative any more. -/
theorem late_receipt_stops_change : ∃ s, Reached (Initial smallNetwork) (Processed smallNetwork) s ∧
    Passes smallNetwork s change₂ ∧ ¬ Completes (fun n => process smallNetwork n s change₂) := by
  have hrun : accepts smallNetwork 20 [send₁, change₁, open₁] (fun s =>
      !s.blockExists change₂Hash && s.blockExists change₁Hash &&
      decide (s.frontierGet change₁Hash = paperTestAccount) &&
      (s.accounts.get paperTestAccount).any (fun i =>
        decide (s.blockGet i.repBlock = some change₁) &&
        decide ((weight s secondAccount).toNat < i.balance.toNat))) = true := by
    decide +kernel
  obtain ⟨s₀, s, h₀, hs, ht⟩ := exists_of_accepts hrun
  simp only [Bool.and_eq_true, Bool.not_eq_true', decide_eq_true_eq, Option.any_eq_true] at ht
  obtain ⟨⟨⟨hnew, hprev⟩, hfront⟩, i, hi, hrep, hlt⟩ := ht
  have hproc := progressed_reached h₀ hs
  have hpass : Passes smallNetwork s change₂ :=
    passes_change (h := change₂Hash) (by decide +kernel) hnew hprev hfront (by decide)
      (by decide +kernel)
  refine ⟨s, hproc, hpass, ?_⟩
  intro hc
  obtain ⟨⟨ret, u⟩, hc⟩ := hc
  obtain ⟨n, hn⟩ := hc.exists_ok
  have hhealthy := reachable_healthy smallNetwork_proper (reached_reachable hproc)
  rw [← hfront] at hi
  exact light_representative_aborts smallNetwork_proper hhealthy rfl hpass hi hrep hlt hn

end PaperNode.ProcessReturns
