import PaperNode.BlockLattice

/-!
# What processing a block does

A call of `ledger.process` that returns either leaves the store as it was and
says why, or places the block at the head of one account. Everything later
about processing is derived from the theorem `process_ok`; the four visitors are
taken apart here and nowhere else.

`Placed` is what all four block types share: the block is new, its signature is
good for the account, it extends the account's head, and the account, frontier
and checksum follow. `Posted` is what differs: the money, the pending entry and
the vote weight.
-/
namespace PaperNode.ProcessSteps
open BoundedRecursion OrderedTable LinkedNodes Blocks BlockStore LedgerQueries LedgerProcess
open BlockLattice

/-- Block `b` became the head of account `a`, whose record is now `info`. -/
structure Placed (E : Env) (s : Store) (b : Block) (a : Account) (info : AccountInfo)
    (s' : Store) : Prop where
  fresh : s.blockGet (E.hash b) = none
  valid : E.validateMessage a (E.hash b) b.signature = false
  onHead : ∀ p, b.previousLink = some p → ∃ i, s.accounts.get a = some i ∧ i.head = p
  blocks : s'.blockGet = Function.update s.blockGet (E.hash b) (some b)
  exclusive : s.Exclusive → s'.Exclusive
  head : info.head = E.hash b
  accounts : s'.accounts = latestTable s.accounts a info
  frontiers : s'.frontiers = (b.previousLink.elim s.frontiers s.frontiers.del).put (E.hash b) a
  summed : Summed s → Summed s'

/-- Weight `v` moved from the representative named by block `x` of the lattice
to the one named by block `y`. -/
def Moved (E : Env) (B : Lattice) (s s' : Store) (x y : BlockHash) (v : Amount) : Prop :=
  ∃ b c, B x = some b ∧ b.representative ≠ 0 ∧ B y = some c ∧ c.representative ≠ 0 ∧
    (E.weightAssert = true → v.toNat ≤ (weight s b.representative).toNat) ∧
    s'.representation = shiftWeight s.representation b.representative c.representative v

/-- How each block type posts to the account, the pending table and the weights. -/
inductive Posted (E : Env) (s : Store) (a : Account) (info : AccountInfo) (s' : Store) :
    Block → Prop
  | send {t : SendBlock} {i : AccountInfo} :
      s.accounts.get a = some i → t.hashables.balance.toNat ≤ i.balance.toNat →
      info.repBlock = i.repBlock → info.balance = t.hashables.balance →
      s'.pending = s.pending.put (E.hash (.sendBlock t))
        ⟨a, i.balance - t.hashables.balance, t.hashables.destination⟩ →
      s'.representation = s.representation → Posted E s a info s' (.sendBlock t)
  | receive {c : ReceiveBlock} {i k : AccountInfo} {r : Receivable} :
      s.accounts.get a = some i → s.pending.get c.hashables.source = some r →
      r.destination = a → s.accounts.get r.source = some k →
      info.repBlock = i.repBlock → info.balance = i.balance + r.amount →
      s'.pending = s.pending.del c.hashables.source →
      Moved E s'.blockGet s s' k.repBlock i.repBlock r.amount →
      Posted E s a info s' (.receiveBlock c)
  | opened {o : OpenBlock} {k : AccountInfo} {r : Receivable} :
      s.accounts.get a = none → o.hashables.account = a →
      s.pending.get o.hashables.source = some r → r.destination = a →
      s.accounts.get r.source = some k →
      info.repBlock = E.hash (.openBlock o) → info.balance = r.amount →
      s'.pending = s.pending.del o.hashables.source →
      Moved E s'.blockGet s s' k.repBlock (E.hash (.openBlock o)) r.amount →
      Posted E s a info s' (.openBlock o)
  | change {c : ChangeBlock} {i : AccountInfo} {v : Amount} {fuel : ℕ} :
      s.accounts.get a = some i → info.repBlock = E.hash (.changeBlock c) →
      info.balance = i.balance → s'.pending = s.pending →
      balance E s'.blockGet fuel c.hashables.previous = .ok v →
      Moved E s'.blockGet s s' i.repBlock (E.hash (.changeBlock c)) v →
      Posted E s a info s' (.changeBlock c)

/-- A block was processed with result `progress`. -/
def Accepted (E : Env) (s : Store) (b : Block) (s' : Store) : Prop :=
  ∃ a info, Placed E s b a info s' ∧ Posted E s a info s' b

variable {E : Env} {s s' : Store} {fuel : ℕ} {ret : ProcessReturn}

section Placed
variable {b : Block} {a : Account} {info : AccountInfo}

theorem Placed.within (hl : Placed E s b a info s') : Within s.blockGet s'.blockGet := by
  rw [hl.blocks]
  exact within_insert hl.fresh

theorem Placed.stored (hl : Placed E s b a info s') : s'.blockGet (E.hash b) = some b := by
  rw [hl.blocks, Function.update_self]

theorem Placed.other (hl : Placed E s b a info s') {h : BlockHash} (hh : h ≠ E.hash b) :
    s'.blockGet h = s.blockGet h := by
  rw [hl.blocks, Function.update_of_ne hh]

end Placed

def Outcome (E : Env) (s : Store) (b : Block) (ret : ProcessReturn) (s' : Store) : Prop :=
  (ret.code ≠ .progress ∧ s' = s) ∨ (ret.code = .progress ∧ Accepted E s b s')

theorem outcome_reject {b : Block} {code : ProcessResult} (hc : code ≠ .progress)
    (h : reject s code = .ok (ret, s')) : Outcome E s b ret s' := by
  cases h
  exact Or.inl ⟨hc, rfl⟩

theorem blockGet_of_not_exists {h : BlockHash} (hn : ¬ s.blockExists h = true) :
    s.blockGet h = none :=
  Store.blockExists_eq_false.mp (Bool.eq_false_iff.mpr hn)

theorem weight_congr (h : s'.representation = s.representation) (a : Account) :
    weight s' a = weight s a := by
  unfold weight Store.representationGet
  rw [h]

theorem weight_eq_of_same (hl : Store.SameLedger s s') (a : Account) :
    weight s' a = weight s a :=
  weight_congr hl.representation a

theorem moved_of_same {B : Lattice} {t : Store} {x y : BlockHash} {v : Amount} {bx cx : Block}
    (hl : t.representation = s.representation) (hbx : B x = some bx)
    (hbx₀ : bx.representative ≠ 0) (hcx : B y = some cx) (hcx₀ : cx.representative ≠ 0)
    (hle : E.weightAssert = true → v.toNat ≤ (weight t bx.representative).toNat)
    (hs' : s'.representation = shiftWeight t.representation bx.representative cx.representative v) :
    Moved E B s s' x y v := by
  rw [weight_congr hl] at hle
  rw [hl] at hs'
  exact ⟨bx, cx, hbx, hbx₀, hcx, hcx₀, hle, hs'⟩

theorem summed_of_same (hl : Store.SameLedger s s') (h : Summed s) : Summed s' := by
  unfold Summed
  rw [hl.checksum, hl.accounts]
  exact h

/-- The block was put into the store, and the account, its frontier and the checksum were written
after it, with whatever is posted to the other tables. -/
theorem placed_of_put {b : Block} {a : Account} {info : AccountInfo} {t : Store}
    {c : Table Word64 BlockHash} {n : ℕ} {p : Table BlockHash Receivable}
    {r : Table Account Amount}
    (fresh : s.blockGet (E.hash b) = none)
    (valid : ¬ E.validateMessage a (E.hash b) b.signature = true)
    (onHead : ∀ p, b.previousLink = some p → ∃ i, s.accounts.get a = some i ∧ i.head = p)
    (hb : t.blockGet = Function.update s.blockGet (E.hash b) (some b))
    (hx : s.Exclusive → t.Exclusive) (haccounts : t.accounts = s.accounts)
    (hfrontiers : t.frontiers = s.frontiers) (hsame : Summed s → Summed t)
    (head : info.head = E.hash b)
    (hsum : Summed t →
      Summed { t with accounts := latestTable t.accounts a info, checksum := c, clock := n })
    (hs' : s' = { t with
      accounts := latestTable t.accounts a info
      checksum := c
      clock := n
      frontiers := (b.previousLink.elim t.frontiers t.frontiers.del).put (E.hash b) a
      pending := p
      representation := r }) : Placed E s b a info s' := by
  subst hs'
  exact
    { fresh := fresh
      valid := Bool.eq_false_iff.mpr valid
      onHead := onHead
      blocks := hb
      exclusive := hx
      head := head
      accounts := congrArg (fun x => latestTable x _ _) haccounts
      frontiers := by rw [← hfrontiers]
      summed := fun h => hsum (hsame h) }

theorem sendBlock_ok {b : SendBlock} (h : sendBlock E s b = .ok (ret, s')) :
    Outcome E s (.sendBlock b) ret s' := by
  unfold sendBlock at h
  rcases ite_eq_ok.mp h with ⟨_, h⟩ | ⟨h₁, h⟩
  · exact outcome_reject (by decide) h
  rcases ite_eq_ok.mp h with ⟨_, h⟩ | ⟨_, h⟩
  · exact outcome_reject (by decide) h
  rcases ite_eq_ok.mp h with ⟨_, h⟩ | ⟨_, h⟩
  · exact outcome_reject (by decide) h
  rcases ite_eq_ok.mp h with ⟨_, h⟩ | ⟨h₂, h⟩
  · exact outcome_reject (by decide) h
  obtain ⟨i, hi, h⟩ := bind_eq_ok.mp h
  obtain ⟨_, hp, h⟩ := bind_eq_ok.mp h
  have hi : s.accounts.get _ = some i := demand_eq_ok.mp hi
  have hp := require_eq_ok.mp hp
  rcases ite_eq_ok.mp h with ⟨_, h⟩ | ⟨h₃, h⟩
  · exact outcome_reject (by decide) h
  obtain ⟨t, ht, h⟩ := bind_eq_ok.mp h
  obtain ⟨u, hu, h⟩ := bind_eq_ok.mp h
  obtain ⟨w, hw, h⟩ := bind_eq_ok.mp h
  cases h
  have fresh := blockGet_of_not_exists h₁
  obtain ⟨hb, hl, hx⟩ := Store.blockPut_ok ht fresh
  obtain ⟨m, c, n, rfl, hsum⟩ := changeLatest_ok hu
  obtain ⟨_, rfl⟩ := frontierDel_eq_ok.mp hw
  refine Or.inr ⟨rfl, s.frontierGet b.hashables.previous,
    ⟨E.hash (.sendBlock b), i.repBlock, b.hashables.balance, m⟩, ?_, ?_⟩
  · refine placed_of_put fresh h₂ ?_ hb hx hl.accounts hl.frontiers
      (fun h₀ => summed_of_same hl h₀) rfl hsum rfl
    intro p hbp
    cases hbp
    exact ⟨i, hi, hp⟩
  · refine .send hi (Nat.le_of_not_lt h₃) rfl rfl ?_ hl.representation
    rw [← hl.pending]
    rfl

theorem changeBlock_ok {b : ChangeBlock} (h : changeBlock E fuel s b = .ok (ret, s')) :
    Outcome E s (.changeBlock b) ret s' := by
  unfold changeBlock at h
  rcases ite_eq_ok.mp h with ⟨_, h⟩ | ⟨h₁, h⟩
  · exact outcome_reject (by decide) h
  rcases ite_eq_ok.mp h with ⟨_, h⟩ | ⟨_, h⟩
  · exact outcome_reject (by decide) h
  rcases ite_eq_ok.mp h with ⟨_, h⟩ | ⟨_, h⟩
  · exact outcome_reject (by decide) h
  obtain ⟨i, hi, h⟩ := bind_eq_ok.mp h
  obtain ⟨_, hp, h⟩ := bind_eq_ok.mp h
  have hi : s.accounts.get _ = some i := demand_eq_ok.mp hi
  have hp := require_eq_ok.mp hp
  rcases ite_eq_ok.mp h with ⟨_, h⟩ | ⟨h₂, h⟩
  · exact outcome_reject (by decide) h
  obtain ⟨t, ht, h⟩ := bind_eq_ok.mp h
  obtain ⟨v, hv, h⟩ := bind_eq_ok.mp h
  obtain ⟨x, hmove, h⟩ := bind_eq_ok.mp h
  obtain ⟨u, hu, h⟩ := bind_eq_ok.mp h
  obtain ⟨w, hw, h⟩ := bind_eq_ok.mp h
  cases h
  have fresh := blockGet_of_not_exists h₁
  obtain ⟨hb, hl, hx⟩ := Store.blockPut_ok ht fresh
  obtain ⟨bx, cx, hbx, hbx₀, hcx, hcx₀, hle, rfl⟩ := moveRepresentation_eq_ok.mp hmove
  obtain ⟨m, c, n, rfl, hsum⟩ := changeLatest_ok hu
  obtain ⟨_, rfl⟩ := frontierDel_eq_ok.mp hw
  refine Or.inr ⟨rfl, s.frontierGet b.hashables.previous,
    ⟨E.hash (.changeBlock b), E.hash (.changeBlock b), i.balance, m⟩, ?_, ?_⟩
  · refine placed_of_put fresh h₂ ?_ hb hx hl.accounts hl.frontiers
      (fun h₀ => summed_of_same hl h₀) rfl hsum rfl
    intro p hbp
    cases hbp
    exact ⟨i, hi, hp⟩
  · exact .change hi rfl rfl hl.pending hv
      (moved_of_same hl.representation hbx hbx₀ hcx hcx₀ hle rfl)

theorem receiveBlock_ok {b : ReceiveBlock} (h : receiveBlock E s b = .ok (ret, s')) :
    Outcome E s (.receiveBlock b) ret s' := by
  unfold receiveBlock at h
  rcases ite_eq_ok.mp h with ⟨_, h⟩ | ⟨h₁, h⟩
  · exact outcome_reject (by decide) h
  rcases ite_eq_ok.mp h with ⟨_, h⟩ | ⟨_, h⟩
  · exact outcome_reject (by decide) h
  cases hr : s.pendingGet b.hashables.source with
  | none =>
      rw [hr] at h
      exact outcome_reject (by decide) h
  | some r =>
  rw [hr] at h
  rcases ite_eq_ok.mp h with ⟨_, h⟩ | ⟨h₂, h⟩
  · exact outcome_reject (by decide) h
  cases hi : s.accountGet r.destination with
  | none =>
      rw [hi] at h
      exact outcome_reject (by decide) h
  | some i =>
  rw [hi] at h
  rcases ite_eq_ok.mp h with ⟨hp, h⟩ | ⟨_, h⟩
  · obtain ⟨_, _, h⟩ := bind_eq_ok.mp h
    obtain ⟨k, hk, h⟩ := bind_eq_ok.mp h
    obtain ⟨s₀, hs₀, h⟩ := bind_eq_ok.mp h
    obtain ⟨t, ht, h⟩ := bind_eq_ok.mp h
    obtain ⟨u, hu, h⟩ := bind_eq_ok.mp h
    obtain ⟨x, hmove, h⟩ := bind_eq_ok.mp h
    obtain ⟨w, hw, h⟩ := bind_eq_ok.mp h
    cases h
    have fresh := blockGet_of_not_exists h₁
    obtain ⟨_, rfl⟩ := pendingDel_eq_ok.mp hs₀
    obtain ⟨hb, hl, hx⟩ := Store.blockPut_ok ht fresh
    obtain ⟨m, c, n, rfl, hsum⟩ := changeLatest_ok hu
    obtain ⟨bx, cx, hbx, hbx₀, hcx, hcx₀, hle, rfl⟩ := moveRepresentation_eq_ok.mp hmove
    obtain ⟨_, rfl⟩ := frontierDel_eq_ok.mp hw
    refine Or.inr ⟨rfl, r.destination,
      ⟨E.hash (.receiveBlock b), i.repBlock, i.balance + r.amount, m⟩, ?_, ?_⟩
    · refine placed_of_put fresh h₂ ?_ hb hx hl.accounts hl.frontiers
        (fun h₀ => summed_of_same hl h₀) rfl hsum rfl
      intro p hbp
      cases hbp
      exact ⟨i, hi, hp⟩
    · exact .receive hi hr rfl (demand_eq_ok.mp hk) rfl rfl hl.pending
        (moved_of_same hl.representation hbx hbx₀ hcx hcx₀ hle rfl)
  · rcases ite_eq_ok.mp h with ⟨_, h⟩ | ⟨_, h⟩
    · exact outcome_reject (by decide) h
    · exact outcome_reject (by decide) h

theorem openBlock_ok {b : OpenBlock} (h : openBlock E s b = .ok (ret, s')) :
    Outcome E s (.openBlock b) ret s' := by
  unfold openBlock at h
  rcases ite_eq_ok.mp h with ⟨_, h⟩ | ⟨h₁, h⟩
  · exact outcome_reject (by decide) h
  rcases ite_eq_ok.mp h with ⟨_, h⟩ | ⟨_, h⟩
  · exact outcome_reject (by decide) h
  cases hr : s.pendingGet b.hashables.source with
  | none =>
      rw [hr] at h
      exact outcome_reject (by decide) h
  | some r =>
  rw [hr] at h
  rcases ite_eq_ok.mp h with ⟨_, h⟩ | ⟨h₃, h⟩
  · exact outcome_reject (by decide) h
  rcases ite_eq_ok.mp h with ⟨_, h⟩ | ⟨h₂, h⟩
  · exact outcome_reject (by decide) h
  cases hi : s.accountGet r.destination with
  | some i =>
      rw [hi] at h
      exact outcome_reject (by decide) h
  | none =>
  rw [hi] at h
  obtain ⟨k, hk, h⟩ := bind_eq_ok.mp h
  obtain ⟨s₀, hs₀, h⟩ := bind_eq_ok.mp h
  obtain ⟨t, ht, h⟩ := bind_eq_ok.mp h
  obtain ⟨u, hu, h⟩ := bind_eq_ok.mp h
  obtain ⟨x, hmove, h⟩ := bind_eq_ok.mp h
  cases h
  have fresh := blockGet_of_not_exists h₁
  obtain ⟨_, rfl⟩ := pendingDel_eq_ok.mp hs₀
  obtain ⟨hb, hl, hx⟩ := Store.blockPut_ok ht fresh
  obtain ⟨m, c, n, rfl, hsum⟩ := changeLatest_ok hu
  obtain ⟨bx, cx, hbx, hbx₀, hcx, hcx₀, hle, rfl⟩ := moveRepresentation_eq_ok.mp hmove
  refine Or.inr ⟨rfl, r.destination,
    ⟨E.hash (.openBlock b), E.hash (.openBlock b), r.amount, m⟩, ?_, ?_⟩
  · refine placed_of_put fresh h₂ ?_ hb hx hl.accounts hl.frontiers
      (fun h₀ => summed_of_same hl h₀) rfl hsum rfl
    intro p hbp
    cases hbp
  · exact .opened hi (not_not.mp h₃).symm hr rfl (demand_eq_ok.mp hk) rfl rfl hl.pending
      (moved_of_same hl.representation hbx hbx₀ hcx hcx₀ hle rfl)

theorem process_old {b : Block} (hb : s.blockExists (E.hash b) = true) :
    process E fuel s b = reject s .old := by
  cases b with
  | sendBlock c | receiveBlock c | openBlock c | changeBlock c => exact if_pos hb

/-- A processed block is rejected without a trace, or placed and posted. -/
theorem process_ok {b : Block} (h : process E fuel s b = .ok (ret, s')) : Outcome E s b ret s' := by
  cases b with
  | sendBlock b => exact sendBlock_ok h
  | receiveBlock b => exact receiveBlock_ok h
  | openBlock b => exact openBlock_ok h
  | changeBlock b => exact changeBlock_ok h

end PaperNode.ProcessSteps
