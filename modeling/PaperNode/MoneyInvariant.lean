import PaperNode.LedgerRuns

/-!
# Money is conserved

`Funded` ties every amount the tables hold to the stored blocks: account
balances are replayed balances, pending amounts are what the sends moved, and
balances and pending amounts together are the genesis amount. The last part is
what keeps the 128-bit additions from wrapping, and that in turn is what makes
the new balance of a receive the replayed one, so the parts are proved together.

A rollback does not undo arithmetic: it recomputes the earlier balance and the
amount from the chain. That these come out right is the correctness of the
visitors.
-/
namespace PaperNode.MoneyInvariant
open BoundedRecursion OrderedTable LinkedNodes TransitionRuns Blocks BlockStore LedgerQueries
open LedgerProcess BlockLattice QueryCorrectness ProcessSteps ChainInvariant RollbackSteps
open IndexInvariant RollbackRuns LedgerRuns

def circulating (s : Store) : ℕ := s.accounts.total (fun _ i => i.balance.toNat)

def inFlight (s : Store) : ℕ := s.pending.total (fun _ r => r.amount.toNat)

structure Funded (E : Env) (s : Store) : Prop where
  replays : ∀ h b, s.blockGet h = some b → ∃ v, Replay E s.blockGet h v ∧ v < 2 ^ 128
  sends : ∀ h t, s.blockGet h = some (.sendBlock t) → ∃ d, Sent E s.blockGet h d
  balances : ∀ a i, s.accounts.get a = some i → Replay E s.blockGet i.head i.balance.toNat
  amounts : ∀ h r, s.pending.get h = some r → Sent E s.blockGet h r.amount.toNat
  conserved : circulating s + inFlight s = genesisAmount.toNat

variable {E : Env} {s s' : Store} {b : Block} {a : Account} {info i : AccountInfo}
  {h q : BlockHash} {r : Receivable}

theorem genesisAmount_toNat : genesisAmount.toNat = 2 ^ 128 - 1 := by
  rw [genesisAmount, BitVec.toNat_allOnes]

theorem Funded.bounded (hf : Funded E s) (hi : s.accounts.get a = some i)
    (hr : s.pending.get q = some r) : i.balance.toNat + r.amount.toNat < 2 ^ 128 := by
  have h₁ : i.balance.toNat ≤ circulating s := Table.le_total (fun _ i => i.balance.toNat) hi
  have h₂ : r.amount.toNat ≤ inFlight s := Table.le_total (fun _ r => r.amount.toNat) hr
  have hc := hf.conserved
  rw [genesisAmount_toNat] at hc
  omega

theorem Funded.add_toNat (hf : Funded E s) (hi : s.accounts.get a = some i)
    (hr : s.pending.get q = some r) :
    (i.balance + r.amount).toNat = i.balance.toNat + r.amount.toNat := by
  rw [BitVec.toNat_add, Nat.mod_eq_of_lt (hf.bounded hi hr)]

theorem sub_toNat {x y : Amount} (hle : y.toNat ≤ x.toNat) :
    (x - y).toNat = x.toNat - y.toNat :=
  BitVec.toNat_sub_of_le (BitVec.le_def.mpr hle)

section Pending

theorem inFlight_put (hp : s'.pending = s.pending.put q r) (hn : s.pending.get q = none) :
    inFlight s' = inFlight s + r.amount.toNat := by
  have ht := Table.total_put (fun _ r => r.amount.toNat) s.pending q r
  rw [← hp, hn, Option.elim_none] at ht
  exact ht

theorem inFlight_del (hp : s'.pending = s.pending.del q) (hr : s.pending.get q = some r) :
    inFlight s' + r.amount.toNat = inFlight s := by
  have ht := Table.total_del (fun _ r => r.amount.toNat) s.pending q
  rw [← hp, hr, Option.elim_some] at ht
  exact ht

theorem inFlight_congr (hp : s'.pending = s.pending) : inFlight s' = inFlight s := by
  unfold inFlight
  rw [hp]

theorem amounts_put {P : BlockHash → ℕ → Prop} (hp : s'.pending = s.pending.put q r)
    (hall : ∀ h r, s.pending.get h = some r → P h r.amount.toNat) (hq : P q r.amount.toNat) :
    ∀ h r, s'.pending.get h = some r → P h r.amount.toNat := by
  intro h r' hr'
  rw [hp, Table.get_put] at hr'
  split_ifs at hr' with hh
  · cases hr'
    rw [hh]
    exact hq
  · exact hall h r' hr'

theorem amounts_del {P : BlockHash → ℕ → Prop} (hp : s'.pending = s.pending.del q)
    (hall : ∀ h r, s.pending.get h = some r → P h r.amount.toNat) :
    ∀ h r, s'.pending.get h = some r → P h r.amount.toNat := by
  intro h r' hr'
  rw [hp, Table.get_del] at hr'
  split_ifs at hr'
  exact hall h r' hr'

end Pending

theorem genesis_funded (hg : Genesis E s) : Funded E s := by
  obtain ⟨m, hm⟩ := hg.accounts
  have hself := hg.self
  constructor
  case replays =>
    intro h b hb
    obtain ⟨rfl, rfl⟩ := hg.stored hb
    exact ⟨_, .genesis hself, genesisAmount.isLt⟩
  case sends =>
    intro h t ht
    cases (hg.stored ht).2
  case balances =>
    intro a i hi
    rw [hm, Table.get_put] at hi
    split_ifs at hi
    · cases hi
      exact .genesis hself
    · cases hi
  case amounts =>
    intro h r hr
    rw [hg.pending] at hr
    cases hr
  case conserved =>
    unfold circulating inFlight
    rw [hg.pending, hm]
    have ht := Table.total_put (fun _ i => i.balance.toNat) (∅ : Table Account AccountInfo)
      E.genesisAccount ⟨genesisHash E, genesisHash E, genesisAmount, m⟩
    simpa using ht

section Accepted

theorem placed_circulating (hE : Hashed E) (hl : Placed E s b a info s') :
    circulating s' + (s.accounts.get a).elim 0 (fun i => i.balance.toNat) =
      circulating s + info.balance.toNat := by
  unfold circulating
  rw [placed_accounts hE hl]
  exact Table.total_put (fun _ i => i.balance.toNat) s.accounts a info

/-- What the three amounts of an accepted block are. -/
structure Booked (E : Env) (s s' : Store) (b : Block) (info : AccountInfo) : Prop where
  balance : Replay E s'.blockGet (E.hash b) info.balance.toNat
  pending : ∀ h r, s'.pending.get h = some r → Sent E s'.blockGet h r.amount.toNat
  sent : ∀ t, b = .sendBlock t → ∃ d, Sent E s'.blockGet (E.hash b) d
  conserved : circulating s' + inFlight s' = circulating s + inFlight s

theorem Funded.booked (hE : Hashed E) (hs : Linked E s) (hf : Funded E s)
    (hl : Placed E s b a info s') (hp : Posted E s a info s' b) : Booked E s s' b info := by
  have hw := hl.within
  have hnew := hl.stored
  have hcirc := placed_circulating hE hl
  have hgen := (hs.fits hl hp).ne_genesis hs.chains
  -- The balance before the block, for a block that extends a chain.
  have hprev : ∀ {p i}, b.previousLink = some p → s.accounts.get a = some i →
      Replay E s'.blockGet p i.balance.toNat := by
    intro p i hbp hi
    have he := old_head hl hp hi
    rw [hbp] at he
    cases he
    exact (hf.balances a i hi).within hw
  have holds : ∀ h r, s.pending.get h = some r → Sent E s'.blockGet h r.amount.toNat :=
    fun h r hr => (hf.amounts h r hr).within hw
  cases hp with
  | @send t i hi hle _ hbal hpend _ =>
      have hsent : Sent E s'.blockGet (E.hash (.sendBlock t))
          (i.balance - t.hashables.balance).toNat := by
        rw [sub_toNat hle]
        exact ⟨t, _, hnew, hprev rfl hi, hle, rfl⟩
      constructor
      case balance =>
        rw [hbal]
        exact .sent hnew
      case pending => exact amounts_put hpend holds hsent
      case sent => exact fun _ _ => ⟨_, hsent⟩
      case conserved =>
        have ht := inFlight_put hpend (hs.not_pending hl.fresh)
        rw [hi, Option.elim_some, hbal] at hcirc
        rw [sub_toNat hle] at ht
        omega
  | @receive c i k r hi hr hd _ _ hbal hpend _ =>
      have hbalance : info.balance.toNat = i.balance.toNat + r.amount.toNat := by
        rw [hbal, hf.add_toNat hi hr]
      constructor
      case balance =>
        rw [hbalance]
        exact .of_receive hnew (hprev rfl hi) (holds _ r hr)
      case pending => exact amounts_del hpend holds
      case sent => exact fun _ he => nomatch he
      case conserved =>
        have ht := inFlight_del hpend hr
        rw [hi, Option.elim_some, hbalance] at hcirc
        omega
  | @opened o k r hn _ hr _ _ _ hbal hpend _ =>
      constructor
      case balance =>
        rw [hbal]
        exact .of_open hgen hnew (holds _ r hr)
      case pending => exact amounts_del hpend holds
      case sent => exact fun _ he => nomatch he
      case conserved =>
        have ht := inFlight_del hpend hr
        rw [hn, Option.elim_none, hbal] at hcirc
        omega
  | @change c i v fuel hi _ hbal hpend _ _ =>
      constructor
      case balance =>
        rw [hbal]
        exact .changed hnew (hprev rfl hi)
      case pending =>
        rw [hpend]
        exact holds
      case sent => exact fun _ he => nomatch he
      case conserved =>
        have ht := inFlight_congr hpend
        rw [hi, Option.elim_some, hbal] at hcirc
        omega

theorem Funded.accepted (hE : Hashed E) (hs : Linked E s) (hf : Funded E s)
    (ha : Accepted E s b s') : Funded E s' := by
  obtain ⟨a, info, hl, hp⟩ := ha
  have hb := hf.booked hE hs hl hp
  have hw := hl.within
  constructor
  case replays =>
    intro h c hc
    by_cases hh : h = E.hash b
    · subst hh
      exact ⟨_, hb.balance, info.balance.isLt⟩
    · rw [hl.other hh] at hc
      obtain ⟨v, hv, hlt⟩ := hf.replays h c hc
      exact ⟨v, hv.within hw, hlt⟩
  case sends =>
    intro h t ht
    by_cases hh : h = E.hash b
    · subst hh
      rw [hl.stored] at ht
      exact hb.sent t (Option.some.inj ht)
    · rw [hl.other hh] at ht
      obtain ⟨d, hd⟩ := hf.sends h t ht
      exact ⟨d, hd.within hw⟩
  case balances =>
    intro x i hi
    rw [placed_account hE hl] at hi
    split_ifs at hi with hx
    · cases hi
      rw [hl.head]
      exact hb.balance
    · exact (hf.balances x i hi).within hw
  case amounts => exact hb.pending
  case conserved => exact hb.conserved.trans hf.conserved

end Accepted

section Removed

theorem Funded.replay_lt {v : ℕ} (hf : Funded E s) (hv : Replay E s.blockGet h v) :
    v < 2 ^ 128 := by
  have hb : ∃ b, s.blockGet h = some b := by
    cases hv with
    | genesis hb | opened _ hb _ _ _ | sent hb | received hb _ _ _ _ | changed hb _ =>
        exact ⟨_, hb⟩
  obtain ⟨b, hb⟩ := hb
  obtain ⟨w, hw, hlt⟩ := hf.replays h b hb
  rwa [hv.unique hw]

theorem Funded.balance_toNat {v fuel : ℕ} {x : Amount} (hE : Hashed E) (hs : Linked E s)
    (hf : Funded E s) (hv : Replay E s.blockGet h v)
    (hx : balance E s.blockGet fuel h = .ok x) : x.toNat = v := by
  rw [balance_ok (Linked.bottomed hE hs) hv hx, BitVec.toNat_ofNat,
    Nat.mod_eq_of_lt (hf.replay_lt hv)]

theorem Funded.amount_toNat {d fuel : ℕ} {x : Amount} (hE : Hashed E) (hs : Linked E s)
    (hf : Funded E s) (hd : Sent E s.blockGet h d)
    (hx : amount E s.blockGet fuel h = .ok x) : x.toNat = d := by
  have hlt : d < 2 ^ 128 := by
    obtain ⟨t, w, _, hw, _, rfl⟩ := hd
    have := hf.replay_lt hw
    omega
  rw [amount_ok (Linked.bottomed hE hs) hd hx, BitVec.toNat_ofNat, Nat.mod_eq_of_lt hlt]

theorem removed_circulating (hE : Hashed E) (hs : Linked E s) (hr : Removed E s h b a info s')
    (hi : s.accounts.get a = some i) : circulating s' + i.balance.toNat =
      circulating s + b.previousLink.elim 0 (fun _ => info.balance.toNat) := by
  unfold circulating
  rw [hr.accounts]
  cases hp : b.previousLink with
  | none =>
      have h₀ : info.head = 0 := by
        rw [hr.head, hp]
        rfl
      have ht := Table.total_del (fun _ i => i.balance.toNat) s.accounts a
      rw [hi, Option.elim_some] at ht
      rw [latestTable, if_pos h₀, Option.elim_none]
      exact ht
  | some p =>
      have h₀ : info.head ≠ 0 := by
        obtain ⟨c, hc⟩ := Option.ne_none_iff_exists'.mp
          (hs.chains.previous h p ⟨b, hr.loose.stored, hp⟩)
        rw [hr.head, hp]
        exact (Linked.bottomed hE hs).ne_zero hc
      have ht := Table.total_put (fun _ i => i.balance.toNat) s.accounts a info
      rw [hi, Option.elim_some] at ht
      rw [latestTable, if_neg h₀, Option.elim_some]
      exact ht

theorem released_not_pending (hs : Linked E s) (hr : Removed E s h b a info s')
    (hq : b.sourceLink = some q) : s.pending.get q = none := by
  by_contra hne
  obtain ⟨r, hpr⟩ := Option.ne_none_iff_exists'.mp hne
  obtain ⟨_, _, hn⟩ := hs.pending q r hpr
  exact hn h ⟨b, hr.loose.stored, hr.loose.notGenesis, hq⟩

theorem Funded.released_sent {fuel : ℕ} {x : Amount} (hE : Hashed E) (hs : Linked E s)
    (hf : Funded E s) (hr : Removed E s h b a info s') (hq : b.sourceLink = some q)
    (hx : amount E s.blockGet fuel q = .ok x) : Sent E s.blockGet q x.toNat := by
  obtain ⟨t, ht, _⟩ := hs.chains.collects h b q hr.loose.stored ⟨hr.loose.notGenesis, hq⟩
  obtain ⟨d, hd⟩ := hf.sends q t ht
  rwa [hf.amount_toNat hE hs hd hx]

/-- What the amounts of a removed block are, in the lattice before. -/
structure Unbooked (E : Env) (s s' : Store) (b : Block) (info : AccountInfo) : Prop where
  balance : ∀ p, b.previousLink = some p → Replay E s.blockGet p info.balance.toNat
  pending : ∀ k r, s'.pending.get k = some r → Sent E s.blockGet k r.amount.toNat
  conserved : circulating s' + inFlight s' = circulating s + inFlight s

theorem Funded.unbooked (hE : Hashed E) (hs : Linked E s) (hi : Indexed E s) (hf : Funded E s)
    (hr : Removed E s h b a info s') (hv : Reverted E s h a info s' b) :
    Unbooked E s s' b info := by
  obtain ⟨i₀, hi₀, rfl⟩ := removed_head hi hs hr
  have hhead := hf.balances a i₀ hi₀
  have hcirc := removed_circulating hE hs hr hi₀
  have hstored := hr.loose.stored
  cases hv with
  | @send t r fuel hpr hpend hbal _ _ =>
      obtain ⟨t', w, ht', hw, hle, hamount⟩ := hf.amounts _ r hpr
      cases hstored.symm.trans ht'
      have hbalance := hf.balance_toNat hE hs hw hbal
      constructor
      case balance =>
        intro p hp
        cases hp
        rw [hbalance]
        exact hw
      case pending => exact amounts_del hpend hf.amounts
      case conserved =>
        have ht := inFlight_del hpend hpr
        have hown := hhead.send_eq hstored
        simp only [Block.previousLink, Option.elim_some] at hcirc
        omega
  | @receive c source v x fuel _ hv hbal _ hpend _ _ =>
      have hd := hf.released_sent hE hs hr rfl hv
      obtain ⟨e, he⟩ := Option.ne_none_iff_exists'.mp
        (hs.chains.previous _ c.hashables.previous ⟨_, hstored, rfl⟩)
      obtain ⟨w, hw, _⟩ := hf.replays _ e he
      have hbalance := hf.balance_toNat hE hs hw hbal
      constructor
      case balance =>
        intro p hp
        cases hp
        rw [hbalance]
        exact hw
      case pending => exact amounts_put hpend hf.amounts hd
      case conserved =>
        have ht := inFlight_put hpend (released_not_pending hs hr rfl)
        dsimp only at ht
        have hown := hhead.unique (.of_receive hstored hw hd)
        simp only [Block.previousLink, Option.elim_some] at hcirc
        omega
  | @opened o source v x fuel _ hv _ hpend _ _ =>
      have hd := hf.released_sent hE hs hr rfl hv
      constructor
      case balance => exact fun p hp => nomatch hp
      case pending => exact amounts_put hpend hf.amounts hd
      case conserved =>
        have ht := inFlight_put hpend (released_not_pending hs hr rfl)
        dsimp only at ht
        have hown := hhead.unique (.of_open hr.loose.notGenesis hstored hd)
        simp only [Block.previousLink, Option.elim_none] at hcirc
        omega
  | @change c v fuel _ hbal hpend _ _ =>
      rw [hi₀, Option.getD_some] at hbal
      constructor
      case balance =>
        intro p hp
        cases hp
        rw [hbal]
        exact hhead.change_previous hstored
      case pending =>
        rw [hpend]
        exact hf.amounts
      case conserved =>
        have ht := inFlight_congr hpend
        simp only [Block.previousLink, Option.elim_some, hbal] at hcirc
        omega

theorem Funded.removed (hE : Hashed E) (hs : Linked E s) (hi : Indexed E s) (hf : Funded E s)
    (hr : Removed E s h b a info s') (hv : Reverted E s h a info s' b) : Funded E s' := by
  have hu := hf.unbooked hE hs hi hr hv
  have hl := Linked.removed hs hr hv
  have replay : ∀ {k v}, k ≠ h → Replay E s.blockGet k v → Replay E s'.blockGet k v := by
    intro k v hk hv
    rw [hr.blocks]
    exact hv.erase hr.loose.unneeded hk
  have sent : ∀ {k d}, k ≠ h → Sent E s.blockGet k d → Sent E s'.blockGet k d := by
    intro k d hk hd
    rw [hr.blocks]
    exact hd.erase hr.loose.unneeded hk
  constructor
  case replays =>
    intro k c hc
    obtain ⟨v, hv, hlt⟩ := hf.replays k c (hr.within k c hc)
    exact ⟨v, replay (hr.ne_of_stored hc) hv, hlt⟩
  case sends =>
    intro k t ht
    obtain ⟨d, hd⟩ := hf.sends k t (hr.within k _ ht)
    exact ⟨d, sent (hr.ne_of_stored ht) hd⟩
  case balances =>
    intro x i hix
    have hstored := (hl.heads x i hix).1.stored
    obtain ⟨c, hc⟩ := Option.ne_none_iff_exists'.mp hstored
    refine replay (hr.ne_of_stored hc) ?_
    rw [removed_account hE hs hr] at hix
    split_ifs at hix with hx hp
    · cases hix
      obtain ⟨p, hp⟩ := Option.ne_none_iff_exists'.mp hp
      rw [hr.head, hp]
      exact hu.balance p hp
    · exact hf.balances x i hix
  case amounts =>
    intro k r hk
    obtain ⟨⟨t, ht, _⟩, _⟩ := hl.pending k r hk
    exact sent (hr.ne_of_stored ht) (hu.pending k r hk)
  case conserved => exact hu.conserved.trans hf.conserved

end Removed

/-- Every reachable ledger is funded. -/
theorem reachable_funded (hE : Hashed E) (hs : Reachable E s) : Funded E s := by
  refine reachable_invariant (I := Funded E) (fun _ hg => genesis_funded hg) ?_ ?_ hs
  · intro t b u ht hf ha
    exact hf.accepted hE ht.linked ha
  · intro t k u ht hf hp
    obtain ⟨b, a, info, hr, hv⟩ := hp
    exact hf.removed hE ht.linked (ht.indexed hE) hr hv

/-- In every reachable ledger all balances and all pending amounts add up to the
genesis amount. So the sum a receive block computes fits in 128 bits, and so
does the difference a send block computes once it has passed the overspend
check. -/
theorem money_conserved (hE : Proper E) (hs : Reachable E s) :
    circulating s + inFlight s = 2 ^ 128 - 1 ∧
    (∀ (c : ReceiveBlock) (r : Receivable) (i : AccountInfo),
      s.pendingGet c.hashables.source = some r → s.accountGet r.destination = some i →
      (i.balance + r.amount).toNat = i.balance.toNat + r.amount.toNat) ∧
    (∀ (t : SendBlock) (i : AccountInfo),
      s.accountGet (s.frontierGet t.hashables.previous) = some i →
      ¬ i.balance.toNat < t.hashables.balance.toNat →
      (i.balance - t.hashables.balance).toNat =
        i.balance.toNat - t.hashables.balance.toNat) := by
  have hf := reachable_funded hE.hashed hs
  refine ⟨?_, ?_, ?_⟩
  · rw [hf.conserved, genesisAmount_toNat]
  · intro c r i hr hi
    exact hf.add_toNat hi hr
  · intro t i _ hle
    exact sub_toNat (not_lt.mp hle)

theorem money_conserved_open : ∃ s, Reachable smallNetwork s ∧
    s.blockGet open₁Hash = some open₁ ∧ circulating s + inFlight s = 2 ^ 128 - 1 := by
  obtain ⟨s, hs, _, hb, _⟩ := exists_opened
  exact ⟨s, hs, hb, (money_conserved smallNetwork_proper hs).1⟩

end PaperNode.MoneyInvariant
