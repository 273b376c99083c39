import PaperNode.MoneyInvariant

/-!
# Balances as they were

`ledger.balance` recomputes the balance of an account as of any of its blocks.
`Held` follows one block through a run, from the call that stored it to the
present. What is recomputed now is what the account table said right after that
call.

The numbers are 128-bit words, so the recomputation could be right only because
two wraps cancel. A second version of the visitors stops at the first sum or
difference that does not fit; it never stops there.

The other visitor is meant to tell what a block moved. It does so for a send. For
a receive or open block it computes two balances and keeps neither.
-/
namespace PaperNode.BalanceHistory
open BoundedRecursion OrderedTable LinkedNodes TransitionRuns Blocks BlockStore LedgerQueries
open LedgerProcess BlockLattice QueryCorrectness ProcessSteps ChainInvariant IndexInvariant
open RollbackRuns LedgerRuns MoneyInvariant

/-- Where the exact visitors stop: at an assertion of the program, or where the
result of an operation does not fit in 128 bits. -/
inductive Inexact where
  | assertion (site : Assertion)
  | sum
  | difference
  deriving DecidableEq, Repr

def addExact (x y : Amount) : Check Inexact Amount := do
  require (x.toNat + y.toNat < 2 ^ 128) .sum
  return x + y

def subExact (x y : Amount) : Check Inexact Amount := do
  require (y.toNat ≤ x.toNat) .difference
  return x - y

mutual

/-- The loop of `balance_visitor::compute`, with every sum checked. -/
def balanceExact (E : Env) (get : BlockHash → Option Block) :
    ℕ → BlockHash → Amount → Check Inexact Amount
  | 0, _, _ => exhaust
  | fuel + 1, current, result =>
      if current = 0 then return result
      else do
        match ← demand (get current) (.assertion .balanceBlock) with
        | .sendBlock b =>
            let result ← addExact result b.hashables.balance
            balanceExact E get fuel 0 result
        | .receiveBlock b =>
            let source ← amountExact E get fuel b.hashables.source
            let result ← addExact result source
            balanceExact E get fuel b.hashables.previous result
        | .openBlock b =>
            let source ← amountExact E get fuel b.hashables.source
            let result ← addExact result source
            balanceExact E get fuel 0 result
        | .changeBlock b => balanceExact E get fuel b.hashables.previous result

/-- `amount_visitor::compute`, with the difference checked. -/
def amountExact (E : Env) (get : BlockHash → Option Block) : ℕ → BlockHash → Check Inexact Amount
  | 0, _ => exhaust
  | fuel + 1, h =>
      match get h with
      | some (.sendBlock b) => do
          let prev ← balanceExact E get fuel b.hashables.previous 0
          subExact prev b.hashables.balance
      | some (.receiveBlock b) => fromSendExact E get fuel b.hashables.source
      | some (.openBlock b) => fromSendExact E get fuel b.hashables.source
      | some (.changeBlock _) => fail (.assertion .amountOfChange)
      | none =>
          if h = E.genesisAccount then return genesisAmount
          else fail (.assertion .amountUnknown)

def fromSendExact (E : Env) (get : BlockHash → Option Block) :
    ℕ → BlockHash → Check Inexact Amount
  | 0, _ => exhaust
  | fuel + 1, h => do
      let _ ← balanceExact E get fuel h 0
      let sourceBlock ← demand (get h) (.assertion .amountSource)
      let _ ← balanceExact E get fuel sourceBlock.previous 0
      return 0

end

variable {E : Env} {B : Lattice} {s s' s₀ t : Store} {h : BlockHash} {b : Block} {x y z : Amount}
  {v : ℕ} {as : List Action}

theorem addExact_eq_ok : addExact x y = .ok z ↔ x.toNat + y.toNat < 2 ^ 128 ∧ x + y = z := by
  unfold addExact
  simp only [bind_eq_ok, require_eq_ok, exists_const, pure, Except.pure, Except.ok.injEq]

theorem subExact_eq_ok : subExact x y = .ok z ↔ y.toNat ≤ x.toNat ∧ x - y = z := by
  unfold subExact
  simp only [bind_eq_ok, require_eq_ok, exists_const, pure, Except.pure, Except.ok.injEq]

/-- The exact visitors are the visitors of the program with checks added. -/
theorem exact_ok (E : Env) (B : Lattice) : ∀ fuel,
    (∀ h r v, balanceExact E B fuel h r = .ok v → balanceCompute E B fuel h r = .ok v) ∧
    (∀ h v, amountExact E B fuel h = .ok v → amount E B fuel h = .ok v) ∧
    (∀ h v, fromSendExact E B fuel h = .ok v → fromSend E B fuel h = .ok v) := by
  intro fuel
  induction fuel with
  | zero =>
      exact ⟨fun _ _ v hv => absurd hv (exhaust_ne_ok v), fun _ v hv => absurd hv (exhaust_ne_ok v),
        fun _ v hv => absurd hv (exhaust_ne_ok v)⟩
  | succ fuel ih =>
      obtain ⟨ihb, iha, ihf⟩ := ih
      refine ⟨?_, ?_, ?_⟩
      · intro h r v hv
        rw [balanceExact] at hv
        rw [balanceCompute]
        split_ifs at hv ⊢ with h₀
        · cases hv
          rfl
        · obtain ⟨b, hb, hv⟩ := bind_eq_ok.mp hv
          refine bind_eq_ok.mpr ⟨b, demand_eq_ok.mpr (demand_eq_ok.mp hb), ?_⟩
          cases b with
          | sendBlock b =>
              obtain ⟨r', hr, hv⟩ := bind_eq_ok.mp hv
              obtain ⟨_, rfl⟩ := addExact_eq_ok.mp hr
              exact ihb _ _ _ hv
          | receiveBlock b | openBlock b =>
              obtain ⟨d, hd, hv⟩ := bind_eq_ok.mp hv
              obtain ⟨r', hr, hv⟩ := bind_eq_ok.mp hv
              obtain ⟨_, rfl⟩ := addExact_eq_ok.mp hr
              exact bind_eq_ok.mpr ⟨d, iha _ _ hd, ihb _ _ _ hv⟩
          | changeBlock b => exact ihb _ _ _ hv
      · intro h v hv
        rw [amountExact] at hv
        rw [amount]
        cases hb : B h with
        | none =>
            rw [hb] at hv
            dsimp only at hv ⊢
            split_ifs at hv ⊢
            · cases hv
              rfl
            · exact absurd hv (fail_ne_ok _ v)
        | some b =>
            rw [hb] at hv
            cases b with
            | sendBlock b =>
                obtain ⟨w, hw, hv⟩ := bind_eq_ok.mp hv
                obtain ⟨_, rfl⟩ := subExact_eq_ok.mp hv
                exact bind_eq_ok.mpr ⟨w, ihb _ _ _ hw, rfl⟩
            | receiveBlock b | openBlock b => exact ihf _ _ hv
            | changeBlock b => exact absurd hv (fail_ne_ok _ v)
      · intro h v hv
        rw [fromSendExact] at hv
        rw [fromSend]
        obtain ⟨w, hw, hv⟩ := bind_eq_ok.mp hv
        obtain ⟨c, hc, hv⟩ := bind_eq_ok.mp hv
        obtain ⟨u, hu, hv⟩ := bind_eq_ok.mp hv
        cases hv
        exact bind_eq_ok.mpr ⟨w, ihb _ _ _ hw, bind_eq_ok.mpr
          ⟨c, demand_eq_ok.mpr (demand_eq_ok.mp hc), bind_eq_ok.mpr ⟨u, ihb _ _ _ hu, rfl⟩⟩⟩

theorem toNat_ofNat_amount (hv : v < 2 ^ 128) : (BitVec.ofNat 128 v : Amount).toNat = v := by
  rw [BitVec.toNat_ofNat, Nat.mod_eq_of_lt hv]

theorem addExact_ofNat {r : Amount} (hr : r.toNat + v < 2 ^ 128) :
    addExact r (BitVec.ofNat 128 v) = .ok (r + BitVec.ofNat 128 v) := by
  refine addExact_eq_ok.mpr ⟨?_, rfl⟩
  rw [toNat_ofNat_amount (by omega)]
  exact hr

theorem balanceExact_zero (E : Env) (B : Lattice) (r : Amount) :
    Settles (fun n => balanceExact E B n 0 r) r :=
  Settles.of_succ (fun n => by rw [balanceExact, if_pos rfl]; rfl)

theorem amountExact_send_settles {q : BlockHash} {t : SendBlock} {w : ℕ}
    (hq : B q = some (.sendBlock t)) (hle : t.hashables.balance.toNat ≤ w) (hlt : w < 2 ^ 128)
    (hw : Settles (fun n => balanceExact E B n t.hashables.previous 0) (BitVec.ofNat 128 w)) :
    Settles (fun n => amountExact E B n q)
      (BitVec.ofNat 128 (w - t.hashables.balance.toNat)) := by
  have hsub : Settles (fun n => balanceExact E B n t.hashables.previous 0 >>=
      fun v => subExact v t.hashables.balance)
      (BitVec.ofNat 128 (w - t.hashables.balance.toNat)) := by
    refine hw.bind (Settles.of_forall (fun _ => subExact_eq_ok.mpr ⟨?_, toNat_sub_of_le hle⟩))
    rw [toNat_ofNat_amount hlt]
    exact hle
  refine hsub.succ (fun n => ?_)
  rw [amountExact, hq]

/-- The loop adds the amount `d` of a source and goes on at `p`. -/
theorem addExact_source_settles {q p : BlockHash} {r z : Amount} {d : ℕ}
    (hq : Settles (fun n => amountExact E B n q) (BitVec.ofNat 128 d))
    (hd : r.toNat + d < 2 ^ 128)
    (hp : Settles (fun n => balanceExact E B n p (r + BitVec.ofNat 128 d)) z) :
    Settles (fun n => amountExact E B n q >>= fun source =>
      addExact r source >>= fun result => balanceExact E B n p result) z := by
  refine Settles.bind (g := fun n (source : Amount) =>
    addExact r source >>= fun result => balanceExact E B n p result) hq ?_
  simp only [addExact_ofNat hd, ok_bind]
  exact hp

theorem balanceExact_settles (hB : Bottomed E B) (hlt : ∀ k w, Replay E B k w → w < 2 ^ 128)
    (hv : Replay E B h v) (r : Amount) (hr : r.toNat + v < 2 ^ 128) :
    Settles (fun n => balanceExact E B n h r) (r + BitVec.ofNat 128 v) := by
  induction hv generalizing r with
  | genesis hb =>
      have hamount : Settles (fun n => amountExact E B n E.genesisAccount)
          (BitVec.ofNat 128 genesisAmount.toNat) := by
        refine Settles.of_succ (fun n => ?_)
        rw [amountExact, hB.genesis, BitVec.ofNat_toNat, BitVec.setWidth_eq]
        exact if_pos rfl
      refine (addExact_source_settles hamount hr (balanceExact_zero E B _)).succ (fun n => ?_)
      rw [balanceExact, if_neg (hB.ne_zero hb), hb]
      simp only [demand, ok_bind, genesisBlock, genesisOpen]
  | opened hne hb ht hw hle ih =>
      have hprev := ih 0#128 (by simpa using hlt _ _ hw)
      rw [BitVec.zero_add] at hprev
      have hamount := amountExact_send_settles ht hle (hlt _ _ hw) hprev
      refine (addExact_source_settles hamount hr (balanceExact_zero E B _)).succ (fun n => ?_)
      rw [balanceExact, if_neg (hB.ne_zero hb), hb]
      rfl
  | @sent k t hb =>
      have hadd : addExact r t.hashables.balance = .ok (r + t.hashables.balance) :=
        addExact_eq_ok.mpr ⟨hr, rfl⟩
      rw [BitVec.ofNat_toNat, BitVec.setWidth_eq]
      refine (balanceExact_zero E B _).succ (fun n => ?_)
      rw [balanceExact, if_neg (hB.ne_zero hb), hb]
      simp only [demand, ok_bind, hadd]
  | @received k c t v w hb _ ht hw hle ihv ihw =>
      have hprev := ihw 0#128 (by simpa using hlt _ _ hw)
      rw [BitVec.zero_add] at hprev
      have hamount := amountExact_send_settles ht hle (hlt _ _ hw) hprev
      have hd : r.toNat + (w - t.hashables.balance.toNat) < 2 ^ 128 := by omega
      have hsum : (r + BitVec.ofNat 128 (w - t.hashables.balance.toNat)).toNat =
          r.toNat + (w - t.hashables.balance.toNat) := by
        rw [BitVec.toNat_add, toNat_ofNat_amount (by omega), Nat.mod_eq_of_lt hd]
      have hp := ihv (r + BitVec.ofNat 128 (w - t.hashables.balance.toNat)) (by omega)
      rw [BitVec.add_assoc, ← BitVec.ofNat_add, Nat.add_comm] at hp
      refine (addExact_source_settles hamount hd hp).succ (fun n => ?_)
      rw [balanceExact, if_neg (hB.ne_zero hb), hb]
      rfl
  | changed hb _ ih =>
      refine (ih r hr).succ (fun n => ?_)
      rw [balanceExact, if_neg (hB.ne_zero hb), hb]
      rfl

/-- Along a run from `s₀` that has come to `s`, the block `h` was stored by the call
that led to `t`, and has been stored ever since. -/
inductive Held (E : Env) (s₀ : Store) (h : BlockHash) : List Action → Store → Store → Prop
  | initialized : h = genesisHash E → Held E s₀ h [] s₀ s₀
  | processed {as : List Action} {u t : Store} {b : Block} {fuel : ℕ} {ret : ProcessReturn} :
      Run (Step E) s₀ as u → process E fuel u b = .ok (ret, t) → ret.code = .progress →
      E.hash b = h → Held E s₀ h (as ++ [.process b]) t t
  | kept {as : List Action} {s s' t : Store} {x : Action} :
      Held E s₀ h as s t → Step E s x s' → s'.blockExists h = true →
      Held E s₀ h (as ++ [x]) s' t

theorem Held.run (hh : Held E s₀ h as s t) : Run (Step E) s₀ as s := by
  induction hh with
  | initialized _ => exact .nil
  | processed hr hp _ _ => exact .snoc hr (.process hp)
  | kept _ hstep _ ih => exact .snoc ih hstep

theorem step_within {x : Action} (hs : Sound E s) (h : Step E s x s') :
    Within s.blockGet s'.blockGet ∨ Within s'.blockGet s.blockGet := by
  rcases step_cases hs h with rfl | ⟨b, _, ha⟩ | ⟨k, _, hp⟩
  · exact Or.inl (fun _ _ hb => hb)
  · obtain ⟨a, info, hl, _⟩ := ha
    exact Or.inl hl.within
  · exact Or.inr hp.within

/-- Every stored block has a history. -/
theorem exists_held (h₀ : Initial E s₀) (hr : Run (Step E) s₀ as s)
    (hb : s.blockExists h = true) : ∃ t, Held E s₀ h as s t := by
  induction hr generalizing h with
  | nil =>
      obtain ⟨b, hb⟩ := Store.blockExists_iff.mp hb
      have hg := (genesisInitialize_ok h₀).stored hb
      exact ⟨s₀, .initialized hg.1⟩
  | @snoc as u s x hu hstep ih =>
      by_cases hold : u.blockExists h = true
      · obtain ⟨t, ht⟩ := ih hold
        exact ⟨t, .kept ht hstep hb⟩
      · have hnone := Store.blockExists_eq_false.mp (Bool.eq_false_iff.mpr hold)
        obtain ⟨c, hc⟩ := Store.blockExists_iff.mp hb
        have hsound := reachable_sound ⟨s₀, as, h₀, hu⟩
        cases hstep with
        | @process b fuel ret s hp =>
            rcases process_ok hp with ⟨_, rfl⟩ | ⟨hret, a, info, hl, _⟩
            · rw [hnone] at hc
              cases hc
            · refine ⟨s, .processed hu hp hret ?_⟩
              by_contra hne
              rw [hl.other (fun he => hne he.symm), hnone] at hc
              cases hc
        | rollback hp =>
            have hw := (rollback_ok hsound hp).1.within h c hc
            rw [hnone] at hw
            cases hw

/-- What the account table said when the block was stored is what replaying the
blocks stored now gives. -/
theorem Held.replay (hE : Hashed E) (h₀ : Initial E s₀) (hh : Held E s₀ h as s t) :
    ∃ a i, Owner s.blockGet h a ∧ t.accountGet a = some i ∧
      Replay E s.blockGet h i.balance.toNat := by
  have reachable : ∀ {bs u}, Run (Step E) s₀ bs u → Reachable E u :=
    fun {bs u} hu => ⟨s₀, bs, h₀, hu⟩
  induction hh with
  | initialized hg =>
      subst hg
      have hg := genesisInitialize_ok h₀
      obtain ⟨m, hm⟩ := hg.accounts
      refine ⟨E.genesisAccount, ⟨genesisHash E, genesisHash E, genesisAmount, m⟩,
        (owner_open hg.self).mpr rfl, ?_, .genesis hg.self⟩
      rw [Store.accountGet, hm, Table.get_put_self]
  | @processed as u t b fuel ret hu hp hret he =>
      subst he
      have hs := reachable_sound (reachable hu)
      have hf := reachable_funded hE (reachable hu)
      rcases process_ok hp with ⟨hne, _⟩ | ⟨_, a, info, hl, hpost⟩
      · exact absurd hret hne
      · have hown := (hs.linked.fits hl hpost).owner
        rw [← hl.blocks] at hown
        refine ⟨a, info, hown, ?_, (hf.booked hE hs.linked hl hpost).balance⟩
        rw [Store.accountGet, placed_account hE hl, if_pos rfl]
  | @kept as s s' t x hh hstep hb ih =>
      obtain ⟨a, i, ho, hi, hv⟩ := ih
      have hs := reachable hh.run
      have hs' : Reachable E s' := hs.next hstep
      obtain ⟨b, hb⟩ := Store.blockExists_iff.mp hb
      rcases step_within (reachable_sound hs) hstep with hw | hw
      · exact ⟨a, i, ho.within hw, hi, hv.within hw⟩
      · -- The smaller ledger has a balance of its own, and the larger one has that too.
        have hown := (reachable_sound hs').linked.chains.owner_of_within hw hb ho
        obtain ⟨w, hw', _⟩ := (reachable_funded hE hs').replays h b hb
        obtain rfl := hv.unique (hw'.within hw)
        exact ⟨a, i, hown, hi, hw'⟩

theorem recomputed (hE : Hashed E) (hs : Reachable E s) {x : Amount}
    (hv : Replay E s.blockGet h x.toNat) :
    Settles (fun n => balance E s.blockGet n h) x ∧
      Settles (fun n => balanceExact E s.blockGet n h 0) x := by
  have hB := Linked.bottomed hE (reachable_sound hs).linked
  have hf := reachable_funded hE hs
  have hexact := balanceExact_settles hB (fun _ _ hw => hf.replay_lt hw) hv 0#128
    (by simpa using x.isLt)
  rw [BitVec.zero_add, BitVec.ofNat_toNat, BitVec.setWidth_eq] at hexact
  refine ⟨?_, hexact⟩
  filter_upwards [hexact] with n hn
  exact (exact_ok E s.blockGet n).1 h 0 x hn

/-- The balance of a stored block, recomputed at any later time, is the one its
account had when the block had just been stored, and nothing wraps on the way. -/
theorem balance_historical (hE : Hashed E) (h₀ : Initial E s₀) (hr : Run (Step E) s₀ as s) :
    (∀ h, s.blockExists h = true → ∃ t, Held E s₀ h as s t) ∧
    (∀ h t, Held E s₀ h as s t → ∃ a i, Owner s.blockGet h a ∧ t.accountGet a = some i ∧
      Settles (fun n => balance E s.blockGet n h) i.balance ∧
      Settles (fun n => balanceExact E s.blockGet n h 0) i.balance) ∧
    ∀ a i, s.accountGet a = some i →
      Settles (fun n => balance E s.blockGet n i.head) i.balance ∧
      Settles (fun n => balanceExact E s.blockGet n i.head 0) i.balance := by
  have hs : Reachable E s := ⟨s₀, as, h₀, hr⟩
  refine ⟨fun h hb => exists_held h₀ hr hb, ?_, ?_⟩
  · intro h t hh
    obtain ⟨a, i, ho, hi, hv⟩ := hh.replay hE h₀
    obtain ⟨hplain, hexact⟩ := recomputed hE hs hv
    exact ⟨a, i, ho, hi, hplain, hexact⟩
  · intro a i hi
    exact recomputed hE hs ((reachable_funded hE hs).balances a i hi)

/-- After the send and the open block, the balance as of the send is still
recomputed. -/
theorem balance_historical_send : ∃ s₀ s t a i, Initial smallNetwork s₀ ∧
    Held smallNetwork s₀ send₁Hash [.process send₁, .process open₁] s t ∧
    t.accountGet a = some i ∧ s.blockGet open₁Hash = some open₁ ∧
    Settles (fun n => balance smallNetwork s.blockGet n send₁Hash) i.balance := by
  have hrun : executes smallNetwork 20 [.process send₁, .process open₁] (fun s =>
      decide (s.blockGet send₁Hash = some send₁) &&
        decide (s.blockGet open₁Hash = some open₁)) = true := by
    decide +kernel
  obtain ⟨s, hx, ht⟩ := exists_of_executes hrun
  simp only [Bool.and_eq_true, decide_eq_true_eq] at ht
  obtain ⟨s₀, h₀, hx⟩ := bind_eq_ok.mp hx
  obtain ⟨held, balances, _⟩ :=
    balance_historical smallNetwork_proper.hashed h₀ (performAll_run hx)
  obtain ⟨t, hh⟩ := held send₁Hash (Store.blockExists_iff.mpr ⟨_, ht.1⟩)
  obtain ⟨a, i, _, hi, hsettles, _⟩ := balances send₁Hash t hh
  exact ⟨s₀, s, t, a, i, h₀, hh, hi, ht.2, hsettles⟩

/-- The balance of the owner before a block, zero before an open block. -/
def BalanceBefore (E : Env) (B : Lattice) (b : Block) (w : ℕ) : Prop :=
  match b.previousLink with
  | none => w = 0
  | some p => Replay E B p w

/-- Block `h` changed the balance of its owner by `d`, up or down. -/
def Movement (E : Env) (B : Lattice) (h : BlockHash) (d : ℕ) : Prop :=
  ∃ b v w, B h = some b ∧ Replay E B h v ∧ BalanceBefore E B b w ∧ (d : ℤ) = |(v : ℤ) - w|

theorem Movement.unique {d e : ℕ} (hd : Movement E B h d) (he : Movement E B h e) : d = e := by
  obtain ⟨b, v, w, hb, hv, hw, hd⟩ := hd
  obtain ⟨b', v', w', hb', hv', hw', he⟩ := he
  cases hb.symm.trans hb'
  cases hv.unique hv'
  have hww : w = w' := by
    unfold BalanceBefore at hw hw'
    cases hp : b.previousLink with
    | none =>
        rw [hp] at hw hw'
        exact hw.trans hw'.symm
    | some p =>
        rw [hp] at hw hw'
        exact hw.unique hw'
  rw [← hww] at he
  omega

theorem Sent.movement {d : ℕ} (hd : Sent E B h d) : Movement E B h d := by
  obtain ⟨t, w, ht, hw, hle, rfl⟩ := hd
  refine ⟨_, _, w, ht, .sent ht, hw, ?_⟩
  rw [abs_of_nonpos (by omega)]
  omega

/-- A block that collects a send moved what was sent. -/
theorem collected_movement {q : BlockHash} {d : ℕ} (hf : Funded E s)
    (hc : Chains E s.blockGet) (hb : s.blockGet h = some b) (hq : Collects E b q)
    (hd : Sent E s.blockGet q d) : Movement E s.blockGet h d := by
  obtain ⟨hg, hsource⟩ := hq
  cases b with
  | sendBlock t | changeBlock t => cases hsource
  | receiveBlock c =>
      cases hsource
      obtain ⟨e, he⟩ := Option.ne_none_iff_exists'.mp
        (hc.previous h c.hashables.previous ⟨_, hb, rfl⟩)
      obtain ⟨w, hw, _⟩ := hf.replays _ e he
      refine ⟨_, w + d, w, hb, .of_receive hb hw hd, hw, ?_⟩
      rw [abs_of_nonneg (by omega)]
      omega
  | openBlock o =>
      cases hsource
      refine ⟨_, d, 0, hb, .of_open hg hb hd, rfl, ?_⟩
      rw [abs_of_nonneg (by omega)]
      omega

/-- `from_send` returns zero whatever was sent. -/
theorem fromSend_settles {q : BlockHash} {d : ℕ} (hB : Bottomed E B) (hd : Sent E B q d) :
    Settles (fun n => fromSend E B n q) 0 := by
  obtain ⟨t, w, ht, hw, _, _⟩ := hd
  have hafter := balance_settles hB (.sent ht)
  have hbefore := balance_settles hB hw
  have hboth : Settles (fun n => balanceCompute E B n t.hashables.previous 0 >>=
      fun _ => (.ok 0 : Checked Amount)) 0 :=
    hbefore.bind (Settles.of_forall (fun _ => rfl))
  refine (Settles.bind (g := fun n (_ : Amount) =>
    balanceCompute E B n t.hashables.previous 0 >>= fun _ => (.ok 0 : Checked Amount))
    hafter hboth).succ (fun n => ?_)
  rw [fromSend, ht]
  rfl

theorem amount_collector_settles {q : BlockHash} {d : ℕ} (hB : Bottomed E B)
    (hb : B h = some b) (hq : Collects E b q) (hd : Sent E B q d) :
    Settles (fun n => amount E B n h) 0 := by
  obtain ⟨_, hsource⟩ := hq
  cases b with
  | sendBlock t | changeBlock t => cases hsource
  | receiveBlock c | openBlock c =>
      cases hsource
      refine (fromSend_settles hB hd).succ (fun n => ?_)
      rw [amount, hb]

/-- The source of the genesis block is no block, so its amount is an assertion that
fails. -/
theorem amount_genesis_ne_ok {fuel : ℕ} (hB : Bottomed E B) (hb : B h = some (genesisBlock E))
    (x : Amount) : amount E B fuel h ≠ .ok x := by
  intro hx
  cases fuel with
  | zero => exact exhaust_ne_ok x hx
  | succ fuel =>
      rw [amount, hb] at hx
      cases fuel with
      | zero => exact exhaust_ne_ok x hx
      | succ fuel =>
          change fromSend E B (fuel + 1) E.genesisAccount = .ok x at hx
          rw [fromSend] at hx
          obtain ⟨_, _, hx⟩ := bind_eq_ok.mp hx
          obtain ⟨c, hc, _⟩ := bind_eq_ok.mp hx
          rw [hB.genesis] at hc
          cases hc

theorem genesis_movement (hb : B h = some (genesisBlock E)) :
    Movement E B h genesisAmount.toNat := by
  refine ⟨_, _, 0, hb, .genesis hb, rfl, ?_⟩
  rw [Nat.cast_zero, sub_zero, abs_of_nonneg (Int.natCast_nonneg _)]

theorem sent_lt {q : BlockHash} {d : ℕ} (hf : Funded E s) (hd : Sent E s.blockGet q d) :
    d < 2 ^ 128 := by
  obtain ⟨t, w, _, hw, _, rfl⟩ := hd
  have hlt := hf.replay_lt hw
  omega

theorem collected_amount_iff {q : BlockHash} {d : ℕ} (hf : Funded E s)
    (hB : Bottomed E s.blockGet) (hb : s.blockGet h = some b) (hq : Collects E b q)
    (hd : Sent E s.blockGet q d) :
    Settles (fun n => amount E s.blockGet n h) (BitVec.ofNat 128 d) ↔ d = 0 := by
  have hzero := amount_collector_settles hB hb hq hd
  constructor
  · intro hset
    rw [← toNat_ofNat_amount (sent_lt hf hd), hset.unique hzero]
    rfl
  · intro h₀
    rw [h₀]
    exact hzero

/-- `ledger.amount` reports what a send, receive or open block moved exactly when the
block is a send or collects a send of nothing. -/
theorem amount_reports_iff (hE : Hashed E) (hs : Reachable E s) (hb : s.blockGet h = some b)
    (hk : ∀ c, b ≠ .changeBlock c) : (∃ d, Movement E s.blockGet h d ∧ d < 2 ^ 128) ∧
    ∀ d, Movement E s.blockGet h d →
      (Settles (fun n => amount E s.blockGet n h) (BitVec.ofNat 128 d) ↔
        (∃ t, b = .sendBlock t) ∨ ∃ q, Collects E b q ∧ Sent E s.blockGet q 0) := by
  have hc := (reachable_sound hs).linked.chains
  have hf := reachable_funded hE hs
  have hB := Linked.bottomed hE (reachable_sound hs).linked
  by_cases hsend : ∃ t, b = .sendBlock t
  · obtain ⟨t, rfl⟩ := hsend
    obtain ⟨d, hd⟩ := hf.sends h t hb
    refine ⟨⟨d, Sent.movement hd, sent_lt hf hd⟩, ?_⟩
    intro e he
    cases he.unique (Sent.movement hd)
    exact iff_of_true (amount_settles hB hd) (Or.inl ⟨t, rfl⟩)
  by_cases hg : b = genesisBlock E
  · subst hg
    refine ⟨⟨_, genesis_movement hb, genesisAmount.isLt⟩, ?_⟩
    intro e _
    refine iff_of_false (fun hset => ?_) (fun hcase => ?_)
    · obtain ⟨n, hn⟩ := hset.exists_ok
      exact amount_genesis_ne_ok hB hb _ hn
    · rcases hcase with ht | ⟨q, hq, _⟩
      · exact hsend ht
      · exact hq.1 rfl
  · obtain ⟨q, hq⟩ : ∃ q, Collects E b q := by
      cases b with
      | sendBlock t => exact absurd ⟨t, rfl⟩ hsend
      | changeBlock c => exact absurd rfl (hk c)
      | receiveBlock c | openBlock c => exact ⟨_, hg, rfl⟩
    obtain ⟨t, ht, _⟩ := hc.collects h b q hb hq
    obtain ⟨d, hd⟩ := hf.sends q t ht
    have hmove := collected_movement hf hc hb hq hd
    refine ⟨⟨d, hmove, sent_lt hf hd⟩, ?_⟩
    intro e he
    cases he.unique hmove
    rw [collected_amount_iff hf hB hb hq hd]
    constructor
    · intro hd₀
      exact Or.inr ⟨q, hq, hd₀ ▸ hd⟩
    · intro hcase
      rcases hcase with ht | ⟨q', hq', hd'⟩
      · exact absurd ht hsend
      · cases hq.2.symm.trans hq'.2
        exact hd.unique hd'

/-- The amount of a send is reported. -/
theorem amount_reports_send : ∃ s d, Reachable smallNetwork s ∧
    s.blockGet send₁Hash = some send₁ ∧ Movement smallNetwork s.blockGet send₁Hash d ∧
    Settles (fun n => amount smallNetwork s.blockGet n send₁Hash) (BitVec.ofNat 128 d) := by
  obtain ⟨s, hs, hb, _⟩ := exists_opened
  obtain ⟨⟨d, hd, _⟩, hiff⟩ :=
    amount_reports_iff smallNetwork_proper.hashed hs hb (fun _ => nofun)
  exact ⟨s, d, hs, hb, hd, (hiff d hd).mpr (Or.inl ⟨_, rfl⟩)⟩

/-- The first account opened with 100, and `ledger.amount` of its open block is zero. -/
theorem open_amount_unreported : ¬ ∀ E s h b d, Proper E → Reachable E s →
    s.blockGet h = some b → (∀ c, b ≠ .changeBlock c) → Movement E s.blockGet h d →
    Settles (fun n => amount E s.blockGet n h) (BitVec.ofNat 128 d) := by
  intro hall
  have hrun : executes smallNetwork 20 [.process send₁, .process open₁] (fun s =>
      decide (s.blockGet send₁Hash = some send₁) &&
        decide (s.blockGet open₁Hash = some open₁) &&
        decide (s.blockGet testGenesisHash = some (genesisBlock smallNetwork)) &&
        returns (amount smallNetwork s.blockGet 20 open₁Hash) (fun x => x = 0)) = true := by
    decide +kernel
  obtain ⟨s, hx, ht⟩ := exists_of_executes hrun
  simp only [Bool.and_eq_true, decide_eq_true_eq] at ht
  obtain ⟨⟨⟨hsend, hopen⟩, hgen⟩, hzero⟩ := ht
  have hs := execute_reachable hx
  have hsent : Sent smallNetwork s.blockGet send₁Hash 100 :=
    ⟨_, _, hsend, .genesis hgen, by decide, by decide⟩
  have hmove : Movement smallNetwork s.blockGet open₁Hash 100 :=
    collected_movement (reachable_funded smallNetwork_proper.hashed hs)
      (reachable_sound hs).linked.chains hopen ⟨by decide, rfl⟩ hsent
  have hset := hall smallNetwork s open₁Hash open₁ 100 smallNetwork_proper hs hopen
    (fun _ => nofun) hmove
  obtain ⟨x, hx, hx₀⟩ := exists_of_returns hzero
  have hx₁ := hset.eq_of_steady
    (fun n => (balance_amount_steady smallNetwork s.blockGet n).2.1 open₁Hash) hx
  rw [hx₁] at hx₀
  revert hx₀
  decide

end PaperNode.BalanceHistory
