import PaperNode.MoneyInvariant
import PaperNode.Representatives

/-!
# Vote weight and delegated money

The weight table is meant to hold, for every account, the balances of those who
name it as their representative. A send leaves the weight where it was, with the
representative of the sender, and the receive or open block that collects the
send moves it. It takes the weight from the representative the sender has at that
moment, which need not be the one it had when it sent: a change block in between
has moved only the balance that was left.

The balance sheet is exact. Weight plus what was drawn from an account equals
money delegated to it, plus sends in transit, plus what was due from it, all
modulo 2^128. Where every receipt draws from the account it is due from, the
weights are right; in general two orders of the same blocks give the same weights
if and only if they draw the same amounts.
-/
namespace PaperNode.VoteWeight
open BoundedRecursion OrderedTable LinkedNodes TransitionRuns Blocks BlockStore LedgerQueries
open LedgerProcess BlockLattice QueryCorrectness ProcessSteps ChainInvariant IndexInvariant
open RollbackRuns LedgerRuns MoneyInvariant Representatives

/-- The representative of an account: the one named by its `rep_block`. -/
def currentRepresentative (s : Store) (a : Account) : Option Account :=
  (s.accounts.get a).bind (fun i => (s.blockGet i.repBlock).map Block.representative)

/-- What an account record contributes to the weight of `R`. -/
def backing (B : Lattice) (R : Account) (i : AccountInfo) : ℕ :=
  if (B i.repBlock).map Block.representative = some R then i.balance.toNat else 0

/-- The sum of the balances of all accounts whose representative is `R`. -/
def delegated (s : Store) (R : Account) : ℕ :=
  s.accounts.total (fun _ i => backing s.blockGet R i)

/-- As of block `h`, the representative of its account is `R`. -/
def Represents (B : Lattice) (h : BlockHash) (R : Account) : Prop :=
  ∃ r b, RepBlock B h r ∧ B r = some b ∧ b.representative = R

open Classical in
/-- What a pending send contributes to the weight of `R`. -/
noncomputable def transit (B : Lattice) (R : Account) (h : BlockHash) (r : Receivable) : ℕ :=
  if Represents B h R then r.amount.toNat else 0

/-- The sum of all pending amounts sent while the sender's representative was `R`. -/
noncomputable def inTransit (s : Store) (R : Account) : ℕ :=
  s.pending.total (transit s.blockGet R)

/-- What a receive or open block takes from `R`: the pending amount, if the
sender's representative is now `R`. -/
def drawnBy (s : Store) (b : Block) (R : Account) : ℕ :=
  match b.sourceLink.bind s.pending.get with
  | none => 0
  | some r => if currentRepresentative s r.source = some R then r.amount.toNat else 0

open Classical in
/-- What a send moved, zero where there is no such send. -/
noncomputable def sentAmount (E : Env) (B : Lattice) (q : BlockHash) : ℕ :=
  if h : ∃ d, Sent E B q d then h.choose else 0

open Classical in
/-- What a receive or open block should take from `R`: the amount sent, if the
sender's representative was `R` as of the send. -/
noncomputable def dueBy (E : Env) (B : Lattice) (R : Account) (b : Block) : ℕ :=
  match b.sourceLink with
  | none => 0
  | some q => if Represents B q R then sentAmount E B q else 0

variable {E : Env} {B C : Lattice} {s s' : Store} {b : Block} {a R X Y : Account}
  {info i : AccountInfo} {h q : BlockHash} {r : Receivable} {v : Amount}

theorem sentAmount_eq {d : ℕ} (hd : Sent E B q d) : sentAmount E B q = d := by
  have hex : ∃ d, Sent E B q d := ⟨d, hd⟩
  unfold sentAmount
  rw [dif_pos hex]
  exact hex.choose_spec.unique hd

theorem represents_iff {c : Block} {x : BlockHash} (hx : RepBlock B h x) (hc : B x = some c) :
    Represents B h R ↔ c.representative = R := by
  constructor
  · intro hr
    obtain ⟨y, d, hy, hd, he⟩ := hr
    cases Nearest.unique hx hy
    cases hc.symm.trans hd
    exact he
  · intro he
    exact ⟨x, c, hx, hc, he⟩

/-- Moving weight from `X` to `Y`, seen at `R`. -/
theorem shiftWeight_toNat (t : Table Account Amount) (X Y R : Account) (v : Amount) :
    ((((shiftWeight t X Y v).get R).getD 0).toNat + if X = R then v.toNat else 0) % 2 ^ 128 =
      (((t.get R).getD 0).toNat + if Y = R then v.toNat else 0) % 2 ^ 128 := by
  have hv := v.isLt
  have hw := ((t.get R).getD 0).isLt
  unfold shiftWeight
  by_cases hX : X = R
  · subst hX
    by_cases hY : Y = X
    · subst hY
      simp only [Table.get_put_self, Option.getD_some, BitVec.sub_add_cancel]
    · rw [Table.get_put_ne _ _ (Ne.symm hY), Table.get_put_self, Option.getD_some, if_pos rfl,
        if_neg hY, BitVec.toNat_sub]
      omega
  · by_cases hY : Y = R
    · subst hY
      rw [Table.get_put_self, Option.getD_some, Table.get_put_ne _ _ (Ne.symm hX), if_neg hX,
        if_pos rfl, BitVec.toNat_add]
      omega
    · rw [Table.get_put_ne _ _ (Ne.symm hY), Table.get_put_ne _ _ (Ne.symm hX), if_neg hX,
        if_neg hY]

theorem moved_weight {x y : BlockHash} {c d : Block} (hm : Moved E B s s' x y v)
    (hx : B x = some c) (hy : B y = some d) (R : Account) :
    ((weight s' R).toNat + if c.representative = R then v.toNat else 0) % 2 ^ 128 =
      ((weight s R).toNat + if d.representative = R then v.toNat else 0) % 2 ^ 128 := by
  obtain ⟨c', d', hc, _, hd, _, _, he⟩ := hm
  cases hx.symm.trans hc
  cases hy.symm.trans hd
  unfold weight Store.representationGet
  rw [he]
  exact shiftWeight_toNat s.representation c.representative d.representative R v

theorem backing_eq {c : Block} (hc : B i.repBlock = some c) (R : Account) :
    backing B R i = if c.representative = R then i.balance.toNat else 0 := by
  unfold backing
  rw [hc, Option.map_some]
  simp only [Option.some.injEq]

theorem delegated_within (hc : Cached s) (hw : Within s.blockGet s'.blockGet) (R : Account) :
    delegated s R = s.accounts.total (fun _ i => backing s'.blockGet R i) := by
  unfold delegated Table.total
  apply Table.fold_congr
  intro a i hi
  obtain ⟨c, hc, _⟩ := hc.stored hi
  rw [backing_eq hc, backing_eq (hw _ _ hc)]

theorem transit_eq {c : Block} {x : BlockHash} (hx : RepBlock B h x) (hc : B x = some c)
    (R : Account) : transit B R h r = if c.representative = R then r.amount.toNat else 0 := by
  unfold transit
  simp only [represents_iff hx hc]

theorem transit_within (hs : Linked E s) (hw : Within s.blockGet s'.blockGet)
    (hr : s.pending.get h = some r) (R : Account) :
    transit s.blockGet R h r = transit s'.blockGet R h r := by
  obtain ⟨⟨t, ht, _⟩, _⟩ := hs.pending h r hr
  obtain ⟨x, hx⟩ := hs.chains.exists_repBlock ht
  obtain ⟨c, hc, _⟩ := Nearest.target hx
  rw [transit_eq hx hc, transit_eq (Nearest.within hw hx) (hw _ _ hc)]

theorem inTransit_within (hs : Linked E s) (hw : Within s.blockGet s'.blockGet) (R : Account) :
    inTransit s R = s.pending.total (transit s'.blockGet R) := by
  unfold inTransit Table.total
  apply Table.fold_congr
  intro h r hr
  exact transit_within hs hw hr R

section Accepted

theorem placed_delegated (hE : Proper E) (hc : Cached s) (hl : Placed E s b a info s')
    (R : Account) :
    delegated s' R + (s.accounts.get a).elim 0 (backing s'.blockGet R) =
      delegated s R + backing s'.blockGet R info := by
  rw [delegated_within hc hl.within, delegated, placed_accounts hE.hashed hl]
  exact Table.total_put (fun _ i => backing s'.blockGet R i) s.accounts a info

theorem drawnBy_pending (hq : b.sourceLink = some q) (hr : s.pending.get q = some r)
    (R : Account) : drawnBy s b R =
      if currentRepresentative s r.source = some R then r.amount.toNat else 0 := by
  unfold drawnBy
  rw [hq, Option.bind_some, hr]

/-- What an accepted block draws, when it collects the pending entry `r`. -/
theorem drawnBy_eq {k : AccountInfo} {c : Block} (hq : b.sourceLink = some q)
    (hr : s.pending.get q = some r) (hk : s.accounts.get r.source = some k)
    (hc : s.blockGet k.repBlock = some c) (R : Account) :
    drawnBy s b R = if c.representative = R then r.amount.toNat else 0 := by
  have hcur : currentRepresentative s r.source = some c.representative := by
    unfold currentRepresentative
    rw [hk, Option.bind_some, hc, Option.map_some]
  rw [drawnBy_pending hq hr, hcur]
  simp only [Option.some.injEq]

theorem dueBy_eq (hq : b.sourceLink = some q) (hd : Sent E B q r.amount.toNat) (R : Account) :
    dueBy E B R b = transit B R q r := by
  unfold dueBy transit
  rw [hq]
  simp only [sentAmount_eq hd]

theorem drawnBy_of_no_source (hq : b.sourceLink = none) (R : Account) : drawnBy s b R = 0 := by
  unfold drawnBy
  rw [hq]
  rfl

theorem dueBy_of_no_source (hq : b.sourceLink = none) (R : Account) : dueBy E B R b = 0 := by
  unfold dueBy
  rw [hq]

/-- Two stores a block apart, where what the block draws and what is due for it
account for the change. -/
def Accounted (E : Env) (s : Store) (b : Block) (s' : Store) (R : Account) : Prop :=
  ((weight s' R).toNat + drawnBy s b R + (delegated s R + inTransit s R)) % 2 ^ 128 =
    ((weight s R).toNat + dueBy E s.blockGet R b + (delegated s' R + inTransit s' R)) % 2 ^ 128

/-- Receive and open blocks: the amount leaves the pending table and the weight
of the sender's representative, and enters an account and the weight of its
representative. -/
theorem collected_accounted {k : AccountInfo} {d : Block} {y : BlockHash} (hs : Linked E s)
    (hf : Funded E s) (hc : Cached s) (hw : Within s.blockGet s'.blockGet)
    (hq : b.sourceLink = some q) (hr : s.pending.get q = some r)
    (hk : s.accounts.get r.source = some k) (hpend : s'.pending = s.pending.del q)
    (hm : Moved E s'.blockGet s s' k.repBlock y r.amount) (hd : s'.blockGet y = some d)
    (hdel : delegated s' R = delegated s R + if d.representative = R then r.amount.toNat else 0) :
    Accounted E s b s' R := by
  obtain ⟨c, hck, _⟩ := hc.stored hk
  have hmove := moved_weight hm (hw _ _ hck) hd R
  have htr : inTransit s' R + transit s'.blockGet R q r = inTransit s R := by
    have ht := Table.total_del (transit s'.blockGet R) s.pending q
    rw [← hpend, hr, Option.elim_some] at ht
    rw [inTransit_within hs hw]
    exact ht
  unfold Accounted
  rw [drawnBy_eq hq hr hk hck, dueBy_eq hq (hf.amounts q r hr), transit_within hs hw hr]
  split_ifs at hdel hmove ⊢ <;> omega

/-- A send block: the amount leaves the account and is in transit, under the
representative the account has. -/
theorem sent_accounted {t : SendBlock} {c : Block} (hs : Linked E s)
    (hw : Within s.blockGet s'.blockGet) (hn : s.blockGet (E.hash (.sendBlock t)) = none)
    (hle : t.hashables.balance.toNat ≤ i.balance.toNat)
    (hown : RepBlock s'.blockGet (E.hash (.sendBlock t)) i.repBlock)
    (hc : s'.blockGet i.repBlock = some c)
    (hpend : s'.pending = s.pending.put (E.hash (.sendBlock t))
      ⟨a, i.balance - t.hashables.balance, t.hashables.destination⟩)
    (hweight : s'.representation = s.representation)
    (hdel : delegated s' R + (if c.representative = R then i.balance.toNat else 0) =
      delegated s R + if c.representative = R then t.hashables.balance.toNat else 0) :
    Accounted E s (.sendBlock t) s' R := by
  have htr : inTransit s' R = inTransit s R +
      if c.representative = R then i.balance.toNat - t.hashables.balance.toNat else 0 := by
    have ht := Table.total_put (transit s'.blockGet R) s.pending (E.hash (.sendBlock t))
      ⟨a, i.balance - t.hashables.balance, t.hashables.destination⟩
    rw [← hpend, hs.not_pending hn, Option.elim_none, transit_eq hown hc, sub_toNat hle,
      ← inTransit_within hs hw] at ht
    exact ht
  have hwt : weight s' R = weight s R := by
    unfold weight Store.representationGet
    rw [hweight]
  unfold Accounted
  rw [hwt, drawnBy_of_no_source rfl, dueBy_of_no_source rfl]
  split_ifs at hdel htr <;> omega

/-- Accepting a block changes the difference between weight and money by what
is due less what is drawn. -/
theorem accepted_weight (hE : Proper E) (hs : Linked E s) (hf : Funded E s) (hc : Cached s)
    (ha : Accepted E s b s') (R : Account) : Accounted E s b s' R := by
  have hs' := hs.accepted ha
  have hf' := hf.accepted hE.hashed hs ha
  obtain ⟨a, info, hl, hp⟩ := ha
  have hw := hl.within
  have hnew := hl.stored
  have hdel := placed_delegated hE hc hl R
  have hold : ∀ {x i}, s.accounts.get x = some i → ∃ c, s'.blockGet i.repBlock = some c := by
    intro x i hi
    obtain ⟨c, hci, _⟩ := hc.stored hi
    exact ⟨c, hw _ _ hci⟩
  have hhead : ∀ {i}, s.accounts.get a = some i → b.previousLink = some i.head :=
    fun hi => old_head hl hp hi
  cases hp with
  | @send t i hi hle hrep hbal hpend hweight =>
      obtain ⟨c, hci⟩ := hold hi
      have hown : RepBlock s'.blockGet (E.hash (.sendBlock t)) i.repBlock :=
        (repBlock_previous hnew (fun hn => hn) (hhead hi)).mpr (Nearest.within hw (hc a i hi))
      rw [hi, Option.elim_some, backing_eq hci, backing_eq (hrep ▸ hci), hbal] at hdel
      exact sent_accounted hs hw hl.fresh hle hown hci hpend hweight hdel
  | @receive c i k r hi hr _ hk hrep hbal hpend hm =>
      obtain ⟨d, hd⟩ := hold hi
      rw [hi, Option.elim_some, backing_eq hd, backing_eq (hrep ▸ hd), hbal,
        hf.add_toNat hi hr] at hdel
      refine collected_accounted hs hf hc hw rfl hr hk hpend hm hd ?_
      split_ifs at hdel ⊢ <;> omega
  | @opened o k r hn _ hr _ hk hrep hbal hpend hm =>
      rw [hn, Option.elim_none, backing_eq (hrep ▸ hnew), hbal] at hdel
      exact collected_accounted hs hf hc hw rfl hr hk hpend hm hnew hdel
  | @change c i v fuel hi hrep hbal hpend hv hm =>
      obtain ⟨d, hd⟩ := hold hi
      have hmove := moved_weight hm hd hnew R
      have hval : v.toNat = i.balance.toNat := by
        have he : c.hashables.previous = i.head := Option.some.inj (hhead hi)
        rw [he] at hv
        exact hf'.balance_toNat hE.hashed hs' ((hf.balances a i hi).within hw) hv
      have htr : inTransit s' R = inTransit s R := by
        rw [inTransit_within hs hw, inTransit, hpend]
      rw [hi, Option.elim_some, backing_eq hd, backing_eq (hrep ▸ hnew), hbal] at hdel
      unfold Accounted
      rw [drawnBy_of_no_source rfl, dueBy_of_no_source rfl, htr]
      rw [hval] at hmove
      split_ifs at hdel hmove <;> omega

end Accepted

/-- The checks of `process` on a block, all passed. -/
inductive Passes (E : Env) (s : Store) : Block → Prop
  | send {t : SendBlock} {i : AccountInfo} :
      s.blockExists (E.hash (.sendBlock t)) = false →
      s.blockExists t.hashables.previous = true → s.frontierGet t.hashables.previous ≠ 0 →
      E.validateMessage (s.frontierGet t.hashables.previous) (E.hash (.sendBlock t))
        t.signature = false →
      s.accountGet (s.frontierGet t.hashables.previous) = some i →
      t.hashables.balance.toNat ≤ i.balance.toNat → Passes E s (.sendBlock t)
  | receive {c : ReceiveBlock} {r : Receivable} {i : AccountInfo} :
      s.blockExists (E.hash (.receiveBlock c)) = false →
      s.blockExists c.hashables.source = true → s.pendingGet c.hashables.source = some r →
      E.validateMessage r.destination (E.hash (.receiveBlock c)) c.signature = false →
      s.accountGet r.destination = some i → i.head = c.hashables.previous →
      Passes E s (.receiveBlock c)
  | opened {o : OpenBlock} {r : Receivable} :
      s.blockExists (E.hash (.openBlock o)) = false →
      s.blockExists o.hashables.source = true → s.pendingGet o.hashables.source = some r →
      r.destination = o.hashables.account →
      E.validateMessage r.destination (E.hash (.openBlock o)) o.signature = false →
      s.accountGet r.destination = none → Passes E s (.openBlock o)
  | change {c : ChangeBlock} :
      s.blockExists (E.hash (.changeBlock c)) = false →
      s.blockExists c.hashables.previous = true → s.frontierGet c.hashables.previous ≠ 0 →
      E.validateMessage (s.frontierGet c.hashables.previous) (E.hash (.changeBlock c))
        c.signature = false → Passes E s (.changeBlock c)

theorem accepted_passes (hE : Proper E) (hs : Linked E s) (hx : Indexed E s)
    (ha : Accepted E s b s') : Passes E s b := by
  obtain ⟨a, info, hl, hp⟩ := ha
  have hnew := Store.blockExists_eq_false.mpr hl.fresh
  have hv := hl.valid
  have ha := hE.signer_ne_zero hv
  -- The predecessor is the head of the account, hence stored and a frontier.
  have hprev : ∀ {p}, b.previousLink = some p →
      s.blockExists p = true ∧ s.frontierGet p = a := by
    intro p hbp
    obtain ⟨i, hi, rfl⟩ := hl.onHead p hbp
    have hstored := Option.ne_none_iff_exists'.mp (hs.heads a i hi).1.stored
    exact ⟨Store.blockExists_iff.mpr hstored, hx.frontierGet_head hi⟩
  have hsource : ∀ {q r}, s.pending.get q = some r → s.blockExists q = true := by
    intro q r hr
    obtain ⟨⟨t, ht, _⟩, _⟩ := hs.pending q r hr
    exact Store.blockExists_iff.mpr ⟨_, ht⟩
  cases hp with
  | send hi hle =>
      obtain ⟨hst, hfr⟩ := hprev rfl
      exact .send hnew hst (hfr ▸ ha) (hfr ▸ hv) (hfr ▸ hi) hle
  | receive hi hr hd =>
      obtain ⟨j, hj, hh⟩ := hl.onHead _ rfl
      cases hi.symm.trans hj
      exact .receive hnew (hsource hr) hr (hd ▸ hv) (hd ▸ hi) hh
  | opened hn ho hr hd =>
      exact .opened hnew (hsource hr) hr (hd.trans ho.symm) (hd ▸ hv) (hd ▸ hn)
  | change hi =>
      obtain ⟨hst, hfr⟩ := hprev rfl
      exact .change hnew hst (hfr ▸ ha) (hfr ▸ hv)

/-- The sender of the block's source, if it is pending, has the representative
it had as of the send, or sent nothing. -/
def SenderUnchanged (s : Store) (b : Block) : Prop :=
  ∀ q r, b.sourceLink = some q → s.pending.get q = some r →
    r.amount = 0 ∨ ∀ R, currentRepresentative s r.source = some R ↔ Represents s.blockGet q R

def DrawsRight (E : Env) (s : Store) (b : Block) : Prop := Passes E s b → SenderUnchanged s b

theorem drawnBy_eq_dueBy (hf : Funded E s) (hu : SenderUnchanged s b) (ha : Accepted E s b s')
    (R : Account) : drawnBy s b R = dueBy E s.blockGet R b := by
  obtain ⟨a, info, _, hp⟩ := ha
  cases hq : b.sourceLink with
  | none => rw [drawnBy_of_no_source hq, dueBy_of_no_source hq]
  | some q =>
      obtain ⟨r, hr, _⟩ := posted_source hp hq
      rw [dueBy_eq hq (hf.amounts q r hr), drawnBy_pending hq hr]
      unfold transit
      rcases hu q r hq hr with hz | hrep
      · simp [hz]
      · by_cases hR : Represents s.blockGet q R
        · rw [if_pos ((hrep R).mpr hR), if_pos hR]
        · rw [if_neg (mt (hrep R).mp hR), if_neg hR]

theorem delegated_inTransit_lt (hf : Funded E s) (R : Account) :
    delegated s R + inTransit s R < 2 ^ 128 := by
  have h₁ : delegated s R ≤ circulating s := by
    refine Table.total_mono _ s.accounts (fun _ i => ?_)
    unfold backing
    split_ifs <;> omega
  have h₂ : inTransit s R ≤ inFlight s := by
    refine Table.total_mono _ s.pending (fun _ r => ?_)
    unfold transit
    split_ifs <;> omega
  have hc := hf.conserved
  rw [genesisAmount_toNat] at hc
  omega

theorem genesis_weight (hg : Genesis E s) (R : Account) :
    (weight s R).toNat = delegated s R + inTransit s R := by
  obtain ⟨m, hm⟩ := hg.accounts
  have hself := hg.self
  have ht := Table.total_put (fun _ i => backing s.blockGet R i) (∅ : Table Account AccountInfo)
    E.genesisAccount ⟨genesisHash E, genesisHash E, genesisAmount, m⟩
  rw [← hm, Table.get_empty, Option.elim_none, Table.total_empty, backing_eq hself] at ht
  unfold weight Store.representationGet inTransit
  rw [hg.pending, hg.representation, Table.total_empty, Table.get_put]
  change delegated s R + 0 = 0 + if E.genesisAccount = R then genesisAmount.toNat else 0 at ht
  by_cases hR : R = E.genesisAccount
  · rw [if_pos hR, Option.getD_some]
    rw [if_pos hR.symm] at ht
    omega
  · rw [if_neg hR, Table.get_empty, Option.getD_none]
    rw [if_neg (Ne.symm hR)] at ht
    simpa using ht.symm

theorem reached_cached (hs : Reached (Initial E) (Processed E) s) : Cached s := by
  refine hs.invariant (fun _ h₀ => genesis_cached (genesisInitialize_ok h₀)) ?_
  intro t b u ht hstep
  rcases hstep.cases with rfl | ha
  · exact ht
  · exact ht.accepted ha

/-- In a run whose receipts all draw from the right account, weight is delegated
money and money in transit. -/
theorem guarded_weight (hE : Proper E)
    (hs : Reached (Initial E) (Guarded (DrawsRight E) (Processed E)) s) (R : Account) :
    (weight s R).toNat = delegated s R + inTransit s R := by
  have hall : Reached (Initial E) (Processed E) s ∧
      ∀ R, (weight s R).toNat = delegated s R + inTransit s R := by
    refine hs.invariant (I := fun t => Reached (Initial E) (Processed E) t ∧
      ∀ R, (weight t R).toNat = delegated t R + inTransit t R) ?_ ?_
    · intro t h₀
      exact ⟨.start h₀, genesis_weight (genesisInitialize_ok h₀)⟩
    · intro t b u ht hstep
      obtain ⟨ht, hw⟩ := ht
      obtain ⟨hguard, hstep⟩ := hstep
      refine ⟨ht.next hstep, fun R => ?_⟩
      rcases hstep.cases with rfl | ha
      · exact hw R
      · have hr := reached_reachable ht
        have hl := (reachable_sound hr).linked
        have hf := reachable_funded hE.hashed hr
        have hu := hguard (accepted_passes hE hl ((reachable_sound hr).indexed hE.hashed) ha)
        have hstep := accepted_weight hE hl hf (reached_cached ht) ha R
        unfold Accounted at hstep
        have hlt := delegated_inTransit_lt (hf.accepted hE.hashed hl ha) R
        have hwt := (weight u R).isLt
        rw [hw R, drawnBy_eq_dueBy hf hu ha] at hstep
        omega
  exact hall.2 R

/-- In every run of `process` calls whose accepted receive and open blocks find
the sender with the representative it had as of the send, the weight of every
account is the money delegated to it whenever nothing is pending. -/
theorem weight_eq_delegated (hE : Proper E)
    (hs : Reached (Initial E) (Guarded (DrawsRight E) (Processed E)) s) (hp : s.pending = ∅)
    (R : Account) : (weight s R).toNat = delegated s R := by
  have hw := guarded_weight hE hs R
  unfold inTransit at hw
  rw [hp, Table.total_empty] at hw
  exact hw

theorem senderUnchanged_of_head (hc : Cached s) (hq : b.sourceLink = some q)
    (hr : s.pending.get q = some r) (hi : s.accounts.get r.source = some i) (hh : i.head = q) :
    SenderUnchanged s b := by
  intro q' r' hq' hr'
  cases hq.symm.trans hq'
  cases hr.symm.trans hr'
  obtain ⟨c, hs, _⟩ := hc.stored hi
  refine Or.inr (fun R => ?_)
  rw [represents_iff (hh ▸ hc _ i hi) hs]
  unfold currentRepresentative
  rw [hi, Option.bind_some, hs, Option.map_some, Option.some.injEq]

/-- The genesis account sends, and the first account opens with that send. -/
theorem exists_guarded_open : ∃ s s', Reached (Initial smallNetwork)
    (Guarded (DrawsRight smallNetwork) (Processed smallNetwork)) s ∧
    SenderUnchanged s open₁ ∧ Progressed smallNetwork s open₁ s' ∧ s'.pending = ∅ := by
  have hrun : accepts smallNetwork 20 [send₁] (fun s =>
      (s.pending.get send₁Hash).any (fun r =>
        (s.accounts.get r.source).any (fun i => i.head = send₁Hash)) &&
      (acceptAll smallNetwork 20 s [open₁]).any (fun s' => s'.pending.entries = [])) = true := by
    decide +kernel
  obtain ⟨s₀, s, h₀, hs, ht⟩ := exists_of_accepts hrun
  simp only [Bool.and_eq_true, Option.any_eq_true, decide_eq_true_eq] at ht
  obtain ⟨⟨r, hr, i, hi, hh⟩, s', hs', hp⟩ := ht
  obtain ⟨t, hopen, he⟩ := acceptAll_cons hs'
  cases he
  have hguard : ∀ u, ∀ b ∈ [send₁], DrawsRight smallNetwork u b := by
    intro u b hb _ q r hq
    cases List.mem_singleton.mp hb
    cases hq
  have hcached := reached_cached (progressed_reached h₀ hs)
  have hrun := (hs.mono (fun _ _ _ hstep => hstep.processed)).guarded hguard
  exact ⟨s, s', ⟨s₀, _, h₀, hrun⟩,
    senderUnchanged_of_head hcached rfl hr hi hh, hopen, Table.eq_empty hp⟩

theorem weight_eq_delegated_open : ∃ s, Reached (Initial smallNetwork)
    (Guarded (DrawsRight smallNetwork) (Processed smallNetwork)) s ∧
    s.blockGet open₁Hash = some open₁ ∧ s.pending = ∅ ∧
    ∀ R, (weight s R).toNat = delegated s R := by
  obtain ⟨s, s', hs, hu, hstep, hp⟩ := exists_guarded_open
  have hs' := hs.next ⟨fun _ => hu, hstep.processed⟩
  obtain ⟨a, info, hl, _⟩ := hstep.accepted
  have hstored : s'.blockGet open₁Hash = some open₁ := by
    have hh : open₁Hash = smallNetwork.hash open₁ := by decide +kernel
    rw [hh, hl.stored]
  exact ⟨s', hs', hstored, hp, weight_eq_delegated smallNetwork_proper hs' hp⟩

/-- The genesis account sends, changes its representative, and then the first
account opens: the weight sent is taken from the new representative, which never
had it, and stays with the old one. -/
theorem late_receipt_misweighs : ¬ ∀ E s, Proper E → Reached (Initial E) (Processed E) s →
    s.pending = ∅ → ∀ R, (weight s R).toNat = delegated s R := by
  intro hall
  have hrun : accepts smallNetwork 20 [send₁, change₁, open₁] (fun s =>
      decide (s.pending.entries = []) &&
      decide ((weight s secondAccount).toNat ≠ delegated s secondAccount)) = true := by
    decide +kernel
  obtain ⟨s₀, s, h₀, hs, ht⟩ := exists_of_accepts hrun
  simp only [Bool.and_eq_true, decide_eq_true_eq] at ht
  have hempty := Table.eq_empty ht.1
  have hproc := progressed_reached h₀ hs
  exact ht.2 (hall smallNetwork s smallNetwork_proper hproc hempty secondAccount)

end PaperNode.VoteWeight
