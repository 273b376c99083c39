import PaperNode.Elections
import PaperNode.RepublishLoop
import PaperNode.BlockIdentity
import PaperNode.ProofOfWork
import PaperNode.WalletKeys

/-!
# The blocks that a wallet makes

A wallet makes three kinds of blocks: it receives what was sent to an account of it, it
changes an account's representative, and it sends. Each action reads the ledger and the wallet in
one transaction and makes a block on top of the account's chain, or reports an error. The block
is then processed like one from the network, and work is generated for the block after it.

The work in a block is the one kept in the wallet if it is good for the block's root, and newly
generated otherwise. `generate` stands for the answers of the work pool.
-/
namespace PaperNode.WalletSpending
open BoundedRecursion LinkedNodes OrderedTable Blocks BlockStore LedgerQueries LedgerProcess
open BlockIdentity BlockLattice ProcessSteps ChainInvariant IndexInvariant MoneyInvariant
open VoteWeight ProcessReturns RollbackFuture ProofOfWork
open Elections (accountBalance)
open Wallet (Key WalletEnv WalletStore WalletAssertion)

structure SpendEnv where
  ledger : Env
  wallet : WalletEnv
  work : WorkEnv
  signMessage : Key → Key → BlockHash → Signature

def SpendEnv.Signs (S : SpendEnv) : Prop :=
  ∀ prv h, S.ledger.validateMessage (S.wallet.publicKey prv) h
    (S.signMessage prv (S.wallet.publicKey prv) h) = false

inductive SpendAssertion where
  | ownership | accountGet | fetch | openRepresentative | workValid | entryExists
  | store (site : WalletAssertion)
  deriving DecidableEq, Repr

def latestRoot (s : Store) (a : Account) : BlockHash :=
  match s.accountGet a with
  | none => a
  | some info => info.head

def workGet (w : WalletStore) (pub : Key) : Option Word64 :=
  let entry := w.entryGetRaw pub
  if entry.key ≠ 0 then some entry.work else none

def workFetch (S : SpendEnv) (generate : BlockHash → Word64) (w : WalletStore) (account : Account)
    (root : BlockHash) : Word64 :=
  match workGet w account with
  | none => generate root
  | some work => if workValidate S.work root work then generate root else work

def workUpdate (S : SpendEnv) (s : Store) (w : WalletStore) (account : Account) (root : BlockHash)
    (work : Word64) : Check SpendAssertion WalletStore := do
  require (workValidate S.work root work = false) .workValid
  require (w.existsKey account) .entryExists
  if latestRoot s account = root then relabel .store (w.workPut account work)
  else return w

/-- `wallet::work_generate`. The pool is asked before the transaction. -/
def workGenerate (S : SpendEnv) (generate : BlockHash → Word64) (s : Store) (w : WalletStore)
    (account : Account) (root : BlockHash) : Check SpendAssertion WalletStore :=
  workUpdate S s w account root (generate root)

section Make
variable (S : SpendEnv)

/-- The block constructors sign the hash, which does not depend on the signature. -/
def SpendEnv.seal (prv pub : Key) (block : Signature → Block) : Block :=
  block (S.signMessage prv pub (S.ledger.hash (block 0)))

def SpendEnv.sendBlock (previous : BlockHash) (destination : Account) (balance : Amount)
    (prv pub : Key) (work : Word64) : Block :=
  S.seal prv pub (fun signature => .sendBlock ⟨⟨previous, destination, balance⟩, signature, work⟩)

def SpendEnv.receiveBlock (previous source : BlockHash) (prv pub : Key) (work : Word64) : Block :=
  S.seal prv pub (fun signature => .receiveBlock ⟨⟨previous, source⟩, signature, work⟩)

def SpendEnv.openBlock (source : BlockHash) (representative account : Account)
    (prv pub : Key) (work : Word64) : Check SpendAssertion Block := do
  require (representative ≠ 0) .openRepresentative
  return S.seal prv pub
    (fun signature => .openBlock ⟨⟨source, representative, account⟩, signature, work⟩)

def SpendEnv.changeBlock (previous : BlockHash) (representative : Account) (prv pub : Key)
    (work : Word64) : Block :=
  S.seal prv pub (fun signature => .changeBlock ⟨⟨previous, representative⟩, signature, work⟩)

variable (generate : BlockHash → Word64) (current : Finset Account) (s : Store) (w : WalletStore)

/-- The action up to the end of its transaction. No block is the result true. -/
def receiveAction (send : SendBlock) (prv : Key) (representative : Account) :
    Check SpendAssertion (Option Block) := do
  let destination := send.hashables.destination
  require (destination ∈ current) .ownership
  let hash := S.ledger.hash (.sendBlock send)
  if (s.pendingGet hash).isSome then
    match s.accountGet destination with
    | some info =>
        return some (S.receiveBlock info.head hash prv destination
          (workFetch S generate w destination info.head))
    | none => do
        let block ← S.openBlock hash representative destination prv destination
          (workFetch S generate w destination destination)
        return some block
  else
    -- the ledger does not have this marked as available to receive any more
    return none

def changeAction (source representative : Account) : Check SpendAssertion (Option Block) := do
  require (source ∈ current) .ownership
  if !w.validPassword S.wallet then return none
  else if !w.existsKey source then return none
  else if latest s source = 0 then return none
  else do
    let info ← demand (s.accountGet source) .accountGet
    let (error, prv) := w.fetch S.wallet source 0
    require (error = false) .fetch
    return some (S.changeBlock info.head representative prv source
      (workFetch S generate w source info.head))

def sendAction (source destination : Account) (amount : Amount) :
    Check SpendAssertion (Option Block) := do
  require (source ∈ current) .ownership
  if !w.validPassword S.wallet then return none
  else if !w.existsKey source then return none
  else
    let balance := accountBalance s source
    if balance = 0 then return none
    else if balance.toNat < amount.toNat then return none
    else do
      let info ← demand (s.accountGet source) .accountGet
      let (error, prv) := w.fetch S.wallet source 0
      require (error = false) .fetch
      return some (S.sendBlock info.head destination (balance - amount) prv source
        (workFetch S generate w source info.head))

end Make

/-- What an action is asked to do, and the wallet it belongs to. -/
inductive Request (W : Type*) where
  | receive (wallet : W) (block : SendBlock) (prv : Key) (representative : Account)
  | change (wallet : W) (source representative : Account)
  | send (wallet : W) (source destination : Account) (amount : Amount)

namespace Request
variable {W : Type*}

def account : Request W → Account
  | receive _ block _ _ => block.hashables.destination
  | change _ source _ => source
  | send _ source _ _ => source

def wallet : Request W → W
  | receive wallet _ _ _ => wallet
  | change wallet _ _ => wallet
  | send wallet _ _ _ => wallet

def action (S : SpendEnv) (generate : BlockHash → Word64) (current : Finset Account) (s : Store)
    (w : WalletStore) : Request W → Check SpendAssertion (Option Block)
  | receive _ block prv representative =>
      receiveAction S generate current s w block prv representative
  | change _ source representative => changeAction S generate current s w source representative
  | send _ source destination amount => sendAction S generate current s w source destination amount

end Request

variable {S : SpendEnv} {E : Env} {W : Type*} {s s' : Store} {w : WalletStore} {a x : Account}
  {b c : Block} {p q root : BlockHash} {prv pub : Key} {generate : BlockHash → Word64}
  {current : Finset Account}

theorem workFetch_valid (hg : workValidate S.work root (generate root) = false) :
    workValidate S.work root (workFetch S generate w a root) = false := by
  unfold workFetch
  cases workGet w a with
  | none => exact hg
  | some work =>
      dsimp only
      split_ifs with h
      · exact hg
      · exact Bool.eq_false_iff.mpr h

theorem SpendEnv.Signs.seal (hS : S.Signs) (hpub : S.wallet.publicKey prv = pub)
    {block : Signature → Block} (hhash : ∀ y, S.ledger.hash (block y) = S.ledger.hash (block 0))
    (hsig : ∀ y, (block y).signature = y) :
    S.ledger.validateMessage pub (S.ledger.hash (S.seal prv pub block))
      (S.seal prv pub block).signature = false := by
  unfold SpendEnv.seal
  rw [hsig, hhash, ← hpub]
  exact hS prv _

theorem fetch_publicKey (h : (w.fetch S.wallet pub 0).1 = false) :
    S.wallet.publicKey (w.fetch S.wallet pub 0).2 = pub := by
  unfold WalletStore.fetch at h ⊢
  dsimp only at h ⊢
  split_ifs at h ⊢
  simpa using Eq.symm (by simpa using h)

section Prepared

/-- The block can be processed for the account: it is signed, extends the head or opens the
account, and has the money. -/
structure Prepared (E : Env) (s : Store) (a : Account) (b : Block) : Prop where
  signed : E.validateMessage a (E.hash b) b.signature = false
  onHead : ∀ p, b.previousLink = some p → ∃ i, s.accounts.get a = some i ∧ i.head = p
  opens : ∀ o, b = .openBlock o → o.hashables.account = a ∧ s.accounts.get a = none
  source : ∀ q, b.sourceLink = some q → ∃ r, s.pending.get q = some r ∧ r.destination = a
  covered : ∀ t, b = .sendBlock t → ∃ i, s.accounts.get a = some i ∧
    t.hashables.balance.toNat ≤ i.balance.toNat

def Apart (E : Env) (K : Block → Prop) : Prop :=
  ∀ b c, K b → K c → E.hash b = E.hash c → b.hashed = c.hashed

theorem hashed_previousLink (h : b.hashed = c.hashed) : b.previousLink = c.previousLink := by
  rcases (hashed_eq_iff b c).mp h with h | h
  · cases b <;> cases c <;> first | exact h.elim | simp_all [SameHashables, Block.previousLink]
  · cases b <;> cases c <;> first | exact h.elim | simp_all [Confusable, Block.previousLink]

theorem hashed_open {o : OpenBlock} (h : (Block.openBlock o).hashed = c.hashed) :
    ∃ o', c = .openBlock o' ∧ o'.hashables = o.hashables := by
  rcases (hashed_eq_iff _ c).mp h with h | h
  · cases c <;> first | exact h.elim | exact ⟨_, rfl, h.symm⟩
  · cases c <;> exact h.elim

theorem hashed_send {t : SendBlock} (h : (Block.sendBlock t).hashed = c.hashed) :
    ∃ t', c = .sendBlock t' ∧ t'.hashables = t.hashables := by
  rcases (hashed_eq_iff _ c).mp h with h | h
  · cases c <;> first | exact h.elim | exact ⟨_, rfl, h.symm⟩
  · cases c <;> exact h.elim

variable {K : Block → Prop}

/-- A block that can be processed is not stored: the chain ends before it. -/
theorem Prepared.fresh (hb : Prepared E s a b) (hs : Healthy E s) (hK : Apart E K)
    (hstored : ∀ h c, s.blockGet h = some c → K c) (hKb : K b) :
    s.blockGet (E.hash b) = none := by
  by_contra hne
  obtain ⟨c, hc⟩ := Option.ne_none_iff_exists'.mp hne
  have hhash : b.hashed = c.hashed :=
    hK b c hKb (hstored _ c hc) (hs.linked.chains.keyed _ c hc).symm
  cases hp : b.previousLink with
  | some p =>
      obtain ⟨i, hi, rfl⟩ := hb.onHead p hp
      exact (hs.linked.heads a i hi).2 _ ⟨c, hc, (hashed_previousLink hhash).symm.trans hp⟩
  | none =>
      cases b with
      | openBlock o =>
          obtain ⟨ho, hnone⟩ := hb.opens o rfl
          obtain ⟨o', rfl, ho'⟩ := hashed_open hhash
          have howner := (owner_open hc).mpr ((congrArg _ ho').trans ho)
          exact not_owner_of_unknown hs.linked hs.indexed hnone howner
      | sendBlock | receiveBlock | changeBlock => cases hp

theorem Prepared.fits (hb : Prepared E s a b) (hs : Healthy E s)
    (hfresh : s.blockGet (E.hash b) = none) : Fits E s.blockGet b a := by
  refine ⟨hfresh, ?_, fun o ho => (hb.opens o ho).1, ?_⟩
  · intro p hp
    obtain ⟨i, hi, rfl⟩ := hb.onHead p hp
    exact hs.linked.heads a i hi
  · intro q hq
    obtain ⟨r, hr, rfl⟩ := hb.source q hq
    obtain ⟨hsend, _, hnone⟩ := hs.linked.pending q r hr
    exact ⟨hsend, hnone⟩

theorem Prepared.passes (hE : Proper E) (hb : Prepared E s a b) (hs : Healthy E s)
    (hfresh : s.blockGet (E.hash b) = none) : Passes E s b := by
  refine passes_of_fits hE hs (hb.fits hs hfresh) hb.signed ?_ ?_
  · intro t ht
    obtain ⟨i, hi, hle⟩ := hb.covered t ht
    subst ht
    obtain ⟨j, hj, hp⟩ := hb.onHead _ rfl
    cases hi.symm.trans hj
    have hreplay := hs.funded.balances a i hi
    rw [hp] at hreplay
    exact ⟨_, hreplay, hle⟩
  · intro o ho k
    exact not_owner_of_unknown hs.linked hs.indexed (hb.opens o ho).2

theorem Prepared.account (hb : Prepared E s a b) (hs : Healthy E s) {info : AccountInfo}
    (hl : Placed E s b x info s') (hp : Posted E s x info s' b) : x = a := by
  cases hlink : b.previousLink with
  | some p =>
      obtain ⟨i, hi, hhead⟩ := hb.onHead p hlink
      obtain ⟨j, hj, hhead'⟩ := hl.onHead p hlink
      have ha := (hs.indexed.frontiers p a).mpr ⟨i, hi, hhead⟩
      have hx := (hs.indexed.frontiers p x).mpr ⟨j, hj, hhead'⟩
      exact Option.some.inj (hx.symm.trans ha)
  | none =>
      cases hp with
      | opened _ hx => exact hx.symm.trans (hb.opens _ rfl).1
      | send | receive | change => cases hlink

/-- What is pending for one account stays when a block of another is accepted. -/
theorem pending_kept {info : AccountInfo} {r : Receivable} (hs : Linked E s)
    (hl : Placed E s c x info s') (hp : Posted E s x info s' c) (hr : s.pending.get q = some r)
    (hd : r.destination ≠ x) : s'.pending.get q = some r := by
  have uncollected : ∀ {k r'}, s.pending.get k = some r' → r'.destination = x → q ≠ k := by
    rintro k r' hr' hd' rfl
    cases hr.symm.trans hr'
    exact hd hd'
  cases hp with
  | send _ _ _ _ hput =>
      have hne : q ≠ _ := fun h => by
        rw [h, hs.not_pending hl.fresh] at hr
        cases hr
      rw [hput, Table.get_put_ne _ _ hne]
      exact hr
  | receive _ hr' hd' _ _ _ hdel =>
      rw [hdel, Table.get_del_ne _ (uncollected hr' hd')]
      exact hr
  | opened _ _ hr' hd' _ _ _ hdel =>
      rw [hdel, Table.get_del_ne _ (uncollected hr' hd')]
      exact hr
  | change _ _ _ hsame =>
      rw [hsame]
      exact hr

theorem Prepared.accepted (hE : Proper E) (hb : Prepared E s a b) (hs : Healthy E s)
    {info : AccountInfo} (hl : Placed E s c x info s') (hp : Posted E s x info s' c)
    (hx : x ≠ a) : Prepared E s' a b := by
  have hsame : s'.accounts.get a = s.accounts.get a := by
    rw [placed_account hE.hashed hl, if_neg (Ne.symm hx)]
  refine ⟨hb.signed, ?_, ?_, ?_, ?_⟩
  · rw [hsame]
    exact hb.onHead
  · rw [hsame]
    exact hb.opens
  · intro q hq
    obtain ⟨r, hr, hd⟩ := hb.source q hq
    exact ⟨r, pending_kept hs.linked hl hp hr (fun h => hx (h.symm.trans hd)), hd⟩
  · rw [hsame]
    exact hb.covered

end Prepared

section Made

/-- The block is of the kind asked for. What a send leaves in the account and what it was asked to
send are what is there. -/
def Asked (E : Env) (s : Store) : Request W → Block → Prop
  | .receive _ block _ representative, b =>
      b.sourceLink = some (E.hash (.sendBlock block)) ∧
        ∀ o, b = .openBlock o → o.hashables.representative = representative
  | .change _ _ representative, b =>
      ∃ c, b = .changeBlock c ∧ c.hashables.representative = representative
  | .send _ source destination amount, b =>
      ∃ t i, b = .sendBlock t ∧ t.hashables.destination = destination ∧
        s.accounts.get source = some i ∧
        t.hashables.balance.toNat + amount.toNat = i.balance.toNat

/-- The block of an action that has not been processed yet. -/
structure Made (S : SpendEnv) (s : Store) (r : Request W) (b : Block) : Prop where
  prepared : Prepared S.ledger s r.account b
  work : workValidateBlock S.work b = false
  asked : Asked S.ledger s r b

def Request.Keyed (S : SpendEnv) (K : Block → Prop) : Request W → Prop
  | .receive _ block prv _ =>
      S.wallet.publicKey prv = block.hashables.destination ∧ K (.sendBlock block)
  | _ => True

variable {K : Block → Prop} {r : Request W} (hS : S.Signs)
  (hg : ∀ root, workValidate S.work root (generate root) = false)
include hS hg

omit hS hg in
theorem of_made {P : Prop} [Decidable P] {next : Check SpendAssertion (Option Block)}
    (h : (if P then pure none else next) = .ok (some b)) : ¬ P ∧ next = .ok (some b) := by
  by_cases hP : P
  · rw [if_pos hP] at h
    cases h
  · rw [if_neg hP] at h
    exact ⟨hP, h⟩

/-- A send that is pending is pending for its destination. -/
theorem receiveAction_made {i : W} {t : SendBlock} {representative : Account}
    (hs : Healthy S.ledger s) (hK : Apart S.ledger K)
    (hstored : ∀ h c, s.blockGet h = some c → K c)
    (hr : (Request.receive i t prv representative).Keyed S K)
    (h : receiveAction S generate current s w t prv representative = .ok (some b)) :
    Made S s (Request.receive i t prv representative) b := by
  obtain ⟨hprv, hKt⟩ := hr
  obtain ⟨_, _, h⟩ := bind_eq_ok.mp h
  dsimp only at h
  split_ifs at h with hpending
  · obtain ⟨v, hv⟩ := Option.isSome_iff_exists.mp hpending
    have hdest : v.destination = t.hashables.destination := by
      obtain ⟨⟨t', ht', hd⟩, _⟩ := hs.linked.pending _ v hv
      have hhash := hK _ _ hKt (hstored _ _ ht') (hs.linked.chains.keyed _ _ ht').symm
      obtain ⟨_, he, hsame⟩ := hashed_send hhash
      cases he
      rw [← hd, hsame]
    have hsource : ∀ q, some (S.ledger.hash (.sendBlock t)) = some q →
        ∃ r, s.pending.get q = some r ∧ r.destination = t.hashables.destination := by
      rintro q hq
      cases hq
      exact ⟨v, hv, hdest⟩
    cases haccount : s.accountGet t.hashables.destination with
    | some info =>
        rw [haccount] at h
        cases h
        refine ⟨⟨?_, ?_, ?_, hsource, ?_⟩, ?_, rfl, ?_⟩
        · exact hS.seal hprv (fun _ => rfl) (fun _ => rfl)
        · rintro p hp
          cases hp
          exact ⟨info, haccount, rfl⟩
        · exact fun o ho => by cases ho
        · exact fun t ht => by cases ht
        · exact workFetch_valid (hg _)
        · exact fun o ho => by cases ho
    | none =>
        rw [haccount] at h
        obtain ⟨b', hopen, h⟩ := bind_eq_ok.mp h
        cases h
        obtain ⟨_, _, hopen⟩ := bind_eq_ok.mp hopen
        cases hopen
        refine ⟨⟨?_, ?_, ?_, hsource, ?_⟩, ?_, rfl, ?_⟩
        · exact hS.seal hprv (fun _ => rfl) (fun _ => rfl)
        · exact fun p hp => by cases hp
        · rintro o ho
          cases ho
          exact ⟨rfl, haccount⟩
        · exact fun t ht => by cases ht
        · exact workFetch_valid (hg _)
        · rintro o ho
          cases ho
          rfl
  · cases h

theorem changeAction_made {i : W} {source representative : Account}
    (h : changeAction S generate current s w source representative = .ok (some b)) :
    Made S s (Request.change i source representative) b := by
  obtain ⟨_, _, h⟩ := bind_eq_ok.mp h
  obtain ⟨_, h⟩ := of_made h
  obtain ⟨_, h⟩ := of_made h
  obtain ⟨_, h⟩ := of_made h
  obtain ⟨info, hinfo, h⟩ := bind_eq_ok.mp h
  obtain ⟨_, hfetch, h⟩ := bind_eq_ok.mp h
  cases h
  have hprv := fetch_publicKey (require_eq_ok.mp hfetch)
  refine ⟨⟨?_, ?_, ?_, ?_, ?_⟩, ?_, _, rfl, rfl⟩
  · exact hS.seal hprv (fun _ => rfl) (fun _ => rfl)
  · rintro p hp
    cases hp
    exact ⟨info, demand_eq_ok.mp hinfo, rfl⟩
  · exact fun o ho => by cases ho
  · exact fun q hq => by cases hq
  · exact fun t ht => by cases ht
  · exact workFetch_valid (hg _)

theorem sendAction_made {i : W} {source destination : Account} {amount : Amount}
    (h : sendAction S generate current s w source destination amount = .ok (some b)) :
    Made S s (Request.send i source destination amount) b := by
  obtain ⟨_, _, h⟩ := bind_eq_ok.mp h
  obtain ⟨_, h⟩ := of_made h
  obtain ⟨_, h⟩ := of_made h
  obtain ⟨_, h⟩ := of_made h
  obtain ⟨hamount, h⟩ := of_made h
  obtain ⟨info, hinfo, h⟩ := bind_eq_ok.mp h
  obtain ⟨_, hfetch, h⟩ := bind_eq_ok.mp h
  cases h
  have hprv := fetch_publicKey (require_eq_ok.mp hfetch)
  have hinfo : s.accounts.get source = some info := demand_eq_ok.mp hinfo
  have hbalance : accountBalance s source = info.balance := by
    unfold accountBalance Store.accountGet
    rw [hinfo]
  rw [hbalance] at hamount ⊢
  have hleft : (info.balance - amount).toNat + amount.toNat = info.balance.toNat := by
    rw [BitVec.toNat_sub_of_le (by exact BitVec.le_def.mpr (Nat.not_lt.mp hamount))]
    omega
  refine ⟨⟨?_, ?_, ?_, ?_, ?_⟩, ?_, _, info, rfl, rfl, hinfo, hleft⟩
  · exact hS.seal hprv (fun _ => rfl) (fun _ => rfl)
  · rintro p hp
    cases hp
    exact ⟨info, hinfo, rfl⟩
  · exact fun o ho => by cases ho
  · exact fun q hq => by cases hq
  · rintro t ht
    cases ht
    exact ⟨info, hinfo, Nat.le.intro hleft⟩
  · exact workFetch_valid (hg _)

theorem action_made (hs : Healthy S.ledger s) (hK : Apart S.ledger K)
    (hstored : ∀ h c, s.blockGet h = some c → K c) (hr : r.Keyed S K)
    (h : r.action S generate current s w = .ok (some b)) : Made S s r b := by
  cases r with
  | receive i t prv representative => exact receiveAction_made hS hg hs hK hstored hr h
  | change i source representative => exact changeAction_made hS hg h
  | send i source destination amount => exact sendAction_made hS hg h

end Made

section Fulfilled

/-- The stored block does what was asked. -/
def Answers (E : Env) (B : Lattice) : Request W → Block → Prop
  | .receive _ block _ representative, b =>
      b.sourceLink = some (E.hash (.sendBlock block)) ∧
        ∀ o, b = .openBlock o → o.hashables.representative = representative
  | .change _ _ representative, b =>
      ∃ c, b = .changeBlock c ∧ c.hashables.representative = representative
  | .send _ _ destination amount, b =>
      (∃ t, b = .sendBlock t ∧ t.hashables.destination = destination) ∧
        Sent E B (E.hash b) amount.toNat

/-- The block of an action that the ledger has accepted. -/
structure Fulfilled (S : SpendEnv) (s : Store) (r : Request W) (b : Block) : Prop where
  stored : s.blockGet (S.ledger.hash b) = some b
  owner : Owner s.blockGet (S.ledger.hash b) r.account
  work : workValidateBlock S.work b = false
  answers : Answers S.ledger s.blockGet r b

variable {r : Request W}

theorem Made.accepted {info : AccountInfo} (hE : Proper S.ledger) (hb : Made S s r b)
    (hs : Healthy S.ledger s) (hl : Placed S.ledger s c x info s')
    (hp : Posted S.ledger s x info s' c) (hx : x ≠ r.account) : Made S s' r b := by
  refine ⟨hb.prepared.accepted hE hs hl hp hx, hb.work, ?_⟩
  have hasked := hb.asked
  cases r with
  | receive | change => exact hasked
  | send i source destination amount =>
      obtain ⟨t, j, ht, hdest, hj, hsum⟩ := hasked
      have hne : source ≠ x := Ne.symm hx
      refine ⟨t, j, ht, hdest, ?_, hsum⟩
      rw [placed_account hE.hashed hl, if_neg hne]
      exact hj

theorem Fulfilled.within (hf : Fulfilled S s r b) (hw : Within s.blockGet s'.blockGet) :
    Fulfilled S s' r b := by
  refine ⟨hw _ _ hf.stored, hf.owner.within hw, hf.work, ?_⟩
  have ha := hf.answers
  cases r with
  | receive | change => exact ha
  | send =>
      obtain ⟨hkind, t, v, ht, hv, hle, hd⟩ := ha
      exact ⟨hkind, t, v, hw _ _ ht, hv.within hw, hle, hd⟩

/-- What the block says of the account is still so when it is accepted. -/
theorem Made.fulfilled (hb : Made S s r b) (hs : Healthy S.ledger s)
    (ha : Accepted S.ledger s b s') : Fulfilled S s' r b := by
  obtain ⟨x, info, hl, hp⟩ := ha
  have hx := hb.prepared.account hs hl hp
  have hfits := hs.linked.fits hl hp
  rw [hx] at hfits
  have howner : Owner s'.blockGet (S.ledger.hash b) r.account := by
    rw [hl.blocks]
    exact hfits.owner
  refine ⟨hl.stored, howner, hb.work, ?_⟩
  have hasked := hb.asked
  cases r with
  | receive | change => exact hasked
  | send i source destination amount =>
      obtain ⟨t, j, rfl, hdest, hj, hsum⟩ := hasked
      obtain ⟨j', hj', hhead⟩ := hb.prepared.onHead _ rfl
      cases hj.symm.trans hj'
      have hreplay := (hs.funded.balances _ j hj).within hl.within
      rw [hhead] at hreplay
      exact ⟨⟨t, rfl, hdest⟩, t, _, hl.stored, hreplay, Nat.le.intro hsum, by omega⟩

end Fulfilled

section Trimmed
variable {m : Store} {i : AccountInfo} {r : Request W}

theorem head_kept (hs : Healthy E s) (hm : Healthy E m) (hw : Within m.blockGet s.blockGet)
    (hi : s.accounts.get a = some i) (hkept : m.blockGet i.head ≠ none) :
    ∃ j, m.accounts.get a = some j ∧ j.head = i.head ∧ j.balance = i.balance := by
  obtain ⟨howner, htop⟩ := hs.linked.heads a i hi
  obtain ⟨c, hc⟩ := Option.ne_none_iff_exists'.mp hkept
  have howner' := hm.linked.chains.owner_of_within hw hc howner
  obtain ⟨j, hj, hhead, _⟩ := hm.top_account howner' (fun k hk => htop k (hw.link hk))
  have hbalance := (hm.funded.balances a j hj).within hw
  rw [hhead] at hbalance
  exact ⟨j, hj, hhead, BitVec.eq_of_toNat_eq (hbalance.unique (hs.funded.balances a i hi))⟩

theorem unknown_kept (hs : Healthy E s) (hm : Healthy E m) (hw : Within m.blockGet s.blockGet)
    (hn : s.accounts.get a = none) : m.accounts.get a = none := by
  by_contra hne
  obtain ⟨j, hj⟩ := Option.ne_none_iff_exists'.mp hne
  exact not_owner_of_unknown hs.linked hs.indexed hn ((hm.linked.heads a j hj).1.within hw)

/-- Blocks are removed, but none of the account and nothing that was sent to it. -/
theorem Prepared.trimmed (hb : Prepared E s a b) (hs : Healthy E s) (hm : Healthy E m)
    (hw : Within m.blockGet s.blockGet)
    (hkept : ∀ k, Owner s.blockGet k a → m.blockGet k ≠ none)
    (hsends : ∀ q t, s.blockGet q = some (.sendBlock t) → t.hashables.destination = a →
      m.blockGet q ≠ none) : Prepared E m a b := by
  have hhead : ∀ i, s.accounts.get a = some i → ∃ j, m.accounts.get a = some j ∧
      j.head = i.head ∧ j.balance = i.balance :=
    fun i hi => head_kept hs hm hw hi (hkept _ (hs.linked.heads a i hi).1)
  refine ⟨hb.signed, ?_, ?_, ?_, ?_⟩
  · intro p hp
    obtain ⟨i, hi, rfl⟩ := hb.onHead p hp
    obtain ⟨j, hj, hh, _⟩ := hhead i hi
    exact ⟨j, hj, hh⟩
  · intro o ho
    obtain ⟨hoa, hnone⟩ := hb.opens o ho
    exact ⟨hoa, unknown_kept hs hm hw hnone⟩
  · intro q hq
    obtain ⟨r, hr, hd⟩ := hb.source q hq
    obtain ⟨⟨t, ht, hdest⟩, _, huncollected⟩ := hs.linked.pending q r hr
    obtain ⟨c, hc⟩ := Option.ne_none_iff_exists'.mp (hsends q t ht (hdest.trans hd))
    cases ht.symm.trans (hw q c hc)
    obtain ⟨_, r', hr', hd'⟩ := hm.pending_send hc (hdest.trans hd)
      (fun k hk => huncollected k (hw.link hk))
    exact ⟨r', hr', hd'⟩
  · intro t ht
    obtain ⟨i, hi, hle⟩ := hb.covered t ht
    obtain ⟨j, hj, _, hbalance⟩ := hhead i hi
    exact ⟨j, hj, hbalance ▸ hle⟩

theorem Made.trimmed (hb : Made S s r b) (hs : Healthy S.ledger s) (hm : Healthy S.ledger m)
    (hw : Within m.blockGet s.blockGet)
    (hkept : ∀ k, Owner s.blockGet k r.account → m.blockGet k ≠ none)
    (hsends : ∀ q t, s.blockGet q = some (.sendBlock t) →
      t.hashables.destination = r.account → m.blockGet q ≠ none) : Made S m r b := by
  refine ⟨hb.prepared.trimmed hs hm hw hkept hsends, hb.work, ?_⟩
  have hasked := hb.asked
  cases r with
  | receive | change => exact hasked
  | send k source destination amount =>
      obtain ⟨t, i, ht, hdest, hi, hsum⟩ := hasked
      obtain ⟨j, hj, _, hbalance⟩ := head_kept hs hm hw hi (hkept _ (hs.linked.heads source i hi).1)
      exact ⟨t, j, ht, hdest, hj, hbalance ▸ hsum⟩

theorem Fulfilled.trimmed (hf : Fulfilled S s r b) (hm : Healthy S.ledger m)
    (hw : Within m.blockGet s.blockGet) (hkept : m.blockGet (S.ledger.hash b) ≠ none) :
    Fulfilled S m r b := by
  obtain ⟨c, hc⟩ := Option.ne_none_iff_exists'.mp hkept
  cases hf.stored.symm.trans (hw _ c hc)
  refine ⟨hc, hm.linked.chains.owner_of_within hw hc hf.owner, hf.work, ?_⟩
  have ha := hf.answers
  cases r with
  | receive | change => exact ha
  | send k source destination amount =>
      obtain ⟨⟨t, rfl, hdest⟩, hsent⟩ := ha
      obtain ⟨d, hd⟩ := hm.funded.sends _ t hc
      cases (hd.within hw).unique hsent
      exact ⟨⟨t, rfl, hdest⟩, hd⟩

end Trimmed

end PaperNode.WalletSpending
