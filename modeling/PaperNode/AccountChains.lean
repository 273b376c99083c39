import PaperNode.LedgerRuns

/-!
# One chain per account

In every ledger of every run, the stored blocks are the disjoint union of the
accounts' chains, each with one open block at its bottom and the account's head
at its top, and every block in a chain is signed by the account.

The root of a block is what it competes for: its predecessor, or the account for
an open block. Two blocks that both extend a chain never have one root, nor do
two open blocks. An open block and another block can: an account number may be
the hash of a stored block.
-/
namespace PaperNode.AccountChains
open BoundedRecursion OrderedTable LinkedNodes TransitionRuns Blocks BlockStore LedgerQueries
open BlockLattice QueryCorrectness ChainInvariant IndexInvariant RollbackRuns LedgerRuns

/-- The blocks reached from the account's head by previous links. -/
def InChain (s : Store) (a : Account) (h : BlockHash) : Prop :=
  ∃ i, s.accounts.get a = some i ∧ Reach s.blockGet Previous i.head h

variable {E : Env} {s : Store} {h k : BlockHash} {a : Account} {b c : Block}

theorem inChain_owner (hs : Linked E s) (hc : InChain s a h) : Owner s.blockGet h a := by
  obtain ⟨i, hi, hr⟩ := hc
  exact (Owner.reach hr).mp (hs.heads a i hi).1

theorem inChain_iff_owner (hs : Linked E s) (hi : Indexed E s) :
    InChain s a h ↔ Owner s.blockGet h a :=
  ⟨inChain_owner hs, fun ho => exists_head hs hi ho⟩

/-- Every stored block but the genesis block carries a signature that is good
for the account whose chain it is in. -/
theorem stored_block_signed (hs : Reachable E s) (hb : s.blockGet h = some b)
    (hg : b ≠ genesisBlock E) :
    (∃ a, Owner s.blockGet h a) ∧ ∀ a, Owner s.blockGet h a ∨ InChain s a h →
      E.validateMessage a (E.hash b) b.signature = false := by
  have hl := (reachable_sound hs).linked
  refine ⟨hl.chains.exists_owner hb, ?_⟩
  intro a ha
  have ho : Owner s.blockGet h a := by
    rcases ha with ho | hc
    · exact ho
    · exact inChain_owner hl hc
  rw [hl.chains.keyed h b hb]
  exact hl.signed h b a hb hg ho

theorem stored_block_signed_open : ∃ s, Reachable smallNetwork s ∧
    InChain s firstAccount open₁Hash ∧
    smallNetwork.validateMessage firstAccount (smallNetwork.hash open₁) open₁.signature =
      false := by
  obtain ⟨s, hs, _, hb, hhead⟩ := exists_opened
  obtain ⟨i, hi, hh⟩ := Option.map_eq_some_iff.mp hhead
  have hc : InChain s firstAccount open₁Hash := ⟨i, hi, hh ▸ Relation.ReflTransGen.refl⟩
  exact ⟨s, hs, hc, (stored_block_signed hs hb (by decide)).2 _ (Or.inr hc)⟩

theorem root_of_previous (hp : b.previousLink = some h) : b.root = h := by
  cases b with
  | openBlock o => cases hp
  | sendBlock t | receiveBlock t | changeBlock t =>
      cases hp
      rfl

/-- Two stored blocks of one kind with one root are one block. -/
theorem root_unique (hs : Linked E s) (hi : Indexed E s) (hb : s.blockGet h = some b)
    (hc : s.blockGet k = some c) (hr : b.root = c.root) (ho : IsOpen b ↔ IsOpen c) : h = k := by
  cases hp : b.previousLink with
  | none =>
      have hq : c.previousLink = none := ho.mp hp
      cases b with
      | sendBlock t | receiveBlock t | changeBlock t => cases hp
      | openBlock o =>
          cases c with
          | sendBlock t | receiveBlock t | changeBlock t => cases hq
          | openBlock o' => exact open_unique hs hi hb hc hr
  | some p =>
      cases hq : c.previousLink with
      | none => cases (ho.mpr hq).symm.trans hp
      | some q =>
          have hpq : p = q := by
            rw [← root_of_previous hp, ← root_of_previous hq]
            exact hr
          subst hpq
          exact hs.chains.oneSuccessor h k p ⟨b, hb, hp⟩ ⟨c, hc, hq⟩

theorem collects_of_source {q : BlockHash} {t : SendBlock} (hE : Proper E) (hs : Linked E s)
    (hq : s.blockGet q = some (.sendBlock t)) (hsrc : b.sourceLink = some q) : Collects E b q := by
  refine ⟨?_, hsrc⟩
  intro hg
  subst hg
  cases hsrc
  have hn : s.blockGet E.genesisAccount = none := (Linked.bottomed hE.hashed hs).genesis
  have hq : s.blockGet E.genesisAccount = some (.sendBlock t) := hq
  rw [hn] at hq
  cases hq

/-- Every stored block is in exactly one account's chain; the chain of an
account ends in the one open block of that account; no two stored blocks that
are both open or both not open have one root; no hash is in two block tables;
no stored send is the source of two stored blocks. -/
theorem one_chain_per_account (hE : Proper E) (hs : Reachable E s) :
    (∀ h b, s.blockGet h = some b → ∃! a, InChain s a h) ∧
    (∀ a h, InChain s a h → ∃ r o, Reach s.blockGet Previous h r ∧
      s.blockGet r = some (.openBlock o) ∧ o.hashables.account = a ∧
      ∀ r' o', s.blockGet r' = some (.openBlock o') →
        InChain s a r' ∨ o'.hashables.account = a → r' = r) ∧
    (∀ h k b c, s.blockGet h = some b → s.blockGet k = some c → b.root = c.root →
      (IsOpen b ↔ IsOpen c) → h = k) ∧
    (∀ h, s.holding h ≤ 1) ∧
    (∀ h k b c q t, s.blockGet h = some b → s.blockGet k = some c →
      s.blockGet q = some (.sendBlock t) → b.sourceLink = some q → c.sourceLink = some q →
      h = k) := by
  have hl := (reachable_sound hs).linked
  have hi := (reachable_sound hs).indexed hE.hashed
  refine ⟨?_, ?_, ?_, hl.exclusive, ?_⟩
  · intro h b hb
    obtain ⟨a, ha⟩ := hl.chains.exists_owner hb
    refine ⟨a, (inChain_iff_owner hl hi).mpr ha, ?_⟩
    intro a' ha'
    exact (inChain_owner hl ha').unique ha
  · intro a h hc
    obtain ⟨r, o, hn, ho, ha⟩ := inChain_owner hl hc
    refine ⟨r, o, hn.reach, ho, ha, ?_⟩
    intro r' o' ho' hr'
    have ha' : o'.hashables.account = a := by
      rcases hr' with hr' | ha'
      · exact (owner_open ho').mp (inChain_owner hl hr')
      · exact ha'
    exact open_unique hl hi ho' ho (ha'.trans ha.symm)
  · intro h k b c hb hc hr ho
    exact root_unique hl hi hb hc hr ho
  · intro h k b c q t hb hc hq hbq hcq
    exact hl.chains.oneCollector h k q ⟨b, hb, collects_of_source hE hl hq hbq⟩
      ⟨c, hc, collects_of_source hE hl hq hcq⟩

theorem one_chain_per_account_send : ∃ s, Reachable smallNetwork s ∧
    s.blockGet send₁Hash = some send₁ ∧ ∃! a, InChain s a send₁Hash := by
  obtain ⟨s, hs, hb, _⟩ := exists_opened
  exact ⟨s, hs, hb, (one_chain_per_account smallNetwork_proper hs).1 _ _ hb⟩

/-- The loop takes account zero for "not found yet" and never leaves the open block, or
the receive block, that yields it. -/
theorem account_zero_ne_ok {B : Lattice} {fuel : ℕ} (hB : Addressed B) (ho : Owner B h 0) :
    account B fuel h ≠ .ok a := by
  intro hx
  obtain ⟨hown, hne⟩ := account_ok hB hx
  exact hne (hown.unique ho)

/-- `ledger.account` returns the owner of a stored block exactly when that is not account
zero. The send a receive block collects names the same account as the open block. -/
theorem account_finds_owner_iff (hs : Reachable E s) (hb : s.blockGet h = some b) :
    ∃ a, Owner s.blockGet h a ∧ (∀ x, InChain s x h → x = a) ∧
      (Settles (fun n => account s.blockGet n h) a ↔ a ≠ 0) ∧
      ∀ c, b = .receiveBlock c → ∃ t, s.blockGet c.hashables.source = some (.sendBlock t) ∧
        t.hashables.destination = a := by
  have hl := (reachable_sound hs).linked
  have hB := hl.chains.addressed
  obtain ⟨a, ho⟩ := hl.chains.exists_owner hb
  refine ⟨a, ho, fun x hx => (inChain_owner hl hx).unique ho, ?_, ?_⟩
  · constructor
    · intro hset ha
      subst ha
      obtain ⟨n, hn⟩ := hset.exists_ok
      exact account_zero_ne_ok hB ho hn
    · exact fun ha => account_settles hB ho ha
  · intro c hc
    subst hc
    obtain ⟨t, ht, hd⟩ := hB h c hb
    exact ⟨t, ht, hd.unique ho⟩

theorem account_finds_owner_send : ∃ s a, Reachable smallNetwork s ∧
    s.blockGet send₁Hash = some send₁ ∧ Owner s.blockGet send₁Hash a ∧
    (Settles (fun n => account s.blockGet n send₁Hash) a ↔ a ≠ 0) := by
  obtain ⟨s, hs, hb, _⟩ := exists_opened
  obtain ⟨a, ho, _, hiff, _⟩ := account_finds_owner_iff hs hb
  exact ⟨s, a, hs, hb, ho, hiff⟩

/-- The genesis account sends 100 to account zero, which opens with it. -/
def sendZeroHash : BlockHash := 0x2b57887af2ed56bb2d0e1c1a508228ef928706fabcb311a1614c4e43c710eb46

def sendZero : Block := .sendBlock ⟨⟨testGenesisHash, 0, LedgerQueries.genesisAmount - 100⟩, 1, 0⟩

def openZeroHash : BlockHash := 0x62413586ecc8a263e3cb5f5f3c14a4288c01b69ae365ab0d17725d70ae69639b

def openZero : Block := .openBlock ⟨⟨sendZeroHash, firstAccount, 0⟩, 1, 0⟩

/-- The small network with these two blocks and a signature for account zero. -/
def zeroNetwork : Env :=
  { smallNetwork with
    blake2b := fun bytes =>
      if bytes = sendZero.hashed then sendZeroHash
      else if bytes = openZero.hashed then openZeroHash
      else smallNetwork.blake2b bytes
    validateMessage := fun a h sig =>
      smallNetwork.validateMessage a h sig && !decide (a = paperTestAccount ∧ h = sendZeroHash) &&
        !decide (a = 0 ∧ h = openZeroHash) }

/-- Asked for the account of its open block, the ledger never answers. -/
theorem account_of_zero_unanswered : ¬ ∀ E s h b a, Reachable E s → s.blockGet h = some b →
    Owner s.blockGet h a → Settles (fun n => account s.blockGet n h) a := by
  intro hall
  have hrun : executes zeroNetwork 20 [.process sendZero, .process openZero] (fun s =>
      decide (s.blockGet openZeroHash = some openZero)) = true := by
    decide +kernel
  obtain ⟨s, hx, ht⟩ := exists_of_executes hrun
  have hs := execute_reachable hx
  have hb := of_decide_eq_true ht
  have ho : Owner s.blockGet openZeroHash 0 := (owner_open hb).mpr rfl
  obtain ⟨n, hn⟩ := (hall zeroNetwork s openZeroHash openZero 0 hs hb ho).exists_ok
  exact account_zero_ne_ok (reachable_sound hs).linked.chains.addressed ho hn

/-- The small network with a signature for the account numbered by the genesis
hash. -/
def oddNetwork : Env :=
  { smallNetwork with
    validateMessage := fun a h sig =>
      smallNetwork.validateMessage a h sig && !decide (a = testGenesisHash ∧ h = openOddHash) }

/-- The genesis account sends to the account numbered by the genesis hash. The
send's root is the genesis hash, and so is that of the account's open block. -/
theorem open_shares_root : ¬ ∀ E s, Proper E → Reachable E s →
    ∀ h k b c, s.blockGet h = some b → s.blockGet k = some c → b.root = c.root → h = k := by
  intro hall
  have hE : Proper oddNetwork :=
    { hash_ne_zero := smallNetwork_proper.hash_ne_zero
      hash_ne_genesis := smallNetwork_proper.hash_ne_genesis
      zero_rejected := by
        intro h sig
        have hz := smallNetwork_proper.zero_rejected h sig
        simpa [oddNetwork, testGenesisHash] using hz }
  have hrun : executes oddNetwork 20 [.process sendOdd, .process openOdd] (fun s =>
      decide (s.blockGet sendOddHash = some sendOdd) &&
        decide (s.blockGet openOddHash = some openOdd)) = true := by
    decide +kernel
  obtain ⟨s, hx, ht⟩ := exists_of_executes hrun
  simp only [Bool.and_eq_true, decide_eq_true_eq] at ht
  have he := hall oddNetwork s hE (execute_reachable hx) _ _ _ _ ht.1 ht.2 rfl
  exact absurd he (by decide)

end PaperNode.AccountChains
