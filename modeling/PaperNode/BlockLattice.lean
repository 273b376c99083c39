import PaperNode.LinkedNodes
import PaperNode.LedgerProcess

/-!
# What a set of stored blocks means

The ledger's tables are meant to be a function of the stored blocks alone. This
module says which function, with no table in sight: whose chain a block is in,
which block names the representative in force, what the balance of the owner is
after a block, and which sends a block takes the money of. A lattice is any
partial map from hashes to blocks.

The genesis block has no predecessor and takes no send: its source field holds
the genesis account, which is not the hash of a block.
-/
namespace PaperNode.BlockLattice
open LinkedNodes Blocks BlockStore LedgerQueries LedgerProcess

abbrev Lattice := BlockHash → Option Block

def genesisBlock (E : Env) : Block := .openBlock (genesisOpen E)

def IsOpen (b : Block) : Prop := b.previousLink = none

def NamesRepresentative : Block → Prop
  | .openBlock _ | .changeBlock _ => True
  | .sendBlock _ | .receiveBlock _ => False

abbrev Previous : Block → BlockHash → Prop := Parent Block.previousLink

def Names (b : Block) (p : BlockHash) : Prop := b.previousLink = some p ∨ b.sourceLink = some p

instance decidableNames (b : Block) (p : BlockHash) : Decidable (Names b p) :=
  inferInstanceAs (Decidable (_ ∨ _))

/-- The block takes the money of the send `q`. -/
def Collects (E : Env) (b : Block) (q : BlockHash) : Prop :=
  b ≠ genesisBlock E ∧ b.sourceLink = some q

/-- The blocks a block needs: its predecessor and the send it collects. -/
def Needs (E : Env) (b : Block) (p : BlockHash) : Prop := Previous b p ∨ Collects E b p

/-- The account of the open block at the bottom of the chain. -/
def Owner (B : Lattice) (h : BlockHash) (a : Account) : Prop :=
  ∃ r o, Nearest B Block.previousLink IsOpen h r ∧ B r = some (.openBlock o) ∧
    o.hashables.account = a

/-- The last block at or before `h` in its chain that names a representative. -/
def RepBlock (B : Lattice) (h r : BlockHash) : Prop :=
  Nearest B Block.previousLink NamesRepresentative h r

/-- The balance of the owner after `h`, by replaying the chain from its open
block. A send states the new balance; what it sent is the difference to the
balance before it, and that is what its receiver gains. -/
inductive Replay (E : Env) (B : Lattice) : BlockHash → ℕ → Prop
  | genesis {h : BlockHash} : B h = some (genesisBlock E) →
      Replay E B h genesisAmount.toNat
  | opened {h : BlockHash} {o : OpenBlock} {t : SendBlock} {w : ℕ} :
      o ≠ genesisOpen E → B h = some (.openBlock o) →
      B o.hashables.source = some (.sendBlock t) → Replay E B t.hashables.previous w →
      t.hashables.balance.toNat ≤ w →
      Replay E B h (w - t.hashables.balance.toNat)
  | sent {h : BlockHash} {t : SendBlock} : B h = some (.sendBlock t) →
      Replay E B h t.hashables.balance.toNat
  | received {h : BlockHash} {c : ReceiveBlock} {t : SendBlock} {v w : ℕ} :
      B h = some (.receiveBlock c) → Replay E B c.hashables.previous v →
      B c.hashables.source = some (.sendBlock t) → Replay E B t.hashables.previous w →
      t.hashables.balance.toNat ≤ w →
      Replay E B h (v + (w - t.hashables.balance.toNat))
  | changed {h : BlockHash} {c : ChangeBlock} {v : ℕ} : B h = some (.changeBlock c) →
      Replay E B c.hashables.previous v → Replay E B h v

/-- The send `q` moved `d` out of its account. -/
def Sent (E : Env) (B : Lattice) (q : BlockHash) (d : ℕ) : Prop :=
  ∃ t w, B q = some (.sendBlock t) ∧ Replay E B t.hashables.previous w ∧
    t.hashables.balance.toNat ≤ w ∧ d = w - t.hashables.balance.toNat

variable {E : Env} {B C : Lattice} {h p r : BlockHash} {a : Account} {b : Block}

theorem owner_open {o : OpenBlock} (hb : B h = some (.openBlock o)) :
    Owner B h a ↔ o.hashables.account = a := by
  constructor
  · intro ⟨r, o', hn, ho, ha⟩
    have hr := hn.unique (.here hb rfl)
    subst hr
    cases hb.symm.trans ho
    exact ha
  · intro ha
    exact ⟨h, o, .here hb rfl, hb, ha⟩

theorem owner_previous (hb : B h = some b) (hp : b.previousLink = some p) :
    Owner B h a ↔ Owner B p a := by
  have hn : ¬ IsOpen b := by
    intro ho
    cases ho.symm.trans hp
  constructor
  · intro ⟨r, o, hr, ho, ha⟩
    cases hr with
    | here hb' hopen =>
        cases hb.symm.trans hb'
        exact absurd hopen hn
    | back hb' _ hp' hr =>
        cases hb.symm.trans hb'
        cases hp.symm.trans hp'
        exact ⟨r, o, hr, ho, ha⟩
  · intro ⟨r, o, hr, ho, ha⟩
    exact ⟨r, o, .back hb hn hp hr, ho, ha⟩

theorem Owner.unique {a' : Account} (ha : Owner B h a) (ha' : Owner B h a') : a = a' := by
  obtain ⟨r, o, hn, ho, rfl⟩ := ha
  obtain ⟨r', o', hn', ho', rfl⟩ := ha'
  have hr := hn.unique hn'
  subst hr
  cases ho.symm.trans ho'
  rfl

theorem Owner.stored (ha : Owner B h a) : B h ≠ none := by
  obtain ⟨r, o, hn, _⟩ := ha
  cases hn with
  | here hb _ => simp [hb]
  | back hb _ _ _ => simp [hb]

theorem Owner.within (hw : Within B C) (ha : Owner B h a) : Owner C h a := by
  obtain ⟨r, o, hn, ho, rfl⟩ := ha
  exact ⟨r, o, hn.within hw, hw _ _ ho, rfl⟩

theorem Owner.reach (hr : Reach B Previous h p) : Owner B h a ↔ Owner B p a := by
  induction hr with
  | refl => exact Iff.rfl
  | tail _ hl ih =>
      obtain ⟨c, hc, hp⟩ := hl
      exact ih.trans (owner_previous hc hp)

theorem Owner.erase {k : BlockHash} (hk : ∀ j, ¬ Link B Previous j k) (hne : h ≠ k)
    (ha : Owner B h a) : Owner (Function.update B k none) h a := by
  obtain ⟨r, o, hn, ho, rfl⟩ := ha
  have hr : r ≠ k := by
    intro hrk
    subst hrk
    rcases Relation.ReflTransGen.cases_tail hn.reach with rfl | ⟨c, _, hl⟩
    · exact hne rfl
    · exact hk c hl
  exact ⟨r, o, hn.erase hk hne, by rw [Function.update_of_ne hr]; exact ho, rfl⟩

theorem repBlock_here (hb : B h = some b) (hn : NamesRepresentative b) :
    RepBlock B h r ↔ r = h := by
  constructor
  · intro hr
    exact hr.unique (.here hb hn)
  · intro hr
    subst hr
    exact .here hb hn

theorem repBlock_previous (hb : B h = some b) (hn : ¬ NamesRepresentative b)
    (hp : b.previousLink = some p) : RepBlock B h r ↔ RepBlock B p r := by
  constructor
  · intro hr
    cases hr with
    | here hb' hn' =>
        cases hb.symm.trans hb'
        exact absurd hn' hn
    | back hb' _ hp' hr =>
        cases hb.symm.trans hb'
        cases hp.symm.trans hp'
        exact hr
  · intro hr
    exact .back hb hn hp hr

theorem Replay.unique {v w : ℕ} (hv : Replay E B h v) (hw : Replay E B h w) : v = w := by
  induction hv generalizing w with
  | genesis hb =>
      cases hw with
      | genesis _ => rfl
      | opened hne hb' _ _ _ =>
          cases hb.symm.trans hb'
          exact absurd rfl hne
      | sent hb' | received hb' _ _ _ _ | changed hb' _ => cases hb.symm.trans hb'
  | opened hne hb ht _ _ ih =>
      cases hw with
      | genesis hb' =>
          cases hb.symm.trans hb'
          exact absurd rfl hne
      | opened _ hb' ht' hr' _ =>
          cases hb.symm.trans hb'
          cases ht.symm.trans ht'
          rw [ih hr']
      | sent hb' | received hb' _ _ _ _ | changed hb' _ => cases hb.symm.trans hb'
  | sent hb =>
      cases hw with
      | sent hb' =>
          cases hb.symm.trans hb'
          rfl
      | genesis hb' | opened _ hb' _ _ _ | received hb' _ _ _ _ | changed hb' _ =>
          cases hb.symm.trans hb'
  | received hb _ ht _ _ ihv ihw =>
      cases hw with
      | received hb' hv' ht' hw' _ =>
          cases hb.symm.trans hb'
          cases ht.symm.trans ht'
          rw [ihv hv', ihw hw']
      | genesis hb' | opened _ hb' _ _ _ | sent hb' | changed hb' _ => cases hb.symm.trans hb'
  | changed hb _ ih =>
      cases hw with
      | changed hb' hv' =>
          cases hb.symm.trans hb'
          exact ih hv'
      | genesis hb' | opened _ hb' _ _ _ | sent hb' | received hb' _ _ _ _ =>
          cases hb.symm.trans hb'

theorem Replay.within {v : ℕ} (hw : Within B C) (hv : Replay E B h v) : Replay E C h v := by
  induction hv with
  | genesis hb => exact .genesis (hw _ _ hb)
  | opened hne hb ht _ hle ih => exact .opened hne (hw _ _ hb) (hw _ _ ht) ih hle
  | sent hb => exact .sent (hw _ _ hb)
  | received hb _ ht _ hle ihv ihw => exact .received (hw _ _ hb) ihv (hw _ _ ht) ihw hle
  | changed hb _ ih => exact .changed (hw _ _ hb) ih

/-- A balance is computed from the blocks below: removing a block that none
needs changes no other balance. -/
theorem Replay.erase {k : BlockHash} {v : ℕ} (hk : ∀ j, ¬ Link B (Needs E) j k) (hne : h ≠ k)
    (hv : Replay E B h v) : Replay E (Function.update B k none) h v := by
  have keep : ∀ {j : BlockHash} {c : Block}, j ≠ k → B j = some c →
      Function.update B k none j = some c := by
    intro j c hj hc
    rw [Function.update_of_ne hj]
    exact hc
  have needed : ∀ {j q : BlockHash} {c : Block}, B j = some c → Needs E c q → q ≠ k := by
    intro j q c hc hq he
    subst he
    exact hk j ⟨c, hc, hq⟩
  induction hv with
  | genesis hb => exact .genesis (keep hne hb)
  | opened hg hb ht _ hle ih =>
      have hs := needed hb (Or.inr ⟨fun he => hg (Block.openBlock.inj he), rfl⟩)
      exact .opened hg (keep hne hb) (keep hs ht) (ih (needed ht (Or.inl rfl))) hle
  | sent hb => exact .sent (keep hne hb)
  | received hb _ ht _ hle ihv ihw =>
      have hs := needed hb (Or.inr ⟨(nomatch ·), rfl⟩)
      exact .received (keep hne hb) (ihv (needed hb (Or.inl rfl))) (keep hs ht)
        (ihw (needed ht (Or.inl rfl))) hle
  | changed hb _ ih => exact .changed (keep hne hb) (ih (needed hb (Or.inl rfl)))

theorem Replay.of_genesisAccount {E' : Env} {v : ℕ} (hv : Replay E' B h v)
    (he : E'.genesisAccount = E.genesisAccount) : Replay E B h v := by
  have hg : genesisOpen E' = genesisOpen E := by
    unfold genesisOpen
    rw [he]
  induction hv with
  | genesis hb =>
      rw [genesisBlock, hg] at hb
      exact .genesis hb
  | opened hne hb ht _ hle ih => exact .opened (hg ▸ hne) hb ht ih hle
  | sent hb => exact .sent hb
  | received hb _ ht _ hle ihv ihw => exact .received hb ihv ht ihw hle
  | changed hb _ ih => exact .changed hb ih

theorem Sent.of_genesisAccount {E' : Env} {d : ℕ} (hd : Sent E' B h d)
    (he : E'.genesisAccount = E.genesisAccount) : Sent E B h d := by
  obtain ⟨t, w, ht, hw, hle, hd⟩ := hd
  exact ⟨t, w, ht, hw.of_genesisAccount he, hle, hd⟩

theorem Replay.of_open {o : OpenBlock} {d : ℕ} (hg : Block.openBlock o ≠ genesisBlock E)
    (hb : B h = some (.openBlock o)) (hd : Sent E B o.hashables.source d) : Replay E B h d := by
  obtain ⟨t, w, ht, hw, hle, rfl⟩ := hd
  exact .opened (fun he => hg (congrArg _ he)) hb ht hw hle

theorem Replay.of_receive {c : ReceiveBlock} {v d : ℕ} (hb : B h = some (.receiveBlock c))
    (hv : Replay E B c.hashables.previous v) (hd : Sent E B c.hashables.source d) :
    Replay E B h (v + d) := by
  obtain ⟨t, w, ht, hw, hle, rfl⟩ := hd
  exact .received hb hv ht hw hle

theorem Replay.send_eq {t : SendBlock} {v : ℕ} (hb : B h = some (.sendBlock t))
    (hv : Replay E B h v) : v = t.hashables.balance.toNat :=
  hv.unique (.sent hb)

theorem Replay.change_previous {c : ChangeBlock} {v : ℕ} (hb : B h = some (.changeBlock c))
    (hv : Replay E B h v) : Replay E B c.hashables.previous v := by
  cases hv with
  | changed hb' hv' =>
      cases hb.symm.trans hb'
      exact hv'
  | genesis hb' | opened _ hb' _ _ _ | sent hb' | received hb' _ _ _ _ => cases hb.symm.trans hb'

theorem Sent.unique {d e : ℕ} (hd : Sent E B h d) (he : Sent E B h e) : d = e := by
  obtain ⟨t, w, ht, hw, _, rfl⟩ := hd
  obtain ⟨t', w', ht', hw', _, rfl⟩ := he
  cases ht.symm.trans ht'
  rw [hw.unique hw']

theorem Sent.within {d : ℕ} (hw : Within B C) (hd : Sent E B h d) : Sent E C h d := by
  obtain ⟨t, w, ht, hr, hle, rfl⟩ := hd
  exact ⟨t, w, hw _ _ ht, hr.within hw, hle, rfl⟩

theorem Sent.erase {k : BlockHash} {d : ℕ} (hk : ∀ j, ¬ Link B (Needs E) j k) (hne : h ≠ k)
    (hd : Sent E B h d) : Sent E (Function.update B k none) h d := by
  obtain ⟨t, w, ht, hr, hle, rfl⟩ := hd
  have hp : t.hashables.previous ≠ k := fun he => hk h ⟨_, ht, Or.inl (he ▸ rfl)⟩
  exact ⟨t, w, by rw [Function.update_of_ne hne]; exact ht, hr.erase hk hp, hle, rfl⟩

end PaperNode.BlockLattice
