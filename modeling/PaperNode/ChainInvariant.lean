import PaperNode.QueryCorrectness
import PaperNode.ProcessSteps

/-!
# Chains of blocks and the tables that point into them

`Chains` is about the stored blocks alone: blocks sit under their hashes, every
predecessor is stored, every collected source is a stored send to the account
that collects it, and no block has two successors or two collectors. Adding a
block on top and removing a block that no other needs both keep it.

`Linked` adds the tables: account heads and pending entries point at the blocks
they should. It assumes nothing about the digest: a hash may be zero, or be the
number of the genesis account.
-/
namespace PaperNode.ChainInvariant
open BoundedRecursion OrderedTable LinkedNodes Blocks BlockStore LedgerQueries LedgerProcess
open BlockLattice QueryCorrectness ProcessSteps

structure Chains (E : Env) (B : Lattice) : Prop where
  keyed : Keyed E B
  genesis : B (genesisHash E) = some (genesisBlock E)
  previous : ∀ h p, Link B Previous h p → B p ≠ none
  collects : ∀ h b q, B h = some b → Collects E b q →
    ∃ t, B q = some (.sendBlock t) ∧ Owner B h t.hashables.destination
  ranked : ∃ rank, Ranked B (Needs E) rank
  oneSuccessor : ∀ h k p, Link B Previous h p → Link B Previous k p → h = k
  oneCollector : ∀ h k q, Link B (Collects E) h q → Link B (Collects E) k q → h = k

def Signed (E : Env) (B : Lattice) : Prop :=
  ∀ h b a, B h = some b → b ≠ genesisBlock E → Owner B h a →
    E.validateMessage a h b.signature = false

variable {E : Env} {B : Lattice} {b : Block} {a : Account} {h p q : BlockHash}

theorem collects_receive (E : Env) (c : ReceiveBlock) :
    Collects E (.receiveBlock c) c.hashables.source :=
  ⟨(nomatch ·), rfl⟩

theorem Chains.addressed (hc : Chains E B) : Addressed B :=
  fun h c hb => hc.collects h _ _ hb (collects_receive E c)

theorem Chains.needed_stored (hc : Chains E B) (hl : Link B (Needs E) h p) : B p ≠ none := by
  obtain ⟨b, hb, hp | hp⟩ := hl
  · exact hc.previous h p ⟨b, hb, hp⟩
  · obtain ⟨t, ht, _⟩ := hc.collects h b p hb hp
    simp [ht]

theorem Chains.exists_owner (hc : Chains E B) (hb : B h = some b) : ∃ a, Owner B h a := by
  obtain ⟨rank, hr⟩ := hc.ranked
  induction hn : rank h using Nat.strong_induction_on generalizing h b with
  | _ n ih =>
      cases b with
      | openBlock o => exact ⟨_, (owner_open hb).mpr rfl⟩
      | sendBlock t | receiveBlock t | changeBlock t =>
          have hl : Link B Previous h t.hashables.previous := ⟨_, hb, rfl⟩
          obtain ⟨c, hcp⟩ := Option.ne_none_iff_exists'.mp (hc.previous _ _ hl)
          have hlt := hr h t.hashables.previous ⟨_, hb, Or.inl rfl⟩
          obtain ⟨a, ha⟩ := ih _ (by omega) hcp rfl
          exact ⟨a, (owner_previous hb rfl).mpr ha⟩

theorem Chains.owner_of_within {C : Lattice} (hc : Chains E B) (hw : Within B C)
    (hb : B h = some b) (ho : Owner C h a) : Owner B h a := by
  obtain ⟨x, hx⟩ := hc.exists_owner hb
  cases ho.unique (hx.within hw)
  exact hx

theorem Chains.exists_repBlock (hc : Chains E B) (hb : B h = some b) : ∃ r, RepBlock B h r := by
  obtain ⟨rank, hr⟩ := hc.ranked
  induction hn : rank h using Nat.strong_induction_on generalizing h b with
  | _ n ih =>
      cases b with
      | openBlock o | changeBlock o => exact ⟨h, (repBlock_here hb trivial).mpr rfl⟩
      | sendBlock t | receiveBlock t =>
          have hl : Link B Previous h t.hashables.previous := ⟨_, hb, rfl⟩
          obtain ⟨c, hcp⟩ := Option.ne_none_iff_exists'.mp (hc.previous _ _ hl)
          have hlt := hr h t.hashables.previous ⟨_, hb, Or.inl rfl⟩
          obtain ⟨r, hrep⟩ := ih _ (by omega) hcp rfl
          exact ⟨r, (repBlock_previous hb (fun hn => hn) rfl).mpr hrep⟩

/-- What makes a new block fit on top of account `a`. -/
structure Fits (E : Env) (B : Lattice) (b : Block) (a : Account) : Prop where
  fresh : B (E.hash b) = none
  onTop : ∀ p, b.previousLink = some p → Owner B p a ∧ ∀ k, ¬ Link B Previous k p
  account : ∀ o, b = .openBlock o → o.hashables.account = a
  source : ∀ q, b.sourceLink = some q →
    (∃ t, B q = some (.sendBlock t) ∧ t.hashables.destination = a) ∧
      ∀ k, ¬ Link B (Collects E) k q

theorem Fits.ne_genesis (hf : Fits E B b a) (hc : Chains E B) : b ≠ genesisBlock E := by
  intro he
  have hg : B (E.hash b) = some (genesisBlock E) := by
    rw [he]
    exact hc.genesis
  rw [hf.fresh] at hg
  cases hg

theorem Fits.owner (hf : Fits E B b a) :
    Owner (Function.update B (E.hash b) (some b)) (E.hash b) a := by
  have hself : Function.update B (E.hash b) (some b) (E.hash b) = some b :=
    Function.update_self ..
  cases hp : b.previousLink with
  | none =>
      cases b with
      | openBlock o => exact (owner_open hself).mpr (hf.account o rfl)
      | sendBlock t | receiveBlock t | changeBlock t => cases hp
  | some p =>
      exact (owner_previous hself hp).mpr ((hf.onTop p hp).1.within (within_insert hf.fresh))

theorem Fits.needs_stored (hf : Fits E B b a) (hl : Needs E b p) : B p ≠ none := by
  rcases hl with hp | ⟨_, hp⟩
  · exact (hf.onTop p hp).1.stored
  · obtain ⟨⟨t, ht, _⟩, _⟩ := hf.source p hp
    simp [ht]

theorem Fits.unneeded (hf : Fits E B b a) (hc : Chains E B) :
    ∀ k, ¬ Link B (Needs E) k (E.hash b) :=
  fun _ hl => hc.needed_stored hl hf.fresh

theorem Fits.unneeded_insert (hf : Fits E B b a) (hc : Chains E B) :
    ∀ k, ¬ Link (Function.update B (E.hash b) (some b)) (Needs E) k (E.hash b) := by
  intro k hl
  rcases (link_insert hf.fresh).mp hl with ⟨_, hn⟩ | hl
  · exact hf.needs_stored hn hf.fresh
  · exact hf.unneeded hc k hl

theorem needs_cases (hn : Needs E b p) : p = b.previous ∨ p = b.source := by
  rcases hn with hp | ⟨_, hp⟩
  · rw [Block.previous_eq, show b.previousLink = some p from hp]
    exact Or.inl rfl
  · rw [Block.source_eq, hp]
    exact Or.inr rfl

theorem Chains.insert (hc : Chains E B) (hf : Fits E B b a) :
    Chains E (Function.update B (E.hash b) (some b)) := by
  have hw : Within B (Function.update B (E.hash b) (some b)) := within_insert hf.fresh
  constructor
  case keyed =>
    intro h c hb
    by_cases hh : h = E.hash b
    · subst hh
      rw [Function.update_self] at hb
      cases hb
      rfl
    · rw [Function.update_of_ne hh] at hb
      exact hc.keyed h c hb
  case genesis => exact hw _ _ hc.genesis
  case previous =>
    intro h p hl
    have hp : B p ≠ none := by
      rcases (link_insert hf.fresh).mp hl with ⟨_, hp⟩ | hl
      · exact hf.needs_stored (Or.inl hp)
      · exact hc.previous h p hl
    obtain ⟨c, hcp⟩ := Option.ne_none_iff_exists'.mp hp
    simp [hw p c hcp]
  case collects =>
    intro h c q hb hq
    by_cases hh : h = E.hash b
    · subst hh
      rw [Function.update_self] at hb
      cases hb
      obtain ⟨⟨t, ht, hd⟩, _⟩ := hf.source q hq.2
      exact ⟨t, hw _ _ ht, hd ▸ hf.owner⟩
    · rw [Function.update_of_ne hh] at hb
      obtain ⟨t, ht, ho⟩ := hc.collects h c q hb hq
      exact ⟨t, hw _ _ ht, ho.within hw⟩
  case ranked =>
    obtain ⟨rank, hr⟩ := hc.ranked
    refine ⟨_, hr.insert hf.fresh (hf.unneeded hc) (rank b.previous + rank b.source + 1) ?_⟩
    intro p hn
    have hne : p ≠ E.hash b := fun he => hf.needs_stored hn (he ▸ hf.fresh)
    rcases needs_cases hn with rfl | rfl
    · exact ⟨hne, by omega⟩
    · exact ⟨hne, by omega⟩
  case oneSuccessor =>
    intro h k p hh hk
    rcases (link_insert hf.fresh).mp hh with ⟨rfl, hbp⟩ | hh
    · rcases (link_insert hf.fresh).mp hk with ⟨rfl, _⟩ | hk
      · rfl
      · exact absurd hk ((hf.onTop p hbp).2 k)
    · rcases (link_insert hf.fresh).mp hk with ⟨rfl, hbp⟩ | hk
      · exact absurd hh ((hf.onTop p hbp).2 h)
      · exact hc.oneSuccessor h k p hh hk
  case oneCollector =>
    intro h k q hh hk
    rcases (link_insert hf.fresh).mp hh with ⟨rfl, hbq⟩ | hh
    · rcases (link_insert hf.fresh).mp hk with ⟨rfl, _⟩ | hk
      · rfl
      · exact absurd hk ((hf.source q hbq.2).2 k)
    · rcases (link_insert hf.fresh).mp hk with ⟨rfl, hbq⟩ | hk
      · exact absurd hh ((hf.source q hbq.2).2 h)
      · exact hc.oneCollector h k q hh hk

/-- A block other than the genesis block that no stored block needs. -/
structure Loose (E : Env) (B : Lattice) (h : BlockHash) (b : Block) : Prop where
  stored : B h = some b
  notGenesis : b ≠ genesisBlock E
  unneeded : ∀ k, ¬ Link B (Needs E) k h

theorem Loose.unprevious (hl : Loose E B h b) : ∀ k, ¬ Link B Previous k h := by
  intro k hk
  obtain ⟨c, hc, hp⟩ := hk
  exact hl.unneeded k ⟨c, hc, Or.inl hp⟩

theorem Loose.uncollected (hl : Loose E B h b) : ∀ k, ¬ Link B (Collects E) k h := by
  intro k hk
  obtain ⟨c, hc, hp⟩ := hk
  exact hl.unneeded k ⟨c, hc, Or.inr hp⟩

theorem Chains.erase (hc : Chains E B) (hl : Loose E B h b) :
    Chains E (Function.update B h none) := by
  have hw : Within (Function.update B h none) B := erase_within
  have keep : ∀ {k : BlockHash} {c : Block}, k ≠ h → B k = some c →
      Function.update B h none k = some c := by
    intro k c hk hb
    rw [Function.update_of_ne hk]
    exact hb
  constructor
  case keyed => exact fun k c hb => hc.keyed k c (hw k c hb)
  case genesis =>
    refine keep ?_ hc.genesis
    intro he
    have hg := hc.genesis
    rw [he, hl.stored] at hg
    exact hl.notGenesis (Option.some.inj hg)
  case previous =>
    intro k p hk
    have hk := hw.link hk
    have hp : p ≠ h := fun he => hl.unprevious k (he ▸ hk)
    rw [Function.update_of_ne hp]
    exact hc.previous k p hk
  case collects =>
    intro k c q hb hq
    have hk : k ≠ h := by
      intro he
      subst he
      simp at hb
    have hb := hw k c hb
    obtain ⟨t, ht, ho⟩ := hc.collects k c q hb hq
    have hne : q ≠ h := fun he => hl.uncollected k ⟨c, hb, he ▸ hq⟩
    exact ⟨t, keep hne ht, ho.erase hl.unprevious hk⟩
  case ranked =>
    obtain ⟨rank, hr⟩ := hc.ranked
    exact ⟨rank, hw.ranked hr⟩
  case oneSuccessor => exact fun k j p hk hj => hc.oneSuccessor k j p (hw.link hk) (hw.link hj)
  case oneCollector => exact fun k j q hk hj => hc.oneCollector k j q (hw.link hk) (hw.link hj)

theorem Signed.insert (hs : Signed E B) (hc : Chains E B) (hf : Fits E B b a)
    (hv : E.validateMessage a (E.hash b) b.signature = false) :
    Signed E (Function.update B (E.hash b) (some b)) := by
  intro h c a' hb hg ho
  by_cases hh : h = E.hash b
  · subst hh
    rw [Function.update_self] at hb
    cases hb
    rw [ho.unique hf.owner]
    exact hv
  · rw [Function.update_of_ne hh] at hb
    exact hs h c a' hb hg (hc.owner_of_within (within_insert hf.fresh) hb ho)

theorem Signed.erase (hs : Signed E B) : Signed E (Function.update B h none) := by
  intro k c a' hb hg ho
  exact hs k c a' (erase_within k c hb) hg (ho.within erase_within)

/-- Account heads and pending entries point at the blocks they stand for. -/
structure Linked (E : Env) (s : Store) : Prop where
  exclusive : s.Exclusive
  chains : Chains E s.blockGet
  signed : Signed E s.blockGet
  heads : ∀ a i, s.accounts.get a = some i →
    Owner s.blockGet i.head a ∧ ∀ k, ¬ Link s.blockGet Previous k i.head
  pending : ∀ h r, s.pending.get h = some r →
    (∃ t, s.blockGet h = some (.sendBlock t) ∧ t.hashables.destination = r.destination) ∧
      Owner s.blockGet h r.source ∧ ∀ k, ¬ Link s.blockGet (Collects E) k h

/-- The tables after `genesis::initialize`. -/
structure Genesis (E : Env) (s : Store) : Prop where
  blocks : s.blockGet = Function.update (fun _ => none) (genesisHash E) (some (genesisBlock E))
  exclusive : s.Exclusive
  accounts : ∃ m, s.accounts =
    (∅ : Table Account AccountInfo).put E.genesisAccount
      ⟨genesisHash E, genesisHash E, genesisAmount, m⟩
  frontiers : s.frontiers = (∅ : Table BlockHash Account).put (genesisHash E) E.genesisAccount
  pending : s.pending = ∅
  representation : s.representation =
    (∅ : Table Account Amount).put E.genesisAccount genesisAmount
  summed : Summed s

theorem newStore_empty (h : BlockHash) : newStore.blockGet h = none := rfl

theorem genesisInitialize_ok {s : Store} (h : genesisInitialize E newStore = .ok s) :
    Genesis E s := by
  unfold genesisInitialize at h
  obtain ⟨_, _, h⟩ := bind_eq_ok.mp h
  obtain ⟨t, ht, h⟩ := bind_eq_ok.mp h
  obtain ⟨u, hu, h⟩ := bind_eq_ok.mp h
  cases h
  obtain ⟨_, _, hu⟩ := bind_eq_ok.mp hu
  cases hu
  obtain ⟨hb, hl, hx⟩ := Store.blockPut_ok ht (newStore_empty _)
  constructor
  case blocks => exact hb
  case exclusive => exact hx (fun h => by simp [Store.holding, newStore])
  case accounts =>
    refine ⟨E.now t.clock, ?_⟩
    change t.accounts.put _ _ = _
    rw [hl.accounts]
    rfl
  case frontiers =>
    change t.frontiers.put _ _ = _
    rw [hl.frontiers]
    rfl
  case pending => exact hl.pending
  case representation =>
    change t.representation.put _ _ = _
    rw [hl.representation]
    rfl
  case summed =>
    change (t.checksum.put 0 (genesisHash E)).get 0 = some (headSum (t.accounts.put _ _))
    rw [Table.get_put_self, headSum_put, hl.accounts]
    change some (genesisHash E) = some (0#256 ^^^ 0#256 ^^^ genesisHash E)
    rw [BitVec.xor_self, BitVec.zero_xor]

theorem exists_genesisInitialize (E : Env) : ∃ s, genesisInitialize E newStore = .ok s := by
  obtain ⟨t, ht⟩ := Store.exists_blockPut E (b := .openBlock (genesisOpen E)) (newStore_empty _)
    (fun _ hp => nomatch hp)
  unfold genesisInitialize
  simp only [genesisHash, ht, ok_bind, Store.checksumPut]
  exact ⟨_, rfl⟩

theorem Genesis.self {s : Store} (hg : Genesis E s) :
    s.blockGet (genesisHash E) = some (genesisBlock E) := by
  rw [hg.blocks, Function.update_self]

theorem Genesis.stored {s : Store} (hg : Genesis E s) (hb : s.blockGet h = some b) :
    h = genesisHash E ∧ b = genesisBlock E := by
  rw [hg.blocks] at hb
  by_cases hh : h = genesisHash E
  · subst hh
    rw [Function.update_self] at hb
    exact ⟨rfl, (Option.some.inj hb).symm⟩
  · rw [Function.update_of_ne hh] at hb
    cases hb

theorem Genesis.unneeded {s : Store} (hg : Genesis E s) (h k : BlockHash) :
    ¬ Link s.blockGet (Needs E) k h := by
  intro hl
  obtain ⟨b, hb, hn⟩ := hl
  obtain ⟨_, rfl⟩ := hg.stored hb
  rcases hn with hp | hp
  · cases hp
  · exact hp.1 rfl

theorem Genesis.linked {s : Store} (hg : Genesis E s) : Linked E s := by
  have unprevious : ∀ h k, ¬ Link s.blockGet Previous k h := by
    intro h k hl
    obtain ⟨b, hb, hp⟩ := hl
    exact hg.unneeded h k ⟨b, hb, Or.inl hp⟩
  have uncollected : ∀ h k, ¬ Link s.blockGet (Collects E) k h := by
    intro h k hl
    obtain ⟨b, hb, hp⟩ := hl
    exact hg.unneeded h k ⟨b, hb, Or.inr hp⟩
  have hself := hg.self
  constructor
  case exclusive => exact hg.exclusive
  case chains =>
    constructor
    case keyed =>
      intro h b hb
      obtain ⟨rfl, rfl⟩ := hg.stored hb
      rfl
    case genesis => exact hself
    case previous => exact fun h p hl => absurd hl (unprevious p h)
    case collects => exact fun h b q hb hq => absurd ⟨b, hb, hq⟩ (uncollected q h)
    case ranked => exact ⟨fun _ => 0, fun h p hl => absurd hl (hg.unneeded p h)⟩
    case oneSuccessor => exact fun h k p hl _ => absurd hl (unprevious p h)
    case oneCollector => exact fun h k q hl _ => absurd hl (uncollected q h)
  case signed => exact fun h b a hb hne _ => absurd (hg.stored hb).2 hne
  case heads =>
    intro a i hi
    obtain ⟨m, hm⟩ := hg.accounts
    rw [hm, Table.get_put] at hi
    split_ifs at hi with ha
    · cases hi
      exact ⟨(owner_open hself).mpr ha.symm, fun k => unprevious _ k⟩
    · cases hi
  case pending =>
    intro h r hr
    rw [hg.pending] at hr
    cases hr

section Accepted
variable {s s' : Store} {info : AccountInfo}

theorem posted_source (hp : Posted E s a info s' b) (hq : b.sourceLink = some q) :
    ∃ r, s.pending.get q = some r ∧ r.destination = a := by
  cases hp with
  | send | change => cases hq
  | receive _ hr hd =>
      cases hq
      exact ⟨_, hr, hd⟩
  | opened _ _ hr hd =>
      cases hq
      exact ⟨_, hr, hd⟩

/-- A pending entry is old and not the one collected, or is the new send's. -/
theorem posted_pending (hp : Posted E s a info s' b) {r : Receivable}
    (hr : s'.pending.get h = some r) :
    (s.pending.get h = some r ∧ b.sourceLink ≠ some h) ∨
      (h = E.hash b ∧ ∃ t, b = .sendBlock t ∧ t.hashables.destination = r.destination ∧
        r.source = a) := by
  cases hp with
  | send _ _ _ _ he =>
      rw [he, Table.get_put] at hr
      split_ifs at hr with hh
      · cases hr
        exact Or.inr ⟨hh, _, rfl, rfl, rfl⟩
      · exact Or.inl ⟨hr, (nomatch ·)⟩
  | receive _ _ _ _ _ _ he =>
      rw [he, Table.get_del] at hr
      split_ifs at hr with hh
      exact Or.inl ⟨hr, fun hq => hh (Option.some.inj hq).symm⟩
  | opened _ _ _ _ _ _ _ he =>
      rw [he, Table.get_del] at hr
      split_ifs at hr with hh
      exact Or.inl ⟨hr, fun hq => hh (Option.some.inj hq).symm⟩
  | change _ _ _ he =>
      rw [he] at hr
      exact Or.inl ⟨hr, (nomatch ·)⟩

theorem Linked.fits (hs : Linked E s) (hl : Placed E s b a info s') (hp : Posted E s a info s' b) :
    Fits E s.blockGet b a := by
  constructor
  case fresh => exact hl.fresh
  case onTop =>
    intro p hbp
    obtain ⟨i, hi, rfl⟩ := hl.onHead p hbp
    exact hs.heads a i hi
  case account =>
    intro o ho
    subst ho
    cases hp with
    | opened _ ha => exact ha
  case source =>
    intro q hq
    obtain ⟨r, hr, rfl⟩ := posted_source hp hq
    obtain ⟨ht, _, hn⟩ := hs.pending q r hr
    exact ⟨ht, hn⟩

theorem get_latestTable (t : Table Account AccountInfo) (a x : Account) (info : AccountInfo) :
    (latestTable t a info).get x =
      if x = a then (if info.head = 0 then none else some info) else t.get x := by
  unfold latestTable
  split_ifs with h₀ hx hx <;> simp [Table.get_put, Table.get_del, hx]

theorem Linked.not_pending (hs : Linked E s) (hn : s.blockGet h = none) :
    s.pending.get h = none := by
  by_contra hne
  obtain ⟨r, hr⟩ := Option.ne_none_iff_exists'.mp hne
  obtain ⟨⟨t, ht, _⟩, _⟩ := hs.pending h r hr
  rw [hn] at ht
  cases ht

theorem Linked.accepted (hs : Linked E s) (ha : Accepted E s b s') : Linked E s' := by
  obtain ⟨a, info, hl, hp⟩ := ha
  have hf := hs.fits hl hp
  have hw := hl.within
  have hnew : ∀ k, ¬ Link s'.blockGet (Needs E) k (E.hash b) := by
    rw [hl.blocks]
    exact hf.unneeded_insert hs.chains
  have howner : Owner s'.blockGet (E.hash b) a := by
    rw [hl.blocks]
    exact hf.owner
  constructor
  case exclusive => exact hl.exclusive hs.exclusive
  case chains =>
    rw [hl.blocks]
    exact hs.chains.insert hf
  case signed =>
    rw [hl.blocks]
    exact hs.signed.insert hs.chains hf hl.valid
  case heads =>
    intro x i hi
    rw [hl.accounts, get_latestTable] at hi
    by_cases hx : x = a
    · subst hx
      rw [if_pos rfl] at hi
      split_ifs at hi
      cases hi
      rw [hl.head]
      exact ⟨howner, fun k ⟨c, hc, hcp⟩ => hnew k ⟨c, hc, Or.inl hcp⟩⟩
    · rw [if_neg hx] at hi
      obtain ⟨ho, hn⟩ := hs.heads x i hi
      refine ⟨ho.within hw, ?_⟩
      intro k hk
      rw [hl.blocks] at hk
      -- The new block extends the head of its own account, not this one.
      rcases (link_insert hl.fresh).mp hk with ⟨_, hbp⟩ | hk
      · exact hx (ho.unique (hf.onTop _ hbp).1)
      · exact hn k hk
  case pending =>
    intro h r hr
    rcases posted_pending hp hr with ⟨hr, hq⟩ | ⟨rfl, t, rfl, hd, rfl⟩
    · obtain ⟨⟨t, ht, hd⟩, ho, hn⟩ := hs.pending h r hr
      refine ⟨⟨t, hw _ _ ht, hd⟩, ho.within hw, ?_⟩
      intro k hk
      rw [hl.blocks] at hk
      rcases (link_insert hl.fresh).mp hk with ⟨_, hbq⟩ | hk
      · exact hq hbq.2
      · exact hn k hk
    · refine ⟨⟨t, ?_, hd⟩, howner, fun k ⟨c, hc, hcq⟩ => hnew k ⟨c, hc, Or.inr hcq⟩⟩
      exact hl.stored

end Accepted

end PaperNode.ChainInvariant
