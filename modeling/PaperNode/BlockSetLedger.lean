import PaperNode.MoneyInvariant

/-!
# The ledger as a function of its blocks

The abstract ledger is a set of blocks and nothing else. `Describes` says what
the four tables must hold for a given set: which accounts there are, with which
heads and balances, the frontiers as their inverse, the pending sends, and the
checksum. The tables of every reachable ledger are the ones its own blocks
describe, so two nodes with the same blocks have the same tables, whatever order
they processed them in and whatever they rolled back on the way.

The time of the last change and the cached representative are not covered.
-/
namespace PaperNode.BlockSetLedger
open OrderedTable LinkedNodes TransitionRuns Blocks BlockStore LedgerQueries LedgerProcess
open BlockLattice ChainInvariant IndexInvariant RollbackRuns LedgerRuns MoneyInvariant

/-- The last block of an account's chain: every block of the account is reached
from it, and no block comes after it. -/
structure LastBlock (B : Lattice) (a : Account) (h : BlockHash) : Prop where
  owner : Owner B h a
  top : ∀ k, ¬ Link B Previous k h
  above : ∀ k, Owner B k a → Reach B Previous h k

def Opened (B : Lattice) (a : Account) : Prop :=
  ∃ h o, B h = some (.openBlock o) ∧ o.hashables.account = a

/-- The pending entry of a stored send that no stored block has as its source. -/
structure Uncollected (E : Env) (B : Lattice) (h : BlockHash) (r : Receivable) : Prop where
  send : ∃ t, B h = some (.sendBlock t) ∧ r.destination = t.hashables.destination
  unnamed : ∀ k c, B k = some c → c.sourceLink ≠ some h
  source : Owner B h r.source
  amount : Sent E B h r.amount.toNat

structure Describes (E : Env) (B : Lattice) (s : Store) : Prop where
  opened : ∀ a, s.accounts.get a ≠ none ↔ Opened B a
  accounts : ∀ a i, s.accounts.get a = some i →
    LastBlock B a i.head ∧ Replay E B i.head i.balance.toNat
  frontiers : ∀ h a, s.frontiers.get h = some a ↔ ∃ i, s.accounts.get a = some i ∧ i.head = h
  pending : ∀ h r, s.pending.get h = some r ↔ Uncollected E B h r
  checksum : s.checksum.get 0 = some (headSum s.accounts)

/-- Equality of the four tables, leaving out the account fields that the blocks
do not determine. -/
structure SameTables (s s' : Store) : Prop where
  accounts : ∀ a, (s.accounts.get a).map (fun i => (i.head, i.balance)) =
    (s'.accounts.get a).map (fun i => (i.head, i.balance))
  frontiers : s.frontiers = s'.frontiers
  pending : s.pending = s'.pending
  checksum : s.checksum.get 0 = s'.checksum.get 0

variable {E : Env} {B : Lattice} {s s' : Store} {a : Account} {h k : BlockHash}
  {r r' : Receivable}

theorem LastBlock.unique (hh : LastBlock B a h) (hk : LastBlock B a k) : h = k := by
  rcases Relation.ReflTransGen.cases_tail (hh.above k hk.owner) with he | ⟨j, _, hl⟩
  · exact he.symm
  · exact absurd hl (hk.top j)

theorem Uncollected.unique (hr : Uncollected E B h r) (hr' : Uncollected E B h r') : r = r' := by
  obtain ⟨source, amount, destination⟩ := r
  obtain ⟨source', amount', destination'⟩ := r'
  obtain ⟨t, ht, hd⟩ := hr.send
  obtain ⟨t', ht', hd'⟩ := hr'.send
  cases ht.symm.trans ht'
  have hsource : source = source' := hr.source.unique hr'.source
  have hamount : amount = amount' := BitVec.eq_of_toNat_eq (hr.amount.unique hr'.amount)
  have hdest : destination = destination' := hd.trans hd'.symm
  rw [hsource, hamount, hdest]

/-- Heads and balances agree, by the last block and its replay. -/
theorem Describes.accounts_agree (hd : Describes E B s) (hd' : Describes E B s') (a : Account) :
    (s.accounts.get a).map (fun i => (i.head, i.balance)) =
      (s'.accounts.get a).map (fun i => (i.head, i.balance)) := by
  cases hi : s.accounts.get a with
  | none =>
      have hn : s'.accounts.get a = none := by
        by_contra hne
        exact (hd.opened a).mpr ((hd'.opened a).mp hne) hi
      rw [hn]
  | some i =>
      have hne : s'.accounts.get a ≠ none :=
        (hd'.opened a).mpr ((hd.opened a).mp (Option.ne_none_iff_exists'.mpr ⟨_, hi⟩))
      obtain ⟨i', hi'⟩ := Option.ne_none_iff_exists'.mp hne
      obtain ⟨hlast, hreplay⟩ := hd.accounts a i hi
      obtain ⟨hlast', hreplay'⟩ := hd'.accounts a i' hi'
      have hhead := hlast.unique hlast'
      rw [← hhead] at hreplay'
      have hbal := BitVec.eq_of_toNat_eq (hreplay.unique hreplay')
      rw [hi', Option.map_some, Option.map_some, hhead, hbal]

theorem Describes.unique (hd : Describes E B s) (hd' : Describes E B s') : SameTables s s' := by
  have hacc := hd.accounts_agree hd'
  have hhead : ∀ a, (s.accounts.get a).map AccountInfo.head =
      (s'.accounts.get a).map AccountInfo.head := by
    intro a
    have hfst := congrArg (Option.map Prod.fst) (hacc a)
    rwa [Option.map_map, Option.map_map] at hfst
  constructor
  case accounts => exact hacc
  case frontiers =>
    apply Table.ext_get
    intro h
    apply Option.ext
    intro a
    rw [hd.frontiers, hd'.frontiers]
    have hiff := hhead a
    constructor
    · intro hx
      obtain ⟨i, hi, rfl⟩ := hx
      rw [hi, Option.map_some] at hiff
      exact Option.map_eq_some_iff.mp hiff.symm
    · intro hx
      obtain ⟨i, hi, rfl⟩ := hx
      rw [hi, Option.map_some] at hiff
      exact Option.map_eq_some_iff.mp hiff
  case pending =>
    apply Table.ext_get
    intro h
    apply Option.ext
    intro r
    rw [hd.pending, hd'.pending]
  case checksum =>
    have hsum : headSum s.accounts = headSum s'.accounts := Table.fold_congr_map hhead
    rw [hd.checksum, hd'.checksum, hsum]

theorem lastBlock_of_head {i : AccountInfo} (hs : Linked E s) (hx : Indexed E s)
    (hi : s.accounts.get a = some i) : LastBlock s.blockGet a i.head := by
  obtain ⟨ho, ht⟩ := hs.heads a i hi
  refine ⟨ho, ht, ?_⟩
  intro k hk
  obtain ⟨j, hj, hr⟩ := exists_head hs hx hk
  cases hi.symm.trans hj
  exact hr

theorem account_iff_opened (hs : Linked E s) (hx : Indexed E s) :
    s.accounts.get a ≠ none ↔ Opened s.blockGet a := by
  constructor
  · intro hne
    obtain ⟨i, hi⟩ := Option.ne_none_iff_exists'.mp hne
    obtain ⟨r, o, _, ho, ha⟩ := (hs.heads a i hi).1
    exact ⟨r, o, ho, ha⟩
  · intro ho hn
    obtain ⟨h, o, ho, ha⟩ := ho
    exact not_owner_of_unknown hs hx hn ((owner_open ho).mpr ha)

theorem pending_iff_uncollected (hE : Proper E) (hs : Linked E s) (hx : Indexed E s)
    (hf : Funded E s) : s.pending.get h = some r ↔ Uncollected E s.blockGet h r := by
  -- No stored block, the genesis block included, has a pending send as source.
  have unnamed : ∀ {r}, s.pending.get h = some r →
      ∀ k c, s.blockGet k = some c → c.sourceLink ≠ some h := by
    intro r hr k c hc hsrc
    obtain ⟨⟨t, ht, _⟩, _, hn⟩ := hs.pending h r hr
    refine hn k ⟨c, hc, ?_, hsrc⟩
    intro hg
    subst hg
    cases hsrc
    have hnone : s.blockGet E.genesisAccount = none := (Linked.bottomed hE.hashed hs).genesis
    have ht : s.blockGet E.genesisAccount = some (.sendBlock t) := ht
    rw [hnone] at ht
    cases ht
  have entry : ∀ {r}, s.pending.get h = some r → Uncollected E s.blockGet h r := by
    intro r hr
    obtain ⟨⟨t, ht, hd⟩, ho, _⟩ := hs.pending h r hr
    exact ⟨⟨t, ht, hd.symm⟩, unnamed hr, ho, hf.amounts h r hr⟩
  constructor
  · exact entry
  · intro hu
    obtain ⟨t, ht, _⟩ := hu.send
    have hne := hx.pendingAll h t ht (fun k ⟨c, hc, hq⟩ => hu.unnamed k c hc hq.2)
    obtain ⟨r', hr'⟩ := Option.ne_none_iff_exists'.mp hne
    rw [hr', hu.unique (entry hr')]

theorem reachable_describes (hE : Proper E) (hs : Reachable E s) :
    Describes E s.blockGet s := by
  have hl := (reachable_sound hs).linked
  have hx := (reachable_sound hs).indexed hE.hashed
  have hf := reachable_funded hE.hashed hs
  constructor
  case opened => exact fun a => account_iff_opened hl hx
  case accounts => exact fun a i hi => ⟨lastBlock_of_head hl hx hi, hf.balances a i hi⟩
  case frontiers => exact hx.frontiers
  case pending => exact fun h r => pending_iff_uncollected hE hl hx hf
  case checksum => exact reachable_summed hs

theorem Describes.of_genesisAccount {E' : Env} (hd : Describes E' B s)
    (he : E'.genesisAccount = E.genesisAccount) : Describes E B s := by
  constructor
  case opened => exact hd.opened
  case accounts =>
    intro a i hi
    obtain ⟨hlast, hreplay⟩ := hd.accounts a i hi
    exact ⟨hlast, hreplay.of_genesisAccount he⟩
  case frontiers => exact hd.frontiers
  case pending =>
    intro h r
    rw [hd.pending]
    exact ⟨fun hu => ⟨hu.send, hu.unnamed, hu.source, hu.amount.of_genesisAccount he⟩,
      fun hu => ⟨hu.send, hu.unnamed, hu.source, hu.amount.of_genesisAccount he.symm⟩⟩
  case checksum => exact hd.checksum

/-- The tables of every reachable ledger are the ones its stored blocks describe.
So two ledgers with the same blocks, on clocks of their own and with or without
the weight assertion, have the same tables. -/
theorem ledger_is_function_of_blocks (hE : Proper E) :
    (∀ s, Reachable E s → Describes E s.blockGet s) ∧
    ∀ (clock : ℕ → Word64) (assertion : Bool) (s s' : Store), Reachable E s →
      Reachable { E with now := clock, weightAssert := assertion } s' →
      s.blockGet = s'.blockGet → SameTables s s' := by
  refine ⟨fun s hs => reachable_describes hE hs, ?_⟩
  intro clock assertion s s' hs hs' hb
  have hE' := hE.configured clock assertion
  have hd := reachable_describes hE hs
  have hd' := (reachable_describes hE' hs').of_genesisAccount (E := E) rfl
  rw [← hb] at hd'
  exact hd.unique hd'

theorem ledger_is_function_of_blocks_send : ∃ s, Reachable smallNetwork s ∧
    s.blockGet send₁Hash = some send₁ ∧ Describes smallNetwork s.blockGet s := by
  obtain ⟨s, hs, hb, _⟩ := exists_opened
  exact ⟨s, hs, hb, (ledger_is_function_of_blocks smallNetwork_proper).1 s hs⟩

end PaperNode.BlockSetLedger
