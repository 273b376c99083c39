import PaperNode.LedgerRuns

/-!
# Representatives

Every stored open or change block names a representative other than account
zero: processing asserts it for the block it stores. The genesis block names the
genesis account, and as soon as any other block is stored that account is not
zero either, since somebody has signed for it.

The account record caches the block that names the account's representative.
Processing keeps the cache right, and so does removing a send, an open or a
change block. Removing a receive block writes the representative block of the
source chain into the receiving account. The cache stays right exactly as long
as the two are the same block.
-/
namespace PaperNode.Representatives
open BoundedRecursion OrderedTable LinkedNodes TransitionRuns Blocks BlockStore LedgerQueries
open LedgerProcess BlockLattice QueryCorrectness ProcessSteps ChainInvariant RollbackSteps
open IndexInvariant RollbackRuns LedgerRuns

variable {E : Env} {s s' : Store} {b c : Block} {a : Account} {info : AccountInfo}
  {h k r : BlockHash}

def Represented (E : Env) (s : Store) : Prop :=
  ∀ h b, s.blockGet h = some b → NamesRepresentative b → b ≠ genesisBlock E →
    b.representative ≠ 0

theorem genesis_represented (hg : Genesis E s) : Represented E s :=
  fun _ _ hb _ hne => absurd (hg.stored hb).2 hne

theorem accepted_representative (ha : Accepted E s b s') (hn : NamesRepresentative b) :
    b.representative ≠ 0 := by
  obtain ⟨a, info, hl, hp⟩ := ha
  have hb := hl.stored
  cases hp with
  | send | receive => exact hn.elim
  | opened _ _ _ _ _ _ _ _ hm | change _ _ _ _ _ hm =>
      obtain ⟨x, y, _, _, hy, hy₀, _⟩ := hm
      cases hb.symm.trans hy
      exact hy₀

theorem Represented.accepted (hr : Represented E s) (ha : Accepted E s b s') :
    Represented E s' := by
  intro h c hc hn hg
  have hb := ha
  obtain ⟨a, info, hl, _⟩ := hb
  by_cases hh : h = E.hash b
  · rw [hh, hl.stored] at hc
    cases hc
    exact accepted_representative ha hn
  · rw [hl.other hh] at hc
    exact hr h c hc hn hg

theorem Represented.popped (hr : Represented E s) (hp : Popped E s h s') : Represented E s' :=
  fun k c hc => hr k c (Popped.within hp k c hc)

theorem reachable_represented (hs : Reachable E s) : Represented E s :=
  reachable_invariant (I := Represented E) (fun _ hg => genesis_represented hg)
    (fun _ _ _ _ hr ha => hr.accepted ha) (fun _ _ _ _ hr hp => hr.popped hp) hs

/-- A second block means that the genesis account is not zero. -/
theorem genesisAccount_ne_zero (hE : Proper E) (hs : Linked E s) (hb : s.blockGet h = some b)
    (hg : b ≠ genesisBlock E) : E.genesisAccount ≠ 0 := by
  obtain ⟨rank, hr⟩ := hs.chains.ranked
  induction hn : rank h using Nat.strong_induction_on generalizing h b with
  | _ n ih =>
      have below : ∀ {p d}, Needs E b p → s.blockGet p = some d → d ≠ genesisBlock E →
          E.genesisAccount ≠ 0 := by
        intro p d hp hd hdg
        have hlt := hr h p ⟨b, hb, hp⟩
        exact ih _ (by omega) hd hdg rfl
      cases hp : b.previousLink with
      | some p =>
          obtain ⟨d, hd⟩ := Option.ne_none_iff_exists'.mp (hs.chains.previous h p ⟨b, hb, hp⟩)
          by_cases hdg : d = genesisBlock E
          · subst hdg
            have ho : Owner s.blockGet h E.genesisAccount :=
              (owner_previous hb hp).mpr ((owner_open hd).mpr rfl)
            exact hE.signer_ne_zero (hs.signed h b _ hb hg ho)
          · exact below (Or.inl hp) hd hdg
      | none =>
          cases b with
          | sendBlock t | receiveBlock t | changeBlock t => cases hp
          | openBlock o =>
              have hq : Collects E (.openBlock o) o.hashables.source := ⟨hg, rfl⟩
              obtain ⟨t, ht, _⟩ := hs.chains.collects h _ _ hb hq
              exact below (Or.inr hq) ht (nomatch ·)

theorem owner_ne_zero_of_genesis (hE : Proper E) (hs : Linked E s) (hg : E.genesisAccount ≠ 0)
    (ho : Owner s.blockGet k a) : a ≠ 0 := by
  obtain ⟨c, hc⟩ := Option.ne_none_iff_exists'.mp ho.stored
  by_cases hcg : c = genesisBlock E
  · subst hcg
    rw [← (owner_open hc).mp ho]
    exact hg
  · exact hE.signer_ne_zero (hs.signed k c a hc hcg ho)

theorem owner_ne_zero (hE : Proper E) (hs : Linked E s) (hb : s.blockGet h = some b)
    (hg : b ≠ genesisBlock E) (ho : Owner s.blockGet k a) : a ≠ 0 :=
  owner_ne_zero_of_genesis hE hs (genesisAccount_ne_zero hE hs hb hg) ho

theorem representative_ne_zero (hE : Proper E) (hs : Linked E s) (hr : Represented E s)
    (hb : s.blockGet h = some b) (hg : b ≠ genesisBlock E) (hc : s.blockGet k = some c)
    (hn : NamesRepresentative c) : c.representative ≠ 0 := by
  by_cases hcg : c = genesisBlock E
  · subst hcg
    exact genesisAccount_ne_zero hE hs hb hg
  · exact hr k c hc hn hcg

/-- The cache of every account is the last block of its own chain that names a
representative. -/
def Cached (s : Store) : Prop :=
  ∀ a i, s.accounts.get a = some i → RepBlock s.blockGet i.head i.repBlock

theorem Cached.stored {i : AccountInfo} (hc : Cached s) (hi : s.accounts.get a = some i) :
    ∃ c, s.blockGet i.repBlock = some c ∧ NamesRepresentative c :=
  Nearest.target (hc a i hi)

theorem genesis_cached (hg : Genesis E s) : Cached s := by
  intro a i hi
  obtain ⟨m, hm⟩ := hg.accounts
  have hself := hg.self
  rw [hm, Table.get_put] at hi
  split_ifs at hi
  · cases hi
    exact (repBlock_here hself trivial).mpr rfl
  · cases hi

theorem Cached.accepted (hc : Cached s) (ha : Accepted E s b s') : Cached s' := by
  obtain ⟨a, info, hl, hp⟩ := ha
  have hw := hl.within
  have hnew := hl.stored
  -- A block that names no representative takes over the cache of the account.
  have keeps : ∀ {p i}, b.previousLink = some p → ¬ NamesRepresentative b →
      s.accounts.get a = some i → info.repBlock = i.repBlock →
      RepBlock s'.blockGet (E.hash b) info.repBlock := by
    intro p i hbp hn hi he
    have hhead := old_head hl hp hi
    rw [repBlock_previous hnew hn hhead, he]
    exact (hc a i hi).within hw
  intro x i hi
  rw [hl.accounts, get_latestTable] at hi
  split_ifs at hi
  · cases hi
    rw [hl.head]
    cases hp with
    | send hi _ he => exact keeps rfl (fun hn => hn) hi he
    | receive hi _ _ _ he => exact keeps rfl (fun hn => hn) hi he
    | opened _ _ _ _ _ he => exact (repBlock_here hnew trivial).mpr he
    | change _ he => exact (repBlock_here hnew trivial).mpr he
  · exact (hc x i hi).within hw

/-- The receive block under `k`, if there is one, has a source and a predecessor
with one representative block. -/
def SameRepBlock (B : Lattice) (k : BlockHash) : Prop :=
  ∀ c r, B k = some (.receiveBlock c) → RepBlock B c.hashables.source r →
    RepBlock B c.hashables.previous r

theorem Cached.removed (hE : Proper E) (hs : Linked E s) (hi : Indexed E s) (hc : Cached s)
    (hr : Removed E s h b a info s') (hv : Reverted E s h a info s' b)
    (hk : SameRepBlock s.blockGet h) : Cached s' := by
  obtain ⟨i₀, hi₀, hhead⟩ := removed_head hi hs hr
  have hcache := hc a i₀ hi₀
  rw [hhead] at hcache
  have erase : ∀ {k r}, k ≠ h → RepBlock s.blockGet k r → RepBlock s'.blockGet k r := by
    intro k r hk hrep
    rw [hr.blocks]
    exact Nearest.erase hr.loose.unprevious hk hrep
  have hl := Linked.removed hs hr hv
  intro x i hix
  obtain ⟨c, hc'⟩ := Option.ne_none_iff_exists'.mp (hl.heads x i hix).1.stored
  refine erase (hr.ne_of_stored hc') ?_
  rw [removed_account hE.hashed hs hr] at hix
  split_ifs at hix with hx hp
  · cases hix
    rw [hr.head]
    cases hv with
    | send _ _ _ he =>
        rw [hi₀] at he
        have he : info.repBlock = i₀.repBlock := he
        rw [he]
        exact (repBlock_previous hr.loose.stored (fun hn => hn) rfl).mp hcache
    | receive _ _ _ hrep => exact hk _ _ hr.loose.stored hrep
    | opened => exact absurd rfl hp
    | change hrep => exact hrep
  · exact hc x i hix

theorem SameRepBlock.within {B C : Lattice} (hw : Within C B) (hC : Chains E C)
    (hk : SameRepBlock B k) : SameRepBlock C k := by
  intro c r hc hr
  have hprev := hk c r (hw k _ hc) (Nearest.within hw hr)
  obtain ⟨d, hd⟩ := Option.ne_none_iff_exists'.mp (hC.previous k _ ⟨_, hc, rfl⟩)
  obtain ⟨r', hr'⟩ := hC.exists_repBlock hd
  have he := Nearest.unique (Nearest.within hw hr') hprev
  rwa [he] at hr'

theorem Cached.pops {F : BlockHash → Prop} (hE : Proper E) (hs : Sound E s) (hc : Cached s)
    (hp : Pops E F s s') (hF : ∀ k, F k → SameRepBlock s.blockGet k) : Cached s' := by
  have hall : Sound E s' ∧ Within s'.blockGet s.blockGet ∧ Cached s' := by
    refine hp.invariant (I := fun t => Sound E t ∧ Within t.blockGet s.blockGet ∧ Cached t) ?_
      ⟨hs, fun _ _ h => h, hc⟩
    intro t k u ht hk hpop
    obtain ⟨hsound, hw, hcached⟩ := ht
    refine ⟨hsound.popped hpop, (Popped.within hpop).trans hw, ?_⟩
    have hsame := (hF k hk).within hw hsound.linked.chains
    obtain ⟨b, a, info, hr, hv⟩ := hpop
    exact hcached.removed hE hsound.linked (hsound.indexed hE.hashed) hr hv hsame
  exact hall.2.2

/-- A rollback is to remove no receive block whose source and predecessor have
different representative blocks. -/
def KeepsCache (E : Env) (s : Store) : Action → Prop
  | .process _ => True
  | .rollback h => ∀ k, Reach s.blockGet (Needs E) k h → SameRepBlock s.blockGet k

/-- In every run whose rollbacks remove no receive block whose source and
predecessor have different representative blocks, the cached block of every
account is the one `representative_calculated` finds from the account's head. -/
theorem cached_representative_calculated (hE : Proper E)
    (hs : Reached (Initial E) (Guarded (KeepsCache E) (Step E)) s) (a : Account) (i : AccountInfo)
    (hi : s.accounts.get a = some i) :
    Settles (fun n => representativeCalculated E s.blockGet n i.head) i.repBlock := by
  have hall : Sound E s ∧ Cached s := by
    refine hs.invariant (I := fun t => Sound E t ∧ Cached t) ?_ ?_
    · intro t h₀
      have hg := genesisInitialize_ok h₀
      exact ⟨Sound.genesis hg, genesis_cached hg⟩
    · intro t x u ht hstep
      obtain ⟨hguard, hstep⟩ := hstep
      refine ⟨Sound.step ht.1 hstep, ?_⟩
      rcases step_cases ht.1 hstep with rfl | ⟨b, _, ha⟩ | ⟨k, rfl, hp⟩
      · exact ht.2
      · exact ht.2.accepted ha
      · exact ht.2.pops hE ht.1 hp (fun j hj => hguard j (hj hE.hashed))
  exact representativeCalculated_settles hall.1.linked.chains.keyed (hall.2 a i hi)

theorem cached_representative_calculated_open : ∃ s i,
    Reached (Initial smallNetwork) (Guarded (KeepsCache smallNetwork) (Step smallNetwork)) s ∧
    s.accounts.get firstAccount = some i ∧
    Settles (fun n => representativeCalculated smallNetwork s.blockGet n i.head) i.repBlock := by
  have hrun : executes smallNetwork 20 [.process send₁, .process open₁] (fun s =>
      (s.accounts.get firstAccount).isSome) = true := by
    decide +kernel
  obtain ⟨s, hx, ht⟩ := exists_of_executes hrun
  obtain ⟨i, hi⟩ := Option.isSome_iff_exists.mp ht
  have hall : ∀ t, ∀ x ∈ [Action.process send₁, Action.process open₁],
      KeepsCache smallNetwork t x := by
    simp [KeepsCache]
  have hs := execute_guarded hall hx
  exact ⟨s, i, hs, hi, cached_representative_calculated smallNetwork_proper hs _ i hi⟩

/-- The first account opens, receives a second send, and the receive block is
rolled back. The account's cache is now the genesis block, while the last block
of its chain that names a representative is its own open block. -/
theorem rollback_receive_spoils_cache : ¬ ∀ E s, Proper E → Reachable E s → ∀ a i,
    s.accounts.get a = some i →
    Settles (fun n => representativeCalculated E s.blockGet n i.head) i.repBlock := by
  intro hall
  have hrun : executes smallNetwork 30 [.process send₁, .process open₁, .process send₂,
      .process receive₁, .rollback receive₁Hash] (fun s =>
        decide ((s.accounts.get firstAccount).map AccountInfo.repBlock = some testGenesisHash) &&
        decide ((s.accounts.get firstAccount).map AccountInfo.head = some open₁Hash) &&
        decide (s.blockGet open₁Hash = some open₁)) = true := by
    decide +kernel
  obtain ⟨s, hx, ht⟩ := exists_of_executes hrun
  have hs := execute_reachable hx
  simp only [Bool.and_eq_true, decide_eq_true_eq, Option.map_eq_some_iff] at ht
  obtain ⟨⟨⟨i, hi, hrep⟩, ⟨j, hj, hhead⟩⟩, hopen⟩ := ht
  cases hi.symm.trans hj
  have hsettles := hall smallNetwork s smallNetwork_proper hs firstAccount i hi
  obtain ⟨n, hn⟩ := hsettles.exists_ok
  have hkeyed := (reachable_sound hs).linked.chains.keyed
  have hblock := representativeCalculated_ok hkeyed hn
  rw [hrep, hhead] at hblock
  have he := (repBlock_here hopen trivial).mp hblock
  exact absurd he (by decide)

end PaperNode.Representatives
