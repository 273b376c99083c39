import PaperNode.LedgerRollback
import PaperNode.ChainInvariant

/-!
# What rolling back one block does

The visitor on a head block removes that block and points the account at the
block before it. `Removed` is what the four block types share and `Reverted`
what differs. The values the visitor writes are recomputed from the chain, so
they are stated through the visitors that compute them.

An open block that is the genesis block is never removed: while it is the head,
no other block is stored, and the amount visitor does not return on its source.
-/
namespace PaperNode.RollbackSteps
open BoundedRecursion OrderedTable LinkedNodes Blocks BlockStore LedgerQueries LedgerProcess
open LedgerRollback BlockLattice QueryCorrectness ProcessSteps ChainInvariant

/-- Block `b` under `h` left account `a`, whose record is now `info`. -/
structure Removed (E : Env) (s : Store) (h : BlockHash) (b : Block) (a : Account)
    (info : AccountInfo) (s' : Store) : Prop where
  loose : Loose E s.blockGet h b
  owner : Owner s.blockGet h a
  blocks : s'.blockGet = Function.update s.blockGet h none
  exclusive : s'.Exclusive
  head : info.head = b.previousLink.getD 0
  accounts : s'.accounts = latestTable s.accounts a info
  frontiers : s'.frontiers =
    b.previousLink.elim (s.frontiers.del h) (fun p => (s.frontiers.del h).put p a)
  summed : Summed s → Summed s'

/-- How each block type is reverted in the pending table, the account record
and the weights. -/
inductive Reverted (E : Env) (s : Store) (h : BlockHash) (a : Account) (info : AccountInfo)
    (s' : Store) : Block → Prop
  | send {t : SendBlock} {r : Receivable} {fuel : ℕ} :
      s.pending.get h = some r → s'.pending = s.pending.del h →
      balance E s.blockGet fuel t.hashables.previous = .ok info.balance →
      info.repBlock = ((s.accounts.get a).getD {}).repBlock →
      s'.representation = s.representation → Reverted E s h a info s' (.sendBlock t)
  | receive {c : ReceiveBlock} {source : Account} {v : Amount} {x : BlockHash} {fuel : ℕ} :
      Owner s.blockGet c.hashables.source source →
      amount E s.blockGet fuel c.hashables.source = .ok v →
      balance E s.blockGet fuel c.hashables.previous = .ok info.balance →
      RepBlock s.blockGet c.hashables.source info.repBlock →
      s'.pending = s.pending.put c.hashables.source ⟨source, v, a⟩ →
      RepBlock s.blockGet h x → Moved E s.blockGet s s' x info.repBlock v →
      Reverted E s h a info s' (.receiveBlock c)
  | opened {o : OpenBlock} {source : Account} {v : Amount} {x : BlockHash} {fuel : ℕ} :
      Owner s.blockGet o.hashables.source source →
      amount E s.blockGet fuel o.hashables.source = .ok v →
      RepBlock s.blockGet o.hashables.source info.repBlock →
      s'.pending = s.pending.put o.hashables.source ⟨source, v, a⟩ →
      RepBlock s.blockGet h x → Moved E s.blockGet s s' x info.repBlock v →
      Reverted E s h a info s' (.openBlock o)
  | change {c : ChangeBlock} {v : Amount} {fuel : ℕ} :
      RepBlock s.blockGet c.hashables.previous info.repBlock →
      info.balance = ((s.accounts.get a).getD {}).balance → s'.pending = s.pending →
      balance E s.blockGet fuel c.hashables.previous = .ok v →
      Moved E s.blockGet s s' h info.repBlock v → Reverted E s h a info s' (.changeBlock c)

def Popped (E : Env) (s : Store) (h : BlockHash) (s' : Store) : Prop :=
  ∃ b a info, Removed E s h b a info s' ∧ Reverted E s h a info s' b

variable {E : Env} {s s' : Store} {h : BlockHash} {fuel : ℕ}

def Top (s : Store) (h : BlockHash) : Prop := ∀ k, ¬ Link s.blockGet Previous k h

theorem loose_of_top {b : Block} (hs : Linked E s) (hb : s.blockGet h = some b)
    (hg : b ≠ genesisBlock E) (ht : Top s h) (hn : ∀ t, b ≠ .sendBlock t) :
    Loose E s.blockGet h b := by
  refine ⟨hb, hg, ?_⟩
  intro k hk
  obtain ⟨c, hc, hp | hq⟩ := hk
  · exact ht k ⟨c, hc, hp⟩
  · obtain ⟨t, hsend, _⟩ := hs.chains.collects k c h hc hq
    exact hn t (Option.some.inj (hb.symm.trans hsend))

theorem owner_of_erased {B : Lattice} {b : Block} {k : BlockHash} {a : Account} (hs : Linked E s)
    (loose : Loose E s.blockGet h b) (hB : B = Function.update s.blockGet h none)
    (hk : account B fuel k = .ok a) : Owner s.blockGet k a := by
  subst hB
  exact (account_ok (hs.chains.erase loose).addressed hk).1.within erase_within

theorem undoSend_ok {b : SendBlock} {r : Receivable} (hs : Linked E s)
    (hb : s.blockGet (E.hash (.sendBlock b)) = some (.sendBlock b))
    (ht : Top s (E.hash (.sendBlock b))) (hr : s.pending.get (E.hash (.sendBlock b)) = some r)
    (h₁ : undoSend E fuel s b r = .ok s') : Popped E s (E.hash (.sendBlock b)) s' := by
  unfold undoSend at h₁
  obtain ⟨u, hu, h₁⟩ := bind_eq_ok.mp h₁
  obtain ⟨v, hv, h₁⟩ := bind_eq_ok.mp h₁
  obtain ⟨w, hw, h₁⟩ := bind_eq_ok.mp h₁
  obtain ⟨x, hx, h₁⟩ := bind_eq_ok.mp h₁
  obtain ⟨y, hy, h₁⟩ := bind_eq_ok.mp h₁
  cases h₁
  obtain ⟨_, rfl⟩ := pendingDel_eq_ok.mp hu
  obtain ⟨m, c, n, rfl, hsum⟩ := changeLatest_ok hw
  obtain ⟨hblocks, hl, hex⟩ := Store.blockDel_ok hx hs.exclusive
  obtain ⟨_, rfl⟩ := frontierDel_eq_ok.mp hy
  obtain ⟨_, ho, hn⟩ := hs.pending _ r hr
  have loose : Loose E s.blockGet (E.hash (.sendBlock b)) (.sendBlock b) := by
    refine ⟨hb, (nomatch ·), ?_⟩
    intro k hk
    obtain ⟨e, he, hp | hq⟩ := hk
    · exact ht k ⟨e, he, hp⟩
    · exact hn k ⟨e, he, hq⟩
  refine ⟨.sendBlock b, r.source, ⟨b.hashables.previous,
    ((s.accounts.get r.source).getD {}).repBlock, v, m⟩, ?_, ?_⟩
  · exact
      { loose := loose
        owner := ho
        blocks := hblocks
        exclusive := hex
        head := rfl
        accounts := hl.accounts
        frontiers := by
          change (x.frontiers.del _).put _ _ = _
          rw [hl.frontiers]
          rfl
        summed := fun h₀ => (summed_of_same hl (hsum h₀) : Summed x) }
  · exact .send hr hl.pending hv rfl hl.representation

theorem undoChange_ok {b : ChangeBlock} (hs : Linked E s)
    (hb : s.blockGet (E.hash (.changeBlock b)) = some (.changeBlock b))
    (ht : Top s (E.hash (.changeBlock b)))
    (h₁ : undoChange E fuel s b = .ok s') : Popped E s (E.hash (.changeBlock b)) s' := by
  unfold undoChange at h₁
  obtain ⟨rep, hrep, h₁⟩ := bind_eq_ok.mp h₁
  obtain ⟨a, ha, h₁⟩ := bind_eq_ok.mp h₁
  obtain ⟨v, hv, h₁⟩ := bind_eq_ok.mp h₁
  obtain ⟨u, hu, h₁⟩ := bind_eq_ok.mp h₁
  obtain ⟨x, hx, h₁⟩ := bind_eq_ok.mp h₁
  obtain ⟨w, hw, h₁⟩ := bind_eq_ok.mp h₁
  obtain ⟨y, hy, h₁⟩ := bind_eq_ok.mp h₁
  cases h₁
  obtain ⟨bx, cx, hbx, hbx₀, hcx, hcx₀, hle, rfl⟩ := moveRepresentation_eq_ok.mp hu
  obtain ⟨hblocks, hl, hex⟩ := Store.blockDel_ok hx hs.exclusive
  obtain ⟨m, c, n, rfl, hsum⟩ := changeLatest_ok hw
  obtain ⟨_, rfl⟩ := frontierDel_eq_ok.mp hy
  have ho := (account_ok hs.chains.addressed ha).1
  refine ⟨.changeBlock b, a, ⟨b.hashables.previous, rep,
    ((s.accounts.get a).getD {}).balance, m⟩, ?_, ?_⟩
  · exact
      { loose := loose_of_top hs hb (nomatch ·) ht (fun _ => (nomatch ·))
        owner := (owner_previous hb rfl).mpr ho
        blocks := hblocks
        exclusive := hex
        head := rfl
        accounts := by
          change latestTable x.accounts _ _ = _
          rw [hl.accounts]
          rfl
        frontiers := by
          change (x.frontiers.del _).put _ _ = _
          rw [hl.frontiers]
          rfl
        summed := fun h₀ => hsum (summed_of_same hl h₀) }
  · exact .change (representative_ok hs.chains.keyed hrep) rfl hl.pending hv
      ⟨bx, cx, hbx, hbx₀, hcx, hcx₀, hle, hl.representation⟩

theorem undoReceive_ok {b : ReceiveBlock} (hs : Linked E s)
    (hb : s.blockGet (E.hash (.receiveBlock b)) = some (.receiveBlock b))
    (ht : Top s (E.hash (.receiveBlock b)))
    (h₁ : undoReceive E fuel s b = .ok s') : Popped E s (E.hash (.receiveBlock b)) s' := by
  unfold undoReceive at h₁
  obtain ⟨rep, hrep, h₁⟩ := bind_eq_ok.mp h₁
  obtain ⟨v, hv, h₁⟩ := bind_eq_ok.mp h₁
  obtain ⟨a, ha, h₁⟩ := bind_eq_ok.mp h₁
  obtain ⟨own, hown, h₁⟩ := bind_eq_ok.mp h₁
  obtain ⟨u, hu, h₁⟩ := bind_eq_ok.mp h₁
  obtain ⟨z, hz, h₁⟩ := bind_eq_ok.mp h₁
  obtain ⟨w, hw, h₁⟩ := bind_eq_ok.mp h₁
  obtain ⟨x, hx, h₁⟩ := bind_eq_ok.mp h₁
  obtain ⟨source, hsource, h₁⟩ := bind_eq_ok.mp h₁
  obtain ⟨y, hy, h₁⟩ := bind_eq_ok.mp h₁
  cases h₁
  obtain ⟨bx, cx, hbx, hbx₀, hcx, hcx₀, hle, rfl⟩ := moveRepresentation_eq_ok.mp hu
  obtain ⟨m, c, n, rfl, hsum⟩ := changeLatest_ok hw
  obtain ⟨hblocks, hl, hex⟩ := Store.blockDel_ok hx hs.exclusive
  obtain ⟨_, rfl⟩ := frontierDel_eq_ok.mp hy
  have loose := loose_of_top hs hb (nomatch ·) ht (fun _ => (nomatch ·))
  have hblocks : x.blockGet = Function.update s.blockGet (E.hash (.receiveBlock b)) none := hblocks
  have hsrc := owner_of_erased hs loose hblocks hsource
  refine ⟨.receiveBlock b, a, ⟨b.hashables.previous, rep, z, m⟩, ?_, ?_⟩
  · exact
      { loose := loose
        owner := (account_ok hs.chains.addressed ha).1
        blocks := hblocks
        exclusive := hex
        head := rfl
        accounts := hl.accounts
        frontiers := by
          change (x.frontiers.del _).put _ _ = _
          rw [hl.frontiers]
          rfl
        summed := fun h₀ => (summed_of_same hl (hsum h₀) : Summed x) }
  · refine .receive hsrc hv hz (representative_ok hs.chains.keyed hrep) ?_
      (representative_ok hs.chains.keyed hown)
      ⟨bx, cx, hbx, hbx₀, hcx, hcx₀, hle, hl.representation⟩
    change x.pending.put _ _ = _
    rw [hl.pending]

/-- While the genesis block is the top of its chain, it is the only block. -/
theorem only_genesis {k : BlockHash} {b : Block} (hs : Linked E s)
    (ht : Top s (genesisHash E)) (hb : s.blockGet k = some b) : k = genesisHash E := by
  obtain ⟨rank, hr⟩ := hs.chains.ranked
  induction hn : rank k using Nat.strong_induction_on generalizing k b with
  | _ n ih =>
      cases hp : b.previousLink with
      | some p =>
          have hl : Link s.blockGet Previous k p := ⟨b, hb, hp⟩
          obtain ⟨c, hc⟩ := Option.ne_none_iff_exists'.mp (hs.chains.previous k p hl)
          have hlt := hr k p ⟨b, hb, Or.inl hp⟩
          have hpg := ih _ (by omega) hc rfl
          subst hpg
          exact absurd hl (ht k)
      | none =>
          by_cases hg : b = genesisBlock E
          · subst hg
            exact (hs.chains.keyed k _ hb).symm
          · cases b with
            | sendBlock t | receiveBlock t | changeBlock t => cases hp
            | openBlock o =>
                have hq : Collects E (.openBlock o) o.hashables.source := ⟨hg, rfl⟩
                obtain ⟨t, hsend, _⟩ := hs.chains.collects k _ _ hb hq
                have hlt := hr k _ ⟨_, hb, Or.inr hq⟩
                have hqg := ih _ (by omega) hsend rfl
                rw [hqg, hs.chains.genesis] at hsend
                cases hsend

/-- The visitors run forever on an open block that names itself as source. -/
theorem amount_self_source {B : Lattice} {o : OpenBlock} (hB : B h = some (.openBlock o))
    (ho : o.hashables.source = h) (h₀ : h ≠ 0) : ∀ fuel,
    (∀ v, amount E B fuel h ≠ .ok v) ∧ (∀ v, fromSend E B fuel h ≠ .ok v) ∧
      ∀ r v, balanceCompute E B fuel h r ≠ .ok v := by
  intro fuel
  induction fuel with
  | zero => exact ⟨exhaust_ne_ok, exhaust_ne_ok, fun _ => exhaust_ne_ok⟩
  | succ fuel ih =>
      obtain ⟨iha, ihf, ihb⟩ := ih
      refine ⟨?_, ?_, ?_⟩
      · intro v hv
        rw [amount, hB] at hv
        exact ihf v (ho ▸ hv)
      · intro v hv
        rw [fromSend] at hv
        obtain ⟨w, hw, _⟩ := bind_eq_ok.mp hv
        exact ihb 0 w hw
      · intro r v hv
        rw [balanceCompute, if_neg h₀, hB] at hv
        obtain ⟨b, hb, hv⟩ := bind_eq_ok.mp hv
        cases hb
        obtain ⟨w, hw, _⟩ := bind_eq_ok.mp hv
        exact iha w (ho ▸ hw)

theorem undoOpen_ne_genesis {b : OpenBlock} (hs : Linked E s)
    (ht : Top s (E.hash (.openBlock b))) (h₁ : undoOpen E fuel s b = .ok s') :
    Block.openBlock b ≠ genesisBlock E := by
  intro hg
  cases hg
  unfold undoOpen at h₁
  obtain ⟨rep, hrep, h₁⟩ := bind_eq_ok.mp h₁
  obtain ⟨v, hv, h₁⟩ := bind_eq_ok.mp h₁
  obtain ⟨a, ha, h₁⟩ := bind_eq_ok.mp h₁
  -- The source of the genesis block, its account, would be its own hash.
  have hself : E.genesisAccount = genesisHash E := by
    have hr := representative_ok hs.chains.keyed hrep
    cases hr with
    | here hb _ => exact only_genesis hs ht hb
    | back hb _ _ _ => exact only_genesis hs ht hb
  have h₀ : genesisHash E ≠ 0 := by
    obtain ⟨ho, ha₀⟩ := account_ok hs.chains.addressed ha
    have hga := (owner_open hs.chains.genesis).mp ho
    rw [← hself]
    intro hz
    exact ha₀ (hga.symm.trans hz)
  have hamount := (amount_self_source (E := E) hs.chains.genesis hself h₀ fuel).1 v
  have hv : amount E s.blockGet fuel E.genesisAccount = .ok v := hv
  rw [hself] at hv
  exact hamount hv

theorem undoOpen_ok {b : OpenBlock} (hs : Linked E s)
    (hb : s.blockGet (E.hash (.openBlock b)) = some (.openBlock b))
    (ht : Top s (E.hash (.openBlock b)))
    (h₁ : undoOpen E fuel s b = .ok s') : Popped E s (E.hash (.openBlock b)) s' := by
  have hg := undoOpen_ne_genesis hs ht h₁
  unfold undoOpen at h₁
  obtain ⟨rep, hrep, h₁⟩ := bind_eq_ok.mp h₁
  obtain ⟨v, hv, h₁⟩ := bind_eq_ok.mp h₁
  obtain ⟨a, ha, h₁⟩ := bind_eq_ok.mp h₁
  obtain ⟨own, hown, h₁⟩ := bind_eq_ok.mp h₁
  obtain ⟨u, hu, h₁⟩ := bind_eq_ok.mp h₁
  obtain ⟨w, hw, h₁⟩ := bind_eq_ok.mp h₁
  obtain ⟨x, hx, h₁⟩ := bind_eq_ok.mp h₁
  obtain ⟨source, hsource, h₁⟩ := bind_eq_ok.mp h₁
  obtain ⟨_, rfl⟩ := frontierDel_eq_ok.mp h₁
  obtain ⟨bx, cx, hbx, hbx₀, hcx, hcx₀, hle, rfl⟩ := moveRepresentation_eq_ok.mp hu
  obtain ⟨m, c, n, rfl, hsum⟩ := changeLatest_ok hw
  obtain ⟨hblocks, hl, hex⟩ := Store.blockDel_ok hx hs.exclusive
  have loose := loose_of_top hs hb hg ht (fun _ => (nomatch ·))
  have hblocks : x.blockGet = Function.update s.blockGet (E.hash (.openBlock b)) none := hblocks
  have hsrc := owner_of_erased hs loose hblocks hsource
  refine ⟨.openBlock b, a, ⟨0, rep, 0, m⟩, ?_, ?_⟩
  · exact
      { loose := loose
        owner := (account_ok hs.chains.addressed ha).1
        blocks := hblocks
        exclusive := hex
        head := rfl
        accounts := hl.accounts
        frontiers := by
          change x.frontiers.del _ = _
          rw [hl.frontiers]
          rfl
        summed := fun h₀ => (summed_of_same hl (hsum h₀) : Summed x) }
  · refine .opened hsrc hv (representative_ok hs.chains.keyed hrep) ?_
      (representative_ok hs.chains.keyed hown)
      ⟨bx, cx, hbx, hbx₀, hcx, hcx₀, hle, hl.representation⟩
    change x.pending.put _ _ = _
    rw [hl.pending]

section Popped
variable {b : Block} {a : Account} {info : AccountInfo} {k : BlockHash} {r : Receivable}

/-- A pending entry is old, or is the one of the send that the removed block
had collected. -/
theorem reverted_pending (hr : Reverted E s h a info s' b) (hp : s'.pending.get k = some r) :
    (s.pending.get k = some r ∧ (k = h → ∀ t, b ≠ .sendBlock t)) ∨
      (b.sourceLink = some k ∧ Owner s.blockGet k r.source ∧ r.destination = a) := by
  cases hr with
  | send _ he =>
      rw [he, Table.get_del] at hp
      split_ifs at hp with hk
      exact Or.inl ⟨hp, fun hkh => absurd hkh hk⟩
  | receive ho _ _ _ he =>
      rw [he, Table.get_put] at hp
      split_ifs at hp with hk
      · cases hp
        subst hk
        exact Or.inr ⟨rfl, ho, rfl⟩
      · exact Or.inl ⟨hp, fun _ _ => (nomatch ·)⟩
  | opened ho _ _ he =>
      rw [he, Table.get_put] at hp
      split_ifs at hp with hk
      · cases hp
        subst hk
        exact Or.inr ⟨rfl, ho, rfl⟩
      · exact Or.inl ⟨hp, fun _ _ => (nomatch ·)⟩
  | change _ _ he =>
      rw [he] at hp
      exact Or.inl ⟨hp, fun _ _ => (nomatch ·)⟩

theorem Removed.chains (hr : Removed E s h b a info s') (hs : Linked E s) :
    Chains E s'.blockGet := by
  rw [hr.blocks]
  exact hs.chains.erase hr.loose

theorem Removed.owner_of_ne {x : Account} (hr : Removed E s h b a info s') (hk : k ≠ h)
    (ho : Owner s.blockGet k x) : Owner s'.blockGet k x := by
  rw [hr.blocks]
  exact ho.erase hr.loose.unprevious hk

theorem Removed.within (hr : Removed E s h b a info s') : Within s'.blockGet s.blockGet := by
  rw [hr.blocks]
  exact erase_within

theorem Removed.other (hr : Removed E s h b a info s') (hk : k ≠ h) :
    s'.blockGet k = s.blockGet k := by
  rw [hr.blocks, Function.update_of_ne hk]

theorem Removed.gone (hr : Removed E s h b a info s') : s'.blockGet h = none := by
  rw [hr.blocks, Function.update_self]

theorem Removed.ne_of_stored {c : Block} (hr : Removed E s h b a info s')
    (hk : s'.blockGet k = some c) : k ≠ h := by
  intro he
  rw [he, hr.gone] at hk
  cases hk

theorem Removed.ne_of_link {links : Block → BlockHash → Prop} {j : BlockHash}
    (hr : Removed E s h b a info s') (hl : Link s'.blockGet links k j) : k ≠ h := by
  rw [hr.blocks] at hl
  exact (link_erase.mp hl).1

theorem Removed.new_head {p : BlockHash} (hr : Removed E s h b a info s') (hs : Linked E s)
    (hp : b.previousLink = some p) :
    Owner s'.blockGet p a ∧ ∀ k, ¬ Link s'.blockGet Previous k p := by
  have hl : Link s.blockGet Previous h p := ⟨b, hr.loose.stored, hp⟩
  have hne : p ≠ h := by
    intro he
    subst he
    exact hr.loose.unprevious _ hl
  refine ⟨hr.owner_of_ne hne ((owner_previous hr.loose.stored hp).mp hr.owner), ?_⟩
  intro k hk
  exact hr.ne_of_link hk (hs.chains.oneSuccessor k h p (hr.within.link hk) hl)

theorem Removed.released {q : BlockHash} (hr : Removed E s h b a info s') (hs : Linked E s)
    (hq : b.sourceLink = some q) :
    q ≠ h ∧ (∃ t, s'.blockGet q = some (.sendBlock t) ∧ t.hashables.destination = a) ∧
      ∀ k, ¬ Link s'.blockGet (Collects E) k q := by
  have hc : Collects E b q := ⟨hr.loose.notGenesis, hq⟩
  have hl : Link s.blockGet (Collects E) h q := ⟨b, hr.loose.stored, hc⟩
  have hne : q ≠ h := by
    intro he
    subst he
    exact hr.loose.uncollected _ hl
  obtain ⟨t, ht, ho⟩ := hs.chains.collects h b q hr.loose.stored hc
  refine ⟨hne, ⟨t, ?_, ho.unique hr.owner⟩, ?_⟩
  · rw [hr.other hne]
    exact ht
  · intro k hk
    exact hr.ne_of_link hk (hs.chains.oneCollector k h q (hr.within.link hk) hl)

theorem Linked.removed (hs : Linked E s) (hr : Removed E s h b a info s')
    (hv : Reverted E s h a info s' b) : Linked E s' := by
  constructor
  case exclusive => exact hr.exclusive
  case chains => exact hr.chains hs
  case signed =>
    rw [hr.blocks]
    exact hs.signed.erase
  case heads =>
    intro x i hi
    rw [hr.accounts, get_latestTable] at hi
    by_cases hx : x = a
    · subst hx
      rw [if_pos rfl] at hi
      split_ifs at hi with h₀
      cases hi
      rw [hr.head] at h₀ ⊢
      cases hp : b.previousLink with
      | none =>
          rw [hp] at h₀
          exact absurd rfl h₀
      | some p => exact hr.new_head hs hp
    · rw [if_neg hx] at hi
      obtain ⟨ho, hn⟩ := hs.heads x i hi
      have hne : i.head ≠ h := by
        intro he
        rw [he] at ho
        exact hx (ho.unique hr.owner)
      exact ⟨hr.owner_of_ne hne ho, fun k hk => hn k (hr.within.link hk)⟩
  case pending =>
    intro k r hp
    rcases reverted_pending hv hp with ⟨hp, hk⟩ | ⟨hq, ho, hd⟩
    · obtain ⟨⟨t, ht, hd⟩, ho, hn⟩ := hs.pending k r hp
      have hne : k ≠ h := by
        intro he
        subst he
        exact hk rfl t (Option.some.inj (hr.loose.stored.symm.trans ht))
      refine ⟨⟨t, ?_, hd⟩, hr.owner_of_ne hne ho, fun j hj => hn j (hr.within.link hj)⟩
      rw [hr.other hne]
      exact ht
    · obtain ⟨hne, ⟨t, ht, hta⟩, hn⟩ := hr.released hs hq
      exact ⟨⟨t, ht, hta.trans hd.symm⟩, hr.owner_of_ne hne ho, hn⟩

end Popped

end PaperNode.RollbackSteps
