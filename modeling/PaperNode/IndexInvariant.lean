import PaperNode.RollbackSteps

/-!
# The tables list every chain

`Linked` says that what the tables hold is right. This module is about the other
direction, that nothing is missing: every chain that ends has its end as the
head of an account, the frontier table is the inverse of the account heads, and
every send that no block collects is pending.

It rests on two facts about code outside the ledger. No block hashes to zero,
which the account table uses for "no block", nor to the number of the genesis
account, which the genesis block has as its source. And no signature is good for
account zero, which the frontier table uses for "no account".
-/
namespace PaperNode.IndexInvariant
open BoundedRecursion OrderedTable LinkedNodes Words Blocks BlockStore LedgerQueries LedgerProcess
open LedgerRollback BlockLattice QueryCorrectness ProcessSteps ChainInvariant RollbackSteps

structure Hashed (E : Env) : Prop where
  hash_ne_zero : ∀ b, E.hash b ≠ 0
  hash_ne_genesis : ∀ b, E.hash b ≠ E.genesisAccount

/-- What the ledger relies on about the digest and the signature check. -/
structure Proper (E : Env) : Prop where
  hash_ne_zero : ∀ b, E.hash b ≠ 0
  hash_ne_genesis : ∀ b, E.hash b ≠ E.genesisAccount
  zero_rejected : ∀ h sig, E.validateMessage 0 h sig = true

theorem Proper.hashed {E : Env} (hE : Proper E) : Hashed E :=
  ⟨hE.hash_ne_zero, hE.hash_ne_genesis⟩

theorem Proper.signer_ne_zero {E : Env} (hE : Proper E) {a : Account} {h : BlockHash}
    {sig : Signature} (hv : E.validateMessage a h sig = false) : a ≠ 0 := by
  intro hz
  rw [hz, hE.zero_rejected] at hv
  cases hv

theorem Proper.configured {E : Env} (hE : Proper E) (clock : ℕ → Word64) (assertion : Bool) :
    Proper { E with now := clock, weightAssert := assertion } :=
  ⟨hE.hash_ne_zero, hE.hash_ne_genesis, hE.zero_rejected⟩

structure Indexed (E : Env) (s : Store) : Prop where
  headed : ∀ h b, s.blockGet h = some b → Top s h →
    ∃ a i, s.accounts.get a = some i ∧ i.head = h
  frontiers : ∀ h a, s.frontiers.get h = some a ↔ ∃ i, s.accounts.get a = some i ∧ i.head = h
  pendingAll : ∀ h t, s.blockGet h = some (.sendBlock t) →
    (∀ k, ¬ Link s.blockGet (Collects E) k h) → s.pending.get h ≠ none

variable {E : Env} {s s' : Store} {b : Block} {a : Account} {info : AccountInfo}
  {h p : BlockHash}

theorem Linked.bottomed (hE : Hashed E) (hs : Linked E s) : Bottomed E s.blockGet := by
  have unstored : ∀ k, (∀ c, E.hash c ≠ k) → s.blockGet k = none := by
    intro k hk
    by_contra hne
    obtain ⟨c, hc⟩ := Option.ne_none_iff_exists'.mp hne
    exact hk c (hs.chains.keyed k c hc)
  exact ⟨unstored 0 hE.hash_ne_zero, unstored _ hE.hash_ne_genesis⟩

theorem genesis_indexed (hg : Genesis E s) : Indexed E s := by
  obtain ⟨m, hm⟩ := hg.accounts
  constructor
  case headed =>
    intro h b hb _
    obtain ⟨rfl, rfl⟩ := hg.stored hb
    exact ⟨E.genesisAccount, _, by rw [hm, Table.get_put_self], rfl⟩
  case frontiers =>
    intro h a
    rw [hg.frontiers, hm, Table.get_put]
    simp only [Table.get_put]
    constructor
    · intro hf
      split_ifs at hf with hh
      · cases hf
        exact ⟨_, if_pos rfl, hh.symm⟩
      · cases hf
    · intro hi
      obtain ⟨i, hi, hh⟩ := hi
      split_ifs at hi with ha
      · cases hi
        rw [if_pos hh.symm, ha]
      · cases hi
  case pendingAll =>
    intro h t ht
    cases (hg.stored ht).2

theorem get_elim_del {V : Type} (t : Table BlockHash V) (o : Option BlockHash) (h : BlockHash) :
    (o.elim t t.del).get h = if o = some h then none else t.get h := by
  cases o with
  | none => rfl
  | some p =>
      rw [Option.elim_some, Table.get_del]
      simp only [Option.some.injEq, eq_comm]

theorem get_elim_put {V : Type} (t : Table BlockHash V) (o : Option BlockHash) (h k : BlockHash)
    (v : V) : (o.elim (t.del h) (fun p => (t.del h).put p v)).get k =
      if o = some k then some v else if k = h then none else t.get k := by
  cases o with
  | none => simp [Table.get_del]
  | some p =>
      rw [Option.elim_some, Table.get_put, Table.get_del]
      simp only [Option.some.injEq, eq_comm]

theorem Indexed.frontierGet_head {i : AccountInfo} (hx : Indexed E s)
    (hi : s.accounts.get a = some i) : s.frontierGet i.head = a := by
  unfold Store.frontierGet
  rw [(hx.frontiers i.head a).mpr ⟨i, hi, rfl⟩, Option.getD_some]

section Accepted

theorem old_head {i : AccountInfo} (hl : Placed E s b a info s') (hp : Posted E s a info s' b)
    (hi : s.accounts.get a = some i) : b.previousLink = some i.head := by
  cases hb : b.previousLink with
  | some p =>
      obtain ⟨j, hj, rfl⟩ := hl.onHead p hb
      cases hi.symm.trans hj
      rfl
  | none =>
      cases hp with
      | opened hn =>
          rw [hn] at hi
          cases hi
      | send | receive | change => cases hb

theorem placed_accounts (hE : Hashed E) (hl : Placed E s b a info s') :
    s'.accounts = s.accounts.put a info := by
  have h₀ : info.head ≠ 0 := by
    rw [hl.head]
    exact hE.hash_ne_zero b
  rw [hl.accounts, latestTable, if_neg h₀]

theorem placed_account (hE : Hashed E) (hl : Placed E s b a info s') (x : Account) :
    s'.accounts.get x = if x = a then some info else s.accounts.get x := by
  rw [placed_accounts hE hl, Table.get_put]

theorem Indexed.accepted_headed (hE : Hashed E) (hi : Indexed E s) (hl : Placed E s b a info s')
    (hp : Posted E s a info s' b) : ∀ h c, s'.blockGet h = some c → Top s' h →
      ∃ a i, s'.accounts.get a = some i ∧ i.head = h := by
  have hacc := placed_account hE hl
  intro h c hb ht
  by_cases hh : h = E.hash b
  · exact ⟨a, info, by rw [hacc, if_pos rfl], hl.head.trans hh.symm⟩
  · rw [hl.other hh] at hb
    obtain ⟨x, i, hx, rfl⟩ := hi.headed h c hb (fun k hk => ht k (hl.within.link hk))
    refine ⟨x, i, ?_, rfl⟩
    rw [hacc, if_neg, hx]
    intro hxa
    subst hxa
    exact ht (E.hash b) ⟨b, hl.stored, old_head hl hp hx⟩

theorem Indexed.accepted_frontiers (hE : Hashed E) (hs : Linked E s) (hi : Indexed E s)
    (hl : Placed E s b a info s') (hp : Posted E s a info s' b) : ∀ h a,
      s'.frontiers.get h = some a ↔ ∃ i, s'.accounts.get a = some i ∧ i.head = h := by
  -- A head of the old table is a stored block, hence not the new one.
  have hhead : ∀ {x : Account} {i : AccountInfo}, s.accounts.get x = some i →
      i.head ≠ E.hash b := by
    intro x i hx he
    exact (hs.heads x i hx).1.stored (he ▸ hl.fresh)
  intro h x
  rw [hl.frontiers, Table.get_put, placed_account hE hl]
  by_cases hh : h = E.hash b
  · subst hh
    rw [if_pos rfl]
    by_cases hx : x = a
    · subst hx
      rw [if_pos rfl]
      exact ⟨fun _ => ⟨info, rfl, hl.head⟩, fun _ => rfl⟩
    · rw [if_neg hx]
      constructor
      · intro he
        exact absurd (Option.some.inj he).symm hx
      · intro he
        obtain ⟨i, hix, he⟩ := he
        exact absurd he (hhead hix)
  · rw [if_neg hh, get_elim_del]
    by_cases hx : x = a
    · subst hx
      rw [if_pos rfl]
      constructor
      · intro hf
        split_ifs at hf with hprev
        obtain ⟨i, hix, rfl⟩ := (hi.frontiers h x).mp hf
        exact absurd (old_head hl hp hix) hprev
      · intro he
        obtain ⟨i, hix, rfl⟩ := he
        cases hix
        exact absurd hl.head hh
    · rw [if_neg hx, ← hi.frontiers h x]
      split_ifs with hprev
      · refine ⟨(nomatch ·), fun hf => ?_⟩
        obtain ⟨i, hix, rfl⟩ := (hi.frontiers h x).mp hf
        have ho := ((hs.fits hl hp).onTop _ hprev).1
        exact absurd ((hs.heads x i hix).1.unique ho) hx
      · exact Iff.rfl

theorem Indexed.accepted_pendingAll (hs : Linked E s) (hi : Indexed E s)
    (hl : Placed E s b a info s') (hp : Posted E s a info s' b) : ∀ h t,
      s'.blockGet h = some (.sendBlock t) → (∀ k, ¬ Link s'.blockGet (Collects E) k h) →
      s'.pending.get h ≠ none := by
  intro h t ht hn
  by_cases hh : h = E.hash b
  · subst hh
    cases hl.stored.symm.trans ht
    cases hp with
    | send _ _ _ _ he => simp [he]
  · rw [hl.other hh] at ht
    have hpend := hi.pendingAll h t ht (fun k hk => hn k (hl.within.link hk))
    have hcol : b.sourceLink ≠ some h := by
      intro hq
      exact hn (E.hash b) ⟨b, hl.stored, (hs.fits hl hp).ne_genesis hs.chains, hq⟩
    cases hp with
    | send _ _ _ _ he => rwa [he, Table.get_put_ne _ _ hh]
    | receive _ _ _ _ _ _ he =>
        rwa [he, Table.get_del_ne _ (fun hq => hcol (congrArg some hq.symm))]
    | opened _ _ _ _ _ _ _ he =>
        rwa [he, Table.get_del_ne _ (fun hq => hcol (congrArg some hq.symm))]
    | change _ _ _ he => rwa [he]

theorem Indexed.accepted (hE : Hashed E) (hs : Linked E s) (hi : Indexed E s)
    (hl : Placed E s b a info s') (hp : Posted E s a info s' b) : Indexed E s' :=
  ⟨hi.accepted_headed hE hl hp, hi.accepted_frontiers hE hs hl hp,
    hi.accepted_pendingAll hs hl hp⟩

end Accepted

section Popped

theorem removed_head (hi : Indexed E s) (hs : Linked E s) (hr : Removed E s h b a info s') :
    ∃ i, s.accounts.get a = some i ∧ i.head = h := by
  obtain ⟨x, i, hx, hh⟩ := hi.headed h b hr.loose.stored hr.loose.unprevious
  have ho := (hs.heads x i hx).1
  rw [hh] at ho
  cases ho.unique hr.owner
  exact ⟨i, hx, hh⟩

theorem removed_account (hE : Hashed E) (hs : Linked E s) (hr : Removed E s h b a info s')
    (x : Account) : s'.accounts.get x =
      if x = a then (if b.previousLink = none then none else some info) else s.accounts.get x := by
  rw [hr.accounts, get_latestTable]
  have h₀ : info.head = 0 ↔ b.previousLink = none := by
    rw [hr.head]
    cases hp : b.previousLink with
    | none => simp
    | some p =>
        have hne : p ≠ 0 := by
          obtain ⟨c, hc⟩ := Option.ne_none_iff_exists'.mp
            (hs.chains.previous h p ⟨b, hr.loose.stored, hp⟩)
          exact (Linked.bottomed hE hs).ne_zero hc
        simpa using hne
  simp only [h₀]

theorem removed_link {links : Block → BlockHash → Prop} {j k : BlockHash}
    (hr : Removed E s h b a info s') (hl : Link s.blockGet links j k)
    (hn : ¬ Link s'.blockGet links j k) : j = h := by
  by_contra hj
  rw [hr.blocks] at hn
  exact hn (link_erase.mpr ⟨hj, hl⟩)

theorem Indexed.removed_headed (hE : Hashed E) (hs : Linked E s) (hi : Indexed E s)
    (hr : Removed E s h b a info s') : ∀ k c, s'.blockGet k = some c → Top s' k →
      ∃ a i, s'.accounts.get a = some i ∧ i.head = k := by
  have hacc := removed_account hE hs hr
  obtain ⟨i₀, hi₀, hhead⟩ := removed_head hi hs hr
  intro k c hc ht
  have hk := hr.ne_of_stored hc
  rw [hr.other hk] at hc
  by_cases htop : Top s k
  · obtain ⟨x, i, hx, rfl⟩ := hi.headed k c hc htop
    refine ⟨x, i, ?_, rfl⟩
    rw [hacc, if_neg, hx]
    intro hxa
    subst hxa
    cases hx.symm.trans hi₀
    exact hk hhead
  · obtain ⟨j, hj⟩ := not_forall_not.mp htop
    have hjh := removed_link hr hj (ht j)
    subst hjh
    obtain ⟨d, hd, hp⟩ := hj
    cases hr.loose.stored.symm.trans hd
    refine ⟨a, info, ?_, ?_⟩
    · rw [hacc, if_pos rfl, if_neg]
      rw [show b.previousLink = some k from hp]
      exact (nomatch ·)
    · rw [hr.head, show b.previousLink = some k from hp]
      rfl

theorem Indexed.removed_frontiers (hE : Hashed E) (hs : Linked E s) (hi : Indexed E s)
    (hr : Removed E s h b a info s') : ∀ k a,
      s'.frontiers.get k = some a ↔ ∃ i, s'.accounts.get a = some i ∧ i.head = k := by
  obtain ⟨i₀, hi₀, hhead⟩ := removed_head hi hs hr
  intro k x
  rw [removed_account hE hs hr, hr.frontiers, get_elim_put]
  by_cases hx : x = a
  · subst hx
    -- In the new table the account's head is the predecessor, if there is one.
    have hnew : (∃ i, (if b.previousLink = none then none else some info) = some i ∧
        i.head = k) ↔ b.previousLink = some k := by
      have hinfo := hr.head
      cases hp : b.previousLink with
      | none => simp
      | some p =>
          rw [hp] at hinfo
          simp [hinfo]
    rw [if_pos rfl, hnew]
    constructor
    · intro hf
      split_ifs at hf with hp hk
      · exact hp
      · obtain ⟨i, hix, rfl⟩ := (hi.frontiers k x).mp hf
        cases hi₀.symm.trans hix
        exact absurd hhead hk
    · intro hp
      rw [if_pos hp]
  · rw [if_neg hx, ← hi.frontiers k x]
    split_ifs with hp hk
    · refine ⟨fun he => absurd (Option.some.inj he).symm hx, fun hf => ?_⟩
      obtain ⟨i, hix, rfl⟩ := (hi.frontiers k x).mp hf
      exact absurd ⟨b, hr.loose.stored, hp⟩ ((hs.heads x i hix).2 h)
    · refine ⟨(nomatch ·), fun hf => ?_⟩
      obtain ⟨i, hix, he⟩ := (hi.frontiers k x).mp hf
      have ho := (hs.heads x i hix).1
      rw [he, hk] at ho
      exact absurd (ho.unique hr.owner) hx
    · exact Iff.rfl

theorem Indexed.removed_pendingAll (hi : Indexed E s) (hr : Removed E s h b a info s')
    (hv : Reverted E s h a info s' b) : ∀ k t, s'.blockGet k = some (.sendBlock t) →
      (∀ j, ¬ Link s'.blockGet (Collects E) j k) → s'.pending.get k ≠ none := by
  intro k t ht hn
  have hk := hr.ne_of_stored ht
  rw [hr.other hk] at ht
  by_cases hcol : ∀ j, ¬ Link s.blockGet (Collects E) j k
  · have hpend := hi.pendingAll k t ht hcol
    cases hv with
    | send _ he => rwa [he, Table.get_del_ne _ hk]
    | receive _ _ _ _ he =>
        rw [he, Table.get_put]
        split_ifs <;> simp [hpend]
    | opened _ _ _ he =>
        rw [he, Table.get_put]
        split_ifs <;> simp [hpend]
    | change _ _ he => rwa [he]
  · obtain ⟨j, hj⟩ := not_forall_not.mp hcol
    have hjh := removed_link hr hj (hn j)
    subst hjh
    obtain ⟨d, hd, hq⟩ := hj
    cases hr.loose.stored.symm.trans hd
    cases hv with
    | send | change => cases hq.2
    | receive _ _ _ _ he =>
        cases hq.2
        simp [he]
    | opened _ _ _ he =>
        cases hq.2
        simp [he]

theorem Indexed.removed (hE : Hashed E) (hs : Linked E s) (hi : Indexed E s)
    (hr : Removed E s h b a info s') (hv : Reverted E s h a info s' b) : Indexed E s' :=
  ⟨hi.removed_headed hE hs hr, hi.removed_frontiers hE hs hr, hi.removed_pendingAll hr hv⟩

end Popped

section Heads

theorem Chains.ranked_previous {B : Lattice} (hc : Chains E B) :
    ∃ rank, Ranked B (Needs E) rank ∧ Ranked B Previous rank := by
  obtain ⟨rank, hr⟩ := hc.ranked
  refine ⟨rank, hr, ?_⟩
  intro k p hl
  obtain ⟨c, hk, hp⟩ := hl
  exact hr k p ⟨c, hk, Or.inl hp⟩

theorem reach_needs {B : Lattice} {k : BlockHash} (hr : Reach B Previous h k) :
    Reach B (Needs E) h k :=
  Relation.ReflTransGen.mono (fun _ _ ⟨c, hc, hp⟩ => ⟨c, hc, Or.inl hp⟩) _ _ hr

theorem exists_head (hs : Linked E s) (hi : Indexed E s) (ho : Owner s.blockGet h a) :
    ∃ i, s.accounts.get a = some i ∧ Reach s.blockGet Previous i.head h := by
  obtain ⟨rank, _, hr⟩ := Chains.ranked_previous hs.chains
  obtain ⟨t, hth, htop⟩ := hr.exists_unnamed h
  obtain ⟨c, hc⟩ : ∃ c, s.blockGet t = some c := by
    rcases Relation.ReflTransGen.cases_head hth with rfl | ⟨_, ⟨c, hc, _⟩, _⟩
    · exact Option.ne_none_iff_exists'.mp ho.stored
    · exact ⟨c, hc⟩
  obtain ⟨x, i, hx, rfl⟩ := hi.headed t c hc htop
  have hox := (Owner.reach hth).mp (hs.heads x i hx).1
  cases hox.unique ho
  exact ⟨i, hx, hth⟩

theorem not_owner_of_unknown (hs : Linked E s) (hi : Indexed E s) (hn : s.accounts.get a = none) :
    ¬ Owner s.blockGet h a := by
  intro ho
  obtain ⟨i, hi', _⟩ := exists_head hs hi ho
  cases hn.symm.trans hi'

theorem open_unique {k : BlockHash} {o o' : OpenBlock} (hs : Linked E s) (hi : Indexed E s)
    (ho : s.blockGet h = some (.openBlock o)) (ho' : s.blockGet k = some (.openBlock o'))
    (ha : o.hashables.account = o'.hashables.account) : h = k := by
  obtain ⟨i, hx, hr⟩ := exists_head hs hi ((owner_open ho).mpr ha)
  obtain ⟨j, hy, hr'⟩ := exists_head hs hi ((owner_open ho').mpr rfl)
  cases hx.symm.trans hy
  rcases hr.total hr' with hhk | hkh
  · exact hhk.eq_of_orphan ho rfl
  · exact (hkh.eq_of_orphan ho' rfl).symm

theorem collected_below_head {t : SendBlock} (hs : Linked E s) (hi : Indexed E s)
    (ht : s.blockGet h = some (.sendBlock t)) (hp : s.pending.get h = none) :
    ∃ i k, s.accounts.get t.hashables.destination = some i ∧
      Reach s.blockGet Previous i.head k ∧ Link s.blockGet (Collects E) k h := by
  have hcol : ¬ ∀ k, ¬ Link s.blockGet (Collects E) k h := fun hn => hi.pendingAll h t ht hn hp
  obtain ⟨k, hk⟩ := not_forall_not.mp hcol
  obtain ⟨c, hc, hq⟩ := hk
  obtain ⟨t', ht', ho⟩ := hs.chains.collects k c h hc hq
  cases ht.symm.trans ht'
  obtain ⟨i, hx, hr⟩ := exists_head hs hi ho
  exact ⟨i, k, hx, hr, c, hc, hq⟩

end Heads

end PaperNode.IndexInvariant
