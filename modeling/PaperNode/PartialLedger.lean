import PaperNode.ProcessReturns
import PaperNode.BlockSetLedger

/-!
# Part of a ledger

A node that catches up holds some of the blocks of a ledger and is handed the others in
some order. What `process` says of such a block depends only on which of its
predecessors are there: a block that is stored is old, a block whose previous block and
source are stored passes the checks, and any other block is reported with a gap. No
block of the larger ledger is ever a fork, an overspend or badly signed.
-/
namespace PaperNode.PartialLedger
open BoundedRecursion OrderedTable LinkedNodes TransitionRuns Blocks BlockStore LedgerQueries
open LedgerProcess BlockLattice ProcessSteps ChainInvariant IndexInvariant RollbackRuns LedgerRuns
open MoneyInvariant Representatives VoteWeight ProcessReturns BlockSetLedger
open RollbackFuture hiding returns

/-- The ledger `s` holds some of the blocks of the ledger `u`. -/
structure Part (E : Env) (s u : Store) : Prop where
  part : Healthy E s
  whole : Healthy E u
  within : Within s.blockGet u.blockGet

/-- The first predecessor that `process` looks for and does not find: the source comes first. -/
def missing (s : Store) (b : Block) : Option BlockHash :=
  (b.sourceLink.toList ++ b.previousLink.toList).find? (fun p => !s.blockExists p)

variable {E : Env} {s s' u : Store} {b c : Block} {a : Account} {h k p q : BlockHash}
  {bs : List Block}

theorem missing_some (hb : b ≠ genesisBlock E) (hp : missing s b = some p) :
    Needs E b p ∧ s.blockGet p = none := by
  have hnone : s.blockGet p = none := by
    have hnot := List.find?_some hp
    exact Store.blockExists_eq_false.mp (by simpa using hnot)
  have hmem := List.mem_of_find?_eq_some hp
  rw [List.mem_append, Option.mem_toList, Option.mem_toList] at hmem
  rcases hmem with hq | hp
  · exact ⟨Or.inr ⟨hb, hq⟩, hnone⟩
  · exact ⟨Or.inl hp, hnone⟩

theorem missing_none (hp : missing s b = none) (hn : Needs E b p) : s.blockGet p ≠ none := by
  have hall := List.find?_eq_none.mp hp p
  rw [List.mem_append, Option.mem_toList, Option.mem_toList] at hall
  have hstored : s.blockExists p = true := by
    rcases hn with hn | ⟨_, hn⟩
    · simpa using hall (Or.inr hn)
    · simpa using hall (Or.inl hn)
  obtain ⟨c, hc⟩ := Store.blockExists_iff.mp hstored
  rw [hc]
  exact (nomatch ·)

theorem Part.reach (hs : Part E s u) (hh : s.blockGet h ≠ none)
    (hr : Reach u.blockGet Previous h k) :
    Reach s.blockGet Previous h k ∧ s.blockGet k ≠ none :=
  hs.within.reach_back hs.part.linked.chains.previous hh hr

theorem Part.owner (hs : Part E s u) (hh : s.blockGet h ≠ none) (ho : Owner u.blockGet h a) :
    Owner s.blockGet h a := by
  obtain ⟨c, hc⟩ := Option.ne_none_iff_exists'.mp hh
  exact hs.part.linked.chains.owner_of_within hs.within hc ho

section Part
variable (hs : Part E s u) (hb : u.blockGet (E.hash b) = some b)
  (hnew : s.blockGet (E.hash b) = none)
include hs hb hnew

omit hb in
theorem Part.ne_genesis : b ≠ genesisBlock E := by
  intro hg
  have hstored := hs.part.linked.chains.genesis
  rw [hg] at hnew
  cases hnew.symm.trans hstored

theorem Part.source (ho : Owner u.blockGet (E.hash b) a) (hq : b.sourceLink = some q)
    (hstored : s.blockGet q ≠ none) :
    (∃ t, s.blockGet q = some (.sendBlock t) ∧ t.hashables.destination = a) ∧
      ∀ k, ¬ Link s.blockGet (Collects E) k q := by
  have hchains := hs.whole.linked.chains
  have hcol : Collects E b q := ⟨hs.ne_genesis hnew, hq⟩
  constructor
  · obtain ⟨t, ht, hot⟩ := hchains.collects _ b q hb hcol
    exact ⟨t, hs.within.get_of_stored hstored ht, hot.unique ho⟩
  · intro k hk
    have heq := hchains.oneCollector k _ q (hs.within.link hk) ⟨b, hb, hcol⟩
    obtain ⟨c, hc, _⟩ := hk
    rw [heq, hnew] at hc
    cases hc

theorem Part.fits (ho : Owner u.blockGet (E.hash b) a)
    (hneeds : ∀ p, Needs E b p → s.blockGet p ≠ none) : Fits E s.blockGet b a := by
  have hchains := hs.whole.linked.chains
  constructor
  case fresh => exact hnew
  case onTop =>
    intro p hp
    constructor
    · exact hs.owner (hneeds p (Or.inl hp)) ((owner_previous hb hp).mp ho)
    · intro k hk
      have heq := hchains.oneSuccessor k _ p (hs.within.link hk) ⟨b, hb, hp⟩
      obtain ⟨c, hc, _⟩ := hk
      rw [heq, hnew] at hc
      cases hc
  case account =>
    intro o hbo
    subst hbo
    exact (owner_open hb).mp ho
  case source =>
    intro q hq
    exact hs.source hb hnew ho hq (hneeds q (Or.inr ⟨hs.ne_genesis hnew, hq⟩))

theorem Part.unopened {o : OpenBlock} (hbo : b = .openBlock o)
    (ho : Owner u.blockGet (E.hash b) a) : ¬ Owner s.blockGet k a := by
  intro hk
  have hu := hs.whole
  obtain ⟨r, o', _, ho', ha'⟩ := hk
  subst hbo
  have heq := open_unique hu.linked hu.indexed (hs.within r _ ho') hb
    (ha'.trans ((owner_open hb).mp ho).symm)
  rw [heq, hnew] at ho'
  cases ho'

/-- A block whose predecessors are all stored passes the checks. -/
theorem Part.passes (hE : Proper E) (hmiss : missing s b = none) : Passes E s b := by
  have hu := hs.whole
  obtain ⟨a, ho⟩ := hu.linked.chains.exists_owner hb
  have hg := hs.ne_genesis hnew
  have hneeds : ∀ p, Needs E b p → s.blockGet p ≠ none := fun p hp => missing_none hmiss hp
  refine passes_of_fits hE hs.part (hs.fits hb hnew ho hneeds)
    (hu.linked.signed _ b a hb hg ho) ?_ ?_
  · intro t ht
    subst ht
    -- the balance before the send is the same in both ledgers
    obtain ⟨d, t', w, ht', hw, hle, _⟩ := hu.funded.sends _ t hb
    cases hb.symm.trans ht'
    obtain ⟨c, hc⟩ := Option.ne_none_iff_exists'.mp (hneeds _ (Or.inl rfl))
    obtain ⟨v, hv⟩ := hs.part.replay hc
    refine ⟨v, hv, ?_⟩
    rw [(hv.within hs.within).unique hw]
    exact hle
  · intro o hbo k
    exact hs.unopened hb hnew hbo ho

/-- Any other block is reported with a gap at the predecessor that is missing. -/
theorem Part.gap (hmiss : missing s b = some p) :
    ∃ ret, (∀ n, process E n s b = .ok (ret, s)) ∧
      (ret.code = .gapPrevious ∧ p = b.previous ∨ ret.code = .gapSource ∧ p = b.source) := by
  have hfresh : s.blockExists (E.hash b) = false := Store.blockExists_eq_false.mpr hnew
  cases b with
  | sendBlock t | changeBlock t =>
      have hmem := List.mem_of_find?_eq_some hmiss
      have hprev := List.find?_some hmiss
      cases List.mem_singleton.mp hmem
      refine ⟨⟨.gapPrevious, none⟩, fun n => ?_, Or.inl ⟨rfl, rfl⟩⟩
      simp only [process, sendBlock, changeBlock, hfresh, hprev, if_true, Bool.false_eq_true,
        if_false, reject]
  | openBlock o =>
      have hmem := List.mem_of_find?_eq_some hmiss
      have hsource := List.find?_some hmiss
      cases List.mem_singleton.mp hmem
      refine ⟨⟨.gapSource, none⟩, fun n => ?_, Or.inr ⟨rfl, rfl⟩⟩
      simp only [process, openBlock, hfresh, hsource, if_true, Bool.false_eq_true, if_false,
        reject]
  | receiveBlock c =>
      cases hsource : s.blockExists c.hashables.source with
      | false =>
          have hfirst : missing s (.receiveBlock c) = some c.hashables.source := by
            simp [missing, Block.sourceLink, hsource]
          cases hmiss.symm.trans hfirst
          refine ⟨⟨.gapSource, none⟩, fun n => ?_, Or.inr ⟨rfl, rfl⟩⟩
          simp only [process, receiveBlock, hfresh, hsource, Bool.not_false, if_true,
            Bool.false_eq_true, if_false, reject]
      | true =>
          have hsecond : p = c.hashables.previous ∧ s.blockExists c.hashables.previous = false := by
            simp [missing, Block.sourceLink, Block.previousLink, hsource] at hmiss
            exact ⟨hmiss.2.symm, hmiss.1⟩
          obtain ⟨rfl, hprev⟩ := hsecond
          refine ⟨⟨.gapPrevious, none⟩, fun n => ?_, Or.inl ⟨rfl, rfl⟩⟩
          -- the send is pending and the signature good, so only the account can be behind
          have hh := hs.part
          have hu := hs.whole
          obtain ⟨a, ho⟩ := hu.linked.chains.exists_owner hb
          obtain ⟨t, ht⟩ := Store.blockExists_iff.mp hsource
          obtain ⟨⟨t, ht, hd⟩, hq⟩ :=
            hs.source hb hnew ho rfl (Option.ne_none_iff_exists'.mpr ⟨_, ht⟩)
          obtain ⟨_, r, hr, rfl⟩ := hh.pending_send ht hd hq
          have hv := hu.linked.signed _ _ _ hb (hs.ne_genesis hnew) ho
          change E.validateMessage r.destination _ c.signature = false at hv
          simp only [process, receiveBlock, hfresh, hsource, hr, hv, Bool.not_true,
            Bool.false_eq_true, if_false, reject]
          cases hi : s.accountGet r.destination with
          | none => rfl
          | some i =>
              have hne : i.head ≠ c.hashables.previous := by
                intro heq
                obtain ⟨x, hx⟩ := Option.ne_none_iff_exists'.mp (hh.linked.heads _ i hi).1.stored
                rw [heq, Store.blockExists_eq_false.mp hprev] at hx
                cases hx
              simp only [if_neg hne, hprev, Bool.false_eq_true, if_false]

omit hnew in
theorem Part.processed {n : ℕ} {ret : ProcessReturn} (hE : Proper E)
    (hn : process E n s b = .ok (ret, s')) (hret : ret.code = .progress) :
    Part E s' u ∧ s'.blockGet = withBlock E s b := by
  have ha := Progressed.accepted ⟨n, ret, hn, hret⟩
  obtain ⟨x, info, hl, _⟩ := id ha
  refine ⟨⟨hs.part.accepted hE ha, hs.whole, ?_⟩, hl.blocks⟩
  intro j d hd
  by_cases hj : j = E.hash b
  · subst hj
    cases hl.stored.symm.trans hd
    exact hb
  · rw [hl.other hj] at hd
    exact hs.within j d hd

theorem Part.progress (hE : Proper E) (hmiss : missing s b = none)
    (hm : Passes E s b → Movable E s b) :
    ∃ ret s', Settles (fun n => process E n s b) (ret, s') ∧ ret.code = .progress := by
  obtain ⟨⟨ret, s'⟩, hset⟩ := Movable.completes hE hs.part hm
  obtain ⟨n, hn⟩ := hset.exists_ok
  exact ⟨ret, s', hset, passes_progress (hs.passes hb hnew hE hmiss) hn⟩

end Part

/-- The blocks of a sequence that is accepted are new, and they are all that is new. -/
theorem run_blocks (h : Run (Progressed E) s bs u) : Within s.blockGet u.blockGet ∧
    (∀ b ∈ bs, u.blockGet (E.hash b) = some b ∧ s.blockGet (E.hash b) = none) ∧
    (bs.map E.hash).Nodup ∧
    ∀ h c, u.blockGet h = some c → s.blockGet h = some c ∨ (c ∈ bs ∧ h = E.hash c) := by
  induction h with
  | nil => exact ⟨fun _ _ hb => hb, by simp, List.nodup_nil, fun _ _ hb => Or.inl hb⟩
  | @snoc bs t u b _ hstep ih =>
      obtain ⟨hwithin, hnew, hnodup, hall⟩ := ih
      obtain ⟨a, info, hl, _⟩ := hstep.accepted
      have hgrow := hl.within
      refine ⟨hwithin.trans hgrow, ?_, ?_, ?_⟩
      · intro c hc
        rcases List.mem_append.mp hc with hc | hc
        · exact ⟨hgrow _ _ (hnew c hc).1, (hnew c hc).2⟩
        · rw [List.mem_singleton.mp hc]
          refine ⟨hl.stored, ?_⟩
          by_contra hne
          obtain ⟨d, hd⟩ := Option.ne_none_iff_exists'.mp hne
          cases hl.fresh.symm.trans (hwithin _ d hd)
      · rw [List.map_append, List.map_singleton, List.nodup_append]
        refine ⟨hnodup, List.nodup_singleton _, ?_⟩
        intro k hk k' hk' heq
        obtain ⟨c, hc, rfl⟩ := List.mem_map.mp hk
        rw [List.mem_singleton.mp hk'] at heq
        have hstored := (hnew c hc).1
        rw [heq, hl.fresh] at hstored
        cases hstored
      · intro h c hc
        by_cases hh : h = E.hash b
        · subst hh
          cases hl.stored.symm.trans hc
          exact Or.inr ⟨by simp, rfl⟩
        · rw [hl.other hh] at hc
          rcases hall h c hc with hs | ⟨hmem, heq⟩
          · exact Or.inl hs
          · exact Or.inr ⟨List.mem_append_left _ hmem, heq⟩

noncomputable def unstored (u store : Store) : ℕ :=
  {h | u.blockGet h ≠ none ∧ store.blockGet h = none}.ncard

theorem unstored_lt {store : Store} (hb : u.blockGet (E.hash b) = some b)
    (hnew : s.blockGet (E.hash b) = none) (hstore : store.blockGet = withBlock E s b) :
    unstored u store < unstored u s := by
  have hwithin : Within s.blockGet (withBlock E s b) := within_insert hnew
  refine Set.ncard_lt_ncard ⟨?_, ?_⟩ (Set.toFinite _)
  · intro h hh
    refine ⟨hh.1, ?_⟩
    by_contra hne
    obtain ⟨c, hc⟩ := Option.ne_none_iff_exists'.mp hne
    have hnone := hh.2
    rw [hstore, hwithin h c hc] at hnone
    cases hnone
  · intro hsub
    have hmem := hsub ⟨Option.ne_none_iff_exists'.mpr ⟨_, hb⟩, hnew⟩
    have hnone := hmem.2
    rw [hstore, withBlock_self] at hnone
    cases hnone

end PaperNode.PartialLedger
