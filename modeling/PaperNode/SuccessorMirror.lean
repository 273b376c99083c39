import PaperNode.SuccessorLinks

/-!
# Successor links as the mirror of previous links

Every block is stored with an empty successor, which is filled in when a block is
put on top of it. Removing a block deletes its own value only. The block it stood
on, if that one is left, becomes the head of its account again and still names the
removed block as its successor.

The runs in which the successors mirror the previous links are therefore those in
which every rollback removes whole chains.
-/
namespace PaperNode.SuccessorMirror
open BoundedRecursion OrderedTable LinkedNodes TransitionRuns Blocks BlockStore LedgerQueries
open LedgerProcess LedgerRollback BlockLattice QueryCorrectness ProcessSteps ChainInvariant
open IndexInvariant RollbackRuns LedgerRuns SuccessorLinks
open RollbackFuture hiding returns

/-- A store and the block last put under each hash. -/
structure Recorded where
  store : Store
  puts : BlockHash → Option Block

def Recorded.put (E : Env) (r : Recorded) (b : Block) : BlockHash → Option Block :=
  Function.update r.puts (E.hash b) (some b)

inductive RecordedStep (E : Env) (r : Recorded) : Action → Recorded → Prop
  | process {b : Block} {fuel : ℕ} {ret : ProcessReturn} {s' : Store} :
      process E fuel r.store b = .ok (ret, s') →
        RecordedStep E r (.process b) ⟨s', if ret.code = .progress then r.put E b else r.puts⟩
  | rollback {h : BlockHash} {fuel : ℕ} {s' : Store} :
      rollback E fuel r.store h = .ok s' → RecordedStep E r (.rollback h) ⟨s', r.puts⟩

def RecordedInitial (E : Env) (r : Recorded) : Prop :=
  Initial E r.store ∧
    r.puts = Function.update (fun _ => none) (genesisHash E) (some (genesisBlock E))

/-- The successor of a stored block is the hash of the stored block whose previous it is, or
zero if there is none, and the block is the one that was put. -/
def Mirrored (E : Env) (r : Recorded) : Prop :=
  ∀ h b, r.store.blockGet h = some b →
    (∀ k c, r.store.blockGet k = some c → c.previous = h →
        r.store.blockSuccessor h = E.hash c) ∧
      ((∀ k c, r.store.blockGet k = some c → c.previous ≠ h) → r.store.blockSuccessor h = 0) ∧
      r.puts h = some b

/-- Every block that a rollback removes stands on one that it removes, if on any. -/
def WholeChains (r : Recorded) : Action → Prop
  | .process _ => True
  | .rollback h => ∀ k p, Link r.store.blockGet Previous k p →
      RollbackFuture.DependsOn r.store k h → RollbackFuture.DependsOn r.store p h

def Ended (s : Store) : Prop :=
  ∀ h b, s.blockGet h = some b → (∀ k, ¬ Link s.blockGet Previous k h) → s.blockSuccessor h = 0

variable {E : Env} {s s' t : Store} {r q : Recorded} {b : Block} {h : BlockHash}

/-- Zero is no block, so a block's `previous` is a stored block only if it is its previous
link. -/
theorem previous_eq_iff (hE : Proper E) (hs : Linked E s) (hh : s.blockGet h ≠ none) :
    b.previous = h ↔ Previous b h := by
  cases b with
  | sendBlock c | receiveBlock c | changeBlock c => exact Option.some_inj.symm
  | openBlock c =>
      refine iff_of_false ?_ (nomatch ·)
      intro hzero
      rw [← hzero] at hh
      exact hh (Linked.bottomed hE.hashed hs).1

theorem mirrored_iff (hE : Proper E) (hs : Reachable E r.store) :
    Mirrored E r ↔ Ended r.store ∧ Within r.store.blockGet r.puts := by
  have hlinked := (reachable_sound hs).linked
  constructor
  · intro hm
    refine ⟨?_, fun h b hb => (hm h b hb).2.2⟩
    intro h b hb htop
    refine (hm h b hb).2.1 ?_
    intro k c hc hprevious
    have hstored : r.store.blockGet h ≠ none := by rw [hb]; exact Option.some_ne_none b
    exact htop k ⟨c, hc, (previous_eq_iff hE hlinked hstored).mp hprevious⟩
  · intro hm h b hb
    have hstored : r.store.blockGet h ≠ none := by rw [hb]; exact Option.some_ne_none b
    refine ⟨?_, ?_, hm.2 h b hb⟩
    · intro k c hc hprevious
      have hlink := (previous_eq_iff hE hlinked hstored).mp hprevious
      rw [hlinked.chains.keyed k c hc]
      exact reachable_followed hs k h ⟨c, hc, hlink⟩
    · intro hnone
      refine hm.1 h b hb ?_
      intro k hk
      obtain ⟨c, hc, hp⟩ := hk
      exact hnone k c hc ((previous_eq_iff hE hlinked hstored).mpr hp)

theorem onBlocks_successor (h k : BlockHash) : OnBlocks (fun s => s.blockSuccessor h = k) := by
  intro s t hsame hs
  unfold Store.blockSuccessor at hs ⊢
  rw [hsame.raw]
  exact hs

theorem blockPut_successor (hs : SameBlocks s t) (hfresh : s.blockGet (E.hash b) = none)
    (hself : b.previousLink ≠ some (E.hash b)) :
    Ensures (t.blockPut E (E.hash b) b) (fun u => u.blockSuccessor (E.hash b) = 0) := by
  intro u hu
  have hw := Store.setPredecessor_of_blockPut hu
  have hnone : t.blockGet (E.hash b) = none := by
    unfold Store.blockGet
    rw [hs.raw]
    exact hfresh
  unfold Store.blockSuccessor
  rw [setPredecessor_other hw hself, (Store.blockPutRaw_fresh hnone _).1]

theorem Ended.accepted {fuel : ℕ} {ret : ProcessReturn} (hs : Linked E s) (he : Ended s)
    (h : process E fuel s b = .ok (ret, s')) (hret : ret.code = .progress)
    (ha : Accepted E s b s') : Ended s' := by
  have hfilled := process_filled E fuel s b _ h hret
  obtain ⟨a, info, hl, _⟩ := ha
  have hself : b.previousLink ≠ some (E.hash b) := by
    intro hp
    obtain ⟨i, hi, hhead⟩ := hl.onHead _ hp
    have hstored := (hs.heads a i hi).1.stored
    rw [hhead] at hstored
    exact hstored hl.fresh
  have hnew : s'.blockSuccessor (E.hash b) = 0 :=
    process_onProgress (onBlocks_successor _ _)
      (fun _ hsame => blockPut_successor hsame hl.fresh hself) _ h hret
  intro k c hk htop
  by_cases hkb : k = E.hash b
  · rw [hkb]
    exact hnew
  · have hprevious : b.previousLink ≠ some k := fun hp => htop (E.hash b) ⟨b, hl.stored, hp⟩
    have hold : s.blockGet k = some c := by rwa [hl.other hkb] at hk
    have htop' : ∀ j, ¬ Link s.blockGet Previous j k := by
      intro j hj
      obtain ⟨d, hd, hp⟩ := hj
      have hjb : j ≠ E.hash b := by
        rintro rfl
        rw [hl.fresh] at hd
        cases hd
      exact htop j ⟨d, by rw [hl.other hjb]; exact hd, hp⟩
    unfold Store.blockSuccessor
    rw [hfilled.other k hkb hprevious]
    exact he k c hold htop'

/-- A rollback leaves the successors right exactly when it removes whole chains. -/
theorem ended_rollback_iff {fuel : ℕ} (hE : Proper E) (hs : Reachable E s) (he : Ended s)
    (hn : rollback E fuel s h = .ok s') : Ended s' ↔ ∀ k p, Link s.blockGet Previous k p →
      RollbackFuture.DependsOn s k h → RollbackFuture.DependsOn s p h := by
  have hh := reachable_healthy hE hs
  obtain ⟨_, hkept⟩ := rollback_kept_iff hE hh hn
  have hpruned := (prunes E fuel).rollback s h s' hn
  have hwithin := hpruned.blocks hh.linked
  constructor
  · intro he' k p hlink hk
    by_contra hp
    obtain ⟨c, hc⟩ := Option.ne_none_iff_exists'.mp (hh.linked.chains.previous k p hlink)
    have hleft : s'.blockGet p = some c := (hkept p c).mpr ⟨hc, hp⟩
    -- the block left behind names the one that is gone
    have hstale : s'.blockSuccessor p = k := by
      rw [hpruned.successor hh.linked (by rw [hleft]; exact Option.some_ne_none c)]
      exact reachable_followed hs k p hlink
    have htop : ∀ j, ¬ Link s'.blockGet Previous j p := by
      intro j hj
      obtain rfl := hh.linked.chains.oneSuccessor j k p (hwithin.link hj) hlink
      obtain ⟨d, hd, _⟩ := hj
      exact ((hkept j d).mp hd).2 hk
    obtain ⟨d, hd, _⟩ := hlink
    refine (Linked.bottomed hE.hashed hh.linked).ne_zero hd ?_
    rw [← hstale]
    exact he' p c hleft htop
  · intro hwhole p c hc htop
    obtain ⟨hold, hp⟩ := (hkept p c).mp hc
    rw [hpruned.successor hh.linked (by rw [hc]; exact Option.some_ne_none c)]
    refine he p c hold ?_
    intro k hlink
    have hk := mt (hwhole k p hlink) hp
    obtain ⟨d, hd, hprevious⟩ := hlink
    exact htop k ⟨d, (hkept k d).mpr ⟨hd, hk⟩, hprevious⟩

/-- What holds in every recorded run as long as the successors are right. -/
structure Upright (E : Env) (r : Recorded) : Prop where
  reachable : Reachable E r.store
  ended : Ended r.store
  kept : Within r.store.blockGet r.puts

theorem ended_initial (h : Initial E s) : Ended s := by
  have hg := genesisInitialize_ok h
  unfold Initial genesisInitialize at h
  obtain ⟨_, _, h⟩ := bind_eq_ok.mp h
  obtain ⟨t, ht, h⟩ := bind_eq_ok.mp h
  obtain ⟨u, hu, h⟩ := bind_eq_ok.mp h
  cases h
  obtain ⟨_, _, hu⟩ := bind_eq_ok.mp hu
  cases hu
  have hgenesis : t.blockSuccessor (genesisHash E) = 0 :=
    blockPut_successor (b := genesisBlock E) ⟨rfl, rfl, rfl, rfl⟩ (newStore_empty _)
      (nomatch ·) t ht
  intro k c hk _
  obtain ⟨rfl, _⟩ := hg.stored hk
  exact hgenesis

theorem Upright.initial (h : RecordedInitial E r) : Upright E r := by
  obtain ⟨h₀, hputs⟩ := h
  have hg := genesisInitialize_ok h₀
  refine ⟨Reached.start h₀, ended_initial h₀, ?_⟩
  rw [hputs, ← hg.blocks]
  exact fun _ _ hk => hk

theorem RecordedStep.step {x : Action} (h : RecordedStep E r x q) : Step E r.store x q.store := by
  cases h with
  | process h => exact .process h
  | rollback h => exact .rollback h

theorem Upright.kept_step {x : Action} (hr : Upright E r) (h : RecordedStep E r x q) :
    Within q.store.blockGet q.puts := by
  cases h with
  | process h =>
      rcases process_ok h with ⟨hne, rfl⟩ | ⟨hret, ha⟩
      · rw [if_neg hne]
        exact hr.kept
      · obtain ⟨a, info, hl, _⟩ := ha
        intro k c hk
        simp only [if_pos hret, Recorded.put, Function.update_apply]
        rw [hl.blocks, Function.update_apply] at hk
        split_ifs at hk ⊢
        · exact hk
        · exact hr.kept k c hk
  | @rollback k fuel s' h =>
      exact (((prunes E fuel).rollback r.store k s' h).blocks
        (reachable_sound hr.reachable).linked).trans hr.kept

theorem Upright.ended_iff {x : Action} (hE : Proper E) (hr : Upright E r)
    (h : RecordedStep E r x q) : Ended q.store ↔ WholeChains r x := by
  cases h with
  | process h =>
      refine iff_of_true ?_ trivial
      rcases process_ok h with ⟨_, rfl⟩ | ⟨hret, ha⟩
      · exact hr.ended
      · exact hr.ended.accepted (reachable_sound hr.reachable).linked h hret ha
  | rollback h => exact ended_rollback_iff hE hr.reachable hr.ended h

/-- The runs along which the successors mirror the previous links, and the blocks are those that
were put, are the runs in which every rollback removes whole chains. -/
theorem mirrored_run_iff {xs : List Action} {r₀ : Recorded} (hE : Proper E)
    (h₀ : RecordedInitial E r₀) :
    Run (Ensured (Mirrored E) (RecordedStep E)) r₀ xs r ↔
      Run (Guarded WholeChains (RecordedStep E)) r₀ xs r := by
  refine Run.ensured_iff (J := Upright E) (Upright.initial h₀) ?_ ?_
  · intro t x u ht hstep
    rw [mirrored_iff hE (ht.reachable.next hstep.step), ht.ended_iff hE hstep]
    exact and_iff_left (ht.kept_step hstep)
  · intro t x u ht hstep hguard
    exact ⟨ht.reachable.next hstep.step, (ht.ended_iff hE hstep).mpr hguard, ht.kept_step hstep⟩

theorem exists_recorded {xs : List Action} {puts : BlockHash → Option Block}
    (h : Run (Step E) s xs s') : ∃ q : Recorded, Run (RecordedStep E) ⟨s, puts⟩ xs q ∧
      q.store = s' := by
  induction h with
  | nil => exact ⟨_, .nil, rfl⟩
  | snoc _ hstep ih =>
      obtain ⟨q, hrun, rfl⟩ := ih
      cases hstep with
      | process h => exact ⟨_, .snoc hrun (.process h), rfl⟩
      | rollback h => exact ⟨_, .snoc hrun (.rollback h), rfl⟩

theorem exists_recorded_of_executes {fuel : ℕ} {xs : List Action} {test : Store → Bool}
    (h : executes E fuel xs test = true) :
    ∃ r₀ r, RecordedInitial E r₀ ∧ Run (RecordedStep E) r₀ xs r ∧ test r.store = true := by
  obtain ⟨s, hs, htest⟩ := exists_of_executes h
  obtain ⟨s₀, h₀, hs⟩ := bind_eq_ok.mp hs
  obtain ⟨r, hr, rfl⟩ := exists_recorded (performAll_run hs)
  exact ⟨⟨s₀, _⟩, r, ⟨h₀, rfl⟩, hr, htest⟩

/-- A send and the open block that receives it. -/
theorem mirrored_run_opened : ∃ r₀ r, RecordedInitial smallNetwork r₀ ∧
    Run (Ensured (Mirrored smallNetwork) (RecordedStep smallNetwork)) r₀
      [.process send₁, .process open₁] r ∧
    r.store.blockSuccessor testGenesisHash = send₁Hash := by
  have hexecutes : executes smallNetwork 20 [.process send₁, .process open₁]
      (fun s => decide (s.blockSuccessor testGenesisHash = send₁Hash)) = true := by
    decide +kernel
  obtain ⟨r₀, r, h₀, hrun, htest⟩ := exists_recorded_of_executes hexecutes
  have hguarded : Run (Guarded WholeChains (RecordedStep smallNetwork)) r₀
      [.process send₁, .process open₁] r := by
    refine hrun.guarded ?_
    intro u x hx
    simp only [List.mem_cons, List.not_mem_nil, or_false] at hx
    rcases hx with rfl | rfl <;> trivial
  exact ⟨r₀, r, h₀, (mirrored_run_iff smallNetwork_proper h₀).mpr hguarded,
    of_decide_eq_true htest⟩

/-- After a send has been rolled back, the genesis block still names it. -/
theorem successor_stale : ∃ r₀ r, RecordedInitial smallNetwork r₀ ∧
    Run (RecordedStep smallNetwork) r₀ [.process send₁, .rollback send₁Hash] r ∧
    r.store.blockExists testGenesisHash = true ∧ r.store.blockExists send₁Hash = false ∧
    r.store.blockSuccessor testGenesisHash = send₁Hash := by
  have hexecutes : executes smallNetwork 20 [.process send₁, .rollback send₁Hash]
      (fun s => s.blockExists testGenesisHash && !s.blockExists send₁Hash &&
        decide (s.blockSuccessor testGenesisHash = send₁Hash)) = true := by
    decide +kernel
  obtain ⟨r₀, r, h₀, hrun, htest⟩ := exists_recorded_of_executes hexecutes
  simp only [Bool.and_eq_true, Bool.not_eq_true', decide_eq_true_eq] at htest
  exact ⟨r₀, r, h₀, hrun, htest.1.1, htest.1.2, htest.2⟩

end PaperNode.SuccessorMirror
