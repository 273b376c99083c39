import PaperNode.IndexInvariant

/-!
# What a whole rollback does

A rollback that returns is a sequence of single removals. When the tables list
every chain, each block removed depends on the block named in the call: the
loop takes blocks above it in its own chain, and the inner loop of a send takes
blocks above the one that collected the send.

The four procedures call each other, so the statement is proved for all four at
once, by induction on the budget.
-/
namespace PaperNode.RollbackRuns
open BoundedRecursion OrderedTable LinkedNodes Blocks BlockStore LedgerQueries LedgerProcess
open LedgerRollback BlockLattice QueryCorrectness ProcessSteps ChainInvariant RollbackSteps
open IndexInvariant

/-- The invariant of every run. The second half needs a well-behaved digest. -/
structure Sound (E : Env) (s : Store) : Prop where
  linked : Linked E s
  indexed : Hashed E → Indexed E s

/-- Removals of blocks in `F`, one after the other. -/
def Pops (E : Env) (F : BlockHash → Prop) : Store → Store → Prop :=
  Relation.ReflTransGen (fun s s' => ∃ h, F h ∧ Popped E s h s')

/-- The blocks that depend on `h`, as far as the digest is well behaved. -/
def Above (E : Env) (B : Lattice) (h k : BlockHash) : Prop :=
  Hashed E → Reach B (Needs E) k h

variable {E : Env} {s s' : Store} {F G : BlockHash → Prop} {h : BlockHash}

theorem Sound.genesis (hg : Genesis E s) : Sound E s :=
  ⟨hg.linked, fun _ => genesis_indexed hg⟩

theorem Sound.accepted {b : Block} (hs : Sound E s) (ha : Accepted E s b s') : Sound E s' := by
  refine ⟨hs.linked.accepted ha, fun hE => ?_⟩
  obtain ⟨a, info, hl, hp⟩ := ha
  exact Indexed.accepted hE hs.linked (hs.indexed hE) hl hp

theorem Sound.popped (hs : Sound E s) (hp : Popped E s h s') : Sound E s' := by
  obtain ⟨b, a, info, hr, hv⟩ := hp
  exact ⟨Linked.removed hs.linked hr hv,
    fun hE => Indexed.removed hE hs.linked (hs.indexed hE) hr hv⟩

theorem Popped.within (hp : Popped E s h s') : Within s'.blockGet s.blockGet := by
  obtain ⟨b, a, info, hr, _⟩ := hp
  exact hr.within

theorem Popped.gone (hp : Popped E s h s') : s'.blockGet h = none := by
  obtain ⟨b, a, info, hr, _⟩ := hp
  exact hr.gone

theorem Pops.one (hF : F h) (hp : Popped E s h s') : Pops E F s s' :=
  Relation.ReflTransGen.single ⟨h, hF, hp⟩

theorem Pops.trans {t : Store} (h₁ : Pops E F s t) (h₂ : Pops E F t s') : Pops E F s s' :=
  Relation.ReflTransGen.trans h₁ h₂

theorem Pops.mono (hFG : ∀ k, F k → G k) (hp : Pops E F s s') : Pops E G s s' :=
  Relation.ReflTransGen.mono (fun _ _ ⟨k, hk, hpop⟩ => ⟨k, hFG k hk, hpop⟩) _ _ hp

theorem Pops.invariant {I : Store → Prop} (hp : Pops E F s s')
    (next : ∀ t k u, I t → F k → Popped E t k u → I u) (h₀ : I s) : I s' := by
  induction hp with
  | refl => exact h₀
  | tail _ hstep ih =>
      obtain ⟨k, hk, hpop⟩ := hstep
      exact next _ k _ ih hk hpop

theorem Pops.sound (hp : Pops E F s s') (hs : Sound E s) : Sound E s' :=
  hp.invariant (fun _ _ _ ht _ hpop => ht.popped hpop) hs

theorem Pops.within (hp : Pops E F s s') : Within s'.blockGet s.blockGet :=
  hp.invariant (I := fun t => Within t.blockGet s.blockGet)
    (fun _ _ _ ht _ hpop => (Popped.within hpop).trans ht) (fun _ _ h => h)

/-- A block outside `F` is still there. -/
theorem Pops.kept {b : Block} (hp : Pops E F s s') (hF : ¬ F h) (hb : s.blockGet h = some b) :
    s'.blockGet h = some b := by
  refine hp.invariant (I := fun t => t.blockGet h = some b) ?_ hb
  intro t k u ht hk hpop
  have hne : h ≠ k := fun he => hF (he ▸ hk)
  obtain ⟨c, a, info, hr, _⟩ := hpop
  rw [hr.other hne]
  exact ht

theorem Within.top (hw : Within s'.blockGet s.blockGet) (ht : Top s h) : Top s' h :=
  fun k hk => ht k (hw.link hk)

theorem Above.within {B C : Lattice} {k : BlockHash} (hw : Within C B) (hk : Above E C h k) :
    Above E B h k :=
  fun hE => hw.reach (hk hE)

theorem Above.trans {B : Lattice} {j k : BlockHash} (hj : Above E B k j)
    (hk : Hashed E → Reach B (Needs E) k h) : Above E B h j :=
  fun hE => (hj hE).trans (hk hE)

theorem not_above {B : Lattice} {k : BlockHash} (hc : Chains E B) (hE : Hashed E)
    (hr : Reach B (Needs E) k h) (hne : k ≠ h) : ¬ Above E B k h := by
  intro ha
  obtain ⟨rank, hrank⟩ := hc.ranked
  have hle := hrank.le_of_reach (ha hE)
  have hlt := hrank.lt_of_reach hr hne
  omega

/-- The head of the receiving account depends on a send that is not pending. -/
theorem latest_above {t : SendBlock} (hE : Hashed E) (hs : Sound E s)
    (ht : s.blockGet h = some (.sendBlock t)) (hp : s.pending.get h = none) :
    Reach s.blockGet (Needs E) (latest s t.hashables.destination) h ∧
      latest s t.hashables.destination ≠ h := by
  obtain ⟨i, k, hi, hr, hk⟩ := collected_below_head hs.linked (hs.indexed hE) ht hp
  have hl : latest s t.hashables.destination = i.head := by
    unfold latest Store.accountGet
    rw [hi]
  obtain ⟨c, hc, hq⟩ := hk
  have hkh : Link s.blockGet (Needs E) k h := ⟨c, hc, Or.inr hq⟩
  have hreach : Reach s.blockGet (Needs E) i.head h := (reach_needs hr).tail hkh
  rw [hl]
  refine ⟨hreach, ?_⟩
  intro he
  obtain ⟨rank, hrank⟩ := hs.linked.chains.ranked
  have hlt := hrank k h hkh
  have hle := hrank.le_of_reach (reach_needs hr)
  rw [he] at hle
  omega

/-- What the four procedures do when they return. -/
structure Sweeps (E : Env) (fuel : ℕ) : Prop where
  rollback : ∀ s h s', Sound E s → rollback E fuel s h = .ok s' →
    Pops E (Above E s.blockGet h) s s' ∧ s'.blockGet h = none
  loop : ∀ s a h s', Sound E s → (Hashed E → Owner s.blockGet h a) →
    rollbackLoop E fuel s a h = .ok s' →
    Pops E (Above E s.blockGet h) s s' ∧ s'.blockGet h = none
  visit : ∀ s b s', Sound E s → s.blockGet (E.hash b) = some b → Top s (E.hash b) →
    rollbackVisit E fuel s b = .ok s' →
    Pops E (Above E s.blockGet (E.hash b)) s s' ∧ s'.blockGet (E.hash b) = none
  receivers : ∀ s h t s' r, Sound E s → (Hashed E → s.blockGet h = some (.sendBlock t)) →
    rollbackReceivers E fuel s h t.hashables.destination = .ok (s', r) →
    Pops E (Above E s.blockGet h) s s' ∧ s'.pending.get h = some r

theorem sweeps_rollback {fuel : ℕ} (ih : Sweeps E fuel) (hs : Sound E s)
    (h₁ : rollback E (fuel + 1) s h = .ok s') :
    Pops E (Above E s.blockGet h) s s' ∧ s'.blockGet h = none := by
  unfold LedgerRollback.rollback at h₁
  obtain ⟨a, ha, h₁⟩ := bind_eq_ok.mp h₁
  have ho := (account_ok hs.linked.chains.addressed ha).1
  exact ih.loop s a h s' hs (fun _ => ho) h₁

theorem sweeps_loop {fuel : ℕ} {a : Account} (ih : Sweeps E fuel) (hs : Sound E s)
    (ho : Hashed E → Owner s.blockGet h a) (h₁ : rollbackLoop E (fuel + 1) s a h = .ok s') :
    Pops E (Above E s.blockGet h) s s' ∧ s'.blockGet h = none := by
  unfold rollbackLoop at h₁
  obtain ⟨i, hi, h₁⟩ := bind_eq_ok.mp h₁
  obtain ⟨b, hb, h₁⟩ := bind_eq_ok.mp h₁
  obtain ⟨u, hu, h₁⟩ := bind_eq_ok.mp h₁
  have hi : s.accounts.get a = some i := demand_eq_ok.mp hi
  have hb := demand_eq_ok.mp hb
  have hkey := hs.linked.chains.keyed i.head b hb
  obtain ⟨hown, htop⟩ := hs.linked.heads a i hi
  rw [← hkey] at hb htop
  obtain ⟨hpops, hgone⟩ := ih.visit s b u hs hb htop hu
  rw [hkey] at hpops hgone
  -- The head is above the block named in the call.
  have hreach : Hashed E → Reach s.blockGet (Needs E) i.head h := by
    intro hE
    obtain ⟨j, hj, hr⟩ := exists_head hs.linked (hs.indexed hE) (ho hE)
    cases hi.symm.trans hj
    exact reach_needs hr
  have hpops : Pops E (Above E s.blockGet h) s u := hpops.mono (fun k hk => hk.trans hreach)
  split_ifs at h₁ with hne
  · have howner : Hashed E → Owner u.blockGet h a := by
      intro hE
      obtain ⟨c, hc⟩ := Option.ne_none_iff_exists'.mp (ho hE).stored
      have hkept : u.blockGet h = some c := by
        have hvisit := (ih.visit s b u hs hb htop hu).1
        rw [hkey] at hvisit
        exact hvisit.kept (not_above hs.linked.chains hE (hreach hE) hne) hc
      exact (hpops.sound hs).linked.chains.owner_of_within hpops.within hkept (ho hE)
    obtain ⟨hrest, hend⟩ := ih.loop u a h s' (hpops.sound hs) howner h₁
    exact ⟨hpops.trans (hrest.mono (fun k hk => hk.within hpops.within)), hend⟩
  · cases h₁
    rw [not_not] at hne
    rw [hne] at hgone
    exact ⟨hpops, hgone⟩

theorem sweeps_receivers {fuel : ℕ} {t : SendBlock} {r : Receivable} (ih : Sweeps E fuel)
    (hs : Sound E s) (ht : Hashed E → s.blockGet h = some (.sendBlock t))
    (h₁ : rollbackReceivers E (fuel + 1) s h t.hashables.destination = .ok (s', r)) :
    Pops E (Above E s.blockGet h) s s' ∧ s'.pending.get h = some r := by
  unfold rollbackReceivers at h₁
  cases hp : s.pendingGet h with
  | some r' =>
      rw [hp] at h₁
      cases h₁
      exact ⟨Relation.ReflTransGen.refl, hp⟩
  | none =>
      rw [hp] at h₁
      obtain ⟨u, hu, h₁⟩ := bind_eq_ok.mp h₁
      obtain ⟨hpops, _⟩ := ih.rollback s _ u hs hu
      have habove := fun hE => latest_above hE hs (ht hE) hp
      -- The send itself is not above the head that was rolled back.
      have hkept : Hashed E → u.blockGet h = some (.sendBlock t) := by
        intro hE
        obtain ⟨hreach, hne⟩ := habove hE
        exact hpops.kept (not_above hs.linked.chains hE hreach hne) (ht hE)
      have hpops : Pops E (Above E s.blockGet h) s u :=
        hpops.mono (fun k hk => hk.trans (fun hE => (habove hE).1))
      obtain ⟨hrest, hend⟩ := ih.receivers u h t s' r (hpops.sound hs) hkept h₁
      exact ⟨hpops.trans (hrest.mono (fun k hk => hk.within hpops.within)), hend⟩

theorem sweeps_visit {fuel : ℕ} {b : Block} (ih : Sweeps E fuel) (hs : Sound E s)
    (hb : s.blockGet (E.hash b) = some b) (ht : Top s (E.hash b))
    (h₁ : rollbackVisit E (fuel + 1) s b = .ok s') :
    Pops E (Above E s.blockGet (E.hash b)) s s' ∧ s'.blockGet (E.hash b) = none := by
  have here : Above E s.blockGet (E.hash b) (E.hash b) := fun _ => Relation.ReflTransGen.refl
  cases b with
  | sendBlock b =>
      unfold rollbackVisit at h₁
      obtain ⟨⟨u, r⟩, hu, h₁⟩ := bind_eq_ok.mp h₁
      obtain ⟨hpops, hr⟩ := ih.receivers s _ b u r hs (fun _ => hb) hu
      -- The send is pending now, so it is still stored, and still on top.
      have hu := hpops.sound hs
      have hbu : u.blockGet (E.hash (.sendBlock b)) = some (.sendBlock b) := by
        obtain ⟨⟨t, hsend, _⟩, _⟩ := hu.linked.pending _ r hr
        cases hb.symm.trans (hpops.within _ _ hsend)
        exact hsend
      have hpop := undoSend_ok hu.linked hbu (Within.top hpops.within ht) hr h₁
      exact ⟨hpops.trans (Pops.one here hpop), Popped.gone hpop⟩
  | receiveBlock b =>
      have hpop := undoReceive_ok hs.linked hb ht h₁
      exact ⟨Pops.one here hpop, Popped.gone hpop⟩
  | openBlock b =>
      have hpop := undoOpen_ok hs.linked hb ht h₁
      exact ⟨Pops.one here hpop, Popped.gone hpop⟩
  | changeBlock b =>
      have hpop := undoChange_ok hs.linked hb ht h₁
      exact ⟨Pops.one here hpop, Popped.gone hpop⟩

theorem sweeps (E : Env) (fuel : ℕ) : Sweeps E fuel := by
  induction fuel with
  | zero =>
      constructor
      case rollback => exact fun _ _ s' _ h₁ => absurd h₁ (exhaust_ne_ok s')
      case loop => exact fun _ _ _ s' _ _ h₁ => absurd h₁ (exhaust_ne_ok s')
      case visit => exact fun _ _ s' _ _ _ h₁ => absurd h₁ (exhaust_ne_ok s')
      case receivers => exact fun _ _ _ s' r _ _ h₁ => absurd h₁ (exhaust_ne_ok (s', r))
  | succ fuel ih =>
      exact
        { rollback := fun _ _ _ hs h₁ => sweeps_rollback ih hs h₁
          loop := fun _ _ _ _ hs ho h₁ => sweeps_loop ih hs ho h₁
          visit := fun _ _ _ hs hb ht h₁ => sweeps_visit ih hs hb ht h₁
          receivers := fun _ _ _ _ _ hs ht h₁ => sweeps_receivers ih hs ht h₁ }

/-- A rollback that returns has removed the block, and otherwise only blocks
above it. -/
theorem rollback_ok {fuel : ℕ} (hs : Sound E s) (h₁ : rollback E fuel s h = .ok s') :
    Pops E (Above E s.blockGet h) s s' ∧ s'.blockGet h = none :=
  (sweeps E fuel).rollback s h s' hs h₁

end PaperNode.RollbackRuns
