import PaperNode.VoteRecords
import PaperNode.RollbackFuture

/-!
# The successor of a block

Next to each block the store keeps the hash of the block after it. Storing a
block writes its hash there; removing it does not take the hash back, so what
stands next to the head of an account may be the hash of a block that is gone.
Along the chains the entries are right: in every reachable ledger the block after
a stored block is the one recorded.

`node::process_receive` relies on that when `ledger.process` reports a fork: it
asks for the successor of the root of the block to find the block it competes
with. Where the root is not a stored block with another one on top, there is
nothing to find, and `ledger::successor` asserts.
-/
namespace PaperNode.SuccessorLinks
open BoundedRecursion OrderedTable LinkedNodes TransitionRuns Blocks BlockStore LedgerQueries
open LedgerProcess LedgerRollback BlockLattice QueryCorrectness ProcessSteps ChainInvariant
open IndexInvariant RollbackSteps RollbackRuns LedgerRuns Representatives VoteRecords
open RollbackFuture hiding returns

/-- The assertions of `ledger::successor`, and those of the account visitor. -/
inductive SuccessorAssertion where
  | ledger (site : Assertion)
  | rootStored | rootNotHead | successorSet | successorStored
  deriving DecidableEq, Repr

/-- `ledger::successor`. -/
def successor (s : Store) (fuel : ℕ) (root : BlockHash) : Check SuccessorAssertion Block := do
  require (s.blockExists root) .rootStored
  let owner ← relabel .ledger (account s.blockGet fuel root)
  require (latest s owner ≠ root) .rootNotHead
  let next := s.blockSuccessor root
  require (next ≠ 0) .successorSet
  demand (s.blockGet next) .successorStored

def Followed (s : Store) : Prop :=
  ∀ k p, Link s.blockGet Previous k p → s.blockSuccessor p = k

def Opposed (s : Store) (b : Block) : Prop :=
  s.blockExists b.root = true ∧ s.frontiers.get b.root = none

instance instDecidableOpposed (s : Store) (b : Block) : Decidable (Opposed s b) :=
  inferInstanceAs (Decidable (_ ∧ _))

variable {E : Env} {s s' t u : Store} {b : Block} {fuel : ℕ} {h k : BlockHash}

section Tables

structure SameBlocks (s t : Store) : Prop where
  sends : t.sendBlocks = s.sendBlocks
  receives : t.receiveBlocks = s.receiveBlocks
  opens : t.openBlocks = s.openBlocks
  changes : t.changeBlocks = s.changeBlocks

def OnBlocks (P : Store → Prop) : Prop := ∀ s t, SameBlocks s t → P s → P t

theorem SameBlocks.raw (h : SameBlocks s t) : t.blockGetRaw = s.blockGetRaw := by
  funext k
  unfold Store.blockGetRaw
  rw [h.sends, h.receives, h.opens, h.changes]

theorem onBlocks_same : OnBlocks (SameBlocks s) := by
  intro t u hsame ht
  exact ⟨hsame.1.trans ht.1, hsame.2.trans ht.2, hsame.3.trans ht.3, hsame.4.trans ht.4⟩

variable {P : Store → Prop}

theorem pendingDel_keeps (hP : OnBlocks P) (hs : P s) : Ensures (s.pendingDel h) P := by
  intro t ht
  obtain ⟨_, rfl⟩ := pendingDel_eq_ok.mp ht
  exact hP s _ ⟨rfl, rfl, rfl, rfl⟩ hs

theorem frontierDel_keeps (hP : OnBlocks P) (hs : P s) : Ensures (s.frontierDel h) P := by
  intro t ht
  obtain ⟨_, rfl⟩ := frontierDel_eq_ok.mp ht
  exact hP s _ ⟨rfl, rfl, rfl, rfl⟩ hs

theorem changeLatest_keeps {a : Account} {r : BlockHash} {v : Amount} (hP : OnBlocks P)
    (hs : P s) : Ensures (changeLatest E s a h r v) P := by
  intro t ht
  obtain ⟨_, _, _, rfl, _⟩ := changeLatest_ok ht
  exact hP s _ ⟨rfl, rfl, rfl, rfl⟩ hs

theorem moveRepresentation_keeps {x y : BlockHash} {v : Amount} (hP : OnBlocks P) (hs : P s) :
    Ensures (moveRepresentation E s x y v) P := by
  intro t ht
  obtain ⟨_, _, _, _, _, _, _, rfl⟩ := moveRepresentation_eq_ok.mp ht
  exact hP s _ ⟨rfl, rfl, rfl, rfl⟩ hs

end Tables

section Filling

/-- The block tables after `b` was stored: only `b` and its predecessor changed,
and the predecessor names `b`. -/
structure Filled (E : Env) (s : Store) (b : Block) (s' : Store) : Prop where
  successor : ∀ p, b.previousLink = some p → s'.blockSuccessor p = E.hash b
  other : ∀ k, k ≠ E.hash b → b.previousLink ≠ some k → s'.blockGetRaw k = s.blockGetRaw k

theorem onBlocks_filled : OnBlocks (Filled E s b) := by
  intro t u hsame ht
  have hraw := hsame.raw
  constructor
  · intro p hp
    unfold Store.blockSuccessor
    rw [hraw]
    exact ht.successor p hp
  · intro k hk hp
    rw [hraw]
    exact ht.other k hk hp

theorem fillValue_other {p : BlockHash} (hs : s.fillValue p h = .ok s') (hk : k ≠ p) :
    s'.blockGetRaw k = s.blockGetRaw k := by
  unfold Store.fillValue at hs
  cases he : s.blockGetRaw p with
  | none => simp [he] at hs
  | some e =>
      rw [he] at hs
      cases hs
      exact Store.blockGetRaw_blockPutRaw_ne s _ hk

theorem setPredecessor_other (hs : Store.setPredecessor E s b = .ok s')
    (hp : b.previousLink ≠ some k) : s'.blockGetRaw k = s.blockGetRaw k := by
  cases b with
  | openBlock o =>
      cases hs
      rfl
  | sendBlock c | receiveBlock c | changeBlock c =>
      exact fillValue_other hs (fun he => hp (congrArg some he.symm))

/-- A block is stored with `blockPut`, from the same block tables. -/
theorem blockPut_filled (hs : SameBlocks s t) :
    Ensures (t.blockPut E (E.hash b) b) (Filled E s b) := by
  intro u hu
  have hw := Store.setPredecessor_of_blockPut hu
  obtain ⟨_, _, _, hsucc⟩ := Store.blockGet_setPredecessor hw
  refine ⟨hsucc, ?_⟩
  intro k hk hp
  rw [setPredecessor_other hw hp, Store.blockGetRaw_blockPutRaw_ne t _ hk, hs.raw]

section Visitors
variable {P : Store → Prop}

abbrev OnProgress (P : Store → Prop) (r : ProcessReturn × Store) : Prop :=
  r.1.code = .progress → P r.2

theorem reject_onProgress {code : ProcessResult} (hc : code ≠ .progress) :
    Ensures (reject s code) (OnProgress P) :=
  .ok (fun h => absurd h hc)

theorem onProgress_of_check {c : Prop} [Decidable c] {code : ProcessResult}
    {x : Checked (ProcessReturn × Store)} (hc : code ≠ .progress)
    (hx : Ensures x (OnProgress P)) :
    Ensures (if c then reject s code else x) (OnProgress P) :=
  .ite (fun _ => reject_onProgress hc) (fun _ => hx)

variable (hP : OnBlocks P)
include hP

theorem sendBlock_onProgress (c : SendBlock) (hput : ∀ t, SameBlocks s t →
    Ensures (t.blockPut E (E.hash (.sendBlock c)) (.sendBlock c)) P) :
    Ensures (sendBlock E s c) (OnProgress P) := by
  unfold sendBlock
  refine onProgress_of_check (by decide) ?_
  refine onProgress_of_check (by decide) ?_
  refine onProgress_of_check (by decide) ?_
  refine onProgress_of_check (by decide) ?_
  refine .after ?_
  intro i
  refine .after ?_
  intro _
  refine onProgress_of_check (by decide) ?_
  refine (hput s ⟨rfl, rfl, rfl, rfl⟩).bind ?_
  intro t ht
  refine (changeLatest_keeps hP ht).bind ?_
  intro u hu
  refine (frontierDel_keeps hP
    (hP u (u.pendingPut _ _) ⟨rfl, rfl, rfl, rfl⟩ hu)).bind ?_
  intro w hw
  exact .ok (fun _ => hP w _ ⟨rfl, rfl, rfl, rfl⟩ hw)

theorem changeBlock_onProgress (c : ChangeBlock) (hput : ∀ t, SameBlocks s t →
    Ensures (t.blockPut E (E.hash (.changeBlock c)) (.changeBlock c)) P) :
    Ensures (changeBlock E fuel s c) (OnProgress P) := by
  unfold changeBlock
  refine onProgress_of_check (by decide) ?_
  refine onProgress_of_check (by decide) ?_
  refine onProgress_of_check (by decide) ?_
  refine .after ?_
  intro i
  refine .after ?_
  intro _
  refine onProgress_of_check (by decide) ?_
  refine (hput s ⟨rfl, rfl, rfl, rfl⟩).bind ?_
  intro t ht
  refine .after ?_
  intro v
  refine (moveRepresentation_keeps hP ht).bind ?_
  intro t ht
  refine (changeLatest_keeps hP ht).bind ?_
  intro u hu
  refine (frontierDel_keeps hP hu).bind ?_
  intro w hw
  exact .ok (fun _ => hP w _ ⟨rfl, rfl, rfl, rfl⟩ hw)

theorem receiveBlock_onProgress (c : ReceiveBlock) (hput : ∀ t, SameBlocks s t →
    Ensures (t.blockPut E (E.hash (.receiveBlock c)) (.receiveBlock c)) P) :
    Ensures (receiveBlock E s c) (OnProgress P) := by
  unfold receiveBlock
  refine onProgress_of_check (by decide) ?_
  refine onProgress_of_check (by decide) ?_
  cases s.pendingGet c.hashables.source with
  | none => exact reject_onProgress (by decide)
  | some r =>
  refine onProgress_of_check (by decide) ?_
  cases s.accountGet r.destination with
  | none => exact reject_onProgress (by decide)
  | some i =>
  refine .ite (fun _ => ?_)
    (fun _ => onProgress_of_check (by decide) (reject_onProgress (by decide)))
  refine .after ?_
  intro _
  refine .after ?_
  intro k
  refine (pendingDel_keeps onBlocks_same ⟨rfl, rfl, rfl, rfl⟩).bind ?_
  intro x hx
  refine (hput x hx).bind ?_
  intro t ht
  refine (changeLatest_keeps hP ht).bind ?_
  intro u hu
  refine (moveRepresentation_keeps hP hu).bind ?_
  intro v hv
  refine (frontierDel_keeps hP hv).bind ?_
  intro w hw
  exact .ok (fun _ => hP w _ ⟨rfl, rfl, rfl, rfl⟩ hw)

theorem openBlock_onProgress (c : OpenBlock) (hput : ∀ t, SameBlocks s t →
    Ensures (t.blockPut E (E.hash (.openBlock c)) (.openBlock c)) P) :
    Ensures (openBlock E s c) (OnProgress P) := by
  unfold openBlock
  refine onProgress_of_check (by decide) ?_
  refine onProgress_of_check (by decide) ?_
  cases s.pendingGet c.hashables.source with
  | none => exact reject_onProgress (by decide)
  | some r =>
  refine onProgress_of_check (by decide) ?_
  refine onProgress_of_check (by decide) ?_
  cases s.accountGet r.destination with
  | some i => exact reject_onProgress (by decide)
  | none =>
  refine .after ?_
  intro k
  refine (pendingDel_keeps onBlocks_same ⟨rfl, rfl, rfl, rfl⟩).bind ?_
  intro x hx
  refine (hput x hx).bind ?_
  intro t ht
  refine (changeLatest_keeps hP ht).bind ?_
  intro u hu
  refine (moveRepresentation_keeps hP hu).bind ?_
  intro w hw
  exact .ok (fun _ => hP w _ ⟨rfl, rfl, rfl, rfl⟩ hw)

/-- Of the block tables, a visitor leaves what `blockPut` leaves. -/
theorem process_onProgress (hput : ∀ t, SameBlocks s t →
    Ensures (t.blockPut E (E.hash b) b) P) : Ensures (process E fuel s b) (OnProgress P) := by
  cases b with
  | sendBlock c => exact sendBlock_onProgress hP c hput
  | receiveBlock c => exact receiveBlock_onProgress hP c hput
  | openBlock c => exact openBlock_onProgress hP c hput
  | changeBlock c => exact changeBlock_onProgress hP c hput

end Visitors

theorem process_filled (E : Env) (fuel : ℕ) (s : Store) (b : Block) :
    Ensures (process E fuel s b) (OnProgress (Filled E s b)) :=
  process_onProgress onBlocks_filled (fun _ => blockPut_filled)

/-- The predecessor of a block that is accepted had none on top. -/
theorem Followed.accepted (hs : Linked E s) (hf : Followed s) (ha : Accepted E s b s')
    (hb : Filled E s b s') : Followed s' := by
  obtain ⟨a, info, hl, _⟩ := ha
  intro k p hk
  obtain ⟨c, hc, hp⟩ := hk
  by_cases hkb : k = E.hash b
  · subst hkb
    cases hl.stored.symm.trans hc
    exact hb.successor p hp
  · rw [hl.other hkb] at hc
    have hlink : Link s.blockGet Previous k p := ⟨c, hc, hp⟩
    have hstored := hs.chains.previous k p hlink
    have hpb : p ≠ E.hash b := by
      intro he
      rw [he] at hstored
      exact hstored hl.fresh
    have htop : b.previousLink ≠ some p := by
      intro hbp
      obtain ⟨i, hi, rfl⟩ := hl.onHead p hbp
      exact (hs.heads a i hi).2 k hlink
    unfold Store.blockSuccessor
    rw [hb.other p hpb htop]
    exact hf k p hlink

end Filling

section Pruning

/-- No table has an entry that was not there, with that successor. -/
structure Pruned (s s' : Store) : Prop where
  sends : Within s'.sendBlocks.get s.sendBlocks.get
  receives : Within s'.receiveBlocks.get s.receiveBlocks.get
  opens : Within s'.openBlocks.get s.openBlocks.get
  changes : Within s'.changeBlocks.get s.changeBlocks.get

theorem Pruned.refl (s : Store) : Pruned s s :=
  ⟨fun _ _ h => h, fun _ _ h => h, fun _ _ h => h, fun _ _ h => h⟩

theorem Pruned.trans (h₁ : Pruned s t) (h₂ : Pruned t u) : Pruned s u :=
  ⟨h₂.1.trans h₁.1, h₂.2.trans h₁.2, h₂.3.trans h₁.3, h₂.4.trans h₁.4⟩

theorem onBlocks_pruned : OnBlocks (Pruned s) := by
  intro t u hsame ht
  obtain ⟨h₁, h₂, h₃, h₄⟩ := hsame
  constructor
  · rw [h₁]
    exact ht.sends
  · rw [h₂]
    exact ht.receives
  · rw [h₃]
    exact ht.opens
  · rw [h₄]
    exact ht.changes

theorem within_del {V : Type} (m : Table BlockHash V) (h : BlockHash) :
    Within (m.del h).get m.get := by
  intro k v hk
  by_cases hkh : k = h
  · rw [hkh, Table.get_del_self] at hk
    cases hk
  · rw [m.get_del_ne hkh] at hk
    exact hk

theorem blockDel_prunes (hs : Pruned s t) : Ensures (t.blockDel h) (Pruned s) := by
  unfold Store.blockDel
  refine .ite (fun _ => .ok ?_) (fun _ => .ite (fun _ => .ok ?_) (fun _ =>
    .ite (fun _ => .ok ?_) (fun _ => .ite (fun _ => .ok ?_) (fun _ => .of_fail _))))
  · exact { hs with sends := (within_del _ h).trans hs.sends }
  · exact { hs with receives := (within_del _ h).trans hs.receives }
  · exact { hs with opens := (within_del _ h).trans hs.opens }
  · exact { hs with changes := (within_del _ h).trans hs.changes }

theorem absent {V : Type} {o : Option V} (h : o.isSome.toNat = 0) : o = none := by
  cases o with
  | none => rfl
  | some v => cases h

section Single

variable (hx : s.Exclusive)

include hx

theorem raw_of_receives {e : Stored ReceiveBlock} (h : s.receiveBlocks.get k = some e) :
    s.blockGetRaw k = some ⟨.receiveBlock e.block, e.successor⟩ := by
  have hone := hx k
  unfold Store.holding at hone
  rw [h, Option.isSome_some, Bool.toNat_true] at hone
  unfold Store.blockGetRaw
  rw [absent (o := s.sendBlocks.get k) (by omega), h]

theorem raw_of_opens {e : Stored OpenBlock} (h : s.openBlocks.get k = some e) :
    s.blockGetRaw k = some ⟨.openBlock e.block, e.successor⟩ := by
  have hone := hx k
  unfold Store.holding at hone
  rw [h, Option.isSome_some, Bool.toNat_true] at hone
  unfold Store.blockGetRaw
  rw [absent (o := s.sendBlocks.get k) (by omega),
    absent (o := s.receiveBlocks.get k) (by omega), h]

theorem raw_of_changes {e : Stored ChangeBlock} (h : s.changeBlocks.get k = some e) :
    s.blockGetRaw k = some ⟨.changeBlock e.block, e.successor⟩ := by
  have hone := hx k
  unfold Store.holding at hone
  rw [h, Option.isSome_some, Bool.toNat_true] at hone
  unfold Store.blockGetRaw
  rw [absent (o := s.sendBlocks.get k) (by omega),
    absent (o := s.receiveBlocks.get k) (by omega),
    absent (o := s.openBlocks.get k) (by omega), h]

theorem Pruned.raw (hp : Pruned s s') : Within s'.blockGetRaw s.blockGetRaw := by
  intro k e he
  unfold Store.blockGetRaw at he
  cases h₁ : s'.sendBlocks.get k with
  | some x =>
      rw [h₁] at he
      unfold Store.blockGetRaw
      rw [hp.sends k x h₁]
      exact he
  | none =>
  rw [h₁] at he
  cases h₂ : s'.receiveBlocks.get k with
  | some x =>
      rw [h₂] at he
      exact (raw_of_receives hx (hp.receives k x h₂)).trans he
  | none =>
  rw [h₂] at he
  cases h₃ : s'.openBlocks.get k with
  | some x =>
      rw [h₃] at he
      exact (raw_of_opens hx (hp.opens k x h₃)).trans he
  | none =>
  rw [h₃] at he
  cases h₄ : s'.changeBlocks.get k with
  | some x =>
      rw [h₄] at he
      exact (raw_of_changes hx (hp.changes k x h₄)).trans he
  | none =>
      rw [h₄] at he
      cases he

end Single

theorem undoSend_prunes (E : Env) (fuel : ℕ) (b : SendBlock) (r : Receivable)
    (hs : Pruned s t) : Ensures (undoSend E fuel t b r) (Pruned s) := by
  unfold undoSend
  refine (pendingDel_keeps onBlocks_pruned hs).bind ?_
  intro u hu
  refine .after ?_
  intro v
  refine (changeLatest_keeps onBlocks_pruned hu).bind ?_
  intro u hu
  refine (blockDel_prunes hu).bind ?_
  intro u hu
  refine (frontierDel_keeps onBlocks_pruned hu).bind ?_
  intro u hu
  exact .ok (onBlocks_pruned u _ ⟨rfl, rfl, rfl, rfl⟩ hu)

theorem undoReceive_prunes (E : Env) (fuel : ℕ) (s : Store) (b : ReceiveBlock) :
    Ensures (undoReceive E fuel s b) (Pruned s) := by
  unfold undoReceive
  refine .after ?_
  intro rep
  refine .after ?_
  intro v
  refine .after ?_
  intro a
  refine .after ?_
  intro own
  refine (moveRepresentation_keeps onBlocks_pruned (Pruned.refl s)).bind ?_
  intro u hu
  refine .after ?_
  intro w
  refine (changeLatest_keeps onBlocks_pruned hu).bind ?_
  intro u hu
  refine (blockDel_prunes hu).bind ?_
  intro u hu
  refine .after ?_
  intro x
  refine (frontierDel_keeps onBlocks_pruned
    (onBlocks_pruned u (u.pendingPut _ _) ⟨rfl, rfl, rfl, rfl⟩ hu)).bind ?_
  intro u hu
  exact .ok (onBlocks_pruned u _ ⟨rfl, rfl, rfl, rfl⟩ hu)

theorem undoOpen_prunes (E : Env) (fuel : ℕ) (s : Store) (b : OpenBlock) :
    Ensures (undoOpen E fuel s b) (Pruned s) := by
  unfold undoOpen
  refine .after ?_
  intro rep
  refine .after ?_
  intro v
  refine .after ?_
  intro a
  refine .after ?_
  intro own
  refine (moveRepresentation_keeps onBlocks_pruned (Pruned.refl s)).bind ?_
  intro u hu
  refine (changeLatest_keeps onBlocks_pruned hu).bind ?_
  intro u hu
  refine (blockDel_prunes hu).bind ?_
  intro u hu
  refine .after ?_
  intro x
  exact frontierDel_keeps onBlocks_pruned (onBlocks_pruned u _ ⟨rfl, rfl, rfl, rfl⟩ hu)

theorem undoChange_prunes (E : Env) (fuel : ℕ) (s : Store) (b : ChangeBlock) :
    Ensures (undoChange E fuel s b) (Pruned s) := by
  unfold undoChange
  refine .after ?_
  intro rep
  refine .after ?_
  intro a
  refine .after ?_
  intro v
  refine (moveRepresentation_keeps onBlocks_pruned (Pruned.refl s)).bind ?_
  intro u hu
  refine (blockDel_prunes hu).bind ?_
  intro u hu
  refine (changeLatest_keeps onBlocks_pruned hu).bind ?_
  intro u hu
  refine (frontierDel_keeps onBlocks_pruned hu).bind ?_
  intro u hu
  exact .ok (onBlocks_pruned u _ ⟨rfl, rfl, rfl, rfl⟩ hu)

/-- The four procedures of a rollback store nothing. -/
structure Prunes (E : Env) (fuel : ℕ) : Prop where
  rollback : ∀ s h, Ensures (rollback E fuel s h) (Pruned s)
  loop : ∀ s a h, Ensures (rollbackLoop E fuel s a h) (Pruned s)
  visit : ∀ s b, Ensures (rollbackVisit E fuel s b) (Pruned s)
  receivers : ∀ s h a, Ensures (rollbackReceivers E fuel s h a) (fun r => Pruned s r.1)

theorem ensures_pruned {x : Checked Store} (hs : Pruned s t) (hx : Ensures x (Pruned t)) :
    Ensures x (Pruned s) :=
  fun u hu => hs.trans (hx u hu)

theorem prunes (E : Env) (fuel : ℕ) : Prunes E fuel := by
  induction fuel with
  | zero =>
      refine ⟨?_, ?_, ?_, ?_⟩
      · exact fun _ _ => Ensures.of_exhaust
      · exact fun _ _ _ => Ensures.of_exhaust
      · exact fun _ _ => Ensures.of_exhaust
      · exact fun _ _ _ => Ensures.of_exhaust
  | succ fuel ih =>
      refine ⟨?_, ?_, ?_, ?_⟩
      · intro s h
        unfold rollback
        exact .after (fun a => ih.loop s a h)
      · intro s a h
        unfold rollbackLoop
        refine .after ?_
        intro i
        refine .after ?_
        intro b
        refine (ih.visit s b).bind ?_
        intro t ht
        exact .ite (fun _ => ensures_pruned ht (ih.loop t a h)) (fun _ => .ok ht)
      · intro s b
        cases b with
        | sendBlock c =>
            unfold rollbackVisit
            refine (ih.receivers s _ _).bind ?_
            intro r hr
            exact undoSend_prunes E fuel c r.2 hr
        | receiveBlock c =>
            unfold rollbackVisit
            exact undoReceive_prunes E fuel s c
        | openBlock c =>
            unfold rollbackVisit
            exact undoOpen_prunes E fuel s c
        | changeBlock c =>
            unfold rollbackVisit
            exact undoChange_prunes E fuel s c
      · intro s h a
        unfold rollbackReceivers
        cases s.pendingGet h with
        | some r => exact .ok (Pruned.refl s)
        | none =>
            refine (ih.rollback s _).bind ?_
            intro t ht u hu
            exact ht.trans (ih.receivers t h a u hu)

theorem Pruned.blocks (hs : Linked E s) (hp : Pruned s s') : Within s'.blockGet s.blockGet := by
  intro k c hk
  unfold Store.blockGet at hk ⊢
  obtain ⟨e, he, hc⟩ := Option.map_eq_some_iff.mp hk
  rw [Pruned.raw hs.exclusive hp k e he, ← hc]
  rfl

theorem Pruned.successor (hs : Linked E s) (hp : Pruned s s') (hk : s'.blockGet k ≠ none) :
    s'.blockSuccessor k = s.blockSuccessor k := by
  obtain ⟨e, he, _⟩ := Option.map_eq_some_iff.mp (Option.ne_none_iff_exists'.mp hk).choose_spec
  unfold Store.blockSuccessor
  rw [he, Pruned.raw hs.exclusive hp k e he]

theorem Followed.pruned (hs : Linked E s) (hs' : Linked E s') (hf : Followed s)
    (hp : Pruned s s') : Followed s' := by
  intro k p hk
  rw [hp.successor hs (hs'.chains.previous k p hk)]
  exact hf k p ((hp.blocks hs).link hk)

end Pruning

theorem reachable_followed (hs : Reachable E s) : Followed s := by
  have both : Reachable E s ∧ Followed s := by
    refine hs.invariant (I := fun t => Reachable E t ∧ Followed t) ?_ ?_
    · intro t h₀
      refine ⟨Reached.start h₀, ?_⟩
      intro k p hk
      obtain ⟨c, hc, hp⟩ := hk
      rw [(genesisInitialize_ok h₀).blocks, Function.update_apply] at hc
      split_ifs at hc with hg
      · cases hc
        cases hp
    · intro t x u ht hstep
      refine ⟨ht.1.next hstep, ?_⟩
      have hl := (reachable_sound ht.1).linked
      cases hstep with
      | process h =>
          rcases process_ok h with ⟨_, rfl⟩ | ⟨hc, ha⟩
          · exact ht.2
          · exact ht.2.accepted hl ha (process_filled E _ t _ _ h hc)
      | rollback h =>
          exact ht.2.pruned hl (reachable_sound (ht.1.next (.rollback h))).linked
            ((prunes E _).rollback t _ u h)
  exact both.2

theorem exists_link_iff {root : BlockHash} (hs : Healthy E s) :
    (∃ k, Link s.blockGet Previous k root) ↔
      s.blockExists root = true ∧ s.frontiers.get root = none := by
  rw [s.blockExists_eq, Option.isSome_iff_ne_none]
  constructor
  · intro h
    obtain ⟨k, hk⟩ := h
    refine ⟨hs.linked.chains.previous k root hk, ?_⟩
    by_contra hne
    obtain ⟨a, ha⟩ := Option.ne_none_iff_exists'.mp hne
    obtain ⟨i, hi, rfl⟩ := (hs.indexed.frontiers root a).mp ha
    exact (hs.linked.heads a i hi).2 k hk
  · intro h
    by_contra htop
    obtain ⟨c, hc⟩ := Option.ne_none_iff_exists'.mp h.1
    obtain ⟨a, ha⟩ := hs.linked.chains.exists_owner hc
    obtain ⟨_, hf⟩ := hs.head_frontier hc (not_exists.mp htop) ha
    cases hf.symm.trans h.2

/-- The block on top of a stored block is its successor. -/
theorem successor_settles {root : BlockHash} {c : Block} (hE : Proper E) (hs : Reachable E s)
    (hc : s.blockGet k = some c) (hp : Previous c root) :
    Settles (fun n => successor s n root) c := by
  have hh := reachable_healthy hE hs
  have hlink : Link s.blockGet Previous k root := ⟨c, hc, hp⟩
  obtain ⟨hroot, hfront⟩ := (exists_link_iff hh).mp ⟨k, hlink⟩
  have hnext := reachable_followed hs k root hlink
  obtain ⟨r, hr⟩ := Option.ne_none_iff_exists'.mp (hh.linked.chains.previous k root hlink)
  obtain ⟨a, ha⟩ := hh.linked.chains.exists_owner hr
  have hcg : c ≠ genesisBlock E := by
    intro he
    rw [he] at hp
    cases hp
  have hacc := account_settles hh.linked.chains.addressed ha
    (owner_ne_zero hE hh.linked hc hcg ha)
  have hbottom := Linked.bottomed hE.hashed hh.linked
  have hlatest : latest s a ≠ root := by
    unfold latest Store.accountGet
    cases hi : s.accounts.get a with
    | none =>
        intro hz
        dsimp only at hz
        rw [← hz, hbottom.zero] at hr
        cases hr
    | some i =>
        intro hz
        have hf := (hh.indexed.frontiers root a).mpr ⟨i, hi, hz⟩
        cases hf.symm.trans hfront
  have hk₀ : s.blockSuccessor root ≠ 0 := by
    rw [hnext]
    intro hz
    rw [hz, hbottom.zero] at hc
    cases hc
  filter_upwards [hacc] with n hn
  unfold successor
  rw [require_of hroot, ok_bind, relabel_eq_ok.mpr hn, ok_bind, require_of hlatest, ok_bind]
  dsimp only
  rw [require_of hk₀, ok_bind, hnext]
  exact demand_eq_ok.mpr hc

theorem successor_steady (s : Store) (root : BlockHash) : Steady (fun n => successor s n root) := by
  intro n c h
  dsimp only [successor] at h ⊢
  refine bind_ok_mono (fun _ h => h) (fun _ h => ?_) h
  refine bind_ok_mono (fun a h => ?_) (fun _ h => h) h
  rw [relabel_eq_ok] at h ⊢
  exact account_steady s.blockGet root n a h

/-- The assertions of `ledger::successor` hold only for a stored block that is
not a head. -/
theorem successor_ok {root : BlockHash} {c : Block} (hs : Healthy E s)
    (h : successor s fuel root = .ok c) :
    s.blockExists root = true ∧ s.frontiers.get root = none := by
  unfold successor at h
  obtain ⟨_, hroot, h⟩ := bind_eq_ok.mp h
  obtain ⟨a, ha, h⟩ := bind_eq_ok.mp h
  obtain ⟨_, hlatest, _⟩ := bind_eq_ok.mp h
  have hlatest := require_eq_ok.mp hlatest
  refine ⟨require_eq_ok.mp hroot, ?_⟩
  by_contra hne
  obtain ⟨x, hx⟩ := Option.ne_none_iff_exists'.mp hne
  obtain ⟨i, hi, hh⟩ := (hs.indexed.frontiers root x).mp hx
  obtain ⟨ho, _⟩ := account_ok hs.linked.chains.addressed (relabel_eq_ok.mp ha)
  have hox := (hs.linked.heads x i hi).1
  rw [hh] at hox
  cases hox.unique ho
  apply hlatest
  unfold latest Store.accountGet
  rw [hi]
  exact hh

/-- When a block is reported as a fork, the node finds a stored block with the
same root to start the election on if and only if the root of the block is
stored and is not the head of an account. -/
theorem fork_opponent_iff {ret : ProcessReturn} (hE : Proper E) (hs : Reachable E s)
    (h : process E fuel s b = .ok (ret, s')) (hfork : ret.code = .fork) :
    (∃ c, s'.blockGet (E.hash c) = some c ∧ c ≠ b ∧ c.root = b.root ∧
        Settles (fun n => successor s' n b.root) c) ↔ Opposed s b := by
  have hsame : s' = s := by
    rcases process_ok h with ⟨_, he⟩ | ⟨hc, _⟩
    · exact he
    · rw [hfork] at hc
      cases hc
  subst hsame
  have hh := reachable_healthy hE hs
  constructor
  · intro hex
    obtain ⟨c, _, _, _, hset⟩ := hex
    obtain ⟨n, hn⟩ := hset.exists_ok
    exact successor_ok hh hn
  · intro hop
    obtain ⟨k, c, hc, hp⟩ := (exists_link_iff hh).mpr hop
    have hkey := hh.linked.chains.keyed k c hc
    refine ⟨c, by rw [hkey]; exact hc, ?_, ?_, successor_settles hE hs hc hp⟩
    · intro he
      subst he
      rw [process_old (by rw [hkey]; exact Store.blockExists_iff.mpr ⟨c, hc⟩)] at h
      cases h
      cases hfork
    · cases c with
      | openBlock o => cases hp
      | sendBlock x | receiveBlock x | changeBlock x => exact Option.some.inj hp

/-- Two sends after the genesis block. -/
theorem fork_opponent_send : ∃ s ret s', Reachable smallNetwork s ∧
    process smallNetwork 20 s sendOdd = .ok (ret, s') ∧ ret.code = .fork ∧
    ∃ c, s'.blockGet (smallNetwork.hash c) = some c ∧ c ≠ sendOdd ∧ c.root = sendOdd.root ∧
      Settles (fun n => successor s' n sendOdd.root) c := by
  have hrun : executes smallNetwork 20 [.process send₁] (fun s =>
      decide (Opposed s sendOdd) &&
      returns (process smallNetwork 20 s sendOdd) (fun r => decide (r.1.code = .fork))) = true := by
    decide +kernel
  obtain ⟨s, hx, hrun⟩ := exists_of_executes hrun
  simp only [Bool.and_eq_true, decide_eq_true_eq] at hrun
  obtain ⟨hop, hrun⟩ := hrun
  obtain ⟨⟨ret, s'⟩, h, hfork⟩ := exists_of_returns hrun
  have hs := execute_reachable hx
  have hfork : ret.code = .fork := of_decide_eq_true hfork
  exact ⟨s, ret, s', hs, h, hfork,
    (fork_opponent_iff smallNetwork_proper hs h hfork).mpr hop⟩

section Opens

/-- The first account opens a second time, with the second send. -/
def openAgainHash : BlockHash := 0xf1410936b786dcceb1d06ac5b24b236c525f6b18f6a9a6b5c14e2740782cb51a

def openAgain : Block := .openBlock
  ⟨⟨send₂Hash, firstAccount, firstAccount⟩,
    0xfc8708c1d985e8bc34d2b9031d0dd03bb14a7736d13b5b4f8c0c9371b50b955ef11db5e6ebfb67acc32fa3225fbe480a674fae7d97356fe87475617047f8320d, 0⟩

def reopenNetwork : Env :=
  tableNetwork (digests.map (fun d => (d.1.hashed, d.2)) ++ [(openAgain.hashed, openAgainHash)])
    (signatures ++ [(firstAccount, openAgainHash, openAgain.signature)])

theorem reopenNetwork_proper : Proper reopenNetwork :=
  tableNetwork_proper (by decide +kernel) (by decide +kernel)

/-- A second open block of an account is reported as a fork. Its root is the
account number, which is no block. -/
theorem second_open_unopposed : ¬ ∀ E fuel s b ret s', Proper E → Reachable E s →
    process E fuel s b = .ok (ret, s') → ret.code = .fork →
      ∃ c, s'.blockGet (E.hash c) = some c ∧ c ≠ b ∧ c.root = b.root ∧
        Settles (fun n => successor s' n b.root) c := by
  intro hall
  have hrun : executes reopenNetwork 20 [.process send₁, .process open₁, .process send₂]
      (fun s => returns (process reopenNetwork 20 s openAgain) (fun r =>
        decide (r.1.code = .fork) && !r.2.blockExists openAgain.root)) = true := by
    decide +kernel
  obtain ⟨s, hx, hrun⟩ := exists_of_executes hrun
  obtain ⟨⟨ret, s'⟩, h, ht⟩ := exists_of_returns hrun
  simp only [Bool.and_eq_true, decide_eq_true_eq, Bool.not_eq_true'] at ht
  obtain ⟨c, _, _, _, hset⟩ :=
    hall reopenNetwork 20 s openAgain ret s' reopenNetwork_proper (execute_reachable hx) h ht.1
  obtain ⟨n, hn⟩ := hset.exists_ok
  obtain ⟨_, hroot, _⟩ := bind_eq_ok.mp hn
  have hroot := require_eq_ok.mp hroot
  rw [ht.2] at hroot
  cases hroot

end Opens

end PaperNode.SuccessorLinks
