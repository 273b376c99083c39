import PaperNode.GapCache
import PaperNode.AccountChains

/-!
# When the loop over waiting blocks ends

`process_receive_republish` goes on as long as the cache has a block that waits for the one just
processed. A turn takes a block out of the cache and may put one back, so the size of the cache
does not bound the number of turns. The blocks in hand do: each waits for the one before it, and
that order has no cycles.

Nothing is assumed of the ledger or the cache. The cache may hold blocks under hashes they do not
name. Such a block is put back under a hash it names, so there are fewer of them after each one
that comes to hand.

A turn stops, by returning or at a failed assertion of `ledger.process` or `ledger.successor`,
unless `successor` asks for the account of a block in the chain of account zero. The visitor takes
account zero for an account not found yet and goes round for ever. `ledger.process` asks the same
way whether a block is a head: what is put on top of a block of account zero is always a fork.
-/
namespace PaperNode.RepublishLoop
open BoundedRecursion LinkedNodes Blocks BlockStore LedgerQueries LedgerProcess BlockLattice
open QueryCorrectness ProcessSteps ChainInvariant IndexInvariant LedgerRuns ProcessReturns
open Representatives SuccessorLinks GapCache AccountChains
open RollbackFuture hiding returns
open Filter (atTop)

variable {E : Env} {s : Store} {node node' : Node} {b c : Block} {bs : List Block} {n : ℕ}
  {h p : BlockHash} {blocks : Cache} {g : GapInformation}

section Queries
variable {get : BlockHash → Option Block}

theorem balanceCompute_zero_halts (v : Amount) : Halts (fun n => balanceCompute E get n 0 v) :=
  Halts.succ (.of_stops (.ok v)) (fun n => by rw [balanceCompute, if_pos rfl]; rfl)

/-- The two visitors call each other for earlier blocks only. -/
theorem visitors_halt (hwf : WellFounded (fun p h => Link get Names h p)) (h : BlockHash) :
    (∀ v, Halts (fun n => balanceCompute E get n h v)) ∧ Halts (fun n => amount E get n h) ∧
      Halts (fun n => fromSend E get n h) := by
  induction h using hwf.induction with
  | _ h ih =>
      have hbalance : ∀ v, Halts (fun n => balanceCompute E get n h v) := by
        intro v
        refine Halts.succ ?_ (fun n => by rw [balanceCompute])
        refine .ite (fun _ => .of_stops (.ok _)) (fun _ => .bind_stops (.demand _ _) ?_)
        intro b hb
        have hb := demand_eq_ok.mp hb
        cases b with
        | sendBlock t => exact balanceCompute_zero_halts _
        | receiveBlock c =>
            refine .bind (ih _ ⟨_, hb, Or.inr rfl⟩).2.1 (fun _ _ => ?_)
            exact (ih _ ⟨_, hb, Or.inl rfl⟩).1 _
        | openBlock o =>
            exact .bind (ih _ ⟨_, hb, Or.inr rfl⟩).2.1 (fun _ _ => balanceCompute_zero_halts _)
        | changeBlock c => exact (ih _ ⟨_, hb, Or.inl rfl⟩).1 _
      refine ⟨hbalance, ?_, ?_⟩
      · refine Halts.succ ?_ (fun n => by rw [amount])
        cases hb : get h with
        | none => exact .of_stops (.ite (fun _ => .ok _) (fun _ => .failed _))
        | some b =>
            cases b with
            | sendBlock t =>
                exact .bind ((ih _ ⟨_, hb, Or.inl rfl⟩).1 _) (fun _ _ => .of_stops (.ok _))
            | receiveBlock c => exact (ih _ ⟨_, hb, Or.inr rfl⟩).2.2
            | openBlock o => exact (ih _ ⟨_, hb, Or.inr rfl⟩).2.2
            | changeBlock c => exact .of_stops (.failed _)
      · refine Halts.succ ?_ (fun n => by rw [fromSend])
        refine .bind (hbalance 0) (fun _ _ => .bind_stops (.demand _ _) (fun b hb => ?_))
        have hb := demand_eq_ok.mp hb
        refine .bind ?_ (fun _ _ => .of_stops (.ok _))
        cases b with
        | openBlock o => exact balanceCompute_zero_halts _
        | sendBlock t | receiveBlock t | changeBlock t => exact (ih _ ⟨_, hb, Or.inl rfl⟩).1 _

/-- The account visitor comes to a block that yields account zero, and stays there. -/
inductive EndsAtZero (get : BlockHash → Option Block) : BlockHash → Prop
  | send {h : BlockHash} {b : SendBlock} : get h = some (.sendBlock b) →
      EndsAtZero get b.hashables.previous → EndsAtZero get h
  | receive {h : BlockHash} {b : ReceiveBlock} {t : SendBlock} :
      get h = some (.receiveBlock b) → get b.hashables.source = some (.sendBlock t) →
      t.hashables.destination = 0 → EndsAtZero get h
  | opened {h : BlockHash} {b : OpenBlock} : get h = some (.openBlock b) →
      b.hashables.account = 0 → EndsAtZero get h
  | change {h : BlockHash} {b : ChangeBlock} : get h = some (.changeBlock b) →
      EndsAtZero get b.hashables.previous → EndsAtZero get h

theorem EndsAtZero.exhausted (hz : EndsAtZero get h) (n : ℕ) : account get n h = exhaust := by
  induction n generalizing h with
  | zero => rfl
  | succ n ih =>
      cases hz with
      | send hb hp =>
          rw [account, hb]
          exact ih hp
      | change hb hp =>
          rw [account, hb]
          exact ih hp
      | opened hb ha =>
          rw [account, hb]
          exact (if_pos ha).trans (ih (.opened hb ha))
      | @receive _ b t hb ht hd =>
          have hstay : account get (n + 1) h = account get n h := by
            rw [account, hb]
            simp only [demand, ok_bind, ht, if_pos hd]
          exact hstay.trans (ih (.receive hb ht hd))

theorem account_halts (hwf : WellFounded (fun p h => Link get Names h p))
    (hz : ¬ EndsAtZero get h) : Halts (fun n => account get n h) := by
  induction h using hwf.induction with
  | _ h ih =>
      refine Halts.succ ?_ (fun n => by rw [account])
      refine .bind_stops (.demand _ _) (fun b hb => ?_)
      have hb := demand_eq_ok.mp hb
      cases b with
      | sendBlock t => exact ih _ ⟨_, hb, Or.inl rfl⟩ (fun hp => hz (.send hb hp))
      | changeBlock c => exact ih _ ⟨_, hb, Or.inl rfl⟩ (fun hp => hz (.change hb hp))
      | openBlock o =>
          exact .ite (fun ha => absurd (.opened hb ha) hz) (fun _ => .of_stops (.ok _))
      | receiveBlock c =>
          dsimp only
          split
          · rename_i t ht
            exact .ite (fun hd => absurd (.receive hb ht hd) hz) (fun _ => .of_stops (.ok _))
          · exact .of_stops (.failed _)

end Queries

section Stopping
variable (E s)

theorem fillValue_stops (previous hash : BlockHash) : Stops (s.fillValue previous hash) := by
  unfold Store.fillValue
  cases s.blockGetRaw previous with
  | none => exact .failed _
  | some e => exact .ok _

theorem blockPut_stops (h : BlockHash) (b : Block) : Stops (s.blockPut E h b) := by
  have hset : Stops (Store.setPredecessor E (s.blockPutRaw h ⟨b, 0⟩) b) := by
    cases b with
    | openBlock b => exact .ok _
    | sendBlock b => exact fillValue_stops _ _ _
    | receiveBlock b => exact fillValue_stops _ _ _
    | changeBlock b => exact fillValue_stops _ _ _
  exact .bind hset (fun _ _ => .bind (.require _ _) (fun _ _ => .ok _))

theorem frontierDel_stops (h : BlockHash) : Stops (s.frontierDel h) :=
  .bind (.require _ _) (fun _ _ => .ok _)

theorem pendingDel_stops (h : BlockHash) : Stops (s.pendingDel h) :=
  .bind (.require _ _) (fun _ _ => .ok _)

theorem checksumUpdate_stops (h : BlockHash) : Stops (checksumUpdate s h) :=
  .bind (.bind (.require _ _) (fun _ _ => .ok _))
    (fun _ _ => .bind (.demand _ _) (fun _ _ => .bind (.require _ _) (fun _ _ => .ok _)))

theorem changeLatest_stops (a : Account) (h r : BlockHash) (v : Amount) :
    Stops (changeLatest E s a h r v) := by
  have hforget : Stops (checksumForget s a) := by
    unfold checksumForget
    cases s.accountGet a with
    | none => exact .ok _
    | some info => exact checksumUpdate_stops _ _
  refine .bind hforget (fun t _ => .ite (fun _ => checksumUpdate_stops _ _) (fun _ => ?_))
  exact .bind (.require _ _) (fun _ _ => .ok _)

theorem moveRepresentation_stops (x y : BlockHash) (v : Amount) :
    Stops (moveRepresentation E s x y v) :=
  .bind (.demand _ _) (fun _ _ => .bind (.require _ _) (fun _ _ => .bind (.demand _ _)
    (fun _ _ => .bind (.require _ _) (fun _ _ => .bind (.require _ _) (fun _ _ => .ok _)))))

theorem sendBlock_stops (t : SendBlock) : Stops (sendBlock E s t) := by
  refine .ite (fun _ => .ok _) (fun _ => .ite (fun _ => .ok _) (fun _ => .ite (fun _ => .ok _)
    (fun _ => .ite (fun _ => .ok _) (fun _ => ?_))))
  refine .bind (.demand _ _) (fun i _ => .bind (.require _ _) (fun _ _ => .ite (fun _ => .ok _)
    (fun _ => ?_)))
  exact .bind (blockPut_stops _ _ _ _) (fun _ _ => .bind (changeLatest_stops _ _ _ _ _ _)
    (fun _ _ => .bind (frontierDel_stops _ _) (fun _ _ => .ok _)))

theorem receiveBlock_stops (c : ReceiveBlock) : Stops (receiveBlock E s c) := by
  unfold receiveBlock
  refine .ite (fun _ => .ok _) (fun _ => .ite (fun _ => .ok _) (fun _ => ?_))
  cases s.pendingGet c.hashables.source with
  | none => exact .ok _
  | some r =>
  refine .ite (fun _ => .ok _) (fun _ => ?_)
  cases s.accountGet r.destination with
  | none => exact .ok _
  | some i =>
  refine .ite (fun _ => ?_) (fun _ => .ite (fun _ => .ok _) (fun _ => .ok _))
  refine .bind (.require _ _) (fun _ _ => .bind (.demand _ _) (fun k _ => ?_))
  refine .bind (pendingDel_stops _ _) (fun _ _ => .bind (blockPut_stops _ _ _ _) (fun _ _ => ?_))
  exact .bind (changeLatest_stops _ _ _ _ _ _) (fun _ _ => .bind
    (moveRepresentation_stops _ _ _ _ _) (fun _ _ => .bind (frontierDel_stops _ _) (fun _ _ =>
      .ok _)))

theorem openBlock_stops (o : OpenBlock) : Stops (openBlock E s o) := by
  unfold openBlock
  refine .ite (fun _ => .ok _) (fun _ => .ite (fun _ => .ok _) (fun _ => ?_))
  cases s.pendingGet o.hashables.source with
  | none => exact .ok _
  | some r =>
  refine .ite (fun _ => .ok _) (fun _ => .ite (fun _ => .ok _) (fun _ => ?_))
  cases s.accountGet r.destination with
  | some i => exact .ok _
  | none =>
  refine .bind (.demand _ _) (fun k _ => .bind (pendingDel_stops _ _) (fun _ _ => ?_))
  exact .bind (blockPut_stops _ _ _ _) (fun _ _ => .bind (changeLatest_stops _ _ _ _ _ _)
    (fun _ _ => .bind (moveRepresentation_stops _ _ _ _ _) (fun _ _ => .ok _)))

end Stopping

/-- The hash of one of the blocks or of a stored block, and a hash that the block names. -/
def Named (E : Env) (s : Store) (bs : List Block) (h p : BlockHash) : Prop :=
  (∃ c ∈ bs, E.hash c = h ∧ Names c p) ∨ Link s.blockGet Names h p

def Acyclic (E : Env) (s : Store) (bs : List Block) : Prop :=
  ∀ h, ¬ Relation.TransGen (Named E s bs) h h

section Acyclic

theorem Acyclic.inHand (h : Acyclic E s bs) :
    WellFounded (fun h p => ∃ c ∈ bs, E.hash c = h ∧ Names c p) :=
  Subrelation.wf (fun hc => Or.inl hc) (wellFounded_of_acyclic h)

theorem Acyclic.links (h : Acyclic E s bs) :
    WellFounded (fun p h => Link s.blockGet Names h p) := by
  have hswap : WellFounded (Function.swap (Named E s bs)) :=
    wellFounded_of_acyclic fun k hk => h k (Relation.transGen_swap.mp hk)
  exact Subrelation.wf (fun hl => Or.inr hl) hswap

theorem Acyclic.mono {s' : Store} (h : Acyclic E s bs)
    (hle : ∀ k p, Link s'.blockGet Names k p → Named E s bs k p) : Acyclic E s' bs := by
  intro k hk
  refine h k (Relation.TransGen.mono ?_ k k hk)
  rintro a b (hab | hab)
  · exact Or.inl hab
  · exact hle a b hab

theorem Acyclic.insert {s' : Store} (h : Acyclic E s bs) (hb : b ∈ bs)
    (hs' : s'.blockGet = Function.update s.blockGet (E.hash b) (some b)) : Acyclic E s' bs := by
  refine h.mono ?_
  rintro k p ⟨c, hc, hp⟩
  rw [hs'] at hc
  by_cases hk : k = E.hash b
  · subst hk
    rw [Function.update_self] at hc
    cases hc
    exact Or.inl ⟨b, hb, rfl, hp⟩
  · rw [Function.update_of_ne hk] at hc
    exact Or.inr ⟨c, hc, hp⟩

theorem Acyclic.process {s' : Store} {ret : ProcessReturn} (h : Acyclic E s bs) (hb : b ∈ bs)
    (hp : process E n s b = .ok (ret, s')) : Acyclic E s' bs := by
  rcases process_ok hp with ⟨_, rfl⟩ | ⟨_, _, _, hl, _⟩
  · exact h
  · exact h.insert hb hl.blocks

end Acyclic

theorem changeBlock_halts (h : Acyclic E s bs) {c : ChangeBlock} (hc : .changeBlock c ∈ bs) :
    Halts (fun n => changeBlock E n s c) := by
  unfold changeBlock
  refine .ite (fun _ => .of_stops (.ok _)) (fun h₁ => .ite (fun _ => .of_stops (.ok _))
    (fun _ => .ite (fun _ => .of_stops (.ok _)) (fun _ => ?_)))
  refine .bind_stops (.demand _ _) (fun i _ => .bind_stops (.require _ _) (fun _ _ => ?_))
  refine .ite (fun _ => .of_stops (.ok _)) (fun _ => .bind_stops (blockPut_stops _ _ _ _) ?_)
  intro w hw
  -- the balance is asked for with the block stored
  obtain ⟨hblocks, _, _⟩ := Store.blockPut_ok hw (blockGet_of_not_exists h₁)
  refine .bind ((visitors_halt (h.insert hc hblocks).links _).1 0) (fun moved _ => .of_stops ?_)
  exact .bind (moveRepresentation_stops _ _ _ _ _) (fun _ _ => .bind
    (changeLatest_stops _ _ _ _ _ _) (fun _ _ => .bind (frontierDel_stops _ _) (fun _ _ => .ok _)))

theorem process_halts (h : Acyclic E s bs) (hb : b ∈ bs) : Halts (fun n => process E n s b) := by
  cases b with
  | sendBlock t => exact .of_stops (sendBlock_stops E s t)
  | receiveBlock c => exact .of_stops (receiveBlock_stops E s c)
  | openBlock o => exact .of_stops (openBlock_stops E s o)
  | changeBlock c => exact changeBlock_halts h hb

theorem EndsAtZero.stored {get : BlockHash → Option Block} (hz : EndsAtZero get h) :
    ∃ b, get h = some b := by
  cases hz with
  | send hb _ | receive hb _ _ | opened hb _ | change hb _ => exact ⟨_, hb⟩

theorem EndsAtZero.successor_exhausted (hz : EndsAtZero s.blockGet h) (n : ℕ) :
    successor s n h = exhaust := by
  have hexists := Store.blockExists_iff.mpr hz.stored
  unfold successor
  rw [hz.exhausted n, require_of hexists]
  rfl

theorem successor_halts (hacyclic : Acyclic E s bs) (hz : ¬ EndsAtZero s.blockGet h) :
    Halts (fun n => successor s n h) := by
  refine .bind_stops (.require _ _) (fun _ _ => ?_)
  refine .bind ((account_halts hacyclic.links hz).relabel _) (fun owner _ => .of_stops ?_)
  exact .bind (.require _ _) (fun _ _ => .bind (.require _ _) (fun _ _ => .demand _ _))

/-- The block is found to be a fork of one in the chain of account zero. -/
def ForksZero (E : Env) (s : Store) (b : Block) : Prop :=
  (∃ n ret, process E n s b = .ok (ret, s) ∧ ret.code = .fork) ∧ EndsAtZero s.blockGet b.root

theorem processReceive_halts (h : Acyclic E node.store bs) (hb : b ∈ bs)
    (hz : ¬ ForksZero E node.store b) : Halts (fun n => processReceive E n node b) := by
  refine .bind ((process_halts h hb).relabel ReceiveAssertion.ledger) (fun result hresult => ?_)
  obtain ⟨n, hn⟩ := hresult.exists_ok
  have hn := relabel_eq_ok.mp hn
  obtain ⟨ret, store⟩ := result
  dsimp only
  split
  · exact .of_stops (.ok _)
  · exact .of_stops (.ok _)
  · rename_i hcode
    have hsame : store = node.store := by
      rcases process_ok hn with ⟨_, hsame⟩ | ⟨hprogress, _⟩
      · exact hsame
      · cases hprogress.symm.trans hcode
    subst hsame
    exact .bind ((successor_halts h (fun hend => hz ⟨⟨n, ret, hn, hcode⟩, hend⟩)).relabel _)
      (fun _ _ => .of_stops (.ok _))
  · exact .of_stops (.ok _)

theorem turn_halts (h : Acyclic E node.store bs) (hb : b ∈ bs)
    (hz : ¬ ForksZero E node.store b) : Halts (fun n => turn E n node b) :=
  .bind (processReceive_halts h hb hz) (fun _ _ => .of_stops (.ok _))

theorem ForksZero.turn_exhausted (hz : ForksZero E node.store b) :
    ∀ᶠ n in atTop, turn E n node b = exhaust := by
  obtain ⟨⟨n, ret, hn, hcode⟩, hend⟩ := hz
  have hsettles : ∀ᶠ n in atTop, process E n node.store b = .ok (ret, node.store) :=
    (process_steady E node.store b).settles hn
  filter_upwards [hsettles] with m hm
  unfold turn processReceive
  rw [hm]
  simp only [relabel, ok_bind, hcode, hend.successor_exhausted m]
  rfl

section Gaps

theorem reject_code {code x : ProcessResult} (hne : code ≠ x) :
    Ensures (reject s code) (fun r => r.1.code ≠ x) := .ok hne

theorem passes_code {P : Prop} [Decidable P] {code x : ProcessResult}
    {rest : Check Assertion (ProcessReturn × Store)} (hne : code ≠ x)
    (h : Ensures rest (fun r => r.1.code ≠ x)) :
    Ensures (if P then reject s code else rest) (fun r => r.1.code ≠ x) :=
  .ite (fun _ => reject_code hne) (fun _ => h)

theorem sendBlock_code (t : SendBlock) :
    Ensures (sendBlock E s t) (fun r => r.1.code ≠ .gapSource) := by
  refine passes_code (by decide) (passes_code (by decide) (passes_code (by decide)
    (passes_code (by decide) ?_)))
  refine .after (fun i => .after (fun _ => passes_code (by decide) ?_))
  exact .after (fun _ => .after (fun _ => .after (fun _ => .ok (by simp))))

theorem changeBlock_code (c : ChangeBlock) :
    Ensures (changeBlock E n s c) (fun r => r.1.code ≠ .gapSource) := by
  refine passes_code (by decide) (passes_code (by decide) (passes_code (by decide) ?_))
  refine .after (fun i => .after (fun _ => passes_code (by decide) ?_))
  exact .after (fun _ => .after (fun _ => .after (fun _ => .after (fun _ => .after (fun _ =>
    .ok (by simp))))))

theorem openBlock_code (o : OpenBlock) :
    Ensures (openBlock E s o) (fun r => r.1.code ≠ .gapPrevious) := by
  unfold openBlock
  refine passes_code (by decide) (passes_code (by decide) ?_)
  cases s.pendingGet o.hashables.source with
  | none => exact reject_code (by decide)
  | some r =>
  refine passes_code (by decide) (passes_code (by decide) ?_)
  cases s.accountGet r.destination with
  | some i => exact reject_code (by decide)
  | none =>
  exact .after (fun _ => .after (fun _ => .after (fun _ => .after (fun _ => .after (fun _ =>
    .ok (by simp))))))

theorem process_gap {ret : ProcessReturn} {s' : Store} (h : process E n s b = .ok (ret, s')) :
    (ret.code = .gapPrevious → Names b b.previous) ∧
      (ret.code = .gapSource → Names b b.source) := by
  cases b with
  | sendBlock t => exact ⟨fun _ => Or.inl rfl, fun hc => absurd hc (sendBlock_code t _ h)⟩
  | receiveBlock c => exact ⟨fun _ => Or.inl rfl, fun _ => Or.inr rfl⟩
  | openBlock o => exact ⟨fun hc => absurd hc (openBlock_code o _ h), fun _ => Or.inr rfl⟩
  | changeBlock c => exact ⟨fun _ => Or.inl rfl, fun hc => absurd hc (changeBlock_code c _ h)⟩

/-- The ledger is the one that `process` leaves. The cache keeps what it has, or gets the block in
hand under a hash it names. -/
theorem processReceive_ok {ret : ProcessReturn}
    (h : processReceive E n node b = .ok (ret, node')) :
    process E n node.store b = .ok (ret, node'.store) ∧
      (node'.gapCache = node.gapCache ∨
        ∃ p, Names b p ∧ node'.gapCache = add E node.gapCache b p) := by
  obtain ⟨⟨ret', store⟩, hprocess, h⟩ := bind_eq_ok.mp h
  have hprocess := relabel_eq_ok.mp hprocess
  have hgap := process_gap hprocess
  dsimp only at h
  split at h
  case h_1 hcode =>
    cases h
    exact ⟨hprocess, Or.inr ⟨b.previous, hgap.1 hcode, rfl⟩⟩
  case h_2 hcode =>
    cases h
    exact ⟨hprocess, Or.inr ⟨b.source, hgap.2 hcode, rfl⟩⟩
  case h_3 =>
    obtain ⟨_, _, h⟩ := bind_eq_ok.mp h
    cases h
    exact ⟨hprocess, Or.inl rfl⟩
  case h_4 =>
    cases h
    exact ⟨hprocess, Or.inl rfl⟩

/-- The number of blocks in the cache under a hash they do not name. -/
def misfiled (blocks : Cache) : ℕ := blocks.countP (fun g => ¬ Names g.block g.required)

/-- The block in hand is all that `add` can put into the cache. -/
theorem add_subperm (E : Env) (blocks : Cache) (b : Block) (p : BlockHash) :
    (add E blocks b p).Subperm (blocks ++ [⟨p, E.hash b, b⟩]) := by
  unfold add
  cases hx : blocks.find? (waitsFor p) with
  | some x =>
      have hperm := (List.perm_append_singleton x _).trans (perm_of_find hx).symm
      exact hperm.subperm.trans (List.sublist_append_left _ _).subperm
  | none =>
      dsimp only
      split_ifs
      · exact ((List.tail_sublist _).trans (List.sublist_append_left _ _)).subperm
      · exact (List.sublist_append_left _ _).subperm
      · exact (List.tail_sublist _).subperm
      · exact List.Subperm.refl _

theorem misfiled_add_le (E : Env) (blocks : Cache) (hp : Names b p) :
    misfiled (add E blocks b p) ≤ misfiled blocks := by
  have hle : misfiled (add E blocks b p) ≤ misfiled (blocks ++ [⟨p, E.hash b, b⟩]) :=
    (add_subperm E blocks b p).countP_le _
  have hnew : misfiled (blocks ++ [⟨p, E.hash b, b⟩]) = misfiled blocks := by
    simp [misfiled, hp]
  exact hnew ▸ hle

end Gaps

section Loop

theorem turn_reachable {next : Option Block} (hs : Reachable E node.store)
    (h : turn E n node b = .ok (next, node')) : Reachable E node'.store := by
  obtain ⟨ret, middle, hreceive, _, rfl⟩ := turn_ok h
  exact hs.next (.process (processReceive_ok hreceive).1)

/-- A turn passes on a block of the cache, or the block it had in hand. -/
theorem turn_blocks (hb : b ∈ bs) (hcache : ∀ g ∈ node.gapCache, g.block ∈ bs)
    (h : turn E n node b = .ok (some c, node')) :
    c ∈ bs ∧ ∀ g ∈ node'.gapCache, g.block ∈ bs := by
  obtain ⟨ret, middle, hreceive, hnext, rfl⟩ := turn_ok h
  have hmiddle : ∀ g ∈ middle.gapCache, g.block ∈ bs := by
    intro g hg
    rcases (processReceive_ok hreceive).2 with hsame | ⟨p, _, hadd⟩
    · exact hcache g (hsame ▸ hg)
    · rw [hadd] at hg
      rcases List.mem_append.mp ((add_subperm E _ b p).subset hg) with hg | hg
      · exact hcache g hg
      · rw [List.mem_singleton.mp hg]
        exact hb
  rcases get_cases middle.gapCache (E.hash b) with ⟨hnone, _⟩ | ⟨g, _, hsome, hperm⟩
  · rw [hnone] at hnext
    cases hnext
  · cases hnext.trans hsome
    exact ⟨hmiddle g (hperm.mem_iff.mpr List.mem_cons_self),
      fun x hx => hmiddle x (hperm.mem_iff.mpr (List.mem_cons_of_mem g hx))⟩

/-- The block passed on names the one before it, or one misfiled block is gone. -/
theorem turn_decreases (h : turn E n node b = .ok (some c, node')) :
    misfiled node'.gapCache < misfiled node.gapCache ∨
      (Names c (E.hash b) ∧ misfiled node'.gapCache ≤ misfiled node.gapCache) := by
  obtain ⟨ret, middle, hreceive, hnext, rfl⟩ := turn_ok h
  have hmiddle : misfiled middle.gapCache ≤ misfiled node.gapCache := by
    rcases (processReceive_ok hreceive).2 with hsame | ⟨p, hp, hadd⟩
    · rw [hsame]
    · rw [hadd]
      exact misfiled_add_le E node.gapCache hp
  rcases get_cases middle.gapCache (E.hash b) with ⟨hnone, _⟩ | ⟨g, hrequired, hsome, hperm⟩
  · rw [hnone] at hnext
    cases hnext
  · cases hnext.trans hsome
    have hcount : misfiled middle.gapCache =
        misfiled (g :: (get middle.gapCache (E.hash b)).2) := hperm.countP_eq _
    dsimp only
    -- it was filed under the hash in hand, so it is misfiled if it does not name that hash
    by_cases hnames : Names g.block (E.hash b)
    · have htake : misfiled (g :: (get middle.gapCache (E.hash b)).2) =
          misfiled (get middle.gapCache (E.hash b)).2 := by
        simp [misfiled, hrequired, hnames]
      exact Or.inr ⟨hnames, by omega⟩
    · have htake : misfiled (g :: (get middle.gapCache (E.hash b)).2) =
          misfiled (get middle.gapCache (E.hash b)).2 + 1 := by
        simp [misfiled, hrequired, hnames]
      exact Or.inl (by omega)

theorem turn_acyclic {next : Option Block} (h : Acyclic E node.store bs) (hb : b ∈ bs)
    (ht : turn E n node b = .ok (next, node')) : Acyclic E node'.store bs := by
  obtain ⟨ret, middle, hreceive, _, rfl⟩ := turn_ok ht
  exact h.process hb (processReceive_ok hreceive).1

/-- The block comes to hand in the loop that starts with `b`. -/
inductive Comes (E : Env) (node : Node) (b : Block) : Node → Block → Prop
  | first : Comes E node b node b
  | next {node' node'' : Node} {c d : Block} : Comes E node b node' c →
      Settles (fun n => turn E n node' c) (some d, node'') → Comes E node b node'' d

theorem Comes.head {node'' : Node} {d : Block} (h : Comes E node' c node'' d)
    (ht : Settles (fun n => turn E n node b) (some c, node')) : Comes E node b node'' d := by
  induction h with
  | first => exact .next .first ht
  | next _ hnext ih => exact .next ih hnext

theorem republish_next (ht : Settles (fun n => turn E n node b) (some c, node'))
    (h : Halts (fun n => processReceiveRepublish E n node b)) :
    Halts (fun n => processReceiveRepublish E n node' c) := by
  have hnext : ∀ᶠ n in atTop, turn E n node b = .ok (some c, node') := ht
  refine (h.shift (fun n => by rw [processReceiveRepublish])).congr ?_
  filter_upwards [hnext] with n hn
  rw [hn]
  rfl

theorem Comes.halts (hc : Comes E node b node' c)
    (h : Halts (fun n => processReceiveRepublish E n node b)) :
    Halts (fun n => processReceiveRepublish E n node' c) := by
  induction hc with
  | first => exact h
  | next _ hnext ih => exact republish_next hnext ih

theorem ForksZero.not_halts (hz : ForksZero E node.store b) :
    ¬ Halts (fun n => processReceiveRepublish E n node b) := by
  intro h
  refine not_halts_of_exhausted ?_ (h.shift (fun n => by rw [processReceiveRepublish]))
  filter_upwards [hz.turn_exhausted] with n hn
  rw [hn]
  rfl

/-- By induction on the misfiled blocks, and for as many of them on what can still be climbed. -/
theorem republish_halts (h : Acyclic E node.store bs) (hb : b ∈ bs)
    (hcache : ∀ g ∈ node.gapCache, g.block ∈ bs)
    (hz : ∀ node' c, Comes E node b node' c → ¬ ForksZero E node'.store c) :
    Halts (fun n => processReceiveRepublish E n node b) := by
  have hwf := h.inHand
  induction hm : misfiled node.gapCache using Nat.strong_induction_on generalizing node b with
  | _ m ihm =>
  induction hk : E.hash b using hwf.induction generalizing node b with
  | _ k ihk =>
      refine Halts.succ ?_ (fun n => by rw [processReceiveRepublish])
      refine .bind (turn_halts h hb (hz node b .first)) (fun r hr => ?_)
      obtain ⟨n, hn⟩ := hr.exists_ok
      obtain ⟨next, node'⟩ := r
      cases next with
      | none => exact .of_stops (.ok _)
      | some c =>
          have h' := turn_acyclic h hb hn
          obtain ⟨hc, hcache'⟩ := turn_blocks hb hcache hn
          have hz' : ∀ node'' d, Comes E node' c node'' d → ¬ ForksZero E node''.store d :=
            fun node'' d hd => hz node'' d (hd.head hr)
          rcases turn_decreases hn with hlt | ⟨hnames, hle⟩
          · exact ihm _ (hm ▸ hlt) h' hc hcache' hz' rfl
          · -- with as many misfiled blocks left, the next block is one above this one
            rcases Nat.lt_or_eq_of_le hle with hlt | heq
            · exact ihm _ (hm ▸ hlt) h' hc hcache' hz' rfl
            · exact ihk (E.hash c) ⟨c, hc, rfl, hk ▸ hnames⟩ h' hc hcache' hz' (heq.trans hm) rfl

end Loop

/-- With any blocks in the cache and on any ledger where no block depends on itself, the loop of
`process_receive_republish` ends unless a block comes to hand that is found to be a fork of one in
the chain of account zero. -/
theorem republish_ends_iff (node : Node) (b : Block)
    (hacyclic : Acyclic E node.store (b :: node.gapCache.map GapInformation.block)) :
    Halts (fun n => processReceiveRepublish E n node b) ↔
      ∀ node' c, Comes E node b node' c → ¬ ForksZero E node'.store c := by
  constructor
  · intro h node' c hc hz
    exact hz.not_halts (hc.halts h)
  · refine republish_halts hacyclic List.mem_cons_self ?_
    intro g hgap
    exact List.mem_cons_of_mem b (List.mem_map_of_mem hgap)

section Reachable

theorem EndsAtZero.owner (hs : Linked E s) (hz : EndsAtZero s.blockGet h) :
    Owner s.blockGet h 0 := by
  induction hz with
  | send hb _ ih => exact (owner_previous hb rfl).mpr ih
  | change hb _ ih => exact (owner_previous hb rfl).mpr ih
  | opened hb ha => exact (owner_open hb).mpr ha
  | receive hb ht hd =>
      obtain ⟨t, ht', ho⟩ := hs.chains.addressed _ _ hb
      cases ht.symm.trans ht'
      rwa [hd] at ho

theorem Comes.not_forksZero (hE : Proper E) (hg : E.genesisAccount ≠ 0)
    (hs : Reachable E node.store) (hc : Comes E node b node' c) :
    ¬ ForksZero E node'.store c := by
  have hs' : Reachable E node'.store := by
    induction hc with
    | first => exact hs
    | next _ hnext ih =>
        obtain ⟨n, hn⟩ := hnext.exists_ok
        exact turn_reachable ih hn
  have hl := (reachable_sound hs').linked
  exact fun hz => owner_ne_zero_of_genesis hE hl hg (hz.2.owner hl) rfl

/-- The blocks of a ledger and one more do not depend on themselves. -/
theorem acyclic_singleton (hE : Hashed E) (hs : Linked E s) (hself : ¬ Names b (E.hash b))
    (hfresh : s.blockGet (E.hash b) = none) : Acyclic E s [b] := by
  obtain ⟨rank, hr⟩ := hs.chains.ranked
  have hbottom : s.blockGet E.genesisAccount = none := (Linked.bottomed hE hs).genesis
  let low : BlockHash → ℕ := fun k => if k = E.genesisAccount then 0 else rank k + 1
  have hlow : ∀ k p, Link s.blockGet Names k p → low p < low k ∧ p ≠ E.hash b := by
    rintro k p ⟨c, hc, hp⟩
    have hk : k ≠ E.genesisAccount := by
      rintro rfl
      rw [hbottom] at hc
      cases hc
    by_cases hgenesis : c = genesisBlock E
    · subst hgenesis
      rcases hp with hp | hp
      · cases hp
      · cases hp
        refine ⟨?_, (hE.hash_ne_genesis b).symm⟩
        show low E.genesisAccount < low k
        simp [low, hk]
    · have hneeds : Link s.blockGet (Needs E) k p :=
        ⟨c, hc, hp.imp id (fun hq => ⟨hgenesis, hq⟩)⟩
      have hstored := hs.chains.needed_stored hneeds
      have hp' : p ≠ E.genesisAccount := fun h => hstored (h ▸ hbottom)
      refine ⟨?_, fun h => hstored (h ▸ hfresh)⟩
      simp only [low, if_neg hk, if_neg hp']
      exact Nat.succ_lt_succ (hr k p hneeds)
  let top : ℕ := b.previousLink.elim 0 low + b.sourceLink.elim 0 low + 1
  refine acyclic_of_rank (fun k => if k = E.hash b then top else low k) ?_
  rintro k p (⟨c, hc, rfl, hp⟩ | hl)
  · rw [List.mem_singleton.mp hc] at hp ⊢
    have hne : p ≠ E.hash b := fun h => hself (h ▸ hp)
    rw [if_pos rfl, if_neg hne]
    rcases hp with hp | hp
    · simp only [top, hp, Option.elim_some]
      omega
    · simp only [top, hp, Option.elim_some]
      omega
  · obtain ⟨c, hc, hp⟩ := hl
    have hk : k ≠ E.hash b := by
      rintro rfl
      rw [hfresh] at hc
      cases hc
    obtain ⟨hlt, hne⟩ := hlow k p ⟨c, hc, hp⟩
    rw [if_neg hk, if_neg hne]
    exact hlt

end Reachable

/-- An open block waits for the send that arrives. -/
theorem republish_ends_iff_send : ∃ s, Reachable smallNetwork s ∧
    Halts (fun n => processReceiveRepublish smallNetwork n ⟨s, [⟨send₁Hash, open₁Hash, open₁⟩]⟩
      send₁) := by
  obtain ⟨s, hs⟩ := exists_genesisInitialize smallNetwork
  have hreachable : Reachable smallNetwork s := .start hs
  have hacyclic : Acyclic smallNetwork s [send₁, open₁] := by
    refine acyclic_of_rank (fun h => if h = open₁Hash then 3 else if h = send₁Hash then 2 else
      if h = testGenesisHash then 1 else 0) ?_
    rintro k p (⟨c, hc, rfl, hnames⟩ | ⟨c, hc, hnames⟩)
    · rcases List.mem_cons.mp hc with rfl | hc
      · rcases hnames with hp | hp
        · cases hp
          decide +kernel
        · cases hp
      · rw [List.mem_singleton.mp hc] at hnames ⊢
        rcases hnames with hp | hp
        · cases hp
        · cases hp
          decide +kernel
    · obtain ⟨rfl, rfl⟩ := (genesisInitialize_ok hs).stored hc
      rcases hnames with hp | hp
      · cases hp
      · cases hp
        decide +kernel
  refine ⟨s, hreachable, (republish_ends_iff ⟨s, _⟩ send₁ hacyclic).mpr ?_⟩
  exact fun node' c hc => hc.not_forksZero smallNetwork_proper (by decide) hreachable

def changeZero : Block := .changeBlock ⟨⟨openZeroHash, firstAccount⟩, 0, 0⟩

theorem zeroNetwork_hashed : Hashed zeroNetwork := by
  have hall : ∀ (P : BlockHash → Prop), (∀ b, P (smallNetwork.hash b)) → P sendZeroHash →
      P openZeroHash → ∀ b, P (zeroNetwork.hash b) := by
    intro P hsmall hsend hopen b
    show P (if b.hashed = sendZero.hashed then sendZeroHash
      else if b.hashed = openZero.hashed then openZeroHash else smallNetwork.blake2b b.hashed)
    split_ifs
    · exact hsend
    · exact hopen
    · exact hsmall b
  exact ⟨hall (· ≠ 0) smallNetwork_proper.hash_ne_zero (by decide) (by decide),
    hall (· ≠ paperTestAccount) smallNetwork_proper.hash_ne_genesis (by decide) (by decide)⟩

/-- The change block is taken for a fork, and the ledger never finds the account of the open
block. -/
theorem republish_of_zero_endless : ¬ ∀ (E : Env) (node : Node) (b : Block),
    Reachable E node.store →
    Acyclic E node.store (b :: node.gapCache.map GapInformation.block) →
    Halts (fun n => processReceiveRepublish E n node b) := by
  intro hall
  have hrun : executes zeroNetwork 20 [.process sendZero, .process openZero] (fun s =>
      decide (s.blockGet openZeroHash = some openZero) &&
        decide (s.blockGet (zeroNetwork.hash changeZero) = none) &&
        returns (process zeroNetwork 0 s changeZero) (fun r => decide (r.1.code = .fork))) =
        true := by
    decide +kernel
  obtain ⟨s, hx, ht⟩ := exists_of_executes hrun
  simp only [Bool.and_eq_true, decide_eq_true_eq] at ht
  obtain ⟨⟨hopen, hfresh⟩, hreturns⟩ := ht
  obtain ⟨⟨ret, s'⟩, hprocess, hcode⟩ := exists_of_returns hreturns
  have hcode := of_decide_eq_true hcode
  have hs := execute_reachable hx
  have hacyclic := acyclic_singleton zeroNetwork_hashed (reachable_sound hs).linked
    (b := changeZero) (by decide +kernel) hfresh
  have hz : ForksZero zeroNetwork s changeZero := by
    refine ⟨⟨0, ret, ?_, hcode⟩, .opened hopen rfl⟩
    rcases process_ok hprocess with ⟨_, rfl⟩ | ⟨hprogress, _⟩
    · exact hprocess
    · cases hprogress.symm.trans hcode
  have hnever : ¬ Halts (fun n => processReceiveRepublish zeroNetwork n ⟨s, []⟩ changeZero) :=
    ForksZero.not_halts hz
  exact hnever (hall zeroNetwork ⟨s, []⟩ changeZero hs hacyclic)

end PaperNode.RepublishLoop
