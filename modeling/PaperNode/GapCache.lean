import PaperNode.PartialLedger
import PaperNode.SuccessorLinks

/-!
# Blocks that arrive out of order

A block that `ledger.process` reports with a gap is kept in `gap_cache` under the hash it
misses. `node::process_receive_republish` looks, after every block it has processed, for a
block that waits for it, and goes on with that one.

The cache has room for one block under each hash. A second block that waits for the same
hash only renews the arrival time of the first and is dropped, so of a send and the open
block that both wait for one missing send, one is lost.
-/
namespace PaperNode.GapCache
open BoundedRecursion LinkedNodes TransitionRuns Blocks BlockStore LedgerQueries LedgerProcess
open BlockLattice ProcessSteps ChainInvariant IndexInvariant LedgerRuns VoteWeight ProcessReturns
open SuccessorLinks PartialLedger
open RollbackFuture hiding returns

/-- `gap_information` without the votes. -/
structure GapInformation where
  required : BlockHash
  hash : BlockHash
  block : Block
  deriving DecidableEq, Repr

/-- The entries of `gap_cache::blocks` in the order of their arrival times. -/
abbrev Cache := List GapInformation

/-- `gap_cache::max`. -/
def gapCacheMax : ℕ := 128

def waitsFor (needed : BlockHash) (g : GapInformation) : Bool := decide (g.required = needed)

/-- `gap_cache::add`. -/
def add (E : Env) (blocks : Cache) (b : Block) (needed : BlockHash) : Cache :=
  match blocks.find? (waitsFor needed) with
  | some existing => blocks.eraseP (waitsFor needed) ++ [existing]
  | none =>
      -- the index on hashes refuses a block that is there under another required hash
      let blocks :=
        if blocks.any (fun g => decide (g.hash = E.hash b)) then blocks
        else blocks ++ [⟨needed, E.hash b, b⟩]
      if gapCacheMax < blocks.length then blocks.tail else blocks

/-- `gap_cache::get`. -/
def get (blocks : Cache) (h : BlockHash) : Option Block × Cache :=
  match blocks.find? (waitsFor h) with
  | some existing => (some existing.block, blocks.eraseP (waitsFor h))
  | none => (none, blocks)

section Cache
variable {E : Env} {blocks : Cache} {b : Block} {g : GapInformation} {h needed : BlockHash}

theorem perm_of_find (hg : blocks.find? (waitsFor needed) = some g) :
    blocks.Perm (g :: blocks.eraseP (waitsFor needed)) := by
  obtain ⟨hw, l, r, rfl, hl⟩ := List.find?_eq_some_iff_append.mp hg
  have hl : ∀ a ∈ l, ¬ waitsFor needed a = true := by simpa using hl
  rw [List.eraseP_append_right _ hl, List.eraseP_cons_of_pos hw]
  exact List.perm_middle

theorem not_find_iff : blocks.find? (waitsFor needed) = none ↔
    ∀ g ∈ blocks, g.required ≠ needed := by
  simp [List.find?_eq_none, waitsFor]

theorem add_refused (hg : g ∈ blocks) (hr : g.required = needed) :
    (add E blocks b needed).Perm blocks := by
  have hsome : blocks.find? (waitsFor needed) ≠ none :=
    fun hn => not_find_iff.mp hn g hg hr
  obtain ⟨x, hx⟩ := Option.ne_none_iff_exists'.mp hsome
  rw [add, hx]
  exact (List.perm_append_singleton _ _).trans (perm_of_find hx).symm

theorem add_filed (hr : ∀ g ∈ blocks, g.required ≠ needed) (hh : ∀ g ∈ blocks, g.hash ≠ E.hash b)
    (hlength : blocks.length < gapCacheMax) :
    add E blocks b needed = blocks ++ [⟨needed, E.hash b, b⟩] := by
  have hany : ¬ blocks.any (fun g => decide (g.hash = E.hash b)) = true := by simpa using hh
  rw [add, not_find_iff.mpr hr]
  simp only [if_neg hany, List.length_append, List.length_singleton]
  rw [if_neg (by omega)]

/-- What `get` hands out, it takes out. -/
theorem get_cases (blocks : Cache) (h : BlockHash) :
    (get blocks h = (none, blocks) ∧ ∀ g ∈ blocks, g.required ≠ h) ∨
      ∃ g, g.required = h ∧ (get blocks h).1 = some g.block ∧
        blocks.Perm (g :: (get blocks h).2) := by
  cases hg : blocks.find? (waitsFor h) with
  | none => exact Or.inl ⟨by rw [get, hg], not_find_iff.mp hg⟩
  | some g =>
      have hw := List.find?_some hg
      refine Or.inr ⟨g, by simpa [waitsFor] using hw, by rw [get, hg], ?_⟩
      rw [get, hg]
      exact perm_of_find hg

end Cache

structure Node where
  store : Store
  gapCache : Cache

/-- The assertions of `ledger.process`, and those of `ledger.successor`. -/
inductive ReceiveAssertion where
  | ledger (site : Assertion)
  | successor (site : SuccessorAssertion)
  deriving DecidableEq, Repr

/-- `node::process_receive`. The observers and the election that a fork starts do not change the
ledger or the cache. -/
def processReceive (E : Env) (fuel : ℕ) (node : Node) (b : Block) :
    Check ReceiveAssertion (ProcessReturn × Node) := do
  let (result, store) ← relabel .ledger (process E fuel node.store b)
  match result.code with
  | .gapPrevious => return (result, ⟨store, add E node.gapCache b b.previous⟩)
  | .gapSource => return (result, ⟨store, add E node.gapCache b b.source⟩)
  | .fork => do
      let _ ← relabel .successor (successor store fuel b.root)
      return (result, ⟨store, node.gapCache⟩)
  | _ => return (result, ⟨store, node.gapCache⟩)

/-- One turn of the loop of `node::process_receive_republish`: the block for the next turn, if
there is one. -/
def turn (E : Env) (fuel : ℕ) (node : Node) (b : Block) :
    Check ReceiveAssertion (Option Block × Node) := do
  let (_, node) ← processReceive E fuel node b
  let (block, gapCache) := get node.gapCache (E.hash b)
  return (block, { node with gapCache := gapCache })

/-- `node::process_receive_republish`. -/
def processReceiveRepublish (E : Env) : ℕ → Node → Block → Check ReceiveAssertion Node
  | 0, _, _ => exhaust
  | fuel + 1, node, b => do
      match ← turn E fuel node b with
      | (none, node) => return node
      | (some block, node) => processReceiveRepublish E fuel node block

/-- A block is delivered: `process_receive_republish` returns. -/
def Delivery (E : Env) (node : Node) (b : Block) (node' : Node) : Prop :=
  Settles (fun n => processReceiveRepublish E n node b) node'

/-- The turns of the deliveries of a list of blocks. The first block of the list is in hand. -/
inductive Turn (E : Env) : Node × List Block → Block → Node × List Block → Prop
  | turn {node node' : Node} {b : Block} {next : Option Block} {rest : List Block} :
      Settles (fun n => turn E n node b) (next, node') →
      Turn E (node, b :: rest) b (node', next.toList ++ rest)

/-- While the blocks `bs` are delivered to a node with the ledger `s` and an empty cache, the
block `b` comes to hand, with the blocks `rest` still to be delivered. -/
def Handled (E : Env) (s : Store) (bs : List Block) (node : Node) (b : Block)
    (rest : List Block) : Prop :=
  Reached (· = (⟨s, []⟩, bs)) (Turn E) (node, b :: rest)

/-- No block in the cache waits for the block that `b` misses, and if it misses none its weight
can be moved. -/
structure Kept (E : Env) (node : Node) (b : Block) : Prop where
  unclaimed : ∀ p, missing node.store b = some p → ∀ g ∈ node.gapCache, g.required ≠ p
  movable : Passes E node.store b → Movable E node.store b

variable {E : Env} {s u : Store} {node node' : Node} {b c : Block} {rest bs : List Block}
  {next : Option Block} {n : ℕ} {h p : BlockHash}

section Steady

theorem processReceive_steady (E : Env) (node : Node) (b : Block) :
    Steady (fun n => processReceive E n node b) := by
  intro n r h
  dsimp only [processReceive] at h ⊢
  refine bind_ok_mono (fun x h => ?_) (fun x h => ?_) h
  · rw [relabel_eq_ok] at h ⊢
    exact process_steady E node.store b n x h
  · split at h
    · exact h
    · exact h
    · refine bind_ok_mono (fun x h => ?_) (fun _ h => h) h
      rw [relabel_eq_ok] at h ⊢
      exact successor_steady _ _ n x h
    · exact h

theorem turn_steady (E : Env) (node : Node) (b : Block) : Steady (fun n => turn E n node b) := by
  intro n r h
  exact bind_ok_mono (fun x h => processReceive_steady E node b n x h) (fun _ h => h) h

theorem republish_steady (E : Env) (node : Node) (b : Block) :
    Steady (fun n => processReceiveRepublish E n node b) := by
  intro n
  induction n generalizing node b with
  | zero => exact fun r h => absurd h (exhaust_ne_ok r)
  | succ n ih =>
      intro r h
      dsimp only at h ⊢
      rw [processReceiveRepublish] at h ⊢
      refine bind_ok_mono (fun x h => turn_steady E node b n x h) (fun x h => ?_) h
      obtain ⟨next, node'⟩ := x
      cases next with
      | none => exact h
      | some c => exact ih node' c r h

theorem turn_det (t : Node × List Block) (b : Block) (t' : Node × List Block) (c : Block)
    (t'' : Node × List Block) (h : Turn E t b t') (h' : Turn E t c t'') : t' = t'' := by
  obtain ⟨hb⟩ := h
  obtain ⟨hc⟩ := h'
  cases hb.unique hc
  rfl

theorem run_of_republish (rest : List Block) (h : processReceiveRepublish E n node b = .ok node') :
    ∃ bs, Run (Turn E) (node, b :: rest) bs (node', rest) := by
  induction n generalizing node b with
  | zero => exact absurd h (exhaust_ne_ok _)
  | succ n ih =>
      rw [processReceiveRepublish] at h
      obtain ⟨⟨next, middle⟩, hturn, h⟩ := bind_eq_ok.mp h
      have hstep : Turn E (node, b :: rest) b (middle, next.toList ++ rest) :=
        .turn ((turn_steady E node b).settles hturn)
      cases next with
      | none =>
          cases h
          exact ⟨[b], .snoc .nil hstep⟩
      | some c =>
          obtain ⟨bs, hrun⟩ := ih h
          exact ⟨b :: bs, .cons hstep hrun⟩

theorem run_of_deliveries (h : Run (Delivery E) node bs node') :
    ∃ cs, Run (Turn E) (node, bs) cs (node', []) := by
  induction bs generalizing node with
  | nil =>
      rcases h.cases_head with ⟨_, rfl⟩ | ⟨_, _, _, he, _⟩
      · exact ⟨[], .nil⟩
      · cases he
  | cons b bs ih =>
      rcases h.cases_head with ⟨he, _⟩ | ⟨_, middle, _, he, hb, hrest⟩
      · cases he
      · cases he
        obtain ⟨n, hn⟩ := hb.exists_ok
        obtain ⟨cs, hcs⟩ := run_of_republish bs hn
        obtain ⟨ds, hds⟩ := ih hrest
        exact ⟨cs ++ ds, hcs.append hds⟩

end Steady

def waiting (E : Env) (c : Node × List Block) : List BlockHash :=
  c.2.map E.hash ++ c.1.gapCache.map (fun g => E.hash g.block)

def Held (E : Env) (c : Node × List Block) (h : BlockHash) : Prop :=
  c.1.store.blockGet h ≠ none ∨ h ∈ waiting E c

/-- The ledger holds blocks of `u`, and the other blocks of `u` wait at most once, in the cache
under the hash of a predecessor that is not stored. The block `done`, if there is one, has just
been processed, and the block that waits for it is still in the cache. -/
structure Tracked (E : Env) (s u : Store) (done : Option BlockHash) (c : Node × List Block) :
    Prop where
  part : Part E c.1.store u
  kept : Within s.blockGet c.1.store.blockGet
  queued : ∀ b ∈ c.2, u.blockGet (E.hash b) = some b
  cached : ∀ g ∈ c.1.gapCache, u.blockGet (E.hash g.block) = some g.block
  hashed : ∀ g ∈ c.1.gapCache, g.hash = E.hash g.block
  needed : ∀ g ∈ c.1.gapCache, Needs E g.block g.required
  blocked : ∀ g ∈ c.1.gapCache, done ≠ some g.required → c.1.store.blockGet g.required = none
  keys : (c.1.gapCache.map (·.required)).Nodup
  apart : (waiting E c).Nodup
  fresh : ∀ h ∈ waiting E c, c.1.store.blockGet h = none

section Tracked
variable {done : Option BlockHash} {store store' : Store} {blocks blocks' : Cache}
  {g : GapInformation} {queue : List Block}

theorem waiting_cons : waiting E (⟨store, blocks⟩, b :: queue) =
    E.hash b :: waiting E (⟨store, blocks⟩, queue) := rfl

theorem waiting_perm (E : Env) (store : Store) (queue : List Block) (hp : blocks.Perm blocks') :
    (waiting E (⟨store, blocks⟩, queue)).Perm (waiting E (⟨store, blocks'⟩, queue)) :=
  (hp.map _).append_left _

theorem Tracked.perm (ht : Tracked E s u done (⟨store, blocks⟩, queue))
    (hp : blocks.Perm blocks') : Tracked E s u done (⟨store, blocks'⟩, queue) := by
  have hw := waiting_perm E store queue hp
  exact ⟨ht.part, ht.kept, ht.queued, fun g hg => ht.cached g (hp.mem_iff.mpr hg),
    fun g hg => ht.hashed g (hp.mem_iff.mpr hg), fun g hg => ht.needed g (hp.mem_iff.mpr hg),
    fun g hg => ht.blocked g (hp.mem_iff.mpr hg), (hp.map _).nodup_iff.mp ht.keys,
    hw.nodup_iff.mp ht.apart, fun h hh => ht.fresh h (hw.mem_iff.mpr hh)⟩

theorem Tracked.drop (ht : Tracked E s u done (⟨store, blocks⟩, b :: queue)) :
    Tracked E s u done (⟨store, blocks⟩, queue) := by
  have hapart := ht.apart
  rw [waiting_cons, List.nodup_cons] at hapart
  exact ⟨ht.part, ht.kept, fun c hc => ht.queued c (List.mem_cons_of_mem b hc), ht.cached,
    ht.hashed, ht.needed, ht.blocked, ht.keys, hapart.2,
    fun h hh => ht.fresh h (List.mem_cons_of_mem _ hh)⟩

theorem waiting_file : (waiting E (⟨store, blocks ++ [⟨p, h, b⟩]⟩, queue)).Perm
    (waiting E (⟨store, blocks⟩, b :: queue)) := by
  rw [waiting_cons, waiting, List.map_append, ← List.append_assoc]
  exact List.perm_append_singleton _ _

/-- The block in hand is put into the cache. -/
theorem Tracked.file (ht : Tracked E s u done (⟨store, blocks⟩, b :: queue)) (hp : Needs E b p)
    (hblocked : store.blockGet p = none) (hkey : ∀ g ∈ blocks, g.required ≠ p) :
    Tracked E s u done (⟨store, blocks ++ [⟨p, E.hash b, b⟩]⟩, queue) := by
  have hw : (waiting E (⟨store, blocks ++ [⟨p, E.hash b, b⟩]⟩, queue)).Perm
      (waiting E (⟨store, blocks⟩, b :: queue)) := waiting_file
  have hb := ht.queued b (List.mem_cons_self ..)
  have split : ∀ {g}, g ∈ blocks ++ [⟨p, E.hash b, b⟩] → g ∈ blocks ∨ g = ⟨p, E.hash b, b⟩ := by
    intro g hg
    simpa using hg
  refine ⟨ht.part, ht.kept, fun c hc => ht.queued c (List.mem_cons_of_mem b hc), ?_, ?_, ?_, ?_,
    ?_, hw.nodup_iff.mpr ht.apart, fun h hh => ht.fresh h (hw.mem_iff.mp hh)⟩
  · intro g hg
    rcases split hg with hg | rfl
    · exact ht.cached g hg
    · exact hb
  · intro g hg
    rcases split hg with hg | rfl
    · exact ht.hashed g hg
    · rfl
  · intro g hg
    rcases split hg with hg | rfl
    · exact ht.needed g hg
    · exact hp
  · intro g hg hne
    rcases split hg with hg | rfl
    · exact ht.blocked g hg hne
    · exact hblocked
  · rw [List.map_append, List.nodup_append]
    refine ⟨ht.keys, List.nodup_singleton _, ?_⟩
    intro k hk k' hk'
    obtain ⟨g, hg, rfl⟩ := List.mem_map.mp hk
    rw [List.map_singleton, List.mem_singleton] at hk'
    rw [hk']
    exact hkey g hg

/-- The block in hand is stored. -/
theorem Tracked.stored (ht : Tracked E s u none (⟨store, blocks⟩, b :: queue))
    (hpart : Part E store' u) (hstore : store'.blockGet = withBlock E store b) :
    Tracked E s u (some (E.hash b)) (⟨store', blocks⟩, queue) := by
  have hfresh := ht.fresh (E.hash b) (List.mem_cons_self ..)
  have hwithin : Within store.blockGet store'.blockGet := by
    rw [hstore]
    exact within_insert hfresh
  have hother : ∀ k, k ≠ E.hash b → store'.blockGet k = store.blockGet k := by
    intro k hk
    rw [hstore, withBlock_of_ne hk]
  have hapart := ht.apart
  rw [waiting_cons, List.nodup_cons] at hapart
  refine ⟨hpart, ht.kept.trans hwithin, fun c hc => ht.queued c (List.mem_cons_of_mem b hc),
    ht.cached, ht.hashed, ht.needed, ?_, ht.keys, hapart.2, ?_⟩
  · intro g hg hne
    dsimp only
    rw [hother _ (fun heq => hne (congrArg some heq.symm))]
    exact ht.blocked g hg (nomatch ·)
  · intro h hh
    have hne : h ≠ E.hash b := by
      intro heq
      rw [heq] at hh
      exact hapart.1 hh
    dsimp only
    rw [hother h hne]
    exact ht.fresh h (List.mem_cons_of_mem _ hh)

theorem waiting_take (E : Env) (store : Store) (blocks : Cache) (g : GapInformation)
    (queue : List Block) : (waiting E (⟨store, blocks⟩, g.block :: queue)).Perm
    (waiting E (⟨store, g :: blocks⟩, queue)) :=
  List.perm_middle.symm

theorem Tracked.take (ht : Tracked E s u (some g.required) (⟨store, g :: blocks⟩, queue)) :
    Tracked E s u none (⟨store, blocks⟩, g.block :: queue) := by
  have hw := waiting_take E store blocks g queue
  have hkeys := ht.keys
  rw [List.map_cons, List.nodup_cons] at hkeys
  have hmem : ∀ {x}, x ∈ blocks → x ∈ g :: blocks := fun hx => List.mem_cons_of_mem g hx
  refine ⟨ht.part, ht.kept, ?_, fun x hx => ht.cached x (hmem hx),
    fun x hx => ht.hashed x (hmem hx), fun x hx => ht.needed x (hmem hx), ?_, hkeys.2,
    hw.nodup_iff.mpr ht.apart, fun h hh => ht.fresh h (hw.mem_iff.mp hh)⟩
  · intro c hc
    rcases List.mem_cons.mp hc with rfl | hc
    · exact ht.cached g (List.mem_cons_self ..)
    · exact ht.queued c hc
  · intro x hx _
    refine ht.blocked x (hmem hx) ?_
    intro heq
    rw [Option.some.inj heq] at hkeys
    exact hkeys.1 (List.mem_map_of_mem hx)

/-- After `get` nothing waits for the block just processed. -/
theorem Tracked.fetched (ht : Tracked E s u (some h) (⟨store, blocks⟩, queue)) :
    Tracked E s u none (⟨store, (get blocks h).2⟩, (get blocks h).1.toList ++ queue) ∧
      (waiting E (⟨store, (get blocks h).2⟩, (get blocks h).1.toList ++ queue)).Perm
        (waiting E (⟨store, blocks⟩, queue)) := by
  rcases get_cases blocks h with ⟨hget, hnone⟩ | ⟨g, rfl, hg, hperm⟩
  · rw [hget]
    refine ⟨⟨ht.part, ht.kept, ht.queued, ht.cached, ht.hashed, ht.needed, ?_, ht.keys, ht.apart,
      ht.fresh⟩, .refl _⟩
    intro g hg _
    exact ht.blocked g hg (fun heq => hnone g hg (Option.some.inj heq).symm)
  · rw [hg]
    exact ⟨(ht.perm hperm).take, (waiting_take ..).trans (waiting_perm E store queue hperm.symm)⟩

end Tracked

/-- What `process_receive` does with a block of `u` that is not stored. -/
inductive Received (E : Env) (u : Store) (node : Node) (b : Block) : Node → Prop
  | stored {store : Store} : missing node.store b = none → Part E store u →
      store.blockGet = withBlock E node.store b → Received E u node b ⟨store, node.gapCache⟩
  | filed {p : BlockHash} : missing node.store b = some p →
      (∀ g ∈ node.gapCache, g.required ≠ p) →
      Received E u node b ⟨node.store, node.gapCache ++ [⟨p, E.hash b, b⟩]⟩
  | refused {p : BlockHash} {g : GapInformation} {blocks : Cache} :
      missing node.store b = some p → g ∈ node.gapCache → g.required = p →
      blocks.Perm node.gapCache → Received E u node b ⟨node.store, blocks⟩

section Turns

theorem Tracked.new (ht : Tracked E s u none (node, b :: rest)) :
    u.blockGet (E.hash b) = some b ∧ node.store.blockGet (E.hash b) = none :=
  ⟨ht.queued b (List.mem_cons_self ..), ht.fresh _ (List.mem_cons_self ..)⟩

theorem Tracked.receive_gap (ht : Tracked E s u none (node, b :: rest))
    (hmiss : missing node.store b = some p) : ∃ ret, ∀ n,
      processReceive E n node b = .ok (ret, ⟨node.store, add E node.gapCache b p⟩) := by
  obtain ⟨ret, hret, hcode⟩ := ht.part.gap ht.new.1 ht.new.2 hmiss
  refine ⟨ret, fun n => ?_⟩
  have hprocess : (relabel .ledger (process E n node.store b) :
      Check ReceiveAssertion (ProcessReturn × Store)) = .ok (ret, node.store) :=
    relabel_eq_ok.mpr (hret n)
  rw [processReceive, hprocess, ok_bind]
  rcases hcode with ⟨hcode, rfl⟩ | ⟨hcode, rfl⟩
  · simp only [hcode]
    rfl
  · simp only [hcode]
    rfl

theorem receive_progress {ret : ProcessReturn} {store : Store}
    (h : process E n node.store b = .ok (ret, store)) (hret : ret.code = .progress) :
    processReceive E n node b = .ok (ret, ⟨store, node.gapCache⟩) := by
  have hprocess : (relabel .ledger (process E n node.store b) :
      Check ReceiveAssertion (ProcessReturn × Store)) = .ok (ret, store) :=
    relabel_eq_ok.mpr h
  rw [processReceive, hprocess, ok_bind]
  simp only [hret]
  rfl

/-- With room in the cache, there is nothing else that `process_receive` does. -/
theorem Tracked.received {ret : ProcessReturn} (hE : Proper E)
    (ht : Tracked E s u none (node, b :: rest))
    (hroom : missing node.store b ≠ none → node.gapCache.length < gapCacheMax)
    (h : processReceive E n node b = .ok (ret, node')) : Received E u node b node' := by
  cases hmiss : missing node.store b with
  | none =>
      obtain ⟨⟨ret', store⟩, hprocess, _⟩ := bind_eq_ok.mp h
      have hprocess := relabel_eq_ok.mp hprocess
      have hcode := passes_progress (ht.part.passes ht.new.1 ht.new.2 hE hmiss) hprocess
      cases h.symm.trans (receive_progress hprocess hcode)
      obtain ⟨hpart, hstore⟩ := ht.part.processed ht.new.1 hE hprocess hcode
      exact .stored hmiss hpart hstore
  | some p =>
      obtain ⟨ret', hadd⟩ := ht.receive_gap hmiss
      cases h.symm.trans (hadd n)
      by_cases hclaim : ∃ g ∈ node.gapCache, g.required = p
      · obtain ⟨g, hg, hr⟩ := hclaim
        exact .refused hmiss hg hr (add_refused hg hr)
      · have hkey : ∀ g ∈ node.gapCache, g.required ≠ p := fun g hg hr => hclaim ⟨g, hg, hr⟩
        have hhash : ∀ g ∈ node.gapCache, g.hash ≠ E.hash b := by
          intro g hg heq
          have hapart := ht.apart
          rw [waiting_cons, List.nodup_cons] at hapart
          refine hapart.1 (List.mem_append_right _ ?_)
          rw [← heq, ht.hashed g hg]
          exact List.mem_map_of_mem hg
        have hlength := hroom (Option.ne_none_iff_exists'.mpr ⟨_, hmiss⟩)
        rw [add_filed hkey hhash hlength]
        exact .filed hmiss hkey

theorem turn_ok (h : turn E n node b = .ok (next, node')) : ∃ ret middle,
    processReceive E n node b = .ok (ret, middle) ∧
      next = (get middle.gapCache (E.hash b)).1 ∧
      node' = ⟨middle.store, (get middle.gapCache (E.hash b)).2⟩ := by
  obtain ⟨⟨ret, middle⟩, hreceive, h⟩ := bind_eq_ok.mp h
  cases h
  exact ⟨ret, middle, hreceive, rfl, rfl⟩

theorem Tracked.received_tracked (ht : Tracked E s u none (node, b :: rest))
    (hr : Received E u node b node') : Tracked E s u (some (E.hash b)) (node', rest) := by
  have weaken : ∀ {c}, Tracked E s u none c → Tracked E s u (some (E.hash b)) c :=
    fun ht => ⟨ht.part, ht.kept, ht.queued, ht.cached, ht.hashed, ht.needed,
      fun g hg _ => ht.blocked g hg (nomatch ·), ht.keys, ht.apart, ht.fresh⟩
  cases hr with
  | stored hmiss hpart hstore => exact ht.stored hpart hstore
  | filed hmiss hkey =>
      obtain ⟨hneeds, hnone⟩ := missing_some (ht.part.ne_genesis ht.new.2) hmiss
      exact weaken (ht.file hneeds hnone hkey)
  | refused hmiss hg hkey hperm => exact weaken (ht.drop.perm hperm.symm)

/-- A turn keeps track of every block, and goes on with one that needs the block in hand. -/
theorem Tracked.turn (hE : Proper E) (ht : Tracked E s u none (node, b :: rest))
    (hroom : missing node.store b ≠ none → node.gapCache.length < gapCacheMax)
    (h : turn E n node b = .ok (next, node')) :
    ∃ middle, Received E u node b middle ∧ middle.store = node'.store ∧
      Tracked E s u none (node', next.toList ++ rest) ∧
      (waiting E (node', next.toList ++ rest)).Perm (waiting E (middle, rest)) ∧
      ∀ c ∈ next, Needs E c (E.hash b) := by
  obtain ⟨ret, middle, hreceive, rfl, rfl⟩ := turn_ok h
  have hr := ht.received hE hroom hreceive
  have hmiddle := ht.received_tracked hr
  obtain ⟨htracked, hwaiting⟩ := hmiddle.fetched
  refine ⟨middle, hr, rfl, htracked, hwaiting, ?_⟩
  intro c hc
  rcases get_cases middle.gapCache (E.hash b) with ⟨hnone, _⟩ | ⟨g, hg, hsome, hperm⟩
  · rw [hnone] at hc
    cases hc
  · rw [hsome] at hc
    cases hc
    rw [← hg]
    exact hmiddle.needed g (hperm.mem_iff.mpr (List.mem_cons_self ..))

theorem Tracked.exists_turn (hE : Proper E) (ht : Tracked E s u none (node, b :: rest))
    (hm : Passes E node.store b → Movable E node.store b) :
    ∃ next node', Settles (fun n => GapCache.turn E n node b) (next, node') := by
  have hreceive : ∃ r, Settles (fun n => processReceive E n node b) r := by
    cases hmiss : missing node.store b with
    | none =>
        obtain ⟨ret, store, hset, hcode⟩ := ht.part.progress ht.new.1 ht.new.2 hE hmiss hm
        refine ⟨(ret, ⟨store, node.gapCache⟩), ?_⟩
        filter_upwards [hset] with n hn
        exact receive_progress hn hcode
    | some p =>
        obtain ⟨ret, hadd⟩ := ht.receive_gap hmiss
        exact ⟨_, Settles.of_forall hadd⟩
  obtain ⟨⟨ret, middle⟩, hset⟩ := hreceive
  exact ⟨_, _, hset.bind (Settles.of_forall (fun _ => rfl))⟩

/-- Unless the cache refuses it, the block is stored or waits. -/
theorem Received.held (hr : Received E u node b node')
    (hnew : node.store.blockGet (E.hash b) = none)
    (hkey : ∀ p, missing node.store b = some p → ∀ g ∈ node.gapCache, g.required ≠ p)
    (hh : Held E (node, b :: rest) h) : Held E (node', rest) h := by
  cases hr with
  | stored hmiss hpart hstore =>
      have hwithin : Within node.store.blockGet (withBlock E node.store b) := within_insert hnew
      rcases hh with hh | hh
      · obtain ⟨c, hc⟩ := Option.ne_none_iff_exists'.mp hh
        refine Or.inl ?_
        dsimp only
        rw [hstore, hwithin h c hc]
        exact (nomatch ·)
      · rcases List.mem_cons.mp hh with rfl | hh
        · refine Or.inl ?_
          dsimp only
          rw [hstore, withBlock_self]
          exact (nomatch ·)
        · exact Or.inr hh
  | filed hmiss _ =>
      rcases hh with hh | hh
      · exact Or.inl hh
      · exact Or.inr (waiting_file.mem_iff.mpr hh)
  | refused hmiss hg heq _ => exact absurd heq (hkey _ hmiss _ hg)

theorem Received.not_held (hr : Received E u node b node') (hh : ¬ Held E (node, b :: rest) h) :
    ¬ Held E (node', rest) h := by
  obtain ⟨hstore, hwaiting⟩ := not_or.mp hh
  rw [waiting_cons, List.mem_cons, not_or] at hwaiting
  refine not_or.mpr ?_
  cases hr with
  | stored _ _ hput =>
      dsimp only
      rw [hput, withBlock_of_ne hwaiting.1]
      exact ⟨hstore, hwaiting.2⟩
  | filed =>
      refine ⟨hstore, fun hmem => ?_⟩
      rcases List.mem_cons.mp (waiting_file.mem_iff.mp hmem) with heq | hmem
      · exact hwaiting.1 heq
      · exact hwaiting.2 hmem
  | refused _ _ _ hp =>
      exact ⟨hstore, fun hmem => hwaiting.2 ((waiting_perm E _ _ hp).mem_iff.mp hmem)⟩

theorem Received.lost {g : GapInformation} (ht : Tracked E s u none (node, b :: rest))
    (hr : Received E u node b node') (hmiss : missing node.store b = some p)
    (hg : g ∈ node.gapCache) (hkey : g.required = p) : ¬ Held E (node', rest) (E.hash b) := by
  have hapart := ht.apart
  rw [waiting_cons, List.nodup_cons] at hapart
  refine not_or.mpr ?_
  cases hr with
  | stored hnone => cases hnone.symm.trans hmiss
  | filed hmiss' hall =>
      cases hmiss.symm.trans hmiss'
      exact absurd hkey (hall g hg)
  | refused _ _ _ hp =>
      exact ⟨not_not.mpr ht.new.2,
        fun hmem => hapart.1 ((waiting_perm E _ _ hp).mem_iff.mp hmem)⟩

theorem held_congr {c c' : Node × List Block} (hstore : c.1.store = c'.1.store)
    (hw : (waiting E c).Perm (waiting E c')) : Held E c h ↔ Held E c' h := by
  unfold Held
  rw [hstore, hw.mem_iff]

end Turns

end PaperNode.GapCache
