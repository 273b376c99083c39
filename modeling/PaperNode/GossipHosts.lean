import PaperNode.Gossip

/-!
# Nodes in a network without conflicts

All blocks that enter the network fit into one ledger `u`. Then every ledger is a part of `u`, a
block that is processed is stored, or is stored already, or misses one that it needs, and all blocks
in hand, in a gap cache or in flight are blocks of `u`.
-/
namespace PaperNode.GossipHosts
open BoundedRecursion LinkedNodes TransitionRuns Blocks BlockStore LedgerQueries LedgerProcess
open BlockLattice IndexInvariant LedgerRuns ProcessSteps ProcessReturns RollbackFuture
open PartialLedger MessageParser Peers ProofOfWork Gossip
open PeerExchange (PeerEvent)

/-- A block of `u` with good work. -/
def InPlay (N : GossipEnv) (u : Store) (b : Block) : Prop :=
  u.blockGet (N.ledger.hash b) = some b ∧ workValidateBlock N.work b = false

/-- Where a thread may stand, with this ledger. -/
def Fair (N : GossipEnv) (u store : Store) : Hand → Prop
  | .received b => InPlay N u b
  | .missing b needed => InPlay N u b ∧ Needs N.ledger b needed
  | .accepted b => InPlay N u b ∧ store.blockGet (N.ledger.hash b) ≠ none
  | .fetching _ => True
  | .asked b _ => InPlay N u b

/-- The node was started with the blocks of `s₀`. -/
structure Orderly (N : GossipEnv) (u s₀ : Store) (n : Endpoint) (host : Host) : Prop where
  self : host.peers.self = n
  reached : Reached (LedgerRuns.Initial (N.node n)) (Processed (N.node n)) host.store
  within : Within host.store.blockGet u.blockGet
  started : Within s₀.blockGet host.store.blockGet
  hands : ∀ x ∈ host.hands, Fair N u host.store x
  cached : ∀ g ∈ host.gapCache,
    g.hash = N.ledger.hash g.block ∧ InPlay N u g.block ∧ Needs N.ledger g.block g.required

/-- A message about a block of `u`. -/
structure Tells (N : GossipEnv) (u : Store) (m : Message) (b : Block) : Prop where
  about : about m = some b
  wellFormed : m.WellFormed
  known : u.blockGet (N.ledger.hash b) = some b

structure Sound (N : GossipEnv) (u s₀ : Store) (σ : Network) : Prop where
  orderly : ∀ n, Orderly N u s₀ n (σ.hosts n)
  flying : ∀ p ∈ σ.flight, ∃ b, Tells N u p.message b

/-- All nodes start with the same blocks and have nothing to do. What they note of their peers is
that they have one of these. -/
structure Initial (N : GossipEnv) (s₀ : Store) (σ : Network) : Prop where
  flight : σ.flight = []
  self : ∀ n, (σ.hosts n).peers.self = n
  reached : ∀ n, Reached (LedgerRuns.Initial (N.node n)) (Processed (N.node n)) (σ.hosts n).store
  blocks : ∀ n, (σ.hosts n).store.blockGet = s₀.blockGet
  gapCache : ∀ n, (σ.hosts n).gapCache = []
  hands : ∀ n, (σ.hosts n).hands = []
  noted : ∀ n, ∀ q ∈ (σ.hosts n).peers.peers, q.mostRecent ≠ 0 → s₀.blockGet q.mostRecent ≠ none

/-- Blocks that enter have good work, and all blocks are of `u`. -/
def Fitting (N : GossipEnv) (u : Store) : Event → Prop
  | .enter _ b => InPlay N u b
  | .request _ b | .announce _ b => u.blockGet (N.ledger.hash b) = some b
  | _ => True

variable {N : GossipEnv} {u s₀ : Store} {σ τ : Network} {n : Endpoint} {host : Host} {b : Block}
  {h : BlockHash} {p : Packet} {sent : List Packet}

section Local
variable {E : Env} {s s' : Store} {fuel : ℕ} {ret : ProcessReturn} {x old : Hand} {new : List Hand}

/-- A block of `u` is stored already, misses a block, or is stored. -/
theorem process_cases (hE : Proper E) (hs : Part E s u) (hb : u.blockGet (E.hash b) = some b)
    (h : process E fuel s b = .ok (ret, s')) :
    (ret.code = .old ∧ s' = s ∧ s.blockGet (E.hash b) ≠ none) ∨
      (∃ needed, Hand.after E b ret.code = .missing b needed ∧ s' = s ∧ Needs E b needed) ∨
      (ret.code = .progress ∧ s'.blockGet = withBlock E s b ∧ s.blockGet (E.hash b) = none) := by
  by_cases hnew : s.blockGet (E.hash b) = none
  · cases hmiss : missing s b with
    | none =>
        have hcode := passes_progress (hs.passes hb hnew hE hmiss) h
        exact Or.inr (Or.inr ⟨hcode, (hs.processed hb hE h hcode).2, hnew⟩)
    | some needed =>
        obtain ⟨ret', hgap, hcode⟩ := hs.gap hb hnew hmiss
        cases h.symm.trans (hgap fuel)
        have hneeds := (missing_some (hs.ne_genesis hnew) hmiss).1
        refine Or.inr (Or.inl ⟨needed, ?_, rfl, hneeds⟩)
        rcases hcode with ⟨hcode, rfl⟩ | ⟨hcode, rfl⟩
        · rw [hcode, Hand.after]
        · rw [hcode, Hand.after]
  · have hold : process E fuel s b = reject s .old := by
      apply process_old
      rw [Store.blockExists_eq]
      exact Option.isSome_iff_ne_none.mpr hnew
    cases h.symm.trans hold
    exact Or.inl ⟨rfl, rfl, hnew⟩

theorem mem_turn_of_ne (hx : x ∈ host.hands) (hne : x ≠ old) : x ∈ host.turn old new :=
  List.mem_append_right _ ((List.mem_erase_of_ne hne).mpr hx)

theorem mem_of_mem_turn (hx : x ∈ host.turn old new) : x ∈ new ∨ x ∈ host.hands := by
  rcases List.mem_append.mp hx with hx | hx
  · exact Or.inl hx
  · exact Or.inr (List.mem_of_mem_erase hx)

theorem Fair.mono {store store' : Store} (hx : Fair N u store x)
    (hstore : Within store.blockGet store'.blockGet) : Fair N u store' x := by
  cases x with
  | received b | missing b needed | fetching h | asked b sender => exact hx
  | accepted b =>
      obtain ⟨c, hc⟩ := Option.ne_none_iff_exists'.mp hx.2
      refine ⟨hx.1, ?_⟩
      rw [hstore _ c hc]
      simp

theorem fair_turn {store : Store} (hhands : ∀ x ∈ host.hands, Fair N u store x)
    (hnew : ∀ x ∈ new, Fair N u store x) : ∀ x ∈ host.turn old new, Fair N u store x := by
  intro x hx
  rcases mem_of_mem_turn hx with hx | hx
  · exact hnew x hx
  · exact hhands x hx

theorem mem_requests {m : Message} {sender : Endpoint} (hm : about m = some b)
    (hx : x ∈ requests sender m) : x = .asked b sender := by
  cases m with
  | confirmReq header c =>
      cases hm
      exact List.mem_singleton.mp hx
  | _ => cases hx

/-- Only a node that has stored the block answers, and it answers with votes. -/
theorem sent_confirmReq {sender : Endpoint} (hsent : host.confirmReq N b sender = .ok sent)
    (hp : p ∈ sent) : host.store.blockGet (N.ledger.hash b) ≠ none ∧
      ∃ prv pub, p = confirmBlock N.toSpendEnv host.peers prv pub b 0 sender := by
  unfold Host.confirmReq at hsent
  split_ifs at hsent with hstored
  · obtain ⟨representatives, _, hsent⟩ := bind_eq_ok.mp hsent
    cases hsent
    obtain ⟨⟨pub, prv⟩, _, rfl⟩ := List.mem_map.mp hp
    rw [Store.blockExists_eq] at hstored
    exact ⟨Option.isSome_iff_ne_none.mp hstored, prv, pub, rfl⟩
  · cases hsent
    cases hp

theorem carries_confirmReq {sender : Endpoint} (hsent : host.confirmReq N b sender = .ok sent)
    (hp : p ∈ sent) : Carries host.peers b p := by
  obtain ⟨_, prv, pub, rfl⟩ := sent_confirmReq hsent hp
  exact carries_confirmBlock prv pub

theorem get_block {gapCache gapCache' : GapCache.Cache} {block : Option Block}
    (hgot : GapCache.get gapCache h = (block, gapCache')) :
    (block = none ∧ gapCache' = gapCache) ∨
      ∃ g, g.required = h ∧ block = some g.block ∧ gapCache.Perm (g :: gapCache') := by
  rcases GapCache.get_cases gapCache h with ⟨hnone, _⟩ | ⟨g, hg, hsome, hperm⟩
  · rw [hgot] at hnone
    cases hnone
    exact Or.inl ⟨rfl, rfl⟩
  · rw [hgot] at hsome hperm
    exact Or.inr ⟨g, hg, hsome, hperm⟩

end Local

namespace Orderly
variable (hhost : Orderly N u s₀ n host)
include hhost

theorem part (hE : Proper N.ledger) (hu : Healthy N.ledger u) : Part (N.node n) host.store u :=
  ⟨reachable_healthy (hE.configured (N.clock n) N.ledger.weightAssert)
      (reached_reachable hhost.reached),
    hu.configured (N.clock n) N.ledger.weightAssert, hhost.within⟩

theorem takes {new : List Hand} (hnew : ∀ x ∈ new, Fair N u host.store x) :
    Orderly N u s₀ n { host with hands := new ++ host.hands } := by
  refine ⟨hhost.self, hhost.reached, hhost.within, hhost.started, ?_, hhost.cached⟩
  intro x hx
  rcases List.mem_append.mp hx with hx | hx
  · exact hnew x hx
  · exact hhost.hands x hx

theorem notes (a : PeerEvent) : Orderly N u s₀ n { host with peers := a.apply host.peers } :=
  ⟨(PeerExchange.self_apply _ a).trans hhost.self, hhost.reached, hhost.within, hhost.started,
    hhost.hands, hhost.cached⟩

/-- A block is processed: the ledger has grown, and where the thread stands is fair. -/
theorem processed {fuel : ℕ} {ret : ProcessReturn} {store : Store} (hE : Proper N.ledger)
    (hu : Healthy N.ledger u) (hb : InPlay N u b)
    (hreturns : process (N.node n) fuel host.store b = .ok (ret, store)) :
    Within host.store.blockGet store.blockGet ∧ Within store.blockGet u.blockGet ∧
      Fair N u store (.after N.ledger b ret.code) := by
  have hpart := hhost.part hE hu
  have hE' : Proper (N.node n) := hE.configured (N.clock n) N.ledger.weightAssert
  rcases process_cases hE' hpart hb.1 hreturns with
    ⟨hcode, rfl, _⟩ | ⟨needed, hafter, rfl, hneeds⟩ | ⟨hcode, hstore, hnew⟩
  · rw [hcode]
    exact ⟨fun _ _ hh => hh, hpart.within, trivial⟩
  · refine ⟨fun _ _ hh => hh, hpart.within, ?_⟩
    rw [show Hand.after N.ledger b ret.code = _ from hafter]
    exact ⟨hb, hneeds⟩
  · refine ⟨hstore ▸ within_insert hnew, (hpart.processed hb.1 hE' hreturns hcode).1.within, ?_⟩
    rw [hcode]
    refine ⟨hb, ?_⟩
    rw [hstore]
    intro hnone
    cases (withBlock_self (N.node n) host.store b).symm.trans hnone

theorem processes {fuel : ℕ} {ret : ProcessReturn} {store : Store} (hE : Proper N.ledger)
    (hu : Healthy N.ledger u) (hb : InPlay N u b)
    (hreturns : process (N.node n) fuel host.store b = .ok (ret, store)) :
    Orderly N u s₀ n { host with
      store := store
      hands := host.turn (.received b) [.after N.ledger b ret.code] } := by
  obtain ⟨hgrown, hwithin, hfair⟩ := hhost.processed hE hu hb hreturns
  refine ⟨hhost.self, hhost.reached.next ⟨fuel, ret, hreturns⟩, hwithin,
    hhost.started.trans hgrown, ?_, hhost.cached⟩
  refine fair_turn (fun x hx => (hhost.hands x hx).mono hgrown) ?_
  intro x hx
  obtain rfl := List.mem_singleton.mp hx
  exact hfair

theorem files {needed : BlockHash} (hb : .missing b needed ∈ host.hands) :
    Orderly N u s₀ n { host with
      gapCache := GapCache.add N.ledger host.gapCache b needed
      hands := host.turn (.missing b needed) [.fetching (N.ledger.hash b)] } := by
  refine ⟨hhost.self, hhost.reached, hhost.within, hhost.started,
    fair_turn hhost.hands (by simp [Fair]), ?_⟩
  intro g hg
  rcases List.mem_append.mp ((RepublishLoop.add_subperm ..).subset hg) with hg | hg
  · exact hhost.cached g hg
  · obtain rfl := List.mem_singleton.mp hg
    obtain ⟨hplay, hneeds⟩ := hhost.hands _ hb
    exact ⟨rfl, hplay, hneeds⟩

theorem republishes :
    Orderly N u s₀ n { host with
      hands := host.turn (.accepted b) [.fetching (N.ledger.hash b)] } :=
  ⟨hhost.self, hhost.reached, hhost.within, hhost.started,
    fair_turn hhost.hands (by simp [Fair]), hhost.cached⟩

theorem answers {sender : Endpoint} :
    Orderly N u s₀ n { host with hands := host.turn (.asked b sender) [] } :=
  ⟨hhost.self, hhost.reached, hhost.within, hhost.started, fair_turn hhost.hands (by simp),
    hhost.cached⟩

theorem fetches {block : Option Block} {gapCache : GapCache.Cache}
    (hgot : GapCache.get host.gapCache h = (block, gapCache)) :
    Orderly N u s₀ n { host with
      gapCache := gapCache
      hands := host.turn (.fetching h) (block.toList.map .received) } := by
  rcases get_block hgot with ⟨rfl, rfl⟩ | ⟨g, _, rfl, hperm⟩
  · exact ⟨hhost.self, hhost.reached, hhost.within, hhost.started,
      fair_turn hhost.hands (by simp), hhost.cached⟩
  · have hg := hhost.cached g (hperm.mem_iff.mpr (List.mem_cons_self ..))
    exact ⟨hhost.self, hhost.reached, hhost.within, hhost.started,
      fair_turn hhost.hands (by simpa [Fair] using hg.2.1),
      fun g' hg' => hhost.cached g' (hperm.mem_iff.mpr (List.mem_cons_of_mem _ hg'))⟩

theorem visits {m : Message} {now now' : Time} {sender : Endpoint} (hm : about m = some b)
    (hb : InPlay N u b) : Orderly N u s₀ n (host.visit N.ledger now now' sender m) := by
  unfold Host.visit
  rw [hm]
  refine ((hhost.takes ?_).notes (.insert now sender 0)).notes
    (.insert now' sender (N.ledger.hash b))
  intro x hx
  rcases List.mem_cons.mp hx with rfl | hx
  · exact hb
  · rw [mem_requests hm hx]
    exact hb

end Orderly

theorem Sound.set {σ : Network} {flight : List Packet} (hσ : Sound N u s₀ σ)
    (hhost : Orderly N u s₀ n host) (hflight : ∀ p ∈ flight, ∃ b, Tells N u p.message b) :
    Sound N u s₀ ⟨Function.update σ.hosts n host, flight⟩ := by
  refine ⟨fun k => ?_, hflight⟩
  dsimp only
  by_cases hk : k = n
  · subst hk
    rw [Function.update_self]
    exact hhost
  · rw [Function.update_of_ne hk]
    exact hσ.orderly k

theorem Initial.sound (hσ : Initial N s₀ σ) (hs₀ : Within s₀.blockGet u.blockGet) :
    Sound N u s₀ σ := by
  constructor
  · intro n
    refine ⟨hσ.self n, hσ.reached n, hσ.blocks n ▸ hs₀, ?_, ?_, ?_⟩
    · rw [hσ.blocks n]
      exact fun _ _ hh => hh
    · simp [hσ.hands n]
    · simp [hσ.gapCache n]
  · simp [hσ.flight]

/-- The packets of a node about a block of `u`. -/
theorem tells_of_carries {c : PeerContainer} (hcarries : ∀ p ∈ sent, Carries c b p)
    (hb : u.blockGet (N.ledger.hash b) = some b) : ∀ p ∈ sent, ∃ b, Tells N u p.message b := by
  intro p hp
  have hp := hcarries p hp
  exact ⟨b, hp.about, hp.wellFormed, hb⟩

section Step
variable (hσ : Sound N u s₀ σ)
include hσ

theorem Sound.flight_append (hsent : ∀ p ∈ sent, ∃ b, Tells N u p.message b) :
    ∀ p ∈ sent ++ σ.flight, ∃ b, Tells N u p.message b := by
  intro p hp
  rcases List.mem_append.mp hp with hp | hp
  · exact hsent p hp
  · exact hσ.flying p hp

theorem Sound.delivers {stack : ℕ → Endpoint} {counts counts' : NetworkCounts}
    {visited : List Message} {now now' : Time} (hp : p ∈ σ.flight)
    (hparsed : receiveAction N.work stack p.destination false true p.source
      (p.message.serialize N.work) counts = .ok (counts', visited)) :
    Sound N u s₀ (Network.set { σ with flight := σ.flight.erase p } p.destination
      (visited.foldl (Host.visit N.ledger now now' p.source) (σ.hosts p.destination)) []) := by
  have hflight : ∀ q ∈ [] ++ σ.flight.erase p, ∃ b, Tells N u q.message b :=
    fun q hq => hσ.flying q (List.mem_of_mem_erase hq)
  have hhost := hσ.orderly p.destination
  obtain ⟨b, hb⟩ := hσ.flying p hp
  rcases (visited_about hb.wellFormed hb.about hparsed).1 with rfl | ⟨rfl, hwork⟩
  · exact hσ.set hhost hflight
  · exact hσ.set (hhost.visits hb.about ⟨hb.known, hwork⟩) hflight

theorem Sound.step {e : Event} (hE : Proper N.ledger) (hu : Healthy N.ledger u)
    (hfitting : Fitting N u e) (hstep : Step N σ e τ) : Sound N u s₀ τ := by
  have hnothing : ∀ p ∈ [] ++ σ.flight, ∃ b, Tells N u p.message b := hσ.flying
  cases hstep with
  | @enter n b =>
      have hnew : ∀ x ∈ [Hand.received b], Fair N u (σ.hosts n).store x := by
        intro x hx
        obtain rfl := List.mem_singleton.mp hx
        exact hfitting
      exact hσ.set ((hσ.orderly _).takes hnew) hnothing
  | deliver hp hparsed => exact hσ.delivers hp hparsed
  | @resend p hp =>
      refine ⟨hσ.orderly, ?_⟩
      intro q hq
      rcases List.mem_cons.mp hq with rfl | hq
      · exact hσ.flying q hp
      · exact hσ.flying q hq
  | process hb hreturns =>
      exact hσ.set ((hσ.orderly _).processes hE hu ((hσ.orderly _).hands _ hb) hreturns) hnothing
  | file hb => exact hσ.set ((hσ.orderly _).files hb) hnothing
  | republish hb _ =>
      exact hσ.set (hσ.orderly _).republishes (hσ.flight_append (tells_of_carries
        (fun p hp => carries_republishBlock hp) ((hσ.orderly _).hands _ hb).1.1))
  | fetch _ hgot => exact hσ.set ((hσ.orderly _).fetches hgot) hnothing
  | answer hb hanswered =>
      exact hσ.set (hσ.orderly _).answers (hσ.flight_append (tells_of_carries
        (fun p hp => carries_confirmReq hanswered hp) ((hσ.orderly _).hands _ hb).1))
  | request =>
      exact hσ.set (hσ.orderly _) (hσ.flight_append (tells_of_carries
        (fun p hp => carries_broadcastConfirmReq hp) hfitting))
  | announce _ =>
      exact hσ.set (hσ.orderly _) (hσ.flight_append (tells_of_carries
        (fun p hp => carries_confirmBroadcast hp) hfitting))
  | peers => exact hσ.set ((hσ.orderly _).notes _) hnothing
  | @wallets n ws =>
      have hhost := hσ.orderly n
      exact hσ.set ⟨hhost.self, hhost.reached, hhost.within, hhost.started, hhost.hands,
        hhost.cached⟩ hnothing

end Step

end PaperNode.GossipHosts
