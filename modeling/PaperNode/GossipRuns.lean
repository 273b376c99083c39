import PaperNode.BlockSetLedger
import PaperNode.GossipHosts
import PaperNode.WorkPool

/-!
# The network comes to agree

A block that a node has taken in and not yet stored is in the hands of one of its threads or in its
gap cache. A node that stores a block owes it to its peers: it is about to publish it, or it is on
its way to the peer, or the peer has it already. That a peer sent the block itself is proof enough
of the last, so nothing is lost by leaving out the peers that `knows_about` names.

Once nothing is in flight, in hand or in a cache, neighbours have the same blocks, and hence the
same ledger.
-/
namespace PaperNode.GossipRuns
open BoundedRecursion LinkedNodes TransitionRuns Blocks BlockStore LedgerQueries LedgerProcess
open IndexInvariant LedgerRuns ProcessSteps ProcessReturns RollbackFuture
open PartialLedger BlockSetLedger MessageParser Peers ProofOfWork Gossip GossipHosts
open GapCache (GapInformation)
open PeerExchange (PeerEvent)

def unsettled : Hand → Option Block
  | .received b | .missing b _ => some b
  | .accepted _ | .fetching _ | .asked _ _ => none

/-- The node has taken in a block with this hash. -/
inductive Held (E : Env) (host : Host) (h : BlockHash) : Prop
  | stored : host.store.blockGet h ≠ none → Held E host h
  | inHand {x : Hand} {b : Block} : x ∈ host.hands → unsettled x = some b → E.hash b = h →
      Held E host h
  | cached {g : GapInformation} : g ∈ host.gapCache → g.hash = h → Held E host h

/-- Blocks that enter are in play. Links stand whenever a block is published, nothing is lost in a
gap cache, and nodes vote on blocks that they have. -/
def Allowed (N : GossipEnv) (u : Store) (Links : Endpoint → Endpoint → Prop) (σ : Network) :
    Event → Prop
  | .enter _ b => InPlay N u b
  | .republish n _ => ∀ k, Links n k → k ∈ endpoints (σ.hosts n).peers.peers
  | .file n b needed =>
      let blocks := GapCache.add N.ledger (σ.hosts n).gapCache b needed
      (∀ g ∈ (σ.hosts n).gapCache, ∃ g' ∈ blocks, g'.hash = g.hash) ∧
        ∃ g' ∈ blocks, g'.hash = N.ledger.hash b
  | .request n b | .announce n b =>
      u.blockGet (N.ledger.hash b) = some b ∧ Held N.ledger (σ.hosts n) (N.ledger.hash b)
  | .peers _ (.insert _ _ hash) => hash = 0
  | _ => True

structure Quiet (σ : Network) : Prop where
  flight : σ.flight = []
  gapCache : ∀ n, (σ.hosts n).gapCache = []
  hands : ∀ n, (σ.hosts n).hands = []

/-- The node `m` owes its peer `n` the block with hash `h`, or the peer has it. -/
inductive Owed (N : GossipEnv) (σ : Network) (m n : Endpoint) (h : BlockHash) : Prop
  | held : Held N.ledger (σ.hosts n) h → Owed N σ m n h
  | accepted {b : Block} : .accepted b ∈ (σ.hosts m).hands → N.ledger.hash b = h → Owed N σ m n h
  | underway {p : Packet} {b : Block} : p ∈ σ.flight → p.source = m → p.destination = n →
      about p.message = some b → N.ledger.hash b = h → workValidateBlock N.work b = false →
      Owed N σ m n h

structure Consistent (N : GossipEnv) (u s₀ : Store) (Links : Endpoint → Endpoint → Prop)
    (σ : Network) : Prop where
  sound : Sound N u s₀ σ
  flying : ∀ p ∈ σ.flight, ∀ b, about p.message = some b →
    Held N.ledger (σ.hosts p.source) (N.ledger.hash b)
  noted : ∀ n, ∀ q ∈ (σ.hosts n).peers.peers, q.mostRecent ≠ 0 →
    Held N.ledger (σ.hosts q.endpoint) q.mostRecent
  owed : ∀ m n, Links m n → ∀ h, (σ.hosts m).store.blockGet h ≠ none → s₀.blockGet h = none →
    Owed N σ m n h

/-- What a step does to one node, and what it sends. -/
structure Advance (N : GossipEnv) (Links : Endpoint → Endpoint → Prop) (σ : Network)
    (n : Endpoint) (host : Host) (sent : List Packet) : Prop where
  held : ∀ h, Held N.ledger (σ.hosts n) h → Held N.ledger host h
  flying : ∀ p ∈ sent, ∀ b, about p.message = some b →
    Held N.ledger (σ.hosts p.source) (N.ledger.hash b)
  noted : ∀ q ∈ host.peers.peers, q.mostRecent ≠ 0 →
    Held N.ledger (σ.hosts q.endpoint) q.mostRecent
  stored : ∀ h, host.store.blockGet h ≠ none → (σ.hosts n).store.blockGet h ≠ none ∨
    ∃ b, .accepted b ∈ host.hands ∧ N.ledger.hash b = h
  owed : ∀ b, .accepted b ∈ (σ.hosts n).hands → .accepted b ∈ host.hands ∨ ∀ k, Links n k →
    Held N.ledger (σ.hosts k) (N.ledger.hash b) ∨
      ∃ p ∈ sent, p.source = n ∧ p.destination = k ∧ about p.message = some b

/-- A packet that is received leaves the block with the node, if it was sent over a link. -/
def Taken (N : GossipEnv) (Links : Endpoint → Endpoint → Prop) (n : Endpoint) (host : Host)
    (p : Packet) : Prop :=
  p.destination = n ∧ ∀ b, about p.message = some b → Links p.source n →
    workValidateBlock N.work b = false → Held N.ledger host (N.ledger.hash b)

/-- A consistent network in which no node has lost what it had taken in. -/
structure Follows (N : GossipEnv) (u s₀ : Store) (Links : Endpoint → Endpoint → Prop)
    (σ τ : Network) : Prop where
  consistent : Consistent N u s₀ Links τ
  held : ∀ k h, Held N.ledger (σ.hosts k) h → Held N.ledger (τ.hosts k) h

variable {N : GossipEnv} {u s₀ : Store} {Links : Endpoint → Endpoint → Prop} {σ τ : Network}
  {m n k : Endpoint} {host : Host} {b : Block} {h : BlockHash} {p : Packet} {sent : List Packet}

theorem Allowed.fitting {e : Event} (he : Allowed N u Links σ e) : Fitting N u e := by
  cases e with
  | enter => exact he
  | request | announce => exact he.1
  | _ => exact trivial

theorem Consistent.advance (hσ : Consistent N u s₀ Links σ) {flight : List Packet}
    (hsound : Sound N u s₀ ⟨Function.update σ.hosts n host, flight⟩)
    (hadvance : Advance N Links σ n host sent)
    (hnew : ∀ p ∈ flight, p ∈ σ.flight ∨ p ∈ sent) (hsent : ∀ p ∈ sent, p ∈ flight)
    (hold : ∀ p ∈ σ.flight, p ∈ flight ∨ Taken N Links n host p) :
    Follows N u s₀ Links σ ⟨Function.update σ.hosts n host, flight⟩ := by
  have hself : Function.update σ.hosts n host n = host := Function.update_self ..
  have hother : ∀ {k}, k ≠ n → Function.update σ.hosts n host k = σ.hosts k :=
    fun hk => Function.update_of_ne hk ..
  have hheld : ∀ {k h}, Held N.ledger (σ.hosts k) h →
      Held N.ledger (Function.update σ.hosts n host k) h := by
    intro k h hh
    by_cases hk : k = n
    · subst hk
      rw [hself]
      exact hadvance.held h hh
    · rwa [hother hk]
  refine ⟨?_, fun k h hh => hheld hh⟩
  constructor
  case sound => exact hsound
  case flying =>
    intro p hp b hb
    rcases hnew p hp with hp | hp
    · exact hheld (hσ.flying p hp b hb)
    · exact hheld (hadvance.flying p hp b hb)
  case noted =>
    intro k q hq hne
    dsimp only at hq
    by_cases hk : k = n
    · subst hk
      rw [hself] at hq
      exact hheld (hadvance.noted q hq hne)
    · rw [hother hk] at hq
      exact hheld (hσ.noted k q hq hne)
  case owed =>
    intro m k hlink h hstored hfresh
    dsimp only at hstored
    -- a packet is still in flight, or the peer has got it
    have hflight : ∀ {p b}, p ∈ σ.flight → p.source = m → p.destination = k →
        about p.message = some b → N.ledger.hash b = h → workValidateBlock N.work b = false →
        Owed N ⟨Function.update σ.hosts n host, flight⟩ m k h := by
      intro p b hp hsource hdest habout hhash hwork
      rcases hold p hp with hp | ⟨hn, htaken⟩
      · exact .underway hp hsource hdest habout hhash hwork
      · refine .held ?_
        dsimp only
        rw [← hdest, hn, hself, ← hhash]
        refine htaken b habout ?_ hwork
        rw [hsource, ← hn, hdest]
        exact hlink
    have howed : (σ.hosts m).store.blockGet h ≠ none →
        Owed N ⟨Function.update σ.hosts n host, flight⟩ m k h := by
      intro hbefore
      cases hσ.owed m k hlink h hbefore hfresh with
      | held hh => exact .held (hheld hh)
      | underway hp hsource hdest habout hhash hwork =>
          exact hflight hp hsource hdest habout hhash hwork
      | @accepted b hb hhash =>
          by_cases hm : m = n
          · subst hm
            rcases hadvance.owed b hb with hb' | hgiven
            · exact .accepted (by dsimp only; rwa [hself]) hhash
            · rcases hgiven k hlink with hh | ⟨p, hp, hsource, hdest, habout⟩
              · exact .held (hheld (hhash ▸ hh))
              · have hwork := ((hσ.sound.orderly m).hands _ hb).1.2
                exact .underway (hsent p hp) hsource hdest habout hhash hwork
          · exact .accepted (by dsimp only; rwa [hother hm]) hhash
    by_cases hm : m = n
    · subst hm
      rw [hself] at hstored
      rcases hadvance.stored h hstored with hbefore | ⟨b, hb, hhash⟩
      · exact howed hbefore
      · exact .accepted (by dsimp only; rwa [hself]) hhash
    · rw [hother hm] at hstored
      exact howed hstored

theorem Consistent.set (hσ : Consistent N u s₀ Links σ)
    (hsound : Sound N u s₀ (σ.set n host sent)) (hadvance : Advance N Links σ n host sent) :
    Follows N u s₀ Links σ (σ.set n host sent) := by
  refine hσ.advance hsound hadvance ?_ ?_ ?_
  · intro p hp
    exact (List.mem_append.mp hp).symm
  · intro p hp
    exact List.mem_append_left _ hp
  · intro p hp
    exact Or.inl (List.mem_append_right _ hp)

theorem Held.mono {E : Env} {host' : Host} (hh : Held E host h)
    (hstore : ∀ h, host.store.blockGet h ≠ none → host'.store.blockGet h ≠ none)
    (hhands : ∀ x ∈ host.hands, x ∈ host'.hands ∨
      ∀ b, unsettled x = some b → Held E host' (E.hash b))
    (hcached : ∀ g ∈ host.gapCache, g ∈ host'.gapCache ∨ Held E host' g.hash) :
    Held E host' h := by
  cases hh with
  | stored hh => exact .stored (hstore h hh)
  | inHand hx hb hhash =>
      rcases hhands _ hx with hx | hx
      · exact .inHand hx hb hhash
      · exact hhash ▸ hx _ hb
  | cached hg hhash =>
      rcases hcached _ hg with hg | hg
      · exact .cached hg hhash
      · exact hhash ▸ hg

theorem Advance.notes (hadvance : Advance N Links σ n host sent) {a : PeerEvent}
    (ha : ∀ now e hash, a = .insert now e hash → hash ≠ 0 → Held N.ledger (σ.hosts e) hash) :
    Advance N Links σ n { host with peers := a.apply host.peers } sent := by
  constructor
  case held =>
    intro h hh
    exact (hadvance.held h hh).mono (fun _ hh => hh) (fun x hx => Or.inl hx)
      (fun g hg => Or.inl hg)
  case flying => exact hadvance.flying
  case noted =>
    intro q hq hne
    rcases recent_apply hq with ⟨q', hq', he, hr⟩ | ⟨now, heq⟩
    · rw [← he, ← hr]
      exact hadvance.noted q' hq' (hr ▸ hne)
    · exact ha now _ _ heq hne
  case stored => exact hadvance.stored
  case owed => exact hadvance.owed

section Steps
variable (hσ : Consistent N u s₀ Links σ)
include hσ

theorem Consistent.stays : Advance N Links σ n (σ.hosts n) [] :=
  ⟨fun _ hh => hh, by simp, hσ.noted n, fun _ hh => Or.inl hh, fun _ hb => Or.inl hb⟩

theorem Consistent.sends (hcarries : ∀ p ∈ sent, Carries (σ.hosts n).peers b p)
    (hheld : Held N.ledger (σ.hosts n) (N.ledger.hash b)) :
    Advance N Links σ n (σ.hosts n) sent := by
  refine ⟨fun _ hh => hh, ?_, hσ.noted n, fun _ hh => Or.inl hh, fun _ hb => Or.inl hb⟩
  intro p hp c hc
  have hcarried := hcarries p hp
  cases hc.symm.trans hcarried.about
  rw [hcarried.source, (hσ.sound.orderly n).self]
  exact hheld

/-- The threads of a node go on, and no block is lost on the way. -/
theorem Consistent.goes {store : Store} {gapCache : GapCache.Cache} {old : Hand} {new : List Hand}
    (hgrown : Within (σ.hosts n).store.blockGet store.blockGet)
    (hold : ∀ b, unsettled old = some b → Held N.ledger { σ.hosts n with
      store := store, gapCache := gapCache, hands := (σ.hosts n).turn old new } (N.ledger.hash b))
    (hcached : ∀ g ∈ (σ.hosts n).gapCache, g ∈ gapCache ∨ Held N.ledger { σ.hosts n with
      store := store, gapCache := gapCache, hands := (σ.hosts n).turn old new } g.hash)
    (hstored : ∀ h, store.blockGet h ≠ none → (σ.hosts n).store.blockGet h ≠ none ∨
      ∃ b, .accepted b ∈ new ∧ N.ledger.hash b = h)
    (hsent : ∀ p ∈ sent, ∀ b, about p.message = some b →
      Held N.ledger (σ.hosts p.source) (N.ledger.hash b))
    (howed : ∀ b, old = .accepted b → ∀ k, Links n k →
      Held N.ledger (σ.hosts k) (N.ledger.hash b) ∨
        ∃ p ∈ sent, p.source = n ∧ p.destination = k ∧ about p.message = some b) :
    Advance N Links σ n { σ.hosts n with
      store := store, gapCache := gapCache, hands := (σ.hosts n).turn old new } sent := by
  constructor
  case held =>
    intro h hh
    refine hh.mono ?_ ?_ hcached
    · intro h hh
      obtain ⟨c, hc⟩ := Option.ne_none_iff_exists'.mp hh
      rw [hgrown h c hc]
      simp
    · intro x hx
      by_cases hxold : x = old
      · exact Or.inr (hxold ▸ hold)
      · exact Or.inl (mem_turn_of_ne hx hxold)
  case flying => exact hsent
  case noted => exact hσ.noted n
  case stored =>
    intro h hh
    rcases hstored h hh with hh | ⟨b, hb, hhash⟩
    · exact Or.inl hh
    · exact Or.inr ⟨b, List.mem_append_left _ hb, hhash⟩
  case owed =>
    intro b hb
    by_cases hbold : old = .accepted b
    · exact Or.inr (howed b hbold)
    · exact Or.inl (mem_turn_of_ne hb (Ne.symm hbold))

theorem Consistent.takes {new : List Hand} : Advance N Links σ n
    { σ.hosts n with hands := new ++ (σ.hosts n).hands } [] := by
  refine ⟨?_, by simp, hσ.noted n, fun h hh => Or.inl hh,
    fun c hc => Or.inl (List.mem_append_right _ hc)⟩
  intro h hh
  exact hh.mono (fun _ hh => hh) (fun x hx => Or.inl (List.mem_append_right _ hx))
    (fun g hg => Or.inl hg)

/-- A block is processed. -/
theorem Consistent.processes {fuel : ℕ} {ret : ProcessReturn} {store : Store}
    (hE : Proper N.ledger) (hu : Healthy N.ledger u) (hb : .received b ∈ (σ.hosts n).hands)
    (hreturns : process (N.node n) fuel (σ.hosts n).store b = .ok (ret, store)) :
    Advance N Links σ n { σ.hosts n with
      store := store
      hands := (σ.hosts n).turn (.received b) [.after N.ledger b ret.code] } [] := by
  have hhost := hσ.sound.orderly n
  have hplay : InPlay N u b := hhost.hands _ hb
  have hE' : Proper (N.node n) := hE.configured (N.clock n) N.ledger.weightAssert
  have hcases := process_cases hE' (hhost.part hE hu) hplay.1 hreturns
  refine hσ.goes (hhost.processed hE hu hplay hreturns).1 ?_ (fun g hg => Or.inl hg) ?_ (by simp)
    (by simp)
  · intro c hc
    cases hc
    -- the block is stored, or the thread still has it
    rcases hcases with ⟨_, rfl, hold⟩ | ⟨needed, hafter, _⟩ | ⟨_, hstore, _⟩
    · exact .stored hold
    · exact .inHand (x := .missing b needed)
        (List.mem_append_left _ (List.mem_singleton.mpr hafter.symm)) rfl rfl
    · refine .stored fun hnone => ?_
      dsimp only at hnone
      rw [hstore] at hnone
      cases (withBlock_self (N.node n) (σ.hosts n).store b).symm.trans hnone
  · intro h hh
    rcases hcases with ⟨_, rfl, _⟩ | ⟨_, _, rfl, _⟩ | ⟨hcode, hstore, _⟩
    · exact Or.inl hh
    · exact Or.inl hh
    · by_cases heq : h = N.ledger.hash b
      · refine Or.inr ⟨b, ?_, heq.symm⟩
        rw [hcode]
        exact List.mem_singleton_self _
      · refine Or.inl ?_
        rwa [hstore, withBlock_of_ne (E := N.node n) heq] at hh

theorem Consistent.files {needed : BlockHash} (hkeeps : Allowed N u Links σ (.file n b needed)) :
    Advance N Links σ n { σ.hosts n with
      gapCache := GapCache.add N.ledger (σ.hosts n).gapCache b needed
      hands := (σ.hosts n).turn (.missing b needed) [.fetching (N.ledger.hash b)] } [] := by
  obtain ⟨hkept, g₀, hg₀, hhash₀⟩ := hkeeps
  refine hσ.goes (fun _ _ hh => hh) ?_ ?_ (fun h hh => Or.inl hh) (by simp) (by simp)
  · intro c hc
    cases hc
    exact .cached hg₀ hhash₀
  · intro g hg
    obtain ⟨g', hg', hhash⟩ := hkept g hg
    exact Or.inr (.cached hg' hhash)

theorem Consistent.fetches {block : Option Block} {gapCache : GapCache.Cache}
    (hgot : GapCache.get (σ.hosts n).gapCache h = (block, gapCache)) :
    Advance N Links σ n { σ.hosts n with
      gapCache := gapCache
      hands := (σ.hosts n).turn (.fetching h) (block.toList.map .received) } [] := by
  refine hσ.goes (fun _ _ hh => hh) (fun c hc => by cases hc) ?_ (fun h hh => Or.inl hh) (by simp)
    (by simp)
  intro g hg
  rcases get_block hgot with ⟨_, rfl⟩ | ⟨g', _, rfl, hperm⟩
  · exact Or.inl hg
  · rcases List.mem_cons.mp (hperm.mem_iff.mp hg) with rfl | hg'
    · have hhash := ((hσ.sound.orderly n).cached g hg).1
      refine Or.inr (.inHand (x := .received g.block) ?_ rfl hhash.symm)
      exact List.mem_append_left _ (List.mem_singleton_self _)
    · exact Or.inl hg'

/-- A block is published to the peers that are not known to have it. -/
theorem Consistent.republishes {index : PeerExchange.FirstIndex}
    {representatives : List (Wallet.Key × Wallet.Key)} (hE : Proper N.ledger)
    (hb : .accepted b ∈ (σ.hosts n).hands) (hlinked : Allowed N u Links σ (.republish n b)) :
    Advance N Links σ n { σ.hosts n with
        hands := (σ.hosts n).turn (.accepted b) [.fetching (N.ledger.hash b)] }
      (republishBlock N.toSpendEnv (σ.hosts n).peers index representatives b) := by
  have hhost := hσ.sound.orderly n
  refine hσ.goes (fun _ _ hh => hh) (fun c hc => by cases hc) (fun g hg => Or.inl hg)
    (fun h hh => Or.inl hh) ?_ ?_
  · exact (hσ.sends (fun p hp => carries_republishBlock hp)
      (.stored (hhost.hands _ hb).2)).flying
  · intro c hc k hlink
    cases hc
    cases hknows : knowsAbout (σ.hosts n).peers k (N.ledger.hash b) with
    | true =>
        obtain ⟨q, hq, rfl, hr⟩ := exists_of_knowsAbout hknows
        refine Or.inl (hr ▸ hσ.noted n q hq ?_)
        rw [hr]
        exact hE.hash_ne_zero b
    | false =>
        have hexists : ∃ p ∈ republishBlock N.toSpendEnv (σ.hosts n).peers index
            representatives b, p.destination = k := exists_republished (hlinked k hlink) hknows
        obtain ⟨p, hp, hdest⟩ := hexists
        have hcarries := carries_republishBlock hp
        exact Or.inr ⟨p, hp, hcarries.source.trans hhost.self, hdest, hcarries.about⟩

theorem Consistent.answers {sender : Endpoint}
    (hanswered : (σ.hosts n).confirmReq N b sender = .ok sent) :
    Advance N Links σ n { σ.hosts n with
      hands := (σ.hosts n).turn (.asked b sender) [] } sent := by
  refine hσ.goes (fun _ _ hh => hh) (fun c hc => by cases hc) (fun g hg => Or.inl hg)
    (fun h hh => Or.inl hh) ?_ (fun c hc => by cases hc)
  intro p hp
  have hheld : Held N.ledger (σ.hosts n) (N.ledger.hash b) :=
    .stored (sent_confirmReq hanswered hp).1
  exact (hσ.sends (fun p hp => carries_confirmReq hanswered hp) hheld).flying p hp

/-- A packet is received, and its message handed to the visitor or ignored. -/
theorem Consistent.delivers {stack : ℕ → Endpoint} {counts counts' : NetworkCounts}
    {visited : List Message} {now now' : Time}
    (hlinks : ∀ m n, Links m n → reservedAddress m = false ∧ m ≠ n) (hp : p ∈ σ.flight)
    (hparsed : receiveAction N.work stack p.destination false true p.source
      (p.message.serialize N.work) counts = .ok (counts', visited)) :
    Follows N u s₀ Links σ (Network.set { σ with flight := σ.flight.erase p } p.destination
      (visited.foldl (Host.visit N.ledger now now' p.source) (σ.hosts p.destination)) []) := by
  obtain ⟨b, hb⟩ := hσ.sound.flying p hp
  obtain ⟨hvisited, husable⟩ := visited_about hb.wellFormed hb.about hparsed
  -- over a link, the visitor gets the message
  have htaken : ∀ host, (visited = [p.message] → Held N.ledger host (N.ledger.hash b)) →
      Taken N Links p.destination host p := by
    intro host hheld
    refine ⟨rfl, fun c hc hlink hwork => ?_⟩
    cases hc.symm.trans hb.about
    obtain ⟨hreserved, hne⟩ := hlinks _ _ hlink
    exact hheld (husable hreserved hne hwork)
  have hflight : ∀ host, Taken N Links p.destination host p →
      ∀ q ∈ σ.flight, q ∈ [] ++ σ.flight.erase p ∨ Taken N Links p.destination host q := by
    intro host htaken q hq
    by_cases heq : q = p
    · exact Or.inr (heq ▸ htaken)
    · exact Or.inl ((List.mem_erase_of_ne heq).mpr hq)
  have hvisit : Held N.ledger (σ.hosts p.source) (N.ledger.hash b) → Advance N Links σ
      p.destination (Host.visit N.ledger now now' p.source (σ.hosts p.destination) p.message)
      [] := by
    intro hheld
    unfold Host.visit
    rw [hb.about]
    have htakes : Advance N Links σ p.destination { σ.hosts p.destination with
        hands := (.received b :: requests p.source p.message) ++
          (σ.hosts p.destination).hands } [] := hσ.takes
    have hcontacted := htakes.notes
      (a := .insert now p.source 0) (by rintro _ _ _ ⟨⟩ hne; exact absurd rfl hne)
    refine hcontacted.notes (a := .insert now' p.source (N.ledger.hash b)) ?_
    rintro _ _ _ ⟨⟩ _
    exact hheld
  have hsound : Sound N u s₀ (Network.set { σ with flight := σ.flight.erase p } p.destination
      (visited.foldl (Host.visit N.ledger now now' p.source) (σ.hosts p.destination)) []) :=
    hσ.sound.delivers hp hparsed
  rcases hvisited with rfl | ⟨rfl, hwork⟩
  · exact hσ.advance hsound hσ.stays
      (fun q hq => Or.inl (List.mem_of_mem_erase hq)) (by simp) (hflight _ (htaken _ (by simp)))
  · refine hσ.advance hsound (hvisit (hσ.flying p hp b hb.about))
      (fun q hq => Or.inl (List.mem_of_mem_erase hq)) (by simp)
      (hflight _ (htaken _ fun _ => .inHand (x := .received b) ?_ rfl rfl))
    rw [List.foldl_cons, List.foldl_nil]
    unfold Host.visit
    rw [hb.about]
    exact List.mem_cons_self ..

/-- Every step keeps the network consistent. -/
theorem Consistent.step {e : Event} (hE : Proper N.ledger) (hu : Healthy N.ledger u)
    (hlinks : ∀ m n, Links m n → reservedAddress m = false ∧ m ≠ n)
    (hallowed : Allowed N u Links σ e) (hstep : Step N σ e τ) : Follows N u s₀ Links σ τ := by
  have hsound := hσ.sound.step hE hu hallowed.fitting hstep
  cases hstep with
  | @enter n b =>
      have htakes : Advance N Links σ n
          { σ.hosts n with hands := [.received b] ++ (σ.hosts n).hands } [] := hσ.takes
      exact hσ.set hsound htakes
  | deliver hp hparsed => exact hσ.delivers hlinks hp hparsed
  | @resend p hp =>
      refine ⟨⟨hsound, ?_, hσ.noted, ?_⟩, fun _ _ hh => hh⟩
      · intro q hq
        rcases List.mem_cons.mp hq with rfl | hq
        · exact hσ.flying q hp
        · exact hσ.flying q hq
      · intro m n hlink h hstored hfresh
        cases hσ.owed m n hlink h hstored hfresh with
        | held hh => exact .held hh
        | accepted hb hhash => exact .accepted hb hhash
        | underway hq hsource hdest habout hhash hwork =>
            exact .underway (List.mem_cons_of_mem _ hq) hsource hdest habout hhash hwork
  | process hb hreturns => exact hσ.set hsound (hσ.processes hE hu hb hreturns)
  | file _ => exact hσ.set hsound (hσ.files hallowed)
  | republish hb _ => exact hσ.set hsound (hσ.republishes hE hb hallowed)
  | fetch _ hgot => exact hσ.set hsound (hσ.fetches hgot)
  | answer _ hanswered => exact hσ.set hsound (hσ.answers hanswered)
  | request =>
      exact hσ.set hsound
        (hσ.sends (fun p hp => carries_broadcastConfirmReq hp) hallowed.2)
  | announce _ =>
      exact hσ.set hsound
        (hσ.sends (fun p hp => carries_confirmBroadcast hp) hallowed.2)
  | peers =>
      refine hσ.set hsound (hσ.stays.notes ?_)
      rintro now e hash rfl hne
      exact absurd hallowed hne
  | wallets =>
      refine hσ.set hsound ⟨?_, by simp, hσ.noted _, fun h hh => Or.inl hh,
        fun b hb => Or.inl hb⟩
      intro h hh
      exact hh.mono (fun _ hh => hh) (fun x hx => Or.inl hx) (fun g hg => Or.inl hg)

end Steps

theorem consistent_of_initial (hσ : Initial N s₀ σ) (hs₀ : Within s₀.blockGet u.blockGet) :
    Consistent N u s₀ Links σ := by
  constructor
  case sound => exact hσ.sound hs₀
  case flying => simp [hσ.flight]
  case noted =>
    intro n q hq hne
    refine .stored ?_
    rw [hσ.blocks]
    exact hσ.noted n q hq hne
  case owed =>
    intro m n _ h hstored hfresh
    rw [hσ.blocks m] at hstored
    exact absurd hfresh hstored

theorem Quiet.stored (hσ : Quiet σ) (hh : Held N.ledger (σ.hosts n) h) :
    (σ.hosts n).store.blockGet h ≠ none := by
  cases hh with
  | stored hh => exact hh
  | inHand hx => simp [hσ.hands n] at hx
  | cached hg => simp [hσ.gapCache n] at hg

section Quiet
variable (hσ : Consistent N u s₀ Links σ) (hquiet : Quiet σ)
include hσ hquiet

theorem within_of_link (hlink : Links m n) :
    Within (σ.hosts m).store.blockGet (σ.hosts n).store.blockGet := by
  intro h b hb
  have hwhole := (hσ.sound.orderly m).within h b hb
  refine (hσ.sound.orderly n).within.get_of_stored ?_ hwhole
  cases hs₀ : s₀.blockGet h with
  | some c =>
      rw [(hσ.sound.orderly n).started h c hs₀]
      simp
  | none =>
      cases hσ.owed m n hlink h (by simp [hb]) hs₀ with
      | held hh => exact hquiet.stored hh
      | accepted hx => simp [hquiet.hands m] at hx
      | underway hp => simp [hquiet.flight] at hp

theorem within_of_path (hpath : Relation.ReflTransGen Links m n) :
    Within (σ.hosts m).store.blockGet (σ.hosts n).store.blockGet := by
  induction hpath with
  | refl => exact fun _ _ hb => hb
  | tail _ hlink ih => exact ih.trans (within_of_link hσ hquiet hlink)

end Quiet

/-- Along a run, the network is consistent and what has entered at a node stays with it. -/
theorem run_consistent {σ₀ : Network} {events : List Event} (hE : Proper N.ledger)
    (hu : Healthy N.ledger u) (hs₀ : Within s₀.blockGet u.blockGet)
    (hlinks : ∀ m n, Links m n → reservedAddress m = false ∧ m ≠ n) (hσ₀ : Initial N s₀ σ₀)
    (hrun : Run (Guarded (Allowed N u Links) (Step N)) σ₀ events σ) :
    Consistent N u s₀ Links σ ∧ ∀ m b, .enter m b ∈ events →
      u.blockGet (N.ledger.hash b) = some b ∧ Held N.ledger (σ.hosts m) (N.ledger.hash b) := by
  refine hrun.invariant (I := fun events σ => Consistent N u s₀ Links σ ∧
    ∀ m b, .enter m b ∈ events → u.blockGet (N.ledger.hash b) = some b ∧
      Held N.ledger (σ.hosts m) (N.ledger.hash b)) ⟨consistent_of_initial hσ₀ hs₀, by simp⟩ ?_
  rintro events σ e τ ⟨hσ, hentered⟩ ⟨hallowed, hstep⟩
  obtain ⟨hτ, hheld⟩ := hσ.step hE hu hlinks hallowed hstep
  refine ⟨hτ, fun m b hb => ?_⟩
  rcases List.mem_append.mp hb with hb | hb
  · obtain ⟨hknown, hh⟩ := hentered m b hb
    exact ⟨hknown, hheld _ _ hh⟩
  · obtain rfl := List.mem_singleton.mp hb
    refine ⟨hallowed.1, ?_⟩
    cases hstep with
    | enter =>
        refine .inHand (x := .received b) ?_ rfl rfl
        simp [Network.set]

/-- All blocks that enter the network fit into the ledger `u`, no packet is lost and no gap cache
drops a block. Once the network is quiet, a block that entered anywhere is stored wherever a path
of links leads, and nodes that are linked both ways have the same blocks and the same tables. -/
theorem gossip_converges {σ₀ : Network} {events : List Event} (hE : Proper N.ledger)
    (hu : Reachable N.ledger u) (hs₀ : Within s₀.blockGet u.blockGet)
    (hlinks : ∀ m n, Links m n → reservedAddress m = false ∧ m ≠ n) (hσ₀ : Initial N s₀ σ₀)
    (hrun : Run (Guarded (Allowed N u Links) (Step N)) σ₀ events σ) (hquiet : Quiet σ) :
    (∀ m n b, .enter m b ∈ events → Relation.ReflTransGen Links m n →
      (σ.hosts n).store.blockGet (N.ledger.hash b) = some b) ∧
    ∀ m n, Relation.ReflTransGen Links m n → Relation.ReflTransGen Links n m →
      (σ.hosts m).store.blockGet = (σ.hosts n).store.blockGet ∧
        SameTables (σ.hosts m).store (σ.hosts n).store := by
  obtain ⟨hσ, hentered⟩ :=
    run_consistent hE (reachable_healthy hE hu) hs₀ hlinks hσ₀ hrun
  constructor
  · intro m n b hb hpath
    obtain ⟨hknown, hheld⟩ := hentered m b hb
    refine within_of_path hσ hquiet hpath _ b ?_
    exact (hσ.sound.orderly m).within.get_of_stored (hquiet.stored hheld) hknown
  · intro m n hmn hnm
    have hblocks : (σ.hosts m).store.blockGet = (σ.hosts n).store.blockGet :=
      funext fun h => Option.ext fun b =>
        ⟨within_of_path hσ hquiet hmn h b, within_of_path hσ hquiet hnm h b⟩
    refine ⟨hblocks, ?_⟩
    -- each node has read its own clock, which the tables do not show
    have hdescribes : ∀ k, Describes N.ledger (σ.hosts k).store.blockGet (σ.hosts k).store := by
      intro k
      have hE' := hE.configured (N.clock k) N.ledger.weightAssert
      have hk := reached_reachable (hσ.sound.orderly k).reached
      exact (reachable_describes hE' hk).of_genesisAccount rfl
    have hn := hdescribes n
    rw [← hblocks] at hn
    exact (hdescribes m).unique hn

section Pair

/-- No wallets are used, and every work is good. -/
def pairEnv : GossipEnv where
  ledger := smallNetwork
  wallet := ⟨fun _ _ => 0, id, fun _ _ => 0, paperTestAccount⟩
  work := WorkPool.easyWork
  signMessage := fun _ _ _ => 0
  clock := fun _ => smallNetwork.now

def left : Endpoint := ⟨0xffff7f000001, 7075⟩

def right : Endpoint := ⟨0xffff7f000001, 7076⟩

def PairLinks (m n : Endpoint) : Prop := m = left ∧ n = right ∨ m = right ∧ n = left

abbrev PairRun (u : Store) : Network → List Event → Network → Prop :=
  Run (Guarded (Allowed pairEnv u PairLinks) (Step pairEnv))

/-- The left node knows the right one, and nobody else knows anybody. -/
def pairPeers (n : Endpoint) : PeerContainer where
  self := n
  peers := if n = left then [⟨right, 0, 0, 0, 0⟩] else []
  unique := by split_ifs <;> simp [endpoints]
  inOrder := by split_ifs <;> simp [InOrder]

def pairHosts (s : Store) (n : Endpoint) : Host := ⟨s, [], pairPeers n, [], []⟩

theorem pairHosts_initial {s : Store} (hs : ∀ n, LedgerRuns.Initial (N.node n) s) :
    Initial N s ⟨pairHosts s, []⟩ := by
  refine ⟨rfl, fun _ => rfl, fun n => .start (hs n), fun _ => rfl, fun _ => rfl, fun _ => rfl, ?_⟩
  intro n q hq hne
  have hq : q ∈ if n = left then [⟨right, 0, 0, 0, 0⟩] else [] := hq
  split_ifs at hq
  · obtain rfl := List.mem_singleton.mp hq
    exact absurd rfl hne
  · cases hq

@[simp] theorem hosts_set_self : (σ.set n host sent).hosts n = host := Function.update_self ..

theorem set_set {host' : Host} {sent' : List Packet} :
    (σ.set n host sent).set n host' sent' = σ.set n host' (sent' ++ sent) := by
  simp [Network.set]

/-- A node without wallets takes in a block, hands it on and has nothing left to do. -/
theorem run_relay {fuel : ℕ} {account : Option Account} {store : Store}
    (index : PeerExchange.FirstIndex) (hhands : (σ.hosts n).hands = [.received b])
    (hcache : (σ.hosts n).gapCache = []) (hwallets : (σ.hosts n).wallets = [])
    (hprocess : process (N.node n) fuel (σ.hosts n).store b = .ok (⟨.progress, account⟩, store))
    (hlinked : ∀ k, Links n k → k ∈ endpoints (σ.hosts n).peers.peers) :
    Run (Guarded (Allowed N u Links) (Step N)) σ
      [.process n b, .republish n b, .fetch n (N.ledger.hash b)]
      (σ.set n { σ.hosts n with store := store, hands := [] }
        (republishBlock N.toSpendEnv (σ.hosts n).peers index [] b)) := by
  let σ₁ := σ.set n { σ.hosts n with store := store, hands := [.accepted b] } []
  let σ₂ := σ.set n { σ.hosts n with store := store, hands := [.fetching (N.ledger.hash b)] }
    (republishBlock N.toSpendEnv (σ.hosts n).peers index [] b)
  have hstep₁ : Step N σ (.process n b) σ₁ := by
    have hstep := Step.process (by simp [hhands]) hprocess
    simpa [Host.turn, hhands, Hand.after] using hstep
  have hstep₂ : Step N σ₁ (.republish n b) σ₂ := by
    have hkeys : foreachRepresentative N.wallet (σ₁.hosts n).store (σ₁.hosts n).wallets =
        .ok [] := by
      simp only [σ₁, hosts_set_self, hwallets]
      rfl
    have hstep : Step N σ₁ (.republish n b) (σ₁.set n { σ₁.hosts n with
        hands := (σ₁.hosts n).turn (.accepted b) [.fetching (N.ledger.hash b)] }
        (republishBlock N.toSpendEnv (σ₁.hosts n).peers index [] b)) :=
      .republish (by simp [σ₁]) hkeys
    simpa [σ₁, Host.turn, set_set] using hstep
  have hstep₃ : Step N σ₂ (.fetch n (N.ledger.hash b)) (σ.set n
      { σ.hosts n with store := store, hands := [] }
      (republishBlock N.toSpendEnv (σ.hosts n).peers index [] b)) := by
    have hgot : GapCache.get (σ₂.hosts n).gapCache (N.ledger.hash b) = (none, []) := by
      simp [σ₂, hcache, GapCache.get]
    have hstep := Step.fetch (N := N) (by simp [σ₂]) hgot
    simpa [σ₂, Host.turn, set_set, ← hcache] using hstep
  refine ((Run.nil.snoc ⟨trivial, hstep₁⟩).snoc ⟨?_, hstep₂⟩).snoc ⟨trivial, hstep₃⟩
  intro k hlink
  simpa [σ₁] using hlinked k hlink

/-- The first send is accepted, with or without the weight assertion. -/
theorem send_accepted (asserting : Bool) : ∃ s account u,
    LedgerRuns.Initial { smallNetwork with weightAssert := asserting } s ∧
    process { smallNetwork with weightAssert := asserting } 20 s send₁ =
      .ok (⟨.progress, account⟩, u) ∧
    u.blockGet (smallNetwork.hash send₁) = some send₁ ∧
    Reachable { smallNetwork with weightAssert := asserting } u ∧
    Within s.blockGet u.blockGet := by
  have hrun : executes { smallNetwork with weightAssert := asserting } 20 [] (fun s =>
      BoundedRecursion.returns (process { smallNetwork with weightAssert := asserting } 20 s send₁)
        (fun r => decide (r.1.code = .progress) &&
          decide (r.2.blockGet (smallNetwork.hash send₁) = some send₁))) = true := by
    cases asserting <;> decide +kernel
  obtain ⟨s, hx, hprocess⟩ := exists_of_executes hrun
  obtain ⟨⟨⟨code, account⟩, u⟩, hprocess, htest⟩ := exists_of_returns hprocess
  obtain ⟨hcode, hstored⟩ := Bool.and_eq_true_iff.mp htest
  cases of_decide_eq_true hcode
  obtain ⟨_, hs, hsame⟩ := bind_eq_ok.mp hx
  cases hsame
  have hreachable : Reachable { smallNetwork with weightAssert := asserting } s := .start hs
  exact ⟨s, account, u, hs, hprocess, of_decide_eq_true hstored,
    hreachable.next (.process hprocess),
    (run_blocks (Run.nil.snoc ⟨20, _, hprocess, rfl⟩)).1⟩

/-- The left node sends the block to the right one, which knows that the left one has it. -/
theorem pair_run : ∃ s u σ events, LedgerRuns.Initial smallNetwork s ∧ Reachable smallNetwork u ∧
    Within s.blockGet u.blockGet ∧
    PairRun u ⟨pairHosts s, []⟩ events σ ∧
    .enter left send₁ ∈ events ∧ Quiet σ := by
  obtain ⟨s, account, u, hs, hprocess, hstored, hreachable, hwithin⟩ := send_accepted true
  let index : PeerExchange.FirstIndex := ⟨PeerContainer.peers, fun _ => .refl _⟩
  let packet : Packet := ⟨left, right, .publish (blockHeader .publish send₁) send₁⟩
  let told : PeerContainer := (Peers.insert 0 (smallNetwork.hash send₁)
    (contacted 0 (pairPeers right) left) left).container
  let σ₀ : Network := ⟨pairHosts s, []⟩
  let σ₁ : Network := σ₀.set left { pairHosts s left with hands := [.received send₁] } []
  let σ₂ : Network := σ₁.set left { pairHosts s left with store := u } [packet]
  let σ₃ : Network := Network.set { σ₂ with flight := [] } right
    { pairHosts s right with peers := told, hands := [.received send₁] } []
  let σ₄ : Network := σ₃.set right { pairHosts s right with store := u, peers := told } []
  have hentered : PairRun u σ₀ [.enter left send₁] σ₁ :=
    Run.nil.snoc ⟨⟨hstored, rfl⟩, .enter⟩
  have hleft : PairRun u σ₁
      [.process left send₁, .republish left send₁, .fetch left (smallNetwork.hash send₁)] σ₂ := by
    have hsent : republishBlock pairEnv.toSpendEnv (pairPeers left) index [] send₁ = [packet] := by
      decide +kernel
    have hlinked : ∀ k, PairLinks left k → k ∈ endpoints (pairPeers left).peers := by
      rintro k (⟨_, rfl⟩ | ⟨hne, _⟩)
      · decide +kernel
      · exact absurd hne (by decide)
    have hrelay : PairRun u σ₁ _ _ :=
      run_relay (n := left) (b := send₁) index rfl rfl rfl hprocess hlinked
    rwa [show (σ₁.hosts left).peers = pairPeers left from rfl, hsent] at hrelay
  have hdelivered : PairRun u σ₂ [.deliver packet] σ₃ := by
    have hm : packet.message.WellFormed := ⟨rfl, blockType_blockHeader .publish send₁⟩
    have hparsed : receiveAction pairEnv.work (fun _ => left) packet.destination false true
        packet.source (packet.message.serialize pairEnv.work) {} = .ok ({}, [packet.message]) :=
      receiveAction_about (fun _ => left) right left {} hm rfl
    have hflight : σ₂.flight.erase packet = [] := List.erase_cons_head ..
    have hstep : Step pairEnv σ₂ (.deliver packet)
        (Network.set { σ₂ with flight := σ₂.flight.erase packet } right
          (Host.visit smallNetwork 0 0 left (σ₂.hosts right) packet.message) []) :=
      .deliver (List.mem_cons_self ..) hparsed
    rw [hflight] at hstep
    exact Run.nil.snoc ⟨trivial, hstep⟩
  have hright : PairRun u σ₃
      [.process right send₁, .republish right send₁, .fetch right (smallNetwork.hash send₁)]
      σ₄ := by
    have hsent : republishBlock pairEnv.toSpendEnv told index [] send₁ = [] := by
      decide +kernel
    have hlinked : ∀ k, PairLinks right k → k ∈ endpoints told.peers := by
      rintro k (⟨hne, _⟩ | ⟨_, rfl⟩)
      · exact absurd hne (by decide)
      · decide +kernel
    have hrelay : PairRun u σ₃ _ _ :=
      run_relay (n := right) (b := send₁) index rfl rfl rfl hprocess hlinked
    rwa [show (σ₃.hosts right).peers = told from rfl, hsent] at hrelay
  have hidle : ∀ n, (σ₄.hosts n).gapCache = [] ∧ (σ₄.hosts n).hands = [] := by
    intro n
    simp only [σ₄, σ₃, σ₂, σ₁, σ₀, Network.set, Function.update_apply]
    split_ifs
    · exact ⟨rfl, rfl⟩
    · exact ⟨rfl, rfl⟩
    · exact ⟨rfl, rfl⟩
  exact ⟨s, u, σ₄, _, hs, hreachable, hwithin,
    ((hentered.append hleft).append hdelivered).append hright, by simp,
    rfl, fun n => (hidle n).1, fun n => (hidle n).2⟩

theorem gossip_converges_send : ∃ s u σ events, PairRun u ⟨pairHosts s, []⟩ events σ ∧ Quiet σ ∧
    (σ.hosts right).store.blockGet (smallNetwork.hash send₁) = some send₁ := by
  obtain ⟨s, u, σ, events, hs, hu, hwithin, hrun, hentered, hquiet⟩ := pair_run
  have hlinks : ∀ m n, PairLinks m n → reservedAddress m = false ∧ m ≠ n := by
    rintro m n (⟨rfl, rfl⟩ | ⟨rfl, rfl⟩)
    · decide
    · decide
  have hconverges := gossip_converges (N := pairEnv) smallNetwork_proper hu hwithin hlinks
    (pairHosts_initial fun _ => hs) hrun hquiet
  exact ⟨s, u, σ, events, hrun, hquiet,
    hconverges.1 left right send₁ hentered (.single (Or.inl ⟨rfl, rfl⟩))⟩

end Pair

end PaperNode.GossipRuns
