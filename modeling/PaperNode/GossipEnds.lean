import PaperNode.FairRuns
import PaperNode.GossipRuns
import Mathlib.Algebra.BigOperators.Group.Finset.Basic
import Mathlib.Data.Fintype.EquivFin
import Mathlib.Data.Prod.Lex

/-!
# Every flood ends

As long as nothing new enters and no election speaks, the network only receives, processes,
publishes and answers. A node publishes a block once, when it stores it, and answers a request once.
Apart from that every step brings a block closer to its rest: out of the network, into the ledger or
the cache, or it makes way for one that waited for it and that fewer blocks depend on. So the
network comes to rest, whatever order the steps are taken in and whatever becomes of the peers.
-/
namespace PaperNode.GossipEnds
open BoundedRecursion LinkedNodes TransitionRuns FairRuns Blocks BlockStore LedgerQueries
open LedgerProcess BlockLattice IndexInvariant LedgerRuns ProcessReturns RollbackFuture VoteWeight
open PartialLedger MessageParser Peers ProofOfWork Gossip GossipHosts

/-- What the network does of itself. -/
def Busy : Event → Prop
  | .deliver _ | .process _ _ | .file _ _ _ | .republish _ _ | .fetch _ _ | .answer _ _ _ => True
  | _ => False

/-- The peers that a node knows may change all the while. -/
def Internal (e : Event) : Prop := Busy e ∨ ∃ n a, e = .peers n a

def AtRest (σ : Network) : Prop := σ.flight = [] ∧ ∀ n, (σ.hosts n).hands = []

section Work
variable (N : GossipEnv) (u : Store)

noncomputable def above (h : BlockHash) : ℕ := (dependents u.blockGet (Needs N.ledger) h).ncard

/-- The steps before a thread has done with its block, counted generously. -/
noncomputable def effort : Hand → ℕ
  | .received b => 4 * above N u (N.ledger.hash b) + 3
  | .missing b _ => 4 * above N u (N.ledger.hash b) + 2
  | .accepted b => 4 * above N u (N.ledger.hash b) + 2
  | .fetching h => 4 * above N u h + 1
  | .asked _ _ => 0

noncomputable def journey (p : Packet) : ℕ :=
  ((about p.message).map fun b => 4 * above N u (N.ledger.hash b) + 4).getD 1

def unpublished : Hand → ℕ
  | .accepted _ => 1
  | _ => 0

def unanswered : Hand → ℕ
  | .asked _ _ => 1
  | _ => 0

def question (p : Packet) : ℕ :=
  match p.message with
  | .confirmReq _ _ => 1
  | _ => 0

/-- Publications that a node may still make: it stores a block first. -/
noncomputable def publications (host : Host) : ℕ :=
  2 * unstored u host.store + (host.hands.map unpublished).sum

def questions (host : Host) : ℕ := (host.hands.map unanswered).sum

noncomputable def handWork (host : Host) : ℕ := (host.hands.map (effort N u)).sum

end Work

instance : Finite Endpoint :=
  Finite.of_injective (fun e : Endpoint => (e.address, e.port)) fun e e' h => by
    cases e
    cases e'
    cases h
    rfl

noncomputable instance : Fintype Endpoint := Fintype.ofFinite Endpoint

noncomputable def total (f : Host → ℕ) (σ : Network) : ℕ := ∑ n, f (σ.hosts n)

/-- Publications come first, since a publication may send any number of packets, and then the
requests, since an answer may. -/
noncomputable def workLeft (N : GossipEnv) (u : Store) (σ : Network) : ℕ ×ₗ ℕ ×ₗ ℕ :=
  toLex (total (publications u) σ,
    toLex (total questions σ + (σ.flight.map question).sum,
      total (handWork N u) σ + (σ.flight.map (journey N u)).sum))

variable {N : GossipEnv} {u s₀ : Store} {σ τ : Network} {n : Endpoint} {host : Host} {b : Block}
  {h : BlockHash} {p : Packet} {sent : List Packet} {old : Hand} {new : List Hand}

theorem total_set (f : Host → ℕ) (σ : Network) (n : Endpoint) (host : Host)
    (sent : List Packet) : total f (σ.set n host sent) + f (σ.hosts n) = total f σ + f host := by
  have hself : (σ.set n host sent).hosts n = host := Function.update_self ..
  have hother : ∑ k ∈ Finset.univ.erase n, f ((σ.set n host sent).hosts k) =
      ∑ k ∈ Finset.univ.erase n, f (σ.hosts k) := by
    refine Finset.sum_congr rfl fun k hk => ?_
    rw [show (σ.set n host sent).hosts k = σ.hosts k from
      Function.update_of_ne (Finset.ne_of_mem_erase hk) ..]
  have hafter := Finset.add_sum_erase Finset.univ (fun k => f ((σ.set n host sent).hosts k))
    (Finset.mem_univ n)
  have hbefore := Finset.add_sum_erase Finset.univ (fun k => f (σ.hosts k)) (Finset.mem_univ n)
  rw [hself, hother] at hafter
  unfold total
  omega

theorem sum_turn (f : Hand → ℕ) (new : List Hand) (hold : old ∈ host.hands) :
    ((host.turn old new).map f).sum + f old = (new.map f).sum + (host.hands.map f).sum := by
  have herase := ((List.perm_cons_erase hold).map f).sum_eq
  rw [List.map_cons, List.sum_cons] at herase
  rw [Host.turn, List.map_append, List.sum_append]
  omega

theorem workLeft_lt_of_publications (hlt : publications u host < publications u (σ.hosts n)) :
    workLeft N u (σ.set n host sent) < workLeft N u σ := by
  refine Prod.Lex.toLex_lt_toLex.mpr (Or.inl ?_)
  have htotal := total_set (publications u) σ n host sent
  dsimp only
  omega

/-- No node stores or publishes a block. -/
theorem workLeft_lt_of_rest {flight : List Packet}
    (hsame : publications u host = publications u (σ.hosts n))
    (hless : questions host + (flight.map question).sum <
        questions (σ.hosts n) + (σ.flight.map question).sum ∨
      questions host + (flight.map question).sum ≤
          questions (σ.hosts n) + (σ.flight.map question).sum ∧
        handWork N u host + (flight.map (journey N u)).sum <
          handWork N u (σ.hosts n) + (σ.flight.map (journey N u)).sum) :
    workLeft N u ⟨Function.update σ.hosts n host, flight⟩ < workLeft N u σ := by
  have hpublications := total_set (publications u) σ n host []
  have hquestions := total_set questions σ n host []
  have hwork := total_set (handWork N u) σ n host []
  have hhosts : ∀ f : Host → ℕ, total f ⟨Function.update σ.hosts n host, flight⟩ =
      total f (σ.set n host []) := fun _ => rfl
  refine Prod.Lex.toLex_lt_toLex.mpr (Or.inr ⟨?_, Prod.Lex.toLex_lt_toLex.mpr ?_⟩)
  · dsimp only
    rw [hhosts]
    omega
  · dsimp only
    rw [hhosts, hhosts]
    omega

/-- A thread goes on and neither stores, publishes nor answers. -/
theorem workLeft_lt_of_turn {gapCache : GapCache.Cache} (hold : old ∈ (σ.hosts n).hands)
    (hsame : (new.map unpublished).sum = unpublished old)
    (hasked : (new.map unanswered).sum = unanswered old)
    (hlt : (new.map (effort N u)).sum < effort N u old) :
    workLeft N u (σ.set n { σ.hosts n with
      gapCache := gapCache
      hands := (σ.hosts n).turn old new } []) < workLeft N u σ := by
  have hpublications := sum_turn unpublished new hold
  have hquestions := sum_turn unanswered new hold
  have hwork := sum_turn (effort N u) new hold
  refine workLeft_lt_of_rest ?_ (Or.inr ⟨?_, ?_⟩)
  · unfold publications
    dsimp only
    omega
  · unfold questions
    rw [List.nil_append]
    dsimp only
    omega
  · unfold handWork
    rw [List.nil_append]
    dsimp only
    omega

/-- An answer asks for nothing. -/
theorem answer_lt {sender : Endpoint} (hb : .asked b sender ∈ (σ.hosts n).hands)
    (hanswered : (σ.hosts n).confirmReq N b sender = .ok sent) :
    workLeft N u (σ.set n { σ.hosts n with
      hands := (σ.hosts n).turn (.asked b sender) [] } sent) < workLeft N u σ := by
  have hpublications := sum_turn unpublished [] hb
  have hquestions := sum_turn unanswered [] hb
  simp only [List.map_nil, List.sum_nil, unpublished] at hpublications
  simp only [List.map_nil, List.sum_nil, unanswered] at hquestions
  have hsent : (sent.map question).sum = 0 := by
    refine List.sum_eq_zero fun k hk => ?_
    obtain ⟨p, hp, rfl⟩ := List.mem_map.mp hk
    obtain ⟨_, prv, pub, rfl⟩ := sent_confirmReq hanswered hp
    rfl
  refine workLeft_lt_of_rest ?_ (Or.inl ?_)
  · unfold publications
    dsimp only
    omega
  · unfold questions
    rw [List.map_append, List.sum_append, hsent]
    dsimp only
    omega

theorem workLeft_peers (peers : PeerContainer) :
    workLeft N u (σ.set n { σ.hosts n with peers := peers } []) = workLeft N u σ := by
  have htotal : ∀ f : Host → ℕ, f { σ.hosts n with peers := peers } = f (σ.hosts n) →
      total f (σ.set n { σ.hosts n with peers := peers } []) = total f σ := by
    intro f hf
    have hset := total_set f σ n { σ.hosts n with peers := peers } []
    omega
  unfold workLeft
  rw [htotal (publications u) rfl, htotal questions rfl, htotal (handWork N u) rfl]
  rfl

theorem above_lt (hu : Healthy N.ledger u) (hb : u.blockGet (N.ledger.hash b) = some b)
    (hneeds : Needs N.ledger b h) : above N u (N.ledger.hash b) < above N u h := by
  have hchains := hu.linked.chains
  obtain ⟨rank, hrank⟩ := hchains.ranked
  have hlink : Link u.blockGet (Needs N.ledger) (N.ledger.hash b) h := ⟨b, hb, hneeds⟩
  refine hrank.dependents_lt (.single hlink) ?_ (hchains.needed_stored hlink)
  intro heq
  have hlt := hrank _ _ hlink
  rw [heq] at hlt
  exact lt_irrefl _ hlt

theorem sum_requests (p : Packet) :
    ((requests p.source p.message).map unpublished).sum = 0 ∧
      ((requests p.source p.message).map unanswered).sum = question p ∧
      ((requests p.source p.message).map (effort N u)).sum = 0 := by
  unfold question
  cases p.message <;> exact ⟨rfl, rfl, rfl⟩

section Step
variable (hσ : Sound N u s₀ σ)
include hσ

theorem deliver_lt {stack : ℕ → Endpoint} {counts counts' : NetworkCounts}
    {visited : List Message} {now now' : Time} (hp : p ∈ σ.flight)
    (hparsed : receiveAction N.work stack p.destination false true p.source
      (p.message.serialize N.work) counts = .ok (counts', visited)) :
    workLeft N u (Network.set { σ with flight := σ.flight.erase p } p.destination
      (visited.foldl (Host.visit N.ledger now now' p.source) (σ.hosts p.destination)) []) <
      workLeft N u σ := by
  obtain ⟨b, hb⟩ := hσ.flying p hp
  have hjourney : journey N u p = 4 * above N u (N.ledger.hash b) + 4 := by
    rw [journey, hb.about]
    rfl
  have herase := ((List.perm_cons_erase hp).map (journey N u)).sum_eq
  have hquestions := ((List.perm_cons_erase hp).map question).sum_eq
  rw [List.map_cons, List.sum_cons, hjourney] at herase
  rw [List.map_cons, List.sum_cons] at hquestions
  rcases (visited_about hb.wellFormed hb.about hparsed).1 with rfl | ⟨rfl, _⟩
  · refine workLeft_lt_of_rest (σ := σ) rfl (Or.inr ⟨?_, ?_⟩)
    · rw [List.nil_append, List.foldl_nil]
      dsimp only
      omega
    · rw [List.nil_append, List.foldl_nil]
      dsimp only
      omega
  · obtain ⟨hunpublished, hunanswered, heffort⟩ := sum_requests (N := N) (u := u) p
    refine workLeft_lt_of_rest (σ := σ) ?_ (Or.inr ⟨?_, ?_⟩)
    · rw [List.foldl_cons, List.foldl_nil, Host.visit, hb.about]
      simp [publications, unpublished, hunpublished]
    · rw [List.nil_append, List.foldl_cons, List.foldl_nil, Host.visit, hb.about]
      simp only [questions, List.cons_append, List.map_cons, List.map_append, List.sum_cons,
        List.sum_append, unanswered, hunanswered]
      omega
    · rw [List.nil_append, List.foldl_cons, List.foldl_nil, Host.visit, hb.about]
      simp only [handWork, List.cons_append, List.map_cons, List.map_append, List.sum_cons,
        List.sum_append, effort, heffort]
      omega

theorem process_lt {fuel : ℕ} {ret : ProcessReturn} {store : Store} (hE : Proper N.ledger)
    (hu : Healthy N.ledger u) (hb : .received b ∈ (σ.hosts n).hands)
    (hreturns : process (N.node n) fuel (σ.hosts n).store b = .ok (ret, store)) :
    workLeft N u (σ.set n { σ.hosts n with
      store := store
      hands := (σ.hosts n).turn (.received b) [.after N.ledger b ret.code] } []) <
      workLeft N u σ := by
  have hhost := hσ.orderly n
  have hplay : InPlay N u b := hhost.hands _ hb
  have hE' : Proper (N.node n) := hE.configured (N.clock n) N.ledger.weightAssert
  rcases process_cases hE' (hhost.part hE hu) hplay.1 hreturns with
    ⟨hcode, rfl, _⟩ | ⟨needed, hafter, rfl, _⟩ | ⟨hcode, hstore, hnew⟩
  · rw [hcode]
    refine workLeft_lt_of_turn hb rfl rfl ?_
    simp only [Hand.after, List.map_cons, List.map_nil, List.sum_cons, List.sum_nil, effort]
    omega
  · rw [show Hand.after N.ledger b ret.code = _ from hafter]
    refine workLeft_lt_of_turn hb rfl rfl ?_
    simp only [List.map_cons, List.map_nil, List.sum_cons, List.sum_nil, effort]
    omega
  · rw [hcode]
    have hunstored := unstored_lt (E := N.node n) hplay.1 hnew hstore
    have hpublications := sum_turn unpublished [.accepted b] hb
    simp only [List.map_cons, List.map_nil, List.sum_cons, List.sum_nil, unpublished]
      at hpublications
    refine workLeft_lt_of_publications ?_
    simp only [publications, Hand.after]
    omega

/-- What the network does of itself comes to an end. -/
theorem workLeft_lt {e : Event} (hE : Proper N.ledger) (hu : Healthy N.ledger u) (he : Busy e)
    (hstep : Step N σ e τ) : workLeft N u τ < workLeft N u σ := by
  cases hstep with
  | deliver hp hparsed => exact deliver_lt hσ hp hparsed
  | process hb hreturns => exact process_lt hσ hE hu hb hreturns
  | file hb =>
      refine workLeft_lt_of_turn hb rfl rfl ?_
      simp only [List.map_cons, List.map_nil, List.sum_cons, List.sum_nil, effort]
      omega
  | @republish n b index representatives hb _ =>
      have hpublications := sum_turn unpublished [.fetching (N.ledger.hash b)] hb
      simp only [List.map_cons, List.map_nil, List.sum_cons, List.sum_nil, unpublished]
        at hpublications
      refine workLeft_lt_of_publications ?_
      simp only [publications]
      omega
  | @fetch n h block gapCache hb hgot =>
      rcases get_block hgot with ⟨rfl, rfl⟩ | ⟨g, rfl, rfl, hperm⟩
      · refine workLeft_lt_of_turn hb rfl rfl ?_
        simp [effort]
      · -- the block that waited needs the one that was asked for
        obtain ⟨_, hplay, hneeds⟩ :=
          (hσ.orderly n).cached g (hperm.mem_iff.mpr (List.mem_cons_self ..))
        have habove := above_lt hu hplay.1 hneeds
        refine workLeft_lt_of_turn hb rfl rfl ?_
        simp only [Option.toList_some, List.map_cons, List.map_nil, List.sum_cons, List.sum_nil,
          effort]
        omega
  | answer hb hanswered => exact answer_lt hb hanswered
  | enter | resend | request | announce | peers | wallets => exact he.elim

/-- Without the assertion on weights, a block in play can be processed. -/
theorem process_returns (hE : Proper N.ledger) (hw : N.ledger.weightAssert = false)
    (hu : Healthy N.ledger u) (hb : InPlay N u b) :
    ∃ fuel ret store, process (N.node n) fuel (σ.hosts n).store b = .ok (ret, store) := by
  have hhost := hσ.orderly n
  have hpart := hhost.part hE hu
  have hE' : Proper (N.node n) := hE.configured (N.clock n) N.ledger.weightAssert
  have hw' : (N.node n).weightAssert = false := hw
  by_cases hnew : (σ.hosts n).store.blockGet (N.ledger.hash b) = none
  · cases hmiss : missing (σ.hosts n).store b with
    | none =>
        obtain ⟨ret, store, hset, _⟩ := hpart.progress hb.1 hnew hE' hmiss (fun hpass =>
          Cached.movable hE' hpart.part (reached_cached hhost.reached) hpass
            (fun hn => hpart.whole.represented _ b hb.1 hn (hpart.ne_genesis hnew))
            (fun hassert => by simp [hw'] at hassert) (fun hassert => by simp [hw'] at hassert))
        obtain ⟨fuel, hfuel⟩ := hset.exists_ok
        exact ⟨fuel, ret, store, hfuel⟩
    | some needed =>
        obtain ⟨ret, hgap, _⟩ := hpart.gap hb.1 hnew hmiss
        exact ⟨0, ret, _, hgap 0⟩
  · refine ⟨0, ⟨.old, none⟩, (σ.hosts n).store, ProcessSteps.process_old ?_⟩
    rw [Store.blockExists_eq]
    exact Option.isSome_iff_ne_none.mpr hnew

/-- A network that is not at rest can go on. -/
theorem exists_step (hE : Proper N.ledger) (hw : N.ledger.weightAssert = false)
    (hu : Healthy N.ledger u)
    (hkeys : ∀ n s, ∃ keys, foreachRepresentative N.wallet s (σ.hosts n).wallets = .ok keys) :
    AtRest σ ∨ ∃ e τ, Busy e ∧ Step N σ e τ := by
  by_cases hflight : σ.flight = []
  · by_cases hhands : ∀ n, (σ.hosts n).hands = []
    · exact Or.inl ⟨hflight, hhands⟩
    · obtain ⟨n, hn⟩ := not_forall.mp hhands
      obtain ⟨x, hx⟩ := List.exists_mem_of_ne_nil _ hn
      refine Or.inr ?_
      cases x with
      | received b =>
          have hplay : InPlay N u b := (hσ.orderly n).hands _ hx
          obtain ⟨fuel, ret, store, hreturns⟩ := process_returns hσ (n := n) hE hw hu hplay
          exact ⟨.process n b, _, trivial, .process hx hreturns⟩
      | missing b needed => exact ⟨.file n b needed, _, trivial, .file hx⟩
      | accepted b =>
          obtain ⟨keys, hkeys⟩ := hkeys n (σ.hosts n).store
          let index : PeerExchange.FirstIndex := ⟨PeerContainer.peers, fun _ => .refl _⟩
          have hstep : Step N σ (.republish n b) (σ.set n { σ.hosts n with
              hands := (σ.hosts n).turn (.accepted b) [.fetching (N.ledger.hash b)] }
              (republishBlock N.toSpendEnv (σ.hosts n).peers index keys b)) :=
            .republish hx hkeys
          exact ⟨.republish n b, _, trivial, hstep⟩
      | fetching h => exact ⟨.fetch n h, _, trivial, .fetch hx rfl⟩
      | asked b sender =>
          obtain ⟨keys, hkeys⟩ := hkeys n (σ.hosts n).store
          have hanswered : ∃ sent, (σ.hosts n).confirmReq N b sender = .ok sent := by
            unfold Host.confirmReq
            split_ifs
            · rw [hkeys]
              exact ⟨_, rfl⟩
            · exact ⟨_, rfl⟩
          obtain ⟨sent, hanswered⟩ := hanswered
          exact ⟨.answer n b sender, _, trivial, .answer hx hanswered⟩
  · obtain ⟨p, hp⟩ := List.exists_mem_of_ne_nil _ hflight
    obtain ⟨b, hb⟩ := hσ.flying p hp
    have hparsed := receiveAction_about (W := N.work) (fun _ => p.source) p.destination p.source
      {} hb.wellFormed hb.about
    refine Or.inr ⟨.deliver p, Network.set { σ with flight := σ.flight.erase p } p.destination
      (List.foldl (Host.visit N.ledger 0 0 p.source) (σ.hosts p.destination) _) [], trivial,
      .deliver hp hparsed⟩

end Step

theorem wallets_visits {now now' : Time} {sender : Endpoint} (ms : List Message) (host : Host) :
    (ms.foldl (Host.visit N.ledger now now' sender) host).wallets = host.wallets := by
  induction ms generalizing host with
  | nil => rfl
  | cons m ms ih =>
      rw [List.foldl_cons, ih, Host.visit]
      split <;> rfl

theorem wallets_kept {e : Event} (he : Internal e) (hstep : Step N σ e τ) (n : Endpoint) :
    (τ.hosts n).wallets = (σ.hosts n).wallets := by
  have hset : ∀ {k : Endpoint} {host : Host}, host.wallets = (σ.hosts k).wallets →
      (Function.update σ.hosts k host n).wallets = (σ.hosts n).wallets := by
    intro k host hwallets
    by_cases hk : n = k
    · subst hk
      rwa [Function.update_self]
    · rw [Function.update_of_ne hk]
  cases hstep with
  | deliver => exact hset (wallets_visits _ _)
  | process | file | republish | fetch | answer | peers => exact hset rfl
  | enter | resend | request | announce | wallets => simp [Internal, Busy] at he

theorem Internal.fitting {e : Event} (he : Internal e) : Fitting N u e := by
  cases e with
  | enter | request | announce => simp [Internal, Busy] at he
  | _ => trivial

/-- Blocks that do not conflict have entered the network, and from outside nothing happens to it any
more but that its nodes come to know other peers. Then it does not go on for ever, and unless it is
at rest it can go on. -/
theorem gossip_ends (hE : Proper N.ledger) (hw : N.ledger.weightAssert = false)
    (hu : Reachable N.ledger u) (hs₀ : Within s₀.blockGet u.blockGet)
    (hσ : Reached (GossipHosts.Initial N s₀) (Guarded (fun _ => Fitting N u) (Step N)) σ)
    (hkeys : ∀ n s, ∃ keys, foreachRepresentative N.wallet s (σ.hosts n).wallets = .ok keys) :
    (∀ run : Endless (Guarded (fun _ => Internal) (Step N)), run.state 0 = σ →
      ∃ t, ∀ t', t ≤ t' → ∃ n a, run.action t' = .peers n a) ∧
      ∀ events τ, Run (Guarded (fun _ => Internal) (Step N)) σ events τ →
        AtRest τ ∨ ∃ e υ, Busy e ∧ Step N τ e υ := by
  have hu := reachable_healthy hE hu
  have hsound : Sound N u s₀ σ := by
    refine hσ.invariant (fun σ h₀ => h₀.sound hs₀) ?_
    intro σ e τ hσ hstep
    exact hσ.step hE hu hstep.1 hstep.2
  have hnext : ∀ (σ : Network) e τ, Sound N u s₀ σ → Guarded (fun _ => Internal) (Step N) σ e τ →
      Sound N u s₀ τ :=
    fun σ e τ hσ hstep => hσ.step hE hu hstep.1.fitting hstep.2
  constructor
  · rintro run rfl
    have hle : ∀ σ e τ, Sound N u s₀ σ → Guarded (fun _ => Internal) (Step N) σ e τ →
        workLeft N u τ ≤ workLeft N u σ := by
      rintro σ e τ hσ ⟨he | ⟨n, a, rfl⟩, hstep⟩
      · exact (workLeft_lt hσ hE hu he hstep).le
      · cases hstep with
        | peers => exact (workLeft_peers _).le
    obtain ⟨t, ht⟩ := run.ceases (workLeft N u) Busy hsound hnext hle
      fun σ e τ hσ hstep he => workLeft_lt hσ hE hu he hstep.2
    exact ⟨t, fun t' ht' => (run.next t').1.resolve_left (ht t' ht')⟩
  · intro events τ hrun
    have hτ : Sound N u s₀ τ ∧ ∀ n, (τ.hosts n).wallets = (σ.hosts n).wallets := by
      refine hrun.invariant (I := fun _ τ => Sound N u s₀ τ ∧ ∀ n, (τ.hosts n).wallets =
        (σ.hosts n).wallets) ⟨hsound, fun _ => rfl⟩ ?_
      intro _ τ e υ hτ hstep
      refine ⟨hnext τ e υ hτ.1 hstep, fun n => ?_⟩
      rw [wallets_kept hstep.1 hstep.2 n, hτ.2 n]
    refine exists_step hτ.1 hE hw hu fun n s => ?_
    rw [hτ.2 n]
    exact hkeys n s

def relaxedEnv : GossipEnv :=
  { GossipRuns.pairEnv with ledger := { smallNetwork with weightAssert := false } }

/-- A send has entered at the left node. -/
theorem gossip_ends_send : ∃ σ : Network, .received send₁ ∈ (σ.hosts GossipRuns.left).hands ∧
    (∀ run : Endless (Guarded (fun _ => Internal) (Step relaxedEnv)), run.state 0 = σ →
      ∃ t, ∀ t', t ≤ t' → ∃ n a, run.action t' = .peers n a) ∧
    ∃ e τ, Busy e ∧ Step relaxedEnv σ e τ := by
  obtain ⟨s, account, u, hs, hprocess, hstored, hreachable, hwithin⟩ :=
    GossipRuns.send_accepted false
  have hE : Proper relaxedEnv.ledger := smallNetwork_proper.configured smallNetwork.now false
  let σ₀ : Network := ⟨GossipRuns.pairHosts s, []⟩
  have hσ₀ : GossipHosts.Initial relaxedEnv s σ₀ := GossipRuns.pairHosts_initial fun _ => hs
  let σ₁ : Network := σ₀.set GossipRuns.left
    { GossipRuns.pairHosts s GossipRuns.left with hands := [.received send₁] } []
  have hstep : Guarded (fun _ => Fitting relaxedEnv u) (Step relaxedEnv) σ₀
      (.enter GossipRuns.left send₁) σ₁ := ⟨⟨hstored, rfl⟩, .enter⟩
  have hkeys : ∀ n s, ∃ keys,
      foreachRepresentative relaxedEnv.wallet s (σ₁.hosts n).wallets = .ok keys := by
    intro n s
    have hwallets : (σ₁.hosts n).wallets = [] := by
      simp only [σ₁, σ₀, Network.set, Function.update_apply]
      split_ifs <;> rfl
    rw [hwallets]
    exact ⟨[], rfl⟩
  have hends := gossip_ends hE rfl hreachable hwithin ((Reached.start hσ₀).next hstep) hkeys
  have hbusy : ¬ AtRest σ₁ := by
    intro hrest
    have hhands : (σ₁.hosts GossipRuns.left).hands = [.received send₁] := by
      simp [σ₁, GossipRuns.hosts_set_self]
    simp [hrest.2 GossipRuns.left] at hhands
  exact ⟨σ₁, List.mem_cons_self .., hends.1, (hends.2 [] σ₁ .nil).resolve_left hbusy⟩

end PaperNode.GossipEnds
