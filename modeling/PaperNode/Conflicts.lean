import PaperNode.Elections
import PaperNode.ProcessorService

/-!
# The elections of a node

`conflicts` keeps one election for each root. An election is started by a block, takes the votes of
the node's own representatives from the service, announces its winner and sets itself a timer; the
timer takes it out of `conflicts` again. Votes from the network reach the election of their root
while it is there. All of this goes on at the same time, in the threads of the service and in those
that handle messages.

What is done under the mutex of `conflicts` does not overlap, but the votes of the node's own
representatives are counted without it. A call of `election::vote` therefore has three steps here:
the vote is put down and `confirmed` is read, the votes are counted in a transaction, and the
confirmation action is added. Others may come in between.

The elections do not get in each other's way: the timer of an election finds it in `conflicts`, and
no other with its root, and a vote never counts in an election with another root.
-/
namespace PaperNode.Conflicts
open BoundedRecursion OrderedTable TransitionRuns FairRuns Words Blocks BlockStore LedgerQueries
open VoteRecords Tally Elections ProcessorService
open LedgerRuns hiding Step Initial Action

/-- `std::chrono::seconds`. The system clock counts nanoseconds. -/
def seconds (n : ℤ) : ℤ := n * 1000000000

inductive ConflictAssertion where
  | election (site : NodeAssertion)
  | noWinner
  | notInRoots
  deriving DecidableEq, Repr

abbrev Conflicted := Check ConflictAssertion

/-- An election with the time it was made at and how often `last_winner` was replaced. No vote
changes `last_vote`. -/
structure Contest where
  election : Election
  lastVote : ℤ
  replaced : ℕ

def Contest.root (c : Contest) : BlockHash := c.election.votes.id

/-- What a call of `election::vote` has in its local variables, before and after its transaction. A
call that counts no votes has no winner. -/
inductive Ballot where
  | entered (changed wasConfirmed : Bool)
  | counted (wasConfirmed : Bool) (winner : Option Block)

def Ballot.wasConfirmed : Ballot → Bool
  | .entered _ wasConfirmed => wasConfirmed
  | .counted wasConfirmed _ => wasConfirmed

/-- The ledger, all elections in the order they were made, the elections in `conflicts` by root,
what was broadcast, and the election that `conflicts::update` votes in while it holds the mutex. An
election that is no longer in `conflicts` is kept alive by its functions. -/
structure World where
  store : Store
  elections : List Contest
  roots : Table BlockHash ℕ
  announced : List (ℕ × Block × Word64)
  updating : Option (ℕ × Ballot)

/-- The functions of an election that the service runs. The first six are how far `start` has
come; `timeout` and `announce` are added for later. `representative_vote` has a reference to the
block that was the last winner when it was called: the number of replacements up to then. -/
inductive Function where
  | start (i : ℕ)
  | represent (i replaced : ℕ) (voted : Bool)
  | cast (i replaced : ℕ) (vote : Vote)
  | voting (i replaced : ℕ) (ballot : Ballot)
  | opening (i : ℕ)
  | timeout (i : ℕ)
  | announce (i : ℕ)
  | confirm (i : ℕ) (winner : Option Block)

abbrev Adds := List (ℤ × Function)

def Contest.enter (E : Env) (c : Contest) (v : Vote) : Contest :=
  { c with election := { c.election with votes := c.election.votesWith E v } }

/-- The votes, the last winner and `confirmed` are those of the election by now, not those that the
vote was put down with. -/
def Contest.count (E : Env) (it : Iteration) (fuel : ℕ) (s : Store) (c : Contest) :
    NodeChecked (Store × Contest) := do
  let tally := tally s it c.election.votes
  let top ← demand tally.first .tallyEmpty
  let s ← installWinner E fuel s c.election.lastWinner top.2
  let threshold :=
    if tally.entries.length = 1 then uncontestedThreshold E s else contestedThreshold E s
  let confirmed :=
    c.election.confirmed || decide (threshold.toNat < (OrderDual.ofDual top.1).toNat)
  let replaced := if top.2 = c.election.lastWinner then c.replaced else c.replaced + 1
  return (s, ⟨⟨c.election.votes, top.2, confirmed⟩, c.lastVote, replaced⟩)

/-- `election::vote` of election `i`, up to its transaction. -/
def World.enter (E : Env) (w : World) (i : ℕ) (c : Contest) (v : Vote) : World × Ballot :=
  ({ w with elections := w.elections.set i (c.enter E v) },
    .entered (c.election.votes.vote E v).1 c.election.confirmed)

/-- The transaction of `election::vote`. -/
def World.count (E : Env) (it : Iteration) (fuel : ℕ) (w : World) (i : ℕ) (c : Contest)
    (changed wasConfirmed : Bool) : Conflicted (World × Ballot) :=
  if !wasConfirmed && changed then do
    let r ← relabel .election (c.count E it fuel w.store)
    return ({ w with store := r.1, elections := w.elections.set i r.2 },
      .counted wasConfirmed (some r.2.election.lastWinner))
  else return (w, .counted wasConfirmed none)

/-- `election::vote` behind its transaction: `confirmed` is read once more. -/
def handOver (now : ℤ) (i : ℕ) (c : Contest) (wasConfirmed : Bool) (winner : Option Block) : Adds :=
  if !wasConfirmed && c.election.confirmed then [(now, .confirm i winner)] else []

/-- `ledger::winner`. -/
def winner (s : Store) (it : Iteration) (vs : Votes) : Option Block :=
  (tally s it vs).first.map Prod.snd

/-- `election::announce_vote`. -/
def World.announce (it : Iteration) (now : ℤ) (w : World) (i : ℕ) (c : Contest) :
    Conflicted (World × Adds) := do
  let b ← demand (winner w.store it c.election.votes) .noWinner
  let again := if now - c.lastVote < seconds 15 then [(now + seconds 15, .announce i)] else []
  return ({ w with announced := w.announced ++ [(i, b, c.election.votes.sequence)] }, again)

/-- `conflicts::stop`. -/
def World.stop (w : World) (root : BlockHash) : Conflicted World := do
  require (w.roots.get root).isSome .notInRoots
  return { w with roots := w.roots.del root }

/-- `election::timeout_action`. -/
def World.timeout (now : ℤ) (w : World) (i : ℕ) (c : Contest) : Conflicted (World × Adds) :=
  if now - c.lastVote < seconds 15 then .ok (w, [(now + seconds 15, .timeout i)])
  else do
    let w ← w.stop c.root
    return (w, [])

/-- `conflicts::start`, with the key and the signature of the vote that the election begins with.
Nobody else has the election yet, so nothing comes between the steps of that vote. The request for
confirmations that may be broadcast is left out. -/
def World.start (E : Env) (it : Iteration) (fuel : ℕ) (now : ℤ) (w : World) (b : Block)
    (anonymous : Account) (signature : Signature) : Conflicted (World × Adds) :=
  match w.roots.get b.root with
  | some _ => .ok (w, [])
  | none => do
      let r ← relabel .election (Election.start E it fuel w.store b anonymous signature)
      let i := w.elections.length
      let w := { w with
        store := r.1, elections := w.elections ++ [⟨r.2.1, now, 0⟩], roots := w.roots.put b.root i }
      return (w, (r.2.2.toList.map fun b => (now, .confirm i (some b))) ++ [(now, .start i)])

/-- `conflicts::update`, up to the transaction of `election::vote`. -/
def World.update (E : Env) (w : World) (v : Vote) : World :=
  match w.roots.get v.block.root with
  | none => w
  | some i =>
      match w.elections[i]? with
      | none => w
      | some c => { (w.enter E i c v).1 with updating := some (i, (w.enter E i c v).2) }

/-- One step of a function. In `represent` one wallet after another may vote for the block of the
reference, as long as that has not been replaced and deleted. `conflicts::stop` waits for the
mutex. What is confirmed is handed over to the node. -/
inductive Act (E : Env) (now : ℤ) (w : World) : Function → World → Adds → Option Function → Prop
  | start {i : ℕ} {c : Contest} : w.elections[i]? = some c →
      Act E now w (.start i) w [] (some (.represent i c.replaced false))
  | clone {i : ℕ} {c : Contest} {voted : Bool} {representative : Account} {signature : Signature} :
      w.elections[i]? = some c →
      Act E now w (.represent i c.replaced voted) w []
        (some (.cast i c.replaced ⟨0, c.election.lastWinner, representative, signature⟩))
  | enter {i n : ℕ} {c : Contest} {v : Vote} : w.elections[i]? = some c →
      Act E now w (.cast i n v) (w.enter E i c v).1 [] (some (.voting i n (w.enter E i c v).2))
  | count {i n : ℕ} {c : Contest} {changed wasConfirmed : Bool} {it : Iteration} {fuel : ℕ}
      {w' : World} {ballot : Ballot} : w.elections[i]? = some c →
      w.count E it fuel i c changed wasConfirmed = .ok (w', ballot) →
      Act E now w (.voting i n (.entered changed wasConfirmed)) w' [] (some (.voting i n ballot))
  | handOver {i n : ℕ} {c : Contest} {wasConfirmed : Bool} {winner : Option Block} :
      w.elections[i]? = some c →
      Act E now w (.voting i n (.counted wasConfirmed winner)) w
        (handOver now i c wasConfirmed winner) (some (.represent i n true))
  | represented {i n : ℕ} {voted : Bool} :
      Act E now w (.represent i n voted) w [] (some (if voted then .opening i else .timeout i))
  | opening {i : ℕ} {c : Contest} {it : Iteration} {w' : World} {adds : Adds} :
      w.elections[i]? = some c → w.announce it now i c = .ok (w', adds) →
      Act E now w (.opening i) w' adds (some (.timeout i))
  | timeout {i : ℕ} {c : Contest} {w' : World} {adds : Adds} : w.elections[i]? = some c →
      (now - c.lastVote < seconds 15 ∨ w.updating = none) →
      w.timeout now i c = .ok (w', adds) → Act E now w (.timeout i) w' adds none
  | announce {i : ℕ} {c : Contest} {it : Iteration} {w' : World} {adds : Adds} :
      w.elections[i]? = some c → w.announce it now i c = .ok (w', adds) →
      Act E now w (.announce i) w' adds none
  | confirm {i : ℕ} {b : Block} : Act E now w (.confirm i (some b)) w [] none

/-- A block or a vote comes from the network and waits for the mutex, the vote goes on, or the
ledger changes. A key made up for an election signs the vote it begins with. -/
inductive Call (E : Env) (now : ℤ) (w : World) : World → Adds → Prop
  | start {it : Iteration} {fuel : ℕ} {b : Block} {anonymous : Account} {signature : Signature}
      {w' : World} {adds : Adds} : w.updating = none →
      Vote.Signed E ⟨0, b, anonymous, signature⟩ →
      w.start E it fuel now b anonymous signature = .ok (w', adds) → Call E now w w' adds
  | update {v : Vote} : w.updating = none → Call E now w (w.update E v) []
  | count {it : Iteration} {fuel i : ℕ} {c : Contest} {changed wasConfirmed : Bool} {w' : World}
      {ballot : Ballot} : w.updating = some (i, .entered changed wasConfirmed) →
      w.elections[i]? = some c → w.count E it fuel i c changed wasConfirmed = .ok (w', ballot) →
      Call E now w { w' with updating := some (i, ballot) } []
  | handOver {i : ℕ} {c : Contest} {wasConfirmed : Bool} {winner : Option Block} :
      w.updating = some (i, .counted wasConfirmed winner) → w.elections[i]? = some c →
      Call E now w { w with updating := none } (handOver now i c wasConfirmed winner)
  | ledger {x : LedgerRuns.Action} {s' : Store} : LedgerRuns.Step E w.store x s' →
      Call E now w { w with store := s' } []

def program (E : Env) : Program ℤ World Function := ⟨Act E, Call E⟩

def Fresh (E : Env) (w : World) : Prop :=
  Reachable E w.store ∧ w.elections = [] ∧ w.roots = ∅ ∧ w.updating = none

abbrev Node := System ℤ World Function

section Votes
variable {E : Env} {s : Store} {v : Vote} {vs : Votes} {b : Block}

theorem vote_record (E : Env) (vs : Votes) (v : Vote) : (vs.vote E v).2 = vs ∨
    ∃ q, (vs.vote E v).2 = { vs with repVotes := vs.repVotes.put v.account (q, v.block) } := by
  have heffect := vote_effect E vs v
  generalize vs.vote E v = r at heffect
  cases heffect with
  | unsigned => exact Or.inl rfl
  | late => exact Or.inl rfl
  | same => exact Or.inl rfl
  | first => exact Or.inr ⟨_, rfl⟩
  | changed => exact Or.inr ⟨_, rfl⟩

theorem id_vote (E : Env) (vs : Votes) (v : Vote) : (vs.vote E v).2.id = vs.id := by
  rcases vote_record E vs v with h | ⟨q, h⟩
  · rw [h]
  · rw [h]

theorem voted_of_vote (h : Voted (vs.vote E v).2 b) : Voted vs b ∨ b = v.block := by
  rcases vote_record E vs v with hr | ⟨q, hr⟩
  · rw [hr] at h
    exact Or.inl h
  · rw [hr] at h
    obtain ⟨a, q', hg⟩ := h
    rw [Table.get_put] at hg
    split_ifs at hg with ha
    · cases hg
      exact Or.inr rfl
    · exact Or.inl ⟨a, q', hg⟩

theorem exists_voted_vote (h : ∃ b, Voted vs b) : ∃ b, Voted (vs.vote E v).2 b := by
  rcases vote_record E vs v with hr | ⟨q, hr⟩
  · rwa [hr]
  · rw [hr]
    exact ⟨v.block, v.account, q, by simp⟩

end Votes

/-- Counting the votes of an election changes its winner and may confirm it. -/
structure Recounted (c c' : Contest) : Prop where
  votes : c'.election.votes = c.election.votes
  lastVote : c'.lastVote = c.lastVote
  voted : Voted c.election.votes c'.election.lastWinner
  final : c.election.confirmed = true → c'.election.confirmed = true

section Counting
variable {E : Env} {it : Iteration} {fuel i : ℕ} {w w' : World} {c : Contest} {v : Vote}
  {changed wasConfirmed : Bool} {ballot : Ballot}

theorem recounted {s s' : Store} {c' : Contest} (h : c.count E it fuel s = .ok (s', c')) :
    Recounted c c' := by
  obtain ⟨top, hf, h⟩ := bind_eq_ok.mp h
  obtain ⟨t, _, h⟩ := bind_eq_ok.mp h
  cases h
  refine ⟨rfl, rfl, (tally_first (demand_eq_ok.mp hf)).1, fun hconf => ?_⟩
  simp [hconf]

theorem count_eq_ok (h : w.count E it fuel i c changed wasConfirmed = .ok (w', ballot)) :
    (¬ (wasConfirmed = false ∧ changed = true) ∧ w' = w ∧ ballot = .counted wasConfirmed none) ∨
      (wasConfirmed = false ∧ changed = true ∧ ∃ s' c', Recounted c c' ∧
        w' = { w with store := s', elections := w.elections.set i c' } ∧
        ballot = .counted wasConfirmed (some c'.election.lastWinner)) := by
  rcases ite_eq_ok.mp h with ⟨hc, h⟩ | ⟨hc, h⟩
  · rw [Bool.and_eq_true, Bool.not_eq_true'] at hc
    obtain ⟨⟨s', c'⟩, hcount, h⟩ := bind_eq_ok.mp h
    cases h
    exact Or.inr ⟨hc.1, hc.2, s', c', recounted (relabel_eq_ok.mp hcount), rfl, rfl⟩
  · cases h
    rw [Bool.and_eq_true, Bool.not_eq_true'] at hc
    exact Or.inl ⟨hc, rfl, rfl⟩

/-- A vote in an election is its three steps, when nobody comes between them. -/
theorem vote_eq_steps (E : Env) (it : Iteration) (fuel : ℕ) (s : Store) (c : Contest) (v : Vote) :
    c.election.vote E it fuel s v =
      if !c.election.confirmed && (c.election.votes.vote E v).1 then do
        let r ← (c.enter E v).count E it fuel s
        return (r.1, r.2.election,
          if r.2.election.confirmed then some r.2.election.lastWinner else none)
      else return (s, (c.enter E v).election, none) := by
  unfold Election.vote
  refine ite_congr rfl (fun hc => ?_) fun _ => rfl
  rw [Bool.and_eq_true, Bool.not_eq_true'] at hc
  simp only [Contest.count, Contest.enter, bind_assoc, pure_bind, hc.1, Bool.false_or]

/-- What a vote does to an election when nobody comes between, and when the confirmation action is
scheduled. -/
theorem vote_result {s s' : Store} {e' : Election} {action : Option Block}
    (h : c.election.vote E it fuel s v = .ok (s', e', action)) :
    e'.votes = c.election.votesWith E v ∧
    (e'.lastWinner = c.election.lastWinner ∨ Voted (c.election.votesWith E v) e'.lastWinner) ∧
    (c.election.confirmed = false →
      action = if e'.confirmed then some e'.lastWinner else none) := by
  rw [vote_eq_steps] at h
  rcases ite_eq_ok.mp h with ⟨_, h⟩ | ⟨_, h⟩
  · obtain ⟨⟨s', c'⟩, hcount, h⟩ := bind_eq_ok.mp h
    cases h
    have hc' := recounted hcount
    exact ⟨hc'.votes, Or.inr hc'.voted, fun _ => rfl⟩
  · cases h
    refine ⟨rfl, Or.inl rfl, fun hopen => ?_⟩
    simp [Contest.enter, hopen]

theorem update_cases (E : Env) (w : World) (v : Vote) : w.update E v = w ∨
    ∃ i c, w.roots.get v.block.root = some i ∧ w.elections[i]? = some c ∧
      w.update E v = { (w.enter E i c v).1 with updating := some (i, (w.enter E i c v).2) } := by
  unfold World.update
  split
  · exact Or.inl rfl
  · split
    · exact Or.inl rfl
    · exact Or.inr ⟨_, _, ‹_›, ‹_›, rfl⟩

end Counting

def Function.election : Function → ℕ
  | .start i => i
  | .represent i _ _ => i
  | .cast i _ _ => i
  | .voting i _ _ => i
  | .opening i => i
  | .timeout i => i
  | .announce i => i
  | .confirm i _ => i

/-- The functions of which one is left until the election is taken out of `conflicts`. -/
def Function.timer : Function → Option ℕ
  | .start i => some i
  | .represent i _ _ => some i
  | .cast i _ _ => some i
  | .voting i _ _ => some i
  | .opening i => some i
  | .timeout i => some i
  | .announce _ => none
  | .confirm _ _ => none

def Function.confirmation : Function → Option ℕ
  | .start _ => none
  | .represent _ _ _ => none
  | .cast _ _ _ => none
  | .voting _ _ _ => none
  | .opening _ => none
  | .timeout _ => none
  | .announce _ => none
  | .confirm i _ => some i

/-- The call of `election::vote` that a function is in. -/
def Function.ballot : Function → Option (ℕ × Ballot)
  | .start _ => none
  | .represent _ _ _ => none
  | .cast _ _ _ => none
  | .voting i _ ballot => some (i, ballot)
  | .opening _ => none
  | .timeout _ => none
  | .announce _ => none
  | .confirm _ _ => none

def timers (i : ℕ) (fs : Multiset Function) : ℕ := fs.countP fun f => f.timer = some i

/-- Elections are found under their roots, and all votes of an election and its last winner have
its root. There is a vote in every election. -/
structure Settled (es : List Contest) (roots : Table BlockHash ℕ) : Prop where
  keyed : ∀ r i, roots.get r = some i → ∃ c, es[i]? = some c ∧ c.root = r
  voted : ∀ c ∈ es, ∃ b, Voted c.election.votes b
  rooted : ∀ c ∈ es, ∀ b, Voted c.election.votes b → b.root = c.root
  winner : ∀ c ∈ es, c.election.lastWinner.root = c.root

/-- An election in `conflicts` has one timer, unless the service was stopped; the others have
none. -/
structure Timers (d : Bool) (es : List Contest) (roots : Table BlockHash ℕ)
    (fs : Multiset Function) : Prop where
  known : ∀ f ∈ fs, f.election < es.length
  captured : ∀ i n v, Function.cast i n v ∈ fs → ∀ c, es[i]? = some c → v.block.root = c.root
  once : ∀ i, timers i fs ≤ 1
  present : ∀ i, 0 < timers i fs → ∀ c, es[i]? = some c → roots.get c.root = some i
  timed : d = false → ∀ r i, roots.get r = some i → 0 < timers i fs

section Keeping
variable {d : Bool} {es : List Contest} {roots : Table BlockHash ℕ} {i : ℕ} {c c' : Contest}
  {adds : Adds} {fs gs : Multiset Function} {f g : Function}

theorem timers_cons (i : ℕ) (f : Function) (fs : Multiset Function) :
    timers i (f ::ₘ fs) = timers i fs + if f.timer = some i then 1 else 0 :=
  Multiset.countP_cons _ _ _

theorem timer_election (h : f.timer = some i) : f.election = i := by
  cases f <;> cases h <;> rfl

namespace Timers

theorem timers_eq_zero (h : Timers d es roots fs) (hi : es.length ≤ i) : timers i fs = 0 := by
  refine Multiset.countP_eq_zero.mpr fun f hf ht => ?_
  have hlt := h.known f hf
  rw [timer_election ht] at hlt
  omega

theorem add (h : Timers d es roots fs) (hf : f.timer = none) (hlt : f.election < es.length) :
    Timers d es roots (f ::ₘ fs) := by
  have hcount : ∀ i, timers i (f ::ₘ fs) = timers i fs := by
    intro i
    rw [timers_cons, hf]
    rfl
  refine ⟨?_, ?_, ?_, ?_, ?_⟩
  · intro g hg
    rcases Multiset.mem_cons.mp hg with rfl | hg
    · exact hlt
    · exact h.known g hg
  · intro i n v hmem
    rcases Multiset.mem_cons.mp hmem with rfl | hmem
    · cases hf
    · exact h.captured i n v hmem
  · exact fun i => (hcount i).symm ▸ h.once i
  · exact fun i hi => h.present i (hcount i ▸ hi)
  · exact fun hd r i hr => (hcount i).symm ▸ h.timed hd r i hr

theorem addAll (h : Timers d es roots fs)
    (hadds : ∀ a ∈ adds, a.2.timer = none ∧ a.2.election < es.length) :
    Timers d es roots (fs + ((accepted d adds).map Prod.snd : List Function)) := by
  have hall : ∀ a ∈ accepted d adds, a.2.timer = none ∧ a.2.election < es.length :=
    fun a ha => hadds a (mem_of_mem_accepted ha)
  generalize accepted d adds = as at hall
  induction as with
  | nil => rwa [List.map_nil, Multiset.coe_nil, add_zero]
  | cons a as ih =>
      have ha := hall a List.mem_cons_self
      rw [List.map_cons, ← Multiset.cons_coe, Multiset.add_cons]
      exact (ih fun x hx => hall x (List.mem_cons_of_mem a hx)).add ha.1 ha.2

theorem drop (h : Timers d es roots (f ::ₘ fs)) (hf : f.timer = none) : Timers d es roots fs := by
  have hcount : ∀ i, timers i (f ::ₘ fs) = timers i fs := by
    intro i
    rw [timers_cons, hf]
    rfl
  exact ⟨fun g hg => h.known g (Multiset.mem_cons_of_mem hg),
    fun i n v hmem => h.captured i n v (Multiset.mem_cons_of_mem hmem),
    fun i => hcount i ▸ h.once i, fun i hi => h.present i ((hcount i).symm ▸ hi),
    fun hd r i hr => hcount i ▸ h.timed hd r i hr⟩

/-- A function goes on as another of its election. -/
theorem replace (h : Timers d es roots (f ::ₘ fs)) (hg : g.timer = f.timer)
    (he : g.election = f.election)
    (hb : ∀ i n v, g = .cast i n v → ∀ c, es[i]? = some c → v.block.root = c.root) :
    Timers d es roots (g ::ₘ fs) := by
  have hcount : ∀ i, timers i (g ::ₘ fs) = timers i (f ::ₘ fs) := by
    intro i
    rw [timers_cons, timers_cons, hg]
  refine ⟨?_, ?_, ?_, ?_, ?_⟩
  · intro x hx
    rcases Multiset.mem_cons.mp hx with rfl | hx
    · exact he ▸ h.known f (Multiset.mem_cons_self f fs)
    · exact h.known x (Multiset.mem_cons_of_mem hx)
  · intro i n v hmem
    rcases Multiset.mem_cons.mp hmem with rfl | hmem
    · exact hb i n v rfl
    · exact h.captured i n v (Multiset.mem_cons_of_mem hmem)
  · exact fun i => (hcount i).symm ▸ h.once i
  · exact fun i hi => h.present i (hcount i ▸ hi)
  · exact fun hd r i hr => (hcount i).symm ▸ h.timed hd r i hr

theorem stop (h : Timers d es roots fs) (hle : gs ≤ fs) : Timers true es roots gs := by
  have hcount : ∀ i, timers i gs ≤ timers i fs := fun i => Multiset.countP_le_of_le _ hle
  exact ⟨fun f hf => h.known f (Multiset.mem_of_le hle hf),
    fun i n v hmem => h.captured i n v (Multiset.mem_of_le hle hmem),
    fun i => (hcount i).trans (h.once i), fun i hi => h.present i (hi.trans_le (hcount i)),
    fun hd => by cases hd⟩

theorem set (h : Timers d es roots fs) (hc : es[i]? = some c) (hroot : c'.root = c.root) :
    Timers d (es.set i c') roots fs := by
  have hback : ∀ {j : ℕ} {x : Contest}, (es.set i c')[j]? = some x →
      ∃ y, es[j]? = some y ∧ x.root = y.root := by
    intro j x hx
    rw [List.getElem?_set] at hx
    split_ifs at hx with hij hlt
    · cases hx
      exact ⟨c, hij ▸ hc, hroot⟩
    · exact ⟨x, hx, rfl⟩
  refine ⟨fun f hf => by rw [List.length_set]; exact h.known f hf, ?_, h.once, ?_, h.timed⟩
  · intro j n v hmem x hx
    obtain ⟨y, hy, hxy⟩ := hback hx
    exact (h.captured j n v hmem y hy).trans hxy.symm
  · intro j hj x hx
    obtain ⟨y, hy, hxy⟩ := hback hx
    rw [hxy]
    exact h.present j hj y hy

/-- The timer takes its election out of `conflicts`. -/
theorem del (h : Timers d es roots (.timeout i ::ₘ fs)) (hc : es[i]? = some c)
    (hkeyed : ∀ r i, roots.get r = some i → ∃ c, es[i]? = some c ∧ c.root = r) :
    Timers d es (roots.del c.root) fs := by
  have hcount : ∀ j, timers j (.timeout i ::ₘ fs) = timers j fs + if i = j then 1 else 0 := by
    intro j
    rw [timers_cons]
    simp [Function.timer]
  have hzero : timers i fs = 0 := by
    have hi := h.once i
    rw [hcount, if_pos rfl] at hi
    omega
  have hhere : roots.get c.root = some i := h.present i (by rw [hcount, if_pos rfl]; omega) c hc
  refine ⟨fun f hf => h.known f (Multiset.mem_cons_of_mem hf),
    fun j n v hmem => h.captured j n v (Multiset.mem_cons_of_mem hmem), ?_, ?_, ?_⟩
  · intro j
    have hj := h.once j
    rw [hcount] at hj
    omega
  · intro j hj x hx
    have hthere := h.present j (by rw [hcount]; omega) x hx
    rw [Table.get_del_ne]
    · exact hthere
    · intro heq
      rw [heq, hhere] at hthere
      cases hthere
      omega
  · intro hd r j hr
    by_cases hrc : r = c.root
    · rw [hrc, Table.get_del_self] at hr
      cases hr
    · rw [Table.get_del_ne _ hrc] at hr
      have hj := h.timed hd r j hr
      rw [hcount] at hj
      have hij : i ≠ j := by
        intro hij
        subst hij
        obtain ⟨x, hx, rfl⟩ := hkeyed r i hr
        cases hc.symm.trans hx
        exact hrc rfl
      rwa [if_neg hij] at hj

theorem timers_start (fs : Multiset Function) (d : Bool) (now : ℤ) (n j : ℕ) :
    timers j (fs + ((accepted d [(now, Function.start n)]).map Prod.snd : List Function)) =
      timers j fs + if d = false ∧ n = j then 1 else 0 := by
  rw [timers, Multiset.countP_add]
  cases d with
  | true => simp [accepted, timers]
  | false =>
      have hone := timers_cons j (.start n) 0
      simp only [Function.timer, Option.some.injEq] at hone
      simpa [accepted, timers] using hone

/-- A new election comes, with its timer unless the service was stopped. -/
theorem put (h : Timers d es roots fs) (hnone : roots.get c.root = none) (now : ℤ) :
    Timers d (es ++ [c]) (roots.put c.root es.length)
      (fs + ((accepted d [(now, Function.start es.length)]).map Prod.snd : List Function)) := by
  have hnew : ∀ f ∈ (accepted d [(now, Function.start es.length)]).map Prod.snd,
      f = .start es.length := by
    cases d <;> simp [accepted]
  have hcount := timers_start fs d now es.length
  have hold : ∀ {j : ℕ} {x : Contest}, (es ++ [c])[j]? = some x → j ≠ es.length →
      es[j]? = some x := by
    intro j x hx hj
    have hlt := (List.getElem?_eq_some_iff.mp hx).1
    rw [List.length_append, List.length_singleton] at hlt
    rwa [List.getElem?_append_left (by omega)] at hx
  have hzero := h.timers_eq_zero (Nat.le_refl es.length)
  refine ⟨?_, ?_, ?_, ?_, ?_⟩
  · intro f hf
    rw [List.length_append, List.length_singleton]
    rcases Multiset.mem_add.mp hf with hf | hf
    · exact Nat.lt_succ_of_lt (h.known f hf)
    · rw [hnew f (Multiset.mem_coe.mp hf)]
      exact Nat.lt_succ_self _
  · intro j n v hmem x hx
    rcases Multiset.mem_add.mp hmem with hmem | hmem
    · exact h.captured j n v hmem x (hold hx (Nat.ne_of_lt (h.known _ hmem)))
    · cases hnew _ (Multiset.mem_coe.mp hmem)
  · intro j
    have hj := h.once j
    rw [hcount]
    split_ifs with hif
    · rw [← hif.2, hzero]
    · exact hj
  · intro j hj x hx
    by_cases hjn : j = es.length
    · subst hjn
      rw [List.getElem?_concat_length] at hx
      cases hx
      exact Table.get_put_self _ _ _
    · have hj : 0 < timers j fs := by
        rw [hcount, if_neg (fun hif => hjn hif.2.symm)] at hj
        exact hj
      have hthere := h.present j hj x (hold hx hjn)
      rw [Table.get_put_ne]
      · exact hthere
      · intro heq
        rw [heq, hnone] at hthere
        cases hthere
  · intro hd r j hr
    rw [hcount]
    rw [Table.get_put] at hr
    split_ifs at hr with hrc
    · cases hr
      rw [if_pos ⟨hd, rfl⟩]
      omega
    · have hj := h.timed hd r j hr
      omega

end Timers

end Keeping

/-- The elections and what is left to run for them. -/
structure Ordered (d : Bool) (w : World) (fs : Multiset Function) : Prop where
  settled : Settled w.elections w.roots
  timers : Timers d w.elections w.roots fs

section Steps
variable {E : Env} {it : Iteration} {fuel : ℕ} {now : ℤ} {d : Bool} {w w' : World} {i : ℕ}
  {c : Contest} {v : Vote} {adds : Adds} {fs : Multiset Function} {rest : Option Function}
  {f : Function} {changed wasConfirmed : Bool} {ballot : Ballot}

theorem Settled.del {es : List Contest} {roots : Table BlockHash ℕ} (h : Settled es roots)
    (r : BlockHash) : Settled es (roots.del r) where
  __ := h
  keyed := by
    intro k j hj
    rw [Table.get_del] at hj
    split_ifs at hj
    exact h.keyed k j hj

theorem Settled.set {es : List Contest} {roots : Table BlockHash ℕ} {c' : Contest}
    (h : Settled es roots) (hc : es[i]? = some c) (hid : c'.root = c.root)
    (hvoted : ∃ b, Voted c'.election.votes b)
    (hrooted : ∀ b, Voted c'.election.votes b → b.root = c'.root)
    (hwinner : c'.election.lastWinner.root = c'.root) : Settled (es.set i c') roots := by
  refine ⟨?_, ?_, ?_, ?_⟩
  · intro r j hj
    obtain ⟨x, hx, rfl⟩ := h.keyed r j hj
    by_cases hij : i = j
    · subst hij
      cases hc.symm.trans hx
      exact ⟨c', List.getElem?_set_self (List.getElem?_eq_some_iff.mp hc).1, hid⟩
    · exact ⟨x, (List.getElem?_set_ne hij).trans hx, rfl⟩
  · intro x hx
    rcases List.mem_or_eq_of_mem_set hx with hx | rfl
    · exact h.voted x hx
    · exact hvoted
  · intro x hx
    rcases List.mem_or_eq_of_mem_set hx with hx | rfl
    · exact h.rooted x hx
    · exact hrooted
  · intro x hx
    rcases List.mem_or_eq_of_mem_set hx with hx | rfl
    · exact h.winner x hx
    · exact hwinner

theorem Ordered.enter (h : Ordered d w fs) (hc : w.elections[i]? = some c)
    (hroot : v.block.root = c.root) : Ordered d (w.enter E i c v).1 fs := by
  have hmem := List.mem_of_getElem? hc
  have hid : (c.enter E v).root = c.root := id_vote E c.election.votes v
  refine ⟨h.settled.set hc hid (exists_voted_vote (h.settled.voted c hmem)) ?_ ?_,
    h.timers.set hc hid⟩
  · intro b hb
    rw [hid]
    rcases voted_of_vote hb with hb | rfl
    · exact h.settled.rooted c hmem b hb
    · exact hroot
  · rw [hid]
    exact h.settled.winner c hmem

theorem Ordered.count (h : Ordered d w fs) (hc : w.elections[i]? = some c)
    (hcount : w.count E it fuel i c changed wasConfirmed = .ok (w', ballot)) : Ordered d w' fs := by
  rcases count_eq_ok hcount with ⟨_, rfl, _⟩ | ⟨_, _, s', c', hc', rfl, _⟩
  · exact h
  · have hmem := List.mem_of_getElem? hc
    have hid : c'.root = c.root := congrArg Votes.id hc'.votes
    refine ⟨h.settled.set hc hid ?_ ?_ ?_, h.timers.set hc hid⟩
    · exact hc'.votes.symm ▸ h.settled.voted c hmem
    · exact hid.symm ▸ hc'.votes.symm ▸ h.settled.rooted c hmem
    · exact hid.symm ▸ h.settled.rooted c hmem _ hc'.voted

theorem Ordered.addAll (h : Ordered d w fs)
    (hadds : ∀ a ∈ adds, a.2.timer = none ∧ a.2.election < w.elections.length) :
    Ordered d w (fs + ((accepted d adds).map Prod.snd : List Function)) :=
  ⟨h.settled, h.timers.addAll hadds⟩

theorem mem_handOver {winner : Option Block} {a : ℤ × Function}
    (h : a ∈ handOver now i c wasConfirmed winner) : a = (now, .confirm i winner) := by
  unfold handOver at h
  split_ifs at h
  · exact List.mem_singleton.mp h
  · cases h

theorem Ordered.handOver {winner : Option Block} (h : Ordered d w fs)
    (hc : w.elections[i]? = some c) :
    Ordered d w (fs + ((accepted d (handOver now i c wasConfirmed winner)).map Prod.snd :
      List Function)) := by
  refine h.addAll fun a ha => ?_
  rw [mem_handOver ha]
  exact ⟨rfl, (List.getElem?_eq_some_iff.mp hc).1⟩

theorem announce_eq_ok (h : w.announce it now i c = .ok (w', adds)) : ∃ b,
    winner w.store it c.election.votes = some b ∧
      w' = { w with announced := w.announced ++ [(i, b, c.election.votes.sequence)] } ∧
      ∀ a ∈ adds, a = (now + seconds 15, .announce i) := by
  obtain ⟨b, hb, h⟩ := bind_eq_ok.mp h
  cases h
  refine ⟨b, demand_eq_ok.mp hb, rfl, fun a ha => ?_⟩
  split_ifs at ha
  · exact List.mem_singleton.mp ha
  · cases ha

theorem timeout_eq_ok (h : w.timeout now i c = .ok (w', adds)) :
    (now - c.lastVote < seconds 15 ∧ w' = w ∧ adds = [(now + seconds 15, .timeout i)]) ∨
      (¬ now - c.lastVote < seconds 15 ∧ w.roots.get c.root ≠ none ∧
        w' = { w with roots := w.roots.del c.root } ∧ adds = []) := by
  rcases ite_eq_ok.mp h with ⟨hlt, h⟩ | ⟨hlt, h⟩
  · cases h
    exact Or.inl ⟨hlt, rfl, rfl⟩
  · obtain ⟨x, hstop, h⟩ := bind_eq_ok.mp h
    cases h
    obtain ⟨_, hpresent, hstop⟩ := bind_eq_ok.mp hstop
    cases hstop
    refine Or.inr ⟨hlt, ?_, rfl, rfl⟩
    exact Option.isSome_iff_ne_none.mp (require_eq_ok.mp hpresent)

theorem Ordered.announce (h : Ordered d w fs) (hc : w.elections[i]? = some c)
    (hann : w.announce it now i c = .ok (w', adds)) :
    Ordered d w' (fs + ((accepted d adds).map Prod.snd : List Function)) := by
  obtain ⟨b, _, rfl, hadds⟩ := announce_eq_ok hann
  refine ⟨h.settled, h.timers.addAll fun a ha => ?_⟩
  rw [hadds a ha]
  exact ⟨rfl, (List.getElem?_eq_some_iff.mp hc).1⟩

theorem Ordered.replace {g : Function} (h : Ordered d w (f ::ₘ fs))
    (hg : g.timer = f.timer) (he : g.election = f.election)
    (hb : ∀ i n v, g = .cast i n v → ∀ c, w.elections[i]? = some c → v.block.root = c.root) :
    Ordered d w (g ::ₘ fs) :=
  ⟨h.settled, h.timers.replace hg he hb⟩

theorem Ordered.drop (h : Ordered d w (f ::ₘ fs)) (hf : f.timer = none) : Ordered d w fs :=
  ⟨h.settled, h.timers.drop hf⟩

theorem Ordered.timeout (h : Ordered d w (.timeout i ::ₘ fs)) (hc : w.elections[i]? = some c)
    (ht : w.timeout now i c = .ok (w', adds)) :
    Ordered d w' (fs + ((accepted d adds).map Prod.snd : List Function)) := by
  rcases timeout_eq_ok ht with ⟨_, rfl, rfl⟩ | ⟨_, _, rfl, rfl⟩
  · refine ⟨h.settled, ?_⟩
    cases d with
    | true => simpa [accepted] using h.timers.stop (Multiset.le_cons_self fs _)
    | false =>
        have hsame : fs + (([Function.timeout i] : List Function) : Multiset Function) =
            .timeout i ::ₘ fs := by
          rw [Multiset.coe_singleton, add_comm, Multiset.singleton_add]
        exact hsame.symm ▸ h.timers
  · rw [accepted_nil, List.map_nil, Multiset.coe_nil, add_zero]
    exact ⟨h.settled.del c.root, h.timers.del hc h.settled.keyed⟩

theorem Ordered.act (h : Ordered d w (f ::ₘ fs)) (hact : Act E now w f w' adds rest) :
    Ordered d w' (↑rest.toList + fs + ((accepted d adds).map Prod.snd : List Function)) := by
  have hread : ∀ {w : World} {g : Function}, Ordered d w (g ::ₘ fs) →
      Ordered d w (↑(some g).toList + fs + ((accepted d ([] : Adds)).map Prod.snd :
        List Function)) := by
    intro w g hg
    simpa using hg
  cases hact with
  | start hc => exact hread (h.replace rfl rfl (by intro j n v heq; cases heq))
  | @clone i c voted representative signature hc =>
      refine hread (h.replace rfl rfl ?_)
      intro j n v heq x hx
      cases heq
      cases hc.symm.trans hx
      exact h.settled.winner c (List.mem_of_getElem? hc)
  | @enter i n c v hc =>
      have hroot := h.timers.captured i n v (Multiset.mem_cons_self _ _) c hc
      exact hread ((h.enter hc hroot).replace rfl rfl (by intro j n v heq; cases heq))
  | count hc hcount =>
      exact hread ((h.count hc hcount).replace rfl rfl (by intro j n v heq; cases heq))
  | @handOver i n c wasConfirmed winner hc =>
      have hnext : Ordered d w (.represent i n true ::ₘ fs) :=
        h.replace rfl rfl (by intro j n v heq; cases heq)
      exact hnext.handOver hc
  | @represented i n voted =>
      refine hread (h.replace ?_ ?_ ?_)
      · cases voted <;> rfl
      · cases voted <;> rfl
      · intro j n v heq
        cases voted <;> cases heq
  | @opening i c it w' adds hc hann =>
      have hnext : Ordered d w (.timeout i ::ₘ fs) :=
        h.replace rfl rfl (by intro j n v heq; cases heq)
      exact hnext.announce hc hann
  | timeout hc hfree ht => simpa using h.timeout hc ht
  | announce hc hann => simpa using (h.drop rfl).announce hc hann
  | confirm => simpa using h.drop rfl

theorem start_eq_ok {b : Block} {anonymous : Account} {signature : Signature}
    (h : w.start E it fuel now b anonymous signature = .ok (w', adds)) :
    (w' = w ∧ adds = []) ∨ (w.roots.get b.root = none ∧ ∃ s' e' action,
      Election.vote E it fuel w.store ⟨Votes.new b.root, b, false⟩ ⟨0, b, anonymous, signature⟩ =
        .ok (s', e', action) ∧
      w' = { w with
        store := s', elections := w.elections ++ [⟨e', now, 0⟩],
        roots := w.roots.put b.root w.elections.length } ∧
      adds = (action.toList.map fun b => (now, Function.confirm w.elections.length (some b))) ++
        [(now, .start w.elections.length)]) := by
  unfold World.start at h
  cases hr : w.roots.get b.root with
  | some j =>
      rw [hr] at h
      cases h
      exact Or.inl ⟨rfl, rfl⟩
  | none =>
      rw [hr] at h
      obtain ⟨⟨s', e', action⟩, hstart, h⟩ := bind_eq_ok.mp h
      cases h
      obtain ⟨_, _, hvote⟩ := bind_eq_ok.mp (relabel_eq_ok.mp hstart)
      exact Or.inr ⟨rfl, s', e', action, hvote, rfl, rfl⟩

theorem voted_first {b : Block} {anonymous : Account} {signature : Signature} (id : BlockHash)
    (hsigned : Vote.Signed E ⟨0, b, anonymous, signature⟩) :
    Voted ((Votes.new id).vote E ⟨0, b, anonymous, signature⟩).2 b := by
  have heffect := vote_effect E (Votes.new id) ⟨0, b, anonymous, signature⟩
  generalize (Votes.new id).vote E ⟨0, b, anonymous, signature⟩ = r at heffect
  cases heffect with
  | unsigned hnot => exact absurd hsigned hnot
  | late hg _ => cases hg
  | same hg => cases hg
  | first _ _ => exact ⟨anonymous, 0, Table.get_put_self _ _ _⟩
  | changed _ hg _ _ => cases hg

theorem Settled.put {es : List Contest} {roots : Table BlockHash ℕ} {c' : Contest}
    (h : Settled es roots) (hvoted : ∃ b, Voted c'.election.votes b)
    (hrooted : ∀ b, Voted c'.election.votes b → b.root = c'.root)
    (hwinner : c'.election.lastWinner.root = c'.root) :
    Settled (es ++ [c']) (roots.put c'.root es.length) := by
  have hmem : ∀ x ∈ es ++ [c'], x ∈ es ∨ x = c' := by
    intro x hx
    exact (List.mem_append.mp hx).imp id List.mem_singleton.mp
  refine ⟨?_, ?_, ?_, ?_⟩
  · intro r j hj
    rw [Table.get_put] at hj
    split_ifs at hj with hr
    · cases hj
      exact ⟨c', List.getElem?_concat_length, hr.symm⟩
    · obtain ⟨x, hx, rfl⟩ := h.keyed r j hj
      exact ⟨x, by rwa [List.getElem?_append_left (List.getElem?_eq_some_iff.mp hx).1], rfl⟩
  · intro x hx
    rcases hmem x hx with hx | rfl
    · exact h.voted x hx
    · exact hvoted
  · intro x hx
    rcases hmem x hx with hx | rfl
    · exact h.rooted x hx
    · exact hrooted
  · intro x hx
    rcases hmem x hx with hx | rfl
    · exact h.winner x hx
    · exact hwinner

/-- An election is started unless there is one with its root. -/
theorem Ordered.start {b : Block} {anonymous : Account} {signature : Signature}
    (h : Ordered d w fs) (hsigned : Vote.Signed E ⟨0, b, anonymous, signature⟩)
    (hstart : w.start E it fuel now b anonymous signature = .ok (w', adds)) :
    Ordered d w' (fs + ((accepted d adds).map Prod.snd : List Function)) := by
  rcases start_eq_ok hstart with ⟨rfl, rfl⟩ | ⟨hnone, s', e', action, hv, rfl, rfl⟩
  · simpa using h
  obtain ⟨hvotes, hlast, _⟩ := vote_result (c := ⟨⟨Votes.new b.root, b, false⟩, now, 0⟩) hv
  have hrooted : ∀ x, Voted e'.votes x → x.root = b.root := by
    intro x hx
    rw [hvotes] at hx
    rcases voted_of_vote hx with ⟨a, q, hg⟩ | rfl
    · cases hg
    · rfl
  have hid : (Contest.mk e' now 0).root = b.root := by
    rw [Contest.root, hvotes]
    exact id_vote E (Votes.new b.root) _
  have hvoted : ∃ b, Voted e'.votes b := ⟨b, hvotes ▸ voted_first b.root hsigned⟩
  have hwinner : e'.lastWinner.root = b.root := by
    rcases hlast with hlast | hlast
    · rw [hlast]
    · exact hrooted _ (hvotes ▸ hlast)
  refine ⟨hid ▸ h.settled.put hvoted (hid.symm ▸ hrooted) (hid.symm ▸ hwinner), ?_⟩
  have hput := h.timers.put (c := ⟨e', now, 0⟩) (hid.symm ▸ hnone) now
  rw [hid] at hput
  have hconfirm : ∀ a ∈ action.toList.map fun b =>
      (now, Function.confirm w.elections.length (some b)),
      a.2.timer = none ∧ a.2.election < (w.elections ++ [Contest.mk e' now 0]).length := by
    intro a ha
    obtain ⟨x, _, rfl⟩ := List.mem_map.mp ha
    exact ⟨rfl, by simp [Function.election]⟩
  have hall := hput.addAll hconfirm
  rw [add_right_comm] at hall
  rw [accepted_append, List.map_append, ← Multiset.coe_add, ← add_assoc]
  exact hall

theorem Ordered.update (h : Ordered d w fs) (v : Vote) : Ordered d (w.update E v) fs := by
  rcases update_cases E w v with hu | ⟨i, c, hr, hc, hu⟩
  · exact hu.symm ▸ h
  · rw [hu]
    obtain ⟨c', hc', hroot⟩ := h.settled.keyed _ i hr
    cases hc.symm.trans hc'
    have hentered := h.enter (E := E) hc hroot.symm
    exact ⟨hentered.settled, hentered.timers⟩

theorem Ordered.call (h : Ordered d w fs) (hcall : Call E now w w' adds) :
    Ordered d w' (fs + ((accepted d adds).map Prod.snd : List Function)) := by
  have hread : ∀ {w : World}, Ordered d w fs →
      Ordered d w (fs + ((accepted d ([] : Adds)).map Prod.snd : List Function)) := by
    intro w hw
    simpa using hw
  cases hcall with
  | start hfree hsigned hstart => exact h.start hsigned hstart
  | @update v hfree => exact hread (h.update v)
  | count hu hc hcount =>
      have hcounted := h.count hc hcount
      exact hread ⟨hcounted.settled, hcounted.timers⟩
  | handOver hu hc => exact ⟨h.settled, (h.handOver hc).timers⟩
  | ledger hstep => exact hread ⟨h.settled, h.timers⟩

theorem reached_ordered {σ : Node} (h : Reached (Initial (Fresh E)) (Step (program E)) σ) :
    Ordered σ.service.done σ.world σ.service.live := by
  refine live_invariant (I := fun d w _ fs => Ordered d w fs) ?_ Ordered.act Ordered.call ?_ h
  · intro w hw
    obtain ⟨_, hes, hroots, _⟩ := hw
    refine ⟨?_, ?_⟩
    · rw [hes, hroots]
      exact ⟨by simp, by simp, by simp, by simp⟩
    · rw [hes, hroots]
      exact ⟨by simp, by simp, by simp [timers], by simp, by simp⟩
  · intro d w added fs gs hle hd
    exact ⟨hd.settled, hd.timers.stop hle⟩

end Steps

section Sample
variable {E : Env} {it : Iteration} {fuel : ℕ} {s s' : Store} {b : Block} {anonymous : Account}
  {signature : Signature} {e : Election}

/-- The node without elections, when one thread is in `run`. -/
def emptyNode (s : Store) : Node :=
  ⟨0, ⟨s, [], ∅, [], none⟩, ⟨[], false, [(.run, .checking)], [], []⟩⟩

def startedNode (now : ℤ) (s : Store) (e : Election) (b : Block) : Node :=
  ⟨now, ⟨s, [⟨e, 0, 0⟩], Table.put ∅ b.root 0, [], none⟩,
    ⟨[⟨0, 0, .start 0⟩], false, [(.run, .checking)], [(0, .start 0)], []⟩⟩

theorem started_reached (hs : Reachable E s)
    (hsigned : Vote.Signed E ⟨0, b, anonymous, signature⟩)
    (h : Election.start E it fuel s b anonymous signature = .ok (s', e, none)) (now : ℤ) :
    Reached (Initial (Fresh E)) (Step (program E)) (startedNode now s' e b) := by
  have hspawn : Step (program E) ⟨0, ⟨s, [], ∅, [], none⟩, .new⟩ .outside (emptyNode s) :=
    Step.spawn .run
  have hstart : World.start E it fuel 0 (emptyNode s).world b anonymous signature =
      .ok (⟨s', [⟨e, 0, 0⟩], Table.put ∅ b.root 0, [], none⟩, [(0, .start 0)]) := by
    rw [World.start, emptyNode, Table.get_empty]
    simp only [relabel_eq_ok.mpr h]
    rfl
  have hcall : (program E).call (emptyNode s).now (emptyNode s).world _ _ :=
    Call.start rfl hsigned hstart
  have hstep : Step (program E) (emptyNode s) .outside (startedNode 0 s' e b) := Step.call hcall
  have hfresh : Initial (Fresh E) (⟨0, ⟨s, [], ∅, [], none⟩, .new⟩ : Node) :=
    ⟨⟨hs, rfl, rfl, rfl⟩, rfl⟩
  exact (((Reached.start hfresh).next hspawn).next hstep).next (Step.tick now)

theorem send_started : ∃ s e, ∀ now, Reached (Initial (Fresh ballotNetwork))
    (Step (program ballotNetwork)) (startedNode now s e send₁) := by
  have hrun : executes ballotNetwork 20 [.process send₁] (fun s =>
      returns (Election.start ballotNetwork .inPlace 20 s send₁ secondAccount
        openingBallot.signature) (fun r => r.2.2.isNone)) = true := by
    decide +kernel
  obtain ⟨s, hx, hrun⟩ := exists_of_executes hrun
  obtain ⟨⟨s', e, action⟩, hstart, hnone⟩ := exists_of_returns hrun
  have hsigned : openingBallot.Signed ballotNetwork := by
    unfold Vote.Signed
    decide +kernel
  cases action with
  | some b => cases hnone
  | none => exact ⟨s', e, started_reached (execute_reachable hx) hsigned hstart⟩

end Sample

section Safety
variable {E : Env} {σ τ : Node}

theorem running_live {l : Loop} {f : Function} {s : Service ℤ Function}
    (h : (l, Thread.running f) ∈ s.threads) : f ∈ s.live := by
  refine Multiset.mem_add.mpr (Or.inr (Multiset.mem_coe.mpr ?_))
  exact List.mem_filterMap.mpr ⟨_, h, rfl⟩

theorem timers_pos {i : ℕ} {f : Function} {fs : Multiset Function} (hf : f ∈ fs)
    (ht : f.timer = some i) : 0 < timers i fs :=
  Multiset.countP_pos.mpr ⟨f, hf, ht⟩

def Lasts (es es' : List Contest) : Prop :=
  ∀ (i : ℕ) c, es[i]? = some c → ∃ c', es'[i]? = some c' ∧ c'.root = c.root ∧
    c'.lastVote = c.lastVote ∧ (c.election.confirmed = true → c'.election.confirmed = true)

theorem Lasts.refl (es : List Contest) : Lasts es es :=
  fun _ c hc => ⟨c, hc, rfl, rfl, id⟩

section Lasting
variable {it : Iteration} {fuel : ℕ} {now : ℤ} {w w' : World} {i : ℕ} {c c' : Contest} {v : Vote}
  {adds : Adds} {rest : Option Function} {f : Function} {es : List Contest}
  {changed wasConfirmed : Bool} {ballot : Ballot}

theorem Lasts.set (hc : es[i]? = some c) (hroot : c'.root = c.root)
    (htime : c'.lastVote = c.lastVote)
    (hfinal : c.election.confirmed = true → c'.election.confirmed = true) :
    Lasts es (es.set i c') := by
  intro j x hx
  by_cases hij : i = j
  · subst hij
    cases hc.symm.trans hx
    exact ⟨c', List.getElem?_set_self (List.getElem?_eq_some_iff.mp hc).1, hroot, htime, hfinal⟩
  · exact ⟨x, (List.getElem?_set_ne hij).trans hx, rfl, rfl, id⟩

theorem Lasts.enter (hc : w.elections[i]? = some c) :
    Lasts w.elections (w.enter E i c v).1.elections :=
  .set hc (id_vote E c.election.votes v) rfl id

theorem Lasts.count (hc : w.elections[i]? = some c)
    (h : w.count E it fuel i c changed wasConfirmed = .ok (w', ballot)) :
    Lasts w.elections w'.elections := by
  rcases count_eq_ok h with ⟨_, rfl, _⟩ | ⟨_, _, s', c', hc', rfl, _⟩
  · exact .refl _
  · exact .set hc (congrArg Votes.id hc'.votes) hc'.lastVote hc'.final

theorem Lasts.act (h : Act E now w f w' adds rest) : Lasts w.elections w'.elections := by
  cases h with
  | start hc => exact .refl _
  | clone hc => exact .refl _
  | enter hc => exact .enter hc
  | count hc hcount => exact .count hc hcount
  | handOver hc => exact .refl _
  | represented => exact .refl _
  | opening hc hann =>
      obtain ⟨b, _, rfl, _⟩ := announce_eq_ok hann
      exact .refl _
  | timeout hc hfree ht =>
      rcases timeout_eq_ok ht with ⟨_, rfl, _⟩ | ⟨_, _, rfl, _⟩
      · exact .refl _
      · exact .refl _
  | announce hc hann =>
      obtain ⟨b, _, rfl, _⟩ := announce_eq_ok hann
      exact .refl _
  | confirm => exact .refl _

theorem Lasts.call (h : Call E now w w' adds) : Lasts w.elections w'.elections := by
  cases h with
  | start hfree hsigned hstart =>
      rcases start_eq_ok hstart with ⟨rfl, rfl⟩ | ⟨_, s', e', action, _, rfl, rfl⟩
      · exact .refl _
      · intro j x hx
        refine ⟨x, ?_, rfl, rfl, id⟩
        rwa [List.getElem?_append_left (List.getElem?_eq_some_iff.mp hx).1]
  | @update v hfree =>
      rcases update_cases E w v with hu | ⟨i, c, _, hc, hu⟩
      · rw [hu]
        exact .refl _
      · rw [hu]
        exact .enter hc
  | count hu hc hcount =>
      have hlasts := Lasts.count hc hcount
      exact hlasts
  | handOver hu hc => exact .refl _
  | ledger hstep => exact .refl _

end Lasting

theorem Lasts.step {a : Event} (h : Step (program E) σ a τ) :
    Lasts σ.world.elections τ.world.elections := by
  cases h with
  | tick t => exact .refl _
  | take hi hrun hops htop hnow => exact .refl _
  | wait hi hopen hd => exact .refl _
  | leave hi hd => exact .refl _
  | wake hi => exact .refl _
  | act hi hact => exact .act hact
  | call hcall => exact .call hcall
  | stop => exact .refl _
  | spawn l => exact .refl _

end Safety

end PaperNode.Conflicts
