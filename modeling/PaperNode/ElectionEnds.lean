import PaperNode.Conflicts

/-!
# Every election ends

The timer of an election is set while less than fifteen seconds have passed since it was made, and
takes the election out of `conflicts` after that. Votes do not put it off, since `last_vote` is only
written when the election is made. As long as the service runs, the timer of every election comes,
and a new election can be started on the root.
-/
namespace PaperNode.ElectionEnds
open BoundedRecursion OrderedTable TransitionRuns FairRuns Words Blocks BlockStore LedgerQueries
open VoteRecords Tally Elections ProcessorService Conflicts
open LedgerRuns hiding Step Initial Action

section Ending
variable {E : Env} {now : ℤ} {w w' : World} {adds : Adds} {rest : Option Function}
  {f : Function} {i : ℕ}

theorem seconds_nonneg : 0 ≤ seconds 15 := by decide

theorem handOver_ahead {c : Contest} {wasConfirmed : Bool} {winner : Option Block} :
    ∀ a ∈ handOver now i c wasConfirmed winner, now ≤ a.1 := by
  intro a ha
  rw [mem_handOver ha]

theorem announce_ahead {it : Iteration} {c : Contest} (h : w.announce it now i c = .ok (w', adds)) :
    ∀ a ∈ adds, now ≤ a.1 := by
  obtain ⟨b, _, _, hadds⟩ := announce_eq_ok h
  intro a ha
  rw [hadds a ha]
  exact Int.le_add_of_nonneg_right seconds_nonneg

/-- The node adds nothing for a time that is past. -/
theorem program_ahead (E : Env) : (program E).Ahead where
  act h := by
    cases h with
    | start hc => simp
    | clone hc => simp
    | enter hc => simp
    | count hc hcount => simp
    | handOver hc => exact handOver_ahead
    | represented => simp
    | opening hc hann => exact announce_ahead hann
    | timeout hc hfree ht =>
        rcases timeout_eq_ok ht with ⟨_, _, rfl⟩ | ⟨_, _, _, rfl⟩
        · intro a ha
          rw [List.mem_singleton.mp ha]
          exact Int.le_add_of_nonneg_right seconds_nonneg
        · simp
    | announce hc hann => exact announce_ahead hann
    | confirm => simp
  call h := by
    cases h with
    | start hfree hsigned hstart =>
        rcases start_eq_ok hstart with ⟨_, rfl⟩ | ⟨_, s', e', action, _, _, rfl⟩
        · simp
        · intro a ha
          rcases List.mem_append.mp ha with ha | ha
          · obtain ⟨b, _, rfl⟩ := List.mem_map.mp ha
            exact Int.le_refl _
          · rw [List.mem_singleton.mp ha]
    | update hfree => simp
    | count hu hc hcount => simp
    | handOver hu hc => exact handOver_ahead
    | ledger hstep => simp

/-- A function with the timer of an election goes on as another, unless it is `timeout_action`. -/
theorem act_timer (h : Act E now w f w' adds rest) (hf : f.timer = some i) :
    (∃ g, rest = some g ∧ g.timer = some i) ∨ (f = .timeout i ∧ rest = none) := by
  cases h with
  | start hc => exact Or.inl ⟨_, rfl, hf⟩
  | clone hc => exact Or.inl ⟨_, rfl, hf⟩
  | enter hc => exact Or.inl ⟨_, rfl, hf⟩
  | count hc hcount => exact Or.inl ⟨_, rfl, hf⟩
  | handOver hc => exact Or.inl ⟨_, rfl, hf⟩
  | @represented j n voted =>
      refine Or.inl ⟨_, rfl, ?_⟩
      cases voted
      · exact hf
      · exact hf
  | opening hc hann => exact Or.inl ⟨_, rfl, hf⟩
  | timeout hc hfree ht =>
      cases hf
      exact Or.inr ⟨rfl, rfl⟩
  | announce hc hann => cases hf
  | confirm => cases hf

variable {e : Endless (Step (program E))} {r : BlockHash}

/-- The time of election `i` is over. -/
def Over (i : ℕ) (r : BlockHash) (σ : Node) : Prop :=
  ∃ c, σ.world.elections[i]? = some c ∧ c.root = r ∧ seconds 15 ≤ σ.now - c.lastVote

theorem Over.next (he : Fair e) {n : ℕ} (h : Over i r (e.state n)) :
    Over i r (e.state (n + 1)) := by
  obtain ⟨c, hc, hroot, hover⟩ := h
  obtain ⟨c', hc', hroot', htime, _⟩ := Lasts.step (e.next n) i c hc
  have hmono : (e.state n).now ≤ (e.state (n + 1)).now := he.monotone n
  refine ⟨c', hc', hroot'.trans hroot, ?_⟩
  rw [htime]
  omega

/-- Once its time is over, the function with its timer takes the election out. -/
theorem running_ends (he : Fair e) (j : ℕ) (l : Loop) :
    LeadsTo e.state (fun σ => Over i r σ ∧ ∃ f : Function, f.timer = some i ∧
      σ.service.threads[j]? = some (l, .running f)) fun σ => σ.world.roots.get r ≠ some i := by
  refine e.leadsTo_of_ends ?_ ?_
  · intro n hn
    obtain ⟨hover, f, hf, hj⟩ := hn
    obtain ⟨u, hu, hm⟩ := (e.next n).moved hj
    have hover' := hover.next he
    cases hm with
    | same => exact Or.inl ⟨hover', f, hf, hu⟩
    | notified => exact Or.inl ⟨hover', f, hf, hu⟩
    | @acted _ adds rest hact hnow _ =>
        rcases act_timer hact hf with ⟨g, rfl, hg⟩ | ⟨rfl, rfl⟩
        · exact Or.inl ⟨hover', g, hg, hu⟩
        · refine Or.inr ?_
          obtain ⟨c, hc, rfl, hlong⟩ := hover
          generalize (e.state (n + 1)).world = w' at hact
          cases hact with
          | timeout hc' hfree ht =>
              cases hc.symm.trans hc'
              rcases timeout_eq_ok ht with ⟨hlt, _⟩ | ⟨_, _, rfl, _⟩
              · omega
              · simp
  · intro n hn
    obtain ⟨_, f, _, hj⟩ := hn
    obtain ⟨m, hnm, hm⟩ := he.returns n j l f hj
    refine ⟨m, hnm, fun h => ?_⟩
    obtain ⟨_, g, _, hg⟩ := h
    exact hm g hg

theorem taken_out (he : Fair e)
    (h₀ : Reached (Initial (Fresh E)) (Step (program E)) (e.state 0)) {k : ℕ}
    (hk : Serving k (e.state 0).service) {n : ℕ} (hr : (e.state n).world.roots.get r = some i) :
    ∃ m, n ≤ m ∧ (e.state m).world.roots.get r ≠ some i := by
  have hreach : ∀ m, Reached (Initial (Fresh E)) (Step (program E)) (e.state m) :=
    e.invariant h₀ fun _ _ _ hσ hstep => hσ.next hstep
  obtain ⟨c, hc, hroot⟩ := (reached_ordered (hreach n)).settled.keyed r i hr
  -- from here on the time of the election is over
  obtain ⟨m₀, hm₀⟩ := he.unbounded (c.lastVote + seconds 15)
  have hm₀ : c.lastVote + seconds 15 < (e.state m₀).now := hm₀
  have hmono : Monotone fun n => (e.state n).now := monotone_nat_of_le_succ he.monotone
  have hlasts : ∀ m, n ≤ m → ∃ c', (e.state m).world.elections[i]? = some c' ∧ c'.root = r ∧
      c'.lastVote = c.lastVote := by
    intro m hnm
    induction hnm with
    | refl => exact ⟨c, hc, hroot, rfl⟩
    | @step m _ ih =>
        obtain ⟨x, hx, hxr, hxt⟩ := ih
        obtain ⟨y, hy, hyr, hyt, _⟩ := Lasts.step (e.next m) i x hx
        exact ⟨y, hy, hyr.trans hxr, hyt.trans hxt⟩
  have hover : ∀ m, max n m₀ ≤ m → Over i r (e.state m) := by
    intro m hm
    obtain ⟨x, hx, hxr, hxt⟩ := hlasts m ((Nat.le_max_left n m₀).trans hm)
    have hlate : (e.state m₀).now ≤ (e.state m).now := hmono ((Nat.le_max_right n m₀).trans hm)
    exact ⟨x, hx, hxr, by omega⟩
  by_cases hgone : (e.state (max n m₀)).world.roots.get r = some i
  · have htimer := (reached_ordered (hreach (max n m₀))).timers.timed (he.stays _) r i hgone
    obtain ⟨f, hf, hfi⟩ := Multiset.countP_pos.mp htimer
    -- the function with the timer waits or runs
    have hruns : ∃ m, max n m₀ ≤ m ∧ ∃ (j : ℕ) (l : Loop),
        (e.state m).service.threads[j]? = some (l, .running f) := by
      rcases Multiset.mem_add.mp hf with hf | hf
      · obtain ⟨o, ho, rfl⟩ := List.mem_map.mp (Multiset.mem_coe.mp hf)
        exact run_of_waiting (program_ahead E) he (reached_kept h₀) hk ho
      · obtain ⟨⟨l, t⟩, hp, ht⟩ := List.mem_filterMap.mp (Multiset.mem_coe.mp hf)
        obtain ⟨j, hj⟩ := List.mem_iff_getElem?.mp hp
        cases t with
        | running g =>
            cases ht
            exact ⟨_, Nat.le_refl _, j, l, hj⟩
        | checking => cases ht
        | waiting d => cases ht
        | returned => cases ht
    obtain ⟨m, hm, j, l, hj⟩ := hruns
    obtain ⟨m', hm', hend⟩ := running_ends he j l m ⟨hover m hm, f, hfi, hj⟩
    exact ⟨m', (Nat.le_max_left n m₀).trans (hm.trans hm'), hend⟩
  · exact ⟨_, Nat.le_max_left n m₀, hgone⟩

theorem roots_count {it : Iteration} {fuel : ℕ} {c : Contest} {changed wasConfirmed : Bool}
    {ballot : Ballot} (h : w.count E it fuel i c changed wasConfirmed = .ok (w', ballot)) :
    w'.roots = w.roots := by
  rcases count_eq_ok h with ⟨_, rfl, _⟩ | ⟨_, _, s', c', _, rfl, _⟩
  · rfl
  · rfl

/-- A function of the service takes no election out but a timer whose time is over. -/
theorem act_keeps_root {f : Function} {rest : Option Function}
    (h : Act E now w f w' adds rest) (hr : w.roots.get r = some i) :
    w'.roots.get r = some i ∨ ∃ k c, f = .timeout k ∧ w.elections[k]? = some c ∧ c.root = r ∧
      seconds 15 ≤ now - c.lastVote := by
  cases h with
  | count hc hcount =>
      rw [roots_count hcount]
      exact Or.inl hr
  | opening hc hann | announce hc hann =>
      obtain ⟨b, _, rfl, _⟩ := announce_eq_ok hann
      exact Or.inl hr
  | @timeout k c w' adds hc hfree ht =>
      rcases timeout_eq_ok ht with ⟨_, rfl, _⟩ | ⟨hlong, _, rfl, _⟩
      · exact Or.inl hr
      · by_cases hrc : c.root = r
        · exact Or.inr ⟨k, c, rfl, hc, hrc, not_lt.mp hlong⟩
        · exact Or.inl ((Table.get_del_ne _ (Ne.symm hrc)).trans hr)
  | start | clone | enter | handOver | represented | confirm => exact Or.inl hr

theorem call_keeps_root (h : Call E now w w' adds) (hr : w.roots.get r = some i) :
    w'.roots.get r = some i := by
  cases h with
  | start hfree hsigned hstart =>
      rcases start_eq_ok hstart with ⟨rfl, _⟩ | ⟨hnone, s', e', action, _, rfl, _⟩
      · exact hr
      · refine (Table.get_put_ne _ _ fun heq => ?_).trans hr
        rw [heq, hnone] at hr
        cases hr
  | @update v hfree =>
      rcases update_cases E w v with hu | ⟨_, _, _, _, hu⟩
      · rw [hu]
        exact hr
      · rw [hu]
        exact hr
  | @count it fuel k c changed wasConfirmed w' ballot hu hc hcount =>
      have hroots : w'.roots.get r = some i := by rwa [roots_count hcount]
      exact hroots
  | handOver | ledger => exact hr

/-- An election is only taken out by its own timer, when its time is over. -/
theorem kept_until_over {σ τ : Node} {a : Event}
    (h : Reached (Initial (Fresh E)) (Step (program E)) σ) (hstep : Step (program E) σ a τ)
    (hr : σ.world.roots.get r = some i) : τ.world.roots.get r = some i ∨ Over i r σ := by
  cases hstep with
  | @act j l f world adds rest hj hact =>
      rcases act_keeps_root hact hr with hr | ⟨k, c, rfl, hc, hroot, hover⟩
      · exact Or.inl hr
      · -- the election under the root is the one whose timer it is
        have hlive := running_live (List.mem_of_getElem? hj)
        have hthere := (reached_ordered h).timers.present k (timers_pos hlive rfl) c hc
        rw [hroot, hr] at hthere
        cases hthere
        exact Or.inr ⟨c, hc, hroot, hover⟩
  | call hcall => exact Or.inl (call_keeps_root hcall hr)
  | tick | take | wait | leave | wake | stop | spawn => exact Or.inl hr

/-- As long as the service is not stopped and one thread is in `run`, every election is taken out of
`conflicts` in the end, votes or no votes, and stays there until fifteen seconds have passed. -/
theorem election_ends (he : Fair e)
    (h₀ : Reached (Initial (Fresh E)) (Step (program E)) (e.state 0)) {k : ℕ}
    (hk : Serving k (e.state 0).service) {n : ℕ} (hr : (e.state n).world.roots.get r = some i) :
    ∃ m, n ≤ m ∧ (∀ j, n ≤ j → j ≤ m → (e.state j).world.roots.get r = some i) ∧
      Over i r (e.state m) ∧ (e.state (m + 1)).world.roots.get r ≠ some i := by
  have hreach : ∀ m, Reached (Initial (Fresh E)) (Step (program E)) (e.state m) :=
    e.invariant h₀ fun _ _ _ hσ hstep => hσ.next hstep
  -- the first time it is gone
  by_contra hnever
  have hstays : ∀ m, n ≤ m → ∀ j, n ≤ j → j ≤ m →
      (e.state j).world.roots.get r = some i := by
    intro m hnm
    induction hnm with
    | refl =>
        intro j hnj hjn
        exact (Nat.le_antisymm hnj hjn) ▸ hr
    | @step m hnm ih =>
        intro j hnj hjm
        rcases Nat.lt_or_eq_of_le hjm with hlt | rfl
        · exact ih j hnj (Nat.le_of_lt_succ hlt)
        · by_contra hgone
          rcases kept_until_over (hreach m) (e.next m) (ih m hnm (Nat.le_refl m)) with hs | hover
          · exact hgone hs
          · exact hnever ⟨m, hnm, ih, hover, hgone⟩
  obtain ⟨m, hnm, hgone⟩ := taken_out he h₀ hk hr
  exact hgone (hstays m hnm m hnm (Nat.le_refl m))

end Ending

section Sample
variable {E : Env} {s : Store} {e : Election} {b : Block}

def endingService (t : Thread ℤ Function) : Service ℤ Function :=
  ⟨[], false, [(.run, t)], [(0, .start 0)], [⟨seconds 16, 1, ⟨0, 0, .start 0⟩⟩]⟩

/-- The election is started late, so that its timer takes it out at once. Then the thread sleeps
and the clock goes on. -/
def endingState (s : Store) (e : Election) (b : Block) : ℕ → Node
  | 0 => startedNode (seconds 16) s e b
  | 1 => ⟨seconds 16, (startedNode 0 s e b).world, endingService (.running (.start 0))⟩
  | 2 => ⟨seconds 16, (startedNode 0 s e b).world,
      endingService (.running (.represent 0 0 false))⟩
  | 3 => ⟨seconds 16, (startedNode 0 s e b).world, endingService (.running (.timeout 0))⟩
  | 4 => ⟨seconds 16, ⟨s, [⟨e, 0, 0⟩], (Table.put ∅ b.root 0).del b.root, [], none⟩,
      endingService .checking⟩
  | n + 5 => ⟨seconds 16 + n, ⟨s, [⟨e, 0, 0⟩], (Table.put ∅ b.root 0).del b.root, [], none⟩,
      endingService (.waiting none)⟩

def endingAction : ℕ → Event
  | 0 => .thread 0
  | 1 => .thread 0
  | 2 => .thread 0
  | 3 => .thread 0
  | 4 => .thread 0
  | _ + 5 => .clock

theorem ending_next (hid : e.votes.id = b.root) (n : ℕ) :
    Step (program E) (endingState s e b n) (endingAction n) (endingState s e b (n + 1)) := by
  match n with
  | 0 =>
      have hops : (endingState s e b 0).service.operations = [] ++ ⟨0, 0, .start 0⟩ :: [] := rfl
      have htop : Top (endingState s e b 0).service.operations ⟨0, 0, .start 0⟩ :=
        ⟨List.mem_cons_self, by simp [endingState, startedNode]⟩
      exact Step.take (l := .run) rfl (fun _ => rfl) hops htop (by decide : (0 : ℤ) < seconds 16)
  | 1 =>
      have hact : (program E).act (seconds 16) (startedNode 0 s e b).world (.start 0)
          (startedNode 0 s e b).world [] (some (.represent 0 0 false)) :=
        Act.start (c := ⟨e, 0, 0⟩) rfl
      exact Step.act (σ := endingState s e b 1) (l := .run) rfl hact
  | 2 =>
      have hact : (program E).act (seconds 16) (startedNode 0 s e b).world
          (.represent 0 0 false) (startedNode 0 s e b).world [] (some (.timeout 0)) :=
        Act.represented
      exact Step.act (σ := endingState s e b 2) (l := .run) rfl hact
  | 3 =>
      have htimeout : (startedNode 0 s e b).world.timeout (seconds 16) 0 ⟨e, 0, 0⟩ =
          .ok (⟨s, [⟨e, 0, 0⟩], (Table.put ∅ b.root 0).del b.root, [], none⟩, []) := by
        rw [World.timeout, if_neg (show ¬ seconds 16 - 0 < seconds 15 by decide), Contest.root, hid,
          World.stop]
        simp only [startedNode, Table.get_put_self]
        rfl
      have hact : (program E).act (seconds 16) (startedNode 0 s e b).world (.timeout 0)
          ⟨s, [⟨e, 0, 0⟩], (Table.put ∅ b.root 0).del b.root, [], none⟩ [] none :=
        Act.timeout (c := ⟨e, 0, 0⟩) rfl (Or.inr rfl) htimeout
      exact Step.act (σ := endingState s e b 3) (l := .run) rfl hact
  | 4 => exact Step.wait (d := none) rfl rfl rfl
  | n + 5 => exact Step.tick (seconds 16 + (n + 1 : ℕ))

def endingRun (hid : e.votes.id = b.root) : Endless (Step (program E)) :=
  ⟨endingState s e b, endingAction, ending_next hid⟩

theorem ending_fair (hid : e.votes.id = b.root) :
    Fair (endingRun (E := E) (s := s) hid) where
  stays n := by rcases n with _ | _ | _ | _ | _ | n <;> rfl
  monotone n := by
    rcases n with _ | _ | _ | _ | _ | n
    · exact Int.le_refl (seconds 16)
    · exact Int.le_refl (seconds 16)
    · exact Int.le_refl (seconds 16)
    · exact Int.le_refl (seconds 16)
    · exact Int.le_of_eq (Int.add_zero (seconds 16)).symm
    · show seconds 16 + (n : ℤ) ≤ seconds 16 + ((n + 1 : ℕ) : ℤ)
      omega
  unbounded t := by
    refine ⟨t.toNat + 5, ?_⟩
    show t < seconds 16 + (t.toNat : ℤ)
    have hpos : 0 < seconds 16 := by decide
    omega
  turns n i _ _ := ⟨n + 5, Nat.le_add_right n 5, by
    rcases i with _ | i <;> simp [endingRun, endingState, endingService]⟩
  returns n i _ _ _ := ⟨n + 5, Nat.le_add_right n 5, by
    rcases i with _ | i <;> simp [endingRun, endingState, endingService]⟩
  wakes n i _ t h _ := by
    rcases i with _ | i <;> rcases n with _ | _ | _ | _ | _ | n <;>
      simp [endingRun, endingState, endingService, startedNode] at h

/-- The election on the send of the first vote ends. -/
theorem election_ends_send : ∃ (e : Endless (Step (program ballotNetwork))) (m : ℕ),
    (e.state 0).world.roots.get send₁.root = some 0 ∧ Over 0 send₁.root (e.state m) ∧
      (e.state (m + 1)).world.roots.get send₁.root ≠ some 0 := by
  obtain ⟨s, e, hreached⟩ := send_started
  have hroot : (startedNode (seconds 16) s e send₁).world.roots.get send₁.root = some 0 :=
    Table.get_put_self _ _ _
  obtain ⟨c, hc, hid⟩ := (reached_ordered (hreached (seconds 16))).settled.keyed _ 0 hroot
  cases hc
  have hserving : Serving 0 ((endingRun (E := ballotNetwork) (s := s) hid).state 0).service :=
    ⟨.checking, rfl, by simp⟩
  obtain ⟨m, _, _, hover, hm⟩ := election_ends (n := 0) (ending_fair hid)
    (hreached (seconds 16)) hserving hroot
  exact ⟨endingRun hid, m, hroot, hover, hm⟩

end Sample

end PaperNode.ElectionEnds
