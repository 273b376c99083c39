import PaperNode.Conflicts

/-!
# How often an election is confirmed

`election::vote` reads `confirmed` before its transaction and once more behind it, and adds the
confirmation action if the election was confirmed in between, by whichever call. The votes of the
node's own representatives are not counted under the mutex of `conflicts`, so two calls may be in
progress in one election, and both may add the action; a call that has not counted votes itself has
no block to add it for.

There are never more than two such calls, and each adds the action once at most. As long as no two
calls overlap, an election hands over one block at most, and that stays its winner.
-/
namespace PaperNode.Confirmations
open BoundedRecursion OrderedTable TransitionRuns Words Blocks BlockStore LedgerQueries
open VoteRecords Tally Elections ProcessorService Conflicts
open LedgerRuns hiding Step Initial Action

def confirmations (i : ℕ) (added : Adds) : ℕ := added.countP fun a => a.2.confirmation = some i

/-- The calls of `election::vote` in progress: those of the service, and one of `conflicts::update`
at most. -/
def calls (w : World) (fs : Multiset Function) : Multiset (ℕ × Ballot) :=
  (w.updating.toList : Multiset (ℕ × Ballot)) + fs.filterMap Function.ballot

def inProgress (i : ℕ) (cs : Multiset (ℕ × Ballot)) : ℕ := cs.countP fun p => p.1 = i

/-- The calls that have not found their election confirmed. -/
def undecided (i : ℕ) (cs : Multiset (ℕ × Ballot)) : ℕ :=
  cs.countP fun p => p.1 = i ∧ p.2.wasConfirmed = false

/-- No more than `k` calls are in progress in any election. -/
def Few (k : ℕ) (σ : Node) : Prop := ∀ i, inProgress i (calls σ.world σ.service.live) ≤ k

/-- What a step does to the elections and the calls in progress, and what it adds. -/
inductive Change (E : Env) (now : ℤ) : List Contest → Multiset (ℕ × Ballot) →
    List Contest → Multiset (ℕ × Ballot) → Adds → Prop
  | other {es : List Contest} {cs : Multiset (ℕ × Ballot)} {adds : Adds} :
      (∀ a ∈ adds, a.2.confirmation = none) → Change E now es cs es cs adds
  | enter {es : List Contest} {cs : Multiset (ℕ × Ballot)} {i : ℕ} {c : Contest} {v : Vote} :
      es[i]? = some c → Change E now es cs (es.set i (c.enter E v))
        ((i, .entered (c.election.votes.vote E v).1 c.election.confirmed) ::ₘ cs) []
  | skip {es : List Contest} {cs : Multiset (ℕ × Ballot)} {i : ℕ} {changed wasConfirmed : Bool} :
      ¬ (wasConfirmed = false ∧ changed = true) →
      Change E now es ((i, .entered changed wasConfirmed) ::ₘ cs) es
        ((i, .counted wasConfirmed none) ::ₘ cs) []
  | count {es : List Contest} {cs : Multiset (ℕ × Ballot)} {i : ℕ} {c c' : Contest} :
      es[i]? = some c → Recounted c c' →
      Change E now es ((i, .entered true false) ::ₘ cs) (es.set i c')
        ((i, .counted false (some c'.election.lastWinner)) ::ₘ cs) []
  | handOver {es : List Contest} {cs : Multiset (ℕ × Ballot)} {i : ℕ} {c : Contest}
      {wasConfirmed : Bool} {winner : Option Block} : es[i]? = some c →
      Change E now es ((i, .counted wasConfirmed winner) ::ₘ cs) es cs
        (handOver now i c wasConfirmed winner)
  | start {es : List Contest} {cs : Multiset (ℕ × Ballot)} {c : Contest} :
      Change E now es cs (es ++ [c]) cs
        (handOver now es.length c false (some c.election.lastWinner) ++ [(now, .start es.length)])

section Changes
variable {E : Env} {now : ℤ} {d : Bool} {w w' : World} {adds : Adds} {fs : Multiset Function}
  {rest : Option Function} {f : Function} {it : Iteration} {fuel i : ℕ} {c : Contest}
  {changed wasConfirmed : Bool} {ballot : Ballot} {cs : Multiset (ℕ × Ballot)}

theorem calls_congr (h : w'.updating = w.updating) (fs : Multiset Function) :
    calls w' fs = calls w fs := by
  rw [calls, h, calls]

theorem calls_cons_none (w : World) (fs : Multiset Function) (h : f.ballot = none) :
    calls w (f ::ₘ fs) = calls w fs := by
  rw [calls, Multiset.filterMap_cons_none _ _ h, calls]

theorem calls_cons_some {p : ℕ × Ballot} (w : World) (fs : Multiset Function)
    (h : f.ballot = some p) : calls w (f ::ₘ fs) = p ::ₘ calls w fs := by
  rw [calls, Multiset.filterMap_cons_some _ _ _ h, Multiset.add_cons, calls]

theorem calls_updating {p : ℕ × Ballot} (fs : Multiset Function) (h : w.updating = some p) :
    calls w fs = p ::ₘ calls { w with updating := none } fs := by
  rw [calls, h, Option.toList_some, Multiset.coe_singleton, Multiset.singleton_add, calls]
  simp

theorem calls_add (w : World) (fs : Multiset Function) (h : ∀ a ∈ adds, a.2.ballot = none) :
    calls w (fs + ((accepted d adds).map Prod.snd : List Function)) = calls w fs := by
  have hnone : ∀ f ∈ (accepted d adds).map Prod.snd, f.ballot = none := by
    intro f hf
    obtain ⟨a, ha, rfl⟩ := List.mem_map.mp hf
    exact h a (mem_of_mem_accepted ha)
  rw [calls, Multiset.filterMap_add, Multiset.filterMap_coe,
    List.filterMap_eq_nil_iff.mpr hnone, Multiset.coe_nil, add_zero, calls]

theorem Change.of_count (hc : w.elections[i]? = some c)
    (h : w.count E it fuel i c changed wasConfirmed = .ok (w', ballot)) :
    Change E now w.elections ((i, .entered changed wasConfirmed) ::ₘ cs) w'.elections
      ((i, ballot) ::ₘ cs) [] ∧ w'.updating = w.updating := by
  rcases count_eq_ok h with ⟨hno, rfl, rfl⟩ | ⟨rfl, rfl, s', c', hc', rfl, rfl⟩
  · exact ⟨.skip hno, rfl⟩
  · exact ⟨.count hc hc', rfl⟩

/-- Nothing is added that is in a call. -/
theorem ballot_of_act (h : Act E now w f w' adds rest) : ∀ a ∈ adds, a.2.ballot = none := by
  intro a ha
  cases h with
  | start hc => cases ha
  | clone hc => cases ha
  | enter hc => cases ha
  | count hc hcount => cases ha
  | handOver hc => rw [mem_handOver ha]; rfl
  | represented => cases ha
  | opening hc hann =>
      obtain ⟨b, _, _, hadds⟩ := announce_eq_ok hann
      rw [hadds a ha]
      rfl
  | timeout hc hfree ht =>
      rcases timeout_eq_ok ht with ⟨_, _, rfl⟩ | ⟨_, _, _, rfl⟩
      · rw [List.mem_singleton.mp ha]
        rfl
      · cases ha
  | announce hc hann =>
      obtain ⟨b, _, _, hadds⟩ := announce_eq_ok hann
      rw [hadds a ha]
      rfl
  | confirm => cases ha

theorem Change.outside (hf : f.ballot = none) (hrest : ∀ g, rest = some g → g.ballot = none)
    (hes : w'.elections = w.elections) (hu : w'.updating = w.updating)
    (hadds : ∀ a ∈ adds, a.2.confirmation = none) :
    Change E now w.elections (calls w (f ::ₘ fs)) w'.elections (calls w' (↑rest.toList + fs))
      adds := by
  have hafter : calls w' (↑rest.toList + fs) = calls w fs := by
    rw [calls_congr hu]
    cases rest with
    | none => exact congrArg (calls w) (Multiset.zero_add fs)
    | some g => exact calls_cons_none w fs (hrest g rfl)
  rw [calls_cons_none w fs hf, hafter, hes]
  exact .other hadds

theorem Change.of_act (h : Act E now w f w' adds rest) (d : Bool) (fs : Multiset Function) :
    Change E now w.elections (calls w (f ::ₘ fs)) w'.elections
      (calls w' (↑rest.toList + fs + ((accepted d adds).map Prod.snd : List Function))) adds := by
  rw [calls_add _ _ (ballot_of_act h)]
  cases h with
  | start hc => exact .outside rfl (by rintro _ ⟨⟩; rfl) rfl rfl (by simp)
  | clone hc => exact .outside rfl (by rintro _ ⟨⟩; rfl) rfl rfl (by simp)
  | @enter i n c v hc =>
      have hafter : calls (w.enter E i c v).1 (.voting i n (w.enter E i c v).2 ::ₘ fs) =
          (i, (w.enter E i c v).2) ::ₘ calls w fs := calls_cons_some _ fs rfl
      rw [calls_cons_none w fs rfl]
      exact hafter.symm ▸ .enter hc
  | @count i n c changed wasConfirmed it fuel w' ballot hc hcount =>
      obtain ⟨hchange, hu⟩ : Change E now w.elections
          ((i, .entered changed wasConfirmed) ::ₘ calls w fs) w'.elections
            ((i, ballot) ::ₘ calls w fs) [] ∧ w'.updating = w.updating :=
        Change.of_count hc hcount
      rw [calls_cons_some w fs rfl]
      have hafter : calls w' (.voting i n ballot ::ₘ fs) = (i, ballot) ::ₘ calls w fs := by
        rw [calls_cons_some w' fs rfl, calls_congr hu]
      exact hafter.symm ▸ hchange
  | @handOver i n c wasConfirmed winner hc =>
      have hafter : calls w (.represent i n true ::ₘ fs) = calls w fs := calls_cons_none w fs rfl
      rw [calls_cons_some w fs rfl]
      exact hafter.symm ▸ .handOver hc
  | @represented i n voted =>
      refine .outside rfl ?_ rfl rfl (by simp)
      rintro _ ⟨⟩
      cases voted <;> rfl
  | opening hc hann =>
      obtain ⟨b, _, rfl, hadds⟩ := announce_eq_ok hann
      exact .outside rfl (by rintro _ ⟨⟩; rfl) rfl rfl fun a ha => hadds a ha ▸ rfl
  | timeout hc hfree ht =>
      rcases timeout_eq_ok ht with ⟨_, rfl, rfl⟩ | ⟨_, _, rfl, rfl⟩
      · exact .outside rfl (by simp) rfl rfl fun a ha => List.mem_singleton.mp ha ▸ rfl
      · exact .outside rfl (by simp) rfl rfl (by simp)
  | announce hc hann =>
      obtain ⟨b, _, rfl, hadds⟩ := announce_eq_ok hann
      exact .outside rfl (by simp) rfl rfl fun a ha => hadds a ha ▸ rfl
  | confirm => exact .outside rfl (by simp) rfl rfl (by simp)

theorem ballot_of_call (h : Call E now w w' adds) : ∀ a ∈ adds, a.2.ballot = none := by
  intro a ha
  cases h with
  | start hfree hsigned hstart =>
      rcases start_eq_ok hstart with ⟨_, rfl⟩ | ⟨_, s', e', action, _, _, rfl⟩
      · cases ha
      · rcases List.mem_append.mp ha with ha | ha
        · obtain ⟨b, _, rfl⟩ := List.mem_map.mp ha
          rfl
        · rw [List.mem_singleton.mp ha]
          rfl
  | update hfree => cases ha
  | count hu hc hcount => cases ha
  | handOver hu hc => rw [mem_handOver ha]; rfl
  | ledger hstep => cases ha

theorem Change.of_call (h : Call E now w w' adds) (d : Bool) (fs : Multiset Function) :
    Change E now w.elections (calls w fs) w'.elections
      (calls w' (fs + ((accepted d adds).map Prod.snd : List Function))) adds := by
  rw [calls_add _ _ (ballot_of_call h)]
  cases h with
  | start hfree hsigned hstart =>
      rcases start_eq_ok hstart with ⟨rfl, rfl⟩ | ⟨_, s', e', action, hv, rfl, rfl⟩
      · exact .other (by simp)
      · obtain ⟨_, _, hopen⟩ := vote_result (c := ⟨⟨_, _, false⟩, now, 0⟩) hv
        have hadds : (action.toList.map fun b =>
            (now, Function.confirm w.elections.length (some b))) =
              Conflicts.handOver now w.elections.length ⟨e', now, 0⟩ false
                (some e'.lastWinner) := by
          rw [hopen rfl, Conflicts.handOver]
          cases e'.confirmed <;> rfl
        rw [hadds]
        exact .start
  | @update v hfree =>
      rcases update_cases E w v with hu | ⟨i, c, _, hc, hu⟩
      · rw [hu]
        exact .other (by simp)
      · have hafter : calls { (w.enter E i c v).1 with
            updating := some (i, (w.enter E i c v).2) } fs =
              (i, (w.enter E i c v).2) ::ₘ calls w fs := by
          rw [calls_updating fs rfl]
          exact congrArg _ (calls_congr hfree.symm fs)
        rw [hu, hafter]
        exact .enter hc
  | @count it fuel i c changed wasConfirmed w' ballot hu hc hcount =>
      have hafter : calls { w' with updating := some (i, ballot) } fs =
          (i, ballot) ::ₘ calls { w with updating := none } fs := calls_updating fs rfl
      rw [calls_updating fs hu, hafter]
      exact (Change.of_count hc hcount).1
  | handOver hu hc =>
      rw [calls_updating fs hu]
      exact .handOver hc
  | ledger hstep => exact .other (by simp)

end Changes

def Confirmed (es : List Contest) (i : ℕ) : Prop :=
  ∃ c, es[i]? = some c ∧ c.election.confirmed = true

/-- An action is added for confirmed elections only, and by calls that have not found the election
confirmed. Unless the service was stopped, one was added or a call is left that will. -/
structure Bounded (k : ℕ) (d : Bool) (es : List Contest) (added : Adds)
    (cs : Multiset (ℕ × Ballot)) : Prop where
  known : ∀ p ∈ cs, p.1 < es.length
  waiting : ∀ i, ¬ Confirmed es i → confirmations i added = 0
  few : ∀ i, Confirmed es i → confirmations i added + undecided i cs ≤ k
  scheduled : d = false → ∀ i, Confirmed es i → 0 < confirmations i added + undecided i cs

/-- What holds as long as calls do not overlap: a call that counts finds the election open, and the
block that is handed over is the winner from then on. -/
structure Unique (es : List Contest) (added : Adds) (cs : Multiset (ℕ × Ballot)) : Prop where
  fresh : ∀ i changed, (i, Ballot.entered changed false) ∈ cs → ¬ Confirmed es i
  won : ∀ i b, (i, Ballot.counted false b) ∈ cs → ∀ c, es[i]? = some c →
    c.election.confirmed = true → b = some c.election.lastWinner
  decided : ∀ t i b, (t, Function.confirm i b) ∈ added → ∃ c, es[i]? = some c ∧
    c.election.confirmed = true ∧ b = some c.election.lastWinner

section Counting
variable {E : Env} {now : ℤ} {d : Bool} {k : ℕ} {es es' : List Contest} {i j : ℕ} {c c' : Contest}
  {adds added : Adds} {cs cs' : Multiset (ℕ × Ballot)} {p : ℕ × Ballot}

theorem confirmed_set (hc : es[i]? = some c) :
    Confirmed (es.set i c') j ↔ if i = j then c'.election.confirmed = true else Confirmed es j := by
  unfold Confirmed
  rw [List.getElem?_set]
  split_ifs with hij hlt
  · simp
  · exact absurd (List.getElem?_eq_some_iff.mp hc).1 (hij ▸ hlt)
  · exact Iff.rfl

theorem confirmed_append : Confirmed (es ++ [c]) j ↔
    Confirmed es j ∨ (j = es.length ∧ c.election.confirmed = true) := by
  unfold Confirmed
  rcases Nat.lt_trichotomy j es.length with hlt | rfl | hgt
  · rw [List.getElem?_append_left hlt]
    simp [Nat.ne_of_lt hlt]
  · simp
  · rw [List.getElem?_eq_none hgt.le, List.getElem?_eq_none (by simpa using hgt)]
    simp [Nat.ne_of_gt hgt]

theorem inProgress_cons (j : ℕ) (p : ℕ × Ballot) (cs : Multiset (ℕ × Ballot)) :
    inProgress j (p ::ₘ cs) = inProgress j cs + if p.1 = j then 1 else 0 :=
  Multiset.countP_cons _ _ _

theorem undecided_cons (j : ℕ) (p : ℕ × Ballot) (cs : Multiset (ℕ × Ballot)) :
    undecided j (p ::ₘ cs) =
      undecided j cs + if p.1 = j ∧ p.2.wasConfirmed = false then 1 else 0 :=
  Multiset.countP_cons _ _ _

theorem undecided_le (j : ℕ) (cs : Multiset (ℕ × Ballot)) : undecided j cs ≤ inProgress j cs := by
  induction cs using Multiset.induction_on with
  | empty => exact Nat.le_refl 0
  | cons p cs ih =>
      rw [undecided_cons, inProgress_cons]
      refine Nat.add_le_add ih ?_
      split_ifs with hp hj hj
      · exact Nat.le_refl 1
      · exact absurd hp.1 hj
      · exact Nat.zero_le 1
      · exact Nat.le_refl 0

theorem confirmations_append (j : ℕ) (added adds : Adds) :
    confirmations j (added ++ adds) = confirmations j added + confirmations j adds :=
  List.countP_append

theorem confirmations_none (h : ∀ a ∈ adds, a.2.confirmation = none) (j : ℕ) :
    confirmations j (accepted d adds) = 0 := by
  refine List.countP_eq_zero.mpr fun a ha hj => ?_
  rw [h a (mem_of_mem_accepted ha)] at hj
  simp at hj

theorem confirmations_handOver (j : ℕ) (wasConfirmed : Bool) (b : Option Block) :
    confirmations j (accepted d (handOver now i c wasConfirmed b)) =
      if d = false ∧ c.election.confirmed = true ∧ i = j ∧ wasConfirmed = false then 1 else 0 := by
  unfold handOver
  cases d <;> cases wasConfirmed <;> cases c.election.confirmed <;>
    simp [accepted, confirmations, Function.confirmation, List.countP_singleton]

theorem Bounded.undecided_new (h : Bounded k d es added cs) : undecided es.length cs = 0 := by
  refine Multiset.countP_eq_zero.mpr fun p hp hi => ?_
  exact absurd (h.known p hp) (by omega)

/-- It is enough to look at one election: what was counted for it if it was confirmed, and what is
counted for it if it is confirmed now. -/
theorem Bounded.of_counts (h : Bounded k d es added cs) (hknown : ∀ p ∈ cs', p.1 < es'.length)
    (hstays : ∀ i, Confirmed es i → Confirmed es' i ∧
      confirmations i (added ++ adds) + undecided i cs' ≤ confirmations i added + undecided i cs ∧
      (d = false → confirmations i added + undecided i cs ≤
        confirmations i (added ++ adds) + undecided i cs'))
    (hopen : ∀ i, ¬ Confirmed es' i → confirmations i adds = 0)
    (hnew : ∀ i, ¬ Confirmed es i → Confirmed es' i →
      confirmations i adds + undecided i cs' ≤ k ∧
      (d = false → 0 < confirmations i adds + undecided i cs')) :
    Bounded k d es' (added ++ adds) cs' := by
  refine ⟨hknown, ?_, ?_, ?_⟩
  · intro i hi
    rw [confirmations_append, hopen i hi, h.waiting i fun hbefore => hi (hstays i hbefore).1]
  · intro i hi
    by_cases hbefore : Confirmed es i
    · exact (hstays i hbefore).2.1.trans (h.few i hbefore)
    · rw [confirmations_append, h.waiting i hbefore, Nat.zero_add]
      exact (hnew i hbefore hi).1
  · intro hd i hi
    by_cases hbefore : Confirmed es i
    · exact (h.scheduled hd i hbefore).trans_le ((hstays i hbefore).2.2 hd)
    · rw [confirmations_append, h.waiting i hbefore, Nat.zero_add]
      exact (hnew i hbefore hi).2 hd

theorem Bounded.append (h : Bounded k d es added cs) (hnone : ∀ a ∈ adds, a.2.confirmation = none) :
    Bounded k d es (added ++ accepted d adds) cs := by
  have hzero := confirmations_none (d := d) hnone
  refine h.of_counts h.known (fun i hi => ⟨hi, ?_, fun _ => ?_⟩) (fun i _ => hzero i)
    fun i hi hi' => absurd hi' hi
  · rw [confirmations_append, hzero, Nat.add_zero]
  · rw [confirmations_append, hzero, Nat.add_zero]

theorem Bounded.replace {b b' : Ballot} (h : Bounded k d es added ((i, b) ::ₘ cs))
    (hb : b'.wasConfirmed = b.wasConfirmed) : Bounded k d es added ((i, b') ::ₘ cs) := by
  have hsame : ∀ j, undecided j ((i, b') ::ₘ cs) = undecided j ((i, b) ::ₘ cs) := by
    intro j
    rw [undecided_cons, undecided_cons, hb]
  refine ⟨?_, h.waiting, fun j hj => (hsame j).symm ▸ h.few j hj,
    fun hd j hj => (hsame j).symm ▸ h.scheduled hd j hj⟩
  intro p hp
  rcases Multiset.mem_cons.mp hp with rfl | hp
  · exact h.known (i, b) (Multiset.mem_cons_self _ _)
  · exact h.known p (Multiset.mem_cons_of_mem hp)

/-- A call that enters a confirmed election finds it confirmed. -/
theorem Bounded.enter (h : Bounded k d es added cs) (hc : es[i]? = some c)
    (hsame : c'.election.confirmed = c.election.confirmed) (changed : Bool) :
    Bounded k d (es.set i c') added
      ((i, .entered changed c.election.confirmed) ::ₘ cs) := by
  have hset : ∀ j, Confirmed (es.set i c') j ↔ Confirmed es j := by
    intro j
    rw [confirmed_set hc, hsame]
    split_ifs with hij
    · subst hij
      simp [Confirmed, hc]
    · exact Iff.rfl
  have hcount : ∀ j, Confirmed es j →
      undecided j ((i, .entered changed c.election.confirmed) ::ₘ cs) = undecided j cs := by
    intro j hj
    rw [undecided_cons, if_neg, Nat.add_zero]
    rintro ⟨rfl, hopen⟩
    obtain ⟨x, hx, hconf⟩ := hj
    cases hc.symm.trans hx
    cases hconf.symm.trans hopen
  refine ⟨?_, fun j hj => h.waiting j fun hj' => hj ((hset j).mpr hj'), ?_, ?_⟩
  · intro p hp
    rw [List.length_set]
    rcases Multiset.mem_cons.mp hp with rfl | hp
    · exact (List.getElem?_eq_some_iff.mp hc).1
    · exact h.known p hp
  · intro j hj
    rw [hcount j ((hset j).mp hj)]
    exact h.few j ((hset j).mp hj)
  · intro hd j hj
    rw [hcount j ((hset j).mp hj)]
    exact h.scheduled hd j ((hset j).mp hj)

/-- If a call confirms the election, then those in progress are all that may add the action. -/
theorem Bounded.count {b : Ballot} (h : Bounded k d es added ((i, b) ::ₘ cs))
    (hb : b.wasConfirmed = false) (hc : es[i]? = some c)
    (hfinal : c.election.confirmed = true → c'.election.confirmed = true)
    (hfew : inProgress i ((i, b) ::ₘ cs) ≤ k) :
    Bounded k d (es.set i c') added ((i, b) ::ₘ cs) := by
  have hmono : ∀ j, Confirmed es j → Confirmed (es.set i c') j := by
    intro j hj
    rw [confirmed_set hc]
    split_ifs with hij
    · obtain ⟨x, hx, hconf⟩ := hj
      subst hij
      cases hc.symm.trans hx
      exact hfinal hconf
    · exact hj
  have hnew : ∀ j, ¬ Confirmed es j → Confirmed (es.set i c') j → i = j := by
    intro j hj hj'
    rw [confirmed_set hc] at hj'
    by_contra hij
    rw [if_neg hij] at hj'
    exact hj hj'
  refine ⟨?_, fun j hj => h.waiting j fun hj' => hj (hmono j hj'), ?_, ?_⟩
  · intro p hp
    rw [List.length_set]
    exact h.known p hp
  · intro j hj
    by_cases hbefore : Confirmed es j
    · exact h.few j hbefore
    · rw [h.waiting j hbefore, Nat.zero_add, ← hnew j hbefore hj]
      exact (undecided_le _ _).trans hfew
  · intro hd j hj
    by_cases hbefore : Confirmed es j
    · exact h.scheduled hd j hbefore
    · rw [undecided_cons, if_pos ⟨hnew j hbefore hj, hb⟩]
      omega

/-- A call returns, and adds the action if it has not found the election confirmed. -/
theorem Bounded.handOver {wasConfirmed : Bool} {b : Option Block}
    (h : Bounded k d es added ((i, .counted wasConfirmed b) ::ₘ cs)) (hc : es[i]? = some c) :
    Bounded k d es (added ++ accepted d (Conflicts.handOver now i c wasConfirmed b)) cs := by
  have hhere : Confirmed es i ↔ c.election.confirmed = true := by simp [Confirmed, hc]
  have hbefore : ∀ j, undecided j ((i, .counted wasConfirmed b) ::ₘ cs) =
      undecided j cs + if i = j ∧ wasConfirmed = false then 1 else 0 :=
    fun j => undecided_cons j _ cs
  refine h.of_counts (fun p hp => h.known p (Multiset.mem_cons_of_mem hp)) ?_ ?_
    fun j hj hj' => absurd hj' hj
  · intro j hj
    rw [confirmations_append, confirmations_handOver, hbefore]
    refine ⟨hj, ?_, fun hd => ?_⟩
    · split_ifs with hadd hread hread
      · omega
      · exact absurd hadd.2.2 hread
      · omega
      · omega
    · split_ifs with hread hadd hadd
      · omega
      · exact absurd ⟨hd, hhere.mp (hread.1.symm ▸ hj), hread⟩ hadd
      · omega
      · omega
  · intro j hj
    rw [confirmations_handOver, if_neg]
    rintro ⟨_, hconf, rfl, _⟩
    exact hj (hhere.mpr hconf)

/-- An election that comes is confirmed at once or not. -/
theorem Bounded.start (h : Bounded k d es added cs) (hk : 0 < k) :
    Bounded k d (es ++ [c]) (added ++
      accepted d (Conflicts.handOver now es.length c false (some c.election.lastWinner))) cs := by
  have hother : ∀ j, Confirmed es j → es.length ≠ j := by
    rintro j ⟨x, hx, _⟩ rfl
    simp at hx
  refine h.of_counts ?_ ?_ ?_ ?_
  · intro p hp
    rw [List.length_append]
    exact Nat.lt_add_right _ (h.known p hp)
  · intro j hj
    rw [confirmations_append, confirmations_handOver, if_neg fun hadd => hother j hj hadd.2.2.1]
    exact ⟨confirmed_append.mpr (Or.inl hj), Nat.le_refl _, fun _ => Nat.le_refl _⟩
  · intro j hj
    rw [confirmations_handOver, if_neg]
    rintro ⟨_, hconf, rfl, _⟩
    exact hj (confirmed_append.mpr (Or.inr ⟨rfl, hconf⟩))
  · intro j hj hj'
    rcases confirmed_append.mp hj' with hj' | ⟨rfl, hconf⟩
    · exact absurd hj' hj
    · rw [confirmations_handOver, h.undecided_new]
      refine ⟨?_, fun hd => ?_⟩
      · split_ifs <;> omega
      · rw [if_pos ⟨hd, hconf, rfl, rfl⟩]
        omega

theorem Bounded.change (h : Bounded k d es added cs) (hk : 0 < k)
    (hchange : Change E now es cs es' cs' adds) (hfew : ∀ i, inProgress i cs' ≤ k) :
    Bounded k d es' (added ++ accepted d adds) cs' := by
  cases hchange with
  | other hnone => exact h.append hnone
  | enter hc =>
      rw [accepted_nil, List.append_nil]
      exact h.enter hc (show (Contest.enter E _ _).election.confirmed = _ from rfl) _
  | skip hno =>
      rw [accepted_nil, List.append_nil]
      exact h.replace rfl
  | count hc hc' =>
      rw [accepted_nil, List.append_nil]
      exact Bounded.count (h.replace rfl) rfl hc hc'.final (hfew _)
  | handOver hc => exact h.handOver hc
  | start =>
      rw [accepted_append, ← List.append_assoc]
      refine (h.start hk).append fun a ha => ?_
      rw [List.mem_singleton.mp ha]
      rfl

theorem ne_of_inProgress {b : Ballot} (hfew : inProgress i ((i, b) ::ₘ cs) ≤ 1) (hp : p ∈ cs) :
    i ≠ p.1 := by
  rintro rfl
  have hpos : 0 < inProgress p.1 cs := Multiset.countP_pos.mpr ⟨p, hp, rfl⟩
  rw [inProgress_cons, if_pos rfl] at hfew
  omega

theorem Unique.tail (h : Unique es added (p ::ₘ cs)) : Unique es added cs :=
  ⟨fun j changed hmem => h.fresh j changed (Multiset.mem_cons_of_mem hmem),
    fun j b hmem => h.won j b (Multiset.mem_cons_of_mem hmem), h.decided⟩

theorem Unique.append (h : Unique es added cs)
    (hadds : ∀ t i b, (t, Function.confirm i b) ∈ adds → ∃ c, es[i]? = some c ∧
      c.election.confirmed = true ∧ b = some c.election.lastWinner) :
    Unique es (added ++ accepted d adds) cs := by
  refine ⟨h.fresh, h.won, fun t i b hmem => ?_⟩
  rcases List.mem_append.mp hmem with hmem | hmem
  · exact h.decided t i b hmem
  · exact hadds t i b (mem_of_mem_accepted hmem)

theorem Unique.enter (h : Unique es added cs) (hc : es[i]? = some c)
    (hconf : c'.election.confirmed = c.election.confirmed)
    (hlast : c'.election.lastWinner = c.election.lastWinner) (changed : Bool) :
    Unique (es.set i c') added ((i, .entered changed c.election.confirmed) ::ₘ cs) := by
  have hback : ∀ {j : ℕ} {x : Contest}, (es.set i c')[j]? = some x → ∃ y, es[j]? = some y ∧
      x.election.confirmed = y.election.confirmed ∧
      x.election.lastWinner = y.election.lastWinner := by
    intro j x hx
    rw [List.getElem?_set] at hx
    split_ifs at hx with hij hlt
    · cases hx
      exact ⟨c, hij ▸ hc, hconf, hlast⟩
    · exact ⟨x, hx, rfl, rfl⟩
  have hset : ∀ j, Confirmed (es.set i c') j → Confirmed es j := by
    rintro j ⟨x, hx, hxc⟩
    obtain ⟨y, hy, hxy, _⟩ := hback hx
    exact ⟨y, hy, hxy ▸ hxc⟩
  refine ⟨?_, ?_, ?_⟩
  · intro j changed' hmem hj
    rcases Multiset.mem_cons.mp hmem with heq | hmem
    · simp only [Prod.mk.injEq, Ballot.entered.injEq] at heq
      obtain ⟨rfl, _, hopen⟩ := heq
      obtain ⟨x, hx, hxc⟩ := hset j hj
      cases hc.symm.trans hx
      cases hopen.trans hxc
    · exact h.fresh j changed' hmem (hset j hj)
  · intro j b hmem x hx hxc
    obtain ⟨y, hy, hxy, hxy'⟩ := hback hx
    rcases Multiset.mem_cons.mp hmem with heq | hmem
    · cases heq
    · rw [hxy']
      exact h.won j b hmem y hy (hxy ▸ hxc)
  · intro t j b hmem
    obtain ⟨y, hy, hyc, hb⟩ := h.decided t j b hmem
    by_cases hij : i = j
    · subst hij
      cases hc.symm.trans hy
      refine ⟨c', List.getElem?_set_self (List.getElem?_eq_some_iff.mp hc).1, ?_, ?_⟩
      · rw [hconf, hyc]
      · rw [hlast, hb]
    · exact ⟨y, (List.getElem?_set_ne hij).trans hy, hyc, hb⟩

/-- A call that counts is the only one, so the election was open and nothing was added for it. -/
theorem Unique.count (h : Unique es added ((i, .entered true false) ::ₘ cs)) (hc : es[i]? = some c)
    (hfew : inProgress i
      ((i, .counted false (some c'.election.lastWinner)) ::ₘ cs) ≤ 1) :
    Unique (es.set i c') added
      ((i, .counted false (some c'.election.lastWinner)) ::ₘ cs) := by
  have hopen := h.fresh i true (Multiset.mem_cons_self _ _)
  have hother : ∀ {j}, i ≠ j → (es.set i c')[j]? = es[j]? := fun hij => List.getElem?_set_ne hij
  refine ⟨?_, ?_, ?_⟩
  · intro j changed hmem hj
    rcases Multiset.mem_cons.mp hmem with heq | hmem
    · cases heq
    · obtain ⟨x, hx, hxc⟩ := hj
      rw [hother (ne_of_inProgress hfew hmem)] at hx
      exact h.fresh j changed (Multiset.mem_cons_of_mem hmem) ⟨x, hx, hxc⟩
  · intro j b hmem x hx hxc
    rcases Multiset.mem_cons.mp hmem with heq | hmem
    · cases heq
      rw [List.getElem?_set_self (List.getElem?_eq_some_iff.mp hc).1] at hx
      cases hx
      rfl
    · rw [hother (ne_of_inProgress hfew hmem)] at hx
      exact h.won j b (Multiset.mem_cons_of_mem hmem) x hx hxc
  · intro t j b hmem
    obtain ⟨x, hx, hxc, hb⟩ := h.decided t j b hmem
    have hij : i ≠ j := by
      rintro rfl
      exact hopen ⟨x, hx, hxc⟩
    exact ⟨x, (hother hij).trans hx, hxc, hb⟩

theorem Unique.start (h : Unique es added cs) (hknown : ∀ p ∈ cs, p.1 < es.length) :
    Unique (es ++ [c]) added cs := by
  refine ⟨?_, ?_, ?_⟩
  · intro j changed hmem hj
    rcases confirmed_append.mp hj with hj | ⟨rfl, _⟩
    · exact h.fresh j changed hmem hj
    · exact absurd (hknown _ hmem) (Nat.lt_irrefl _)
  · intro j b hmem x hx hxc
    rw [List.getElem?_append_left (hknown _ hmem)] at hx
    exact h.won j b hmem x hx hxc
  · intro t j b hmem
    obtain ⟨x, hx, hxc, hb⟩ := h.decided t j b hmem
    exact ⟨x, by rwa [List.getElem?_append_left (List.getElem?_eq_some_iff.mp hx).1], hxc, hb⟩

theorem Unique.change (h : Unique es added cs) (hknown : ∀ p ∈ cs, p.1 < es.length)
    (hchange : Change E now es cs es' cs' adds) (hfew : ∀ i, inProgress i cs' ≤ 1) :
    Unique es' (added ++ accepted d adds) cs' := by
  cases hchange with
  | other hnone =>
      refine h.append fun t i b hmem => ?_
      cases hnone _ hmem
  | enter hc =>
      rw [accepted_nil, List.append_nil]
      exact h.enter hc (show (Contest.enter E _ _).election.confirmed = _ from rfl) rfl _
  | @skip cs i changed wasConfirmed hno =>
      rw [accepted_nil, List.append_nil]
      refine ⟨?_, ?_, h.decided⟩
      · intro j changed' hmem
        rcases Multiset.mem_cons.mp hmem with heq | hmem
        · cases heq
        · exact h.fresh j changed' (Multiset.mem_cons_of_mem hmem)
      · intro j b hmem x hx hxc
        rcases Multiset.mem_cons.mp hmem with heq | hmem
        · cases heq
          exact absurd ⟨x, hx, hxc⟩ (h.fresh i changed (Multiset.mem_cons_self _ _))
        · exact h.won j b (Multiset.mem_cons_of_mem hmem) x hx hxc
  | count hc hc' =>
      rw [accepted_nil, List.append_nil]
      exact h.count hc (hfew _)
  | handOver hc =>
      refine h.tail.append fun t j b hmem => ?_
      unfold handOver at hmem
      split_ifs at hmem with hadd
      · cases List.mem_singleton.mp hmem
        rw [Bool.and_eq_true, Bool.not_eq_true'] at hadd
        obtain ⟨rfl, hconf⟩ := hadd
        exact ⟨_, hc, hconf, h.won _ _ (Multiset.mem_cons_self _ _) _ hc hconf⟩
      · cases hmem
  | start =>
      refine (h.start hknown).append fun t j b hmem => ?_
      rcases List.mem_append.mp hmem with hmem | hmem
      · unfold handOver at hmem
        split_ifs at hmem with hadd
        · cases List.mem_singleton.mp hmem
          exact ⟨_, List.getElem?_concat_length, hadd, rfl⟩
        · cases hmem
      · cases List.mem_singleton.mp hmem

end Counting

section Runs
variable {E : Env} {d : Bool} {k : ℕ} {es : List Contest} {added : Adds}
  {cs cs' : Multiset (ℕ × Ballot)} {σ : Node}

theorem Bounded.stop (h : Bounded k d es added cs) (hle : cs' ≤ cs) :
    Bounded k true es added cs' := by
  refine ⟨fun p hp => h.known p (Multiset.mem_of_le hle hp), h.waiting, fun i hi => ?_,
    fun hd => by cases hd⟩
  exact (Nat.add_le_add_left (Multiset.countP_le_of_le _ hle) _).trans (h.few i hi)

theorem Unique.stop (h : Unique es added cs) (hle : cs' ≤ cs) : Unique es added cs' :=
  ⟨fun i changed hmem => h.fresh i changed (Multiset.mem_of_le hle hmem),
    fun i b hmem => h.won i b (Multiset.mem_of_le hle hmem), h.decided⟩

theorem calls_mono (w : World) {fs gs : Multiset Function} (hle : gs ≤ fs) :
    calls w gs ≤ calls w fs :=
  add_le_add_right (Multiset.filterMap_le_filterMap _ hle) _

theorem inProgress_ballots (i : ℕ) (fs : Multiset Function) :
    inProgress i (fs.filterMap Function.ballot) ≤ timers i fs := by
  induction fs using Multiset.induction_on with
  | empty => exact Nat.le_refl 0
  | cons f fs ih =>
      rw [timers_cons]
      cases hf : f.ballot with
      | none =>
          rw [Multiset.filterMap_cons_none _ _ hf]
          omega
      | some p =>
          have htimer : f.timer = some p.1 := by
            cases f <;> cases hf
            rfl
          rw [Multiset.filterMap_cons_some _ _ _ hf, inProgress_cons, htimer]
          simp only [Option.some.injEq]
          omega

/-- One call by the service and one by `conflicts::update`. -/
theorem reached_few (h : Reached (Initial (Fresh E)) (Step (program E)) σ) : Few 2 σ := by
  intro i
  have hservice := (inProgress_ballots i σ.service.live).trans ((reached_ordered h).timers.once i)
  have hupdate : inProgress i (σ.world.updating.toList : Multiset (ℕ × Ballot)) ≤ 1 := by
    refine (Multiset.countP_le_card _ _).trans ?_
    cases σ.world.updating <;> simp
  have hsum : inProgress i (calls σ.world σ.service.live) = _ := Multiset.countP_add _ _ _
  rw [hsum]
  exact Nat.add_le_add hupdate hservice

/-- What is kept by every change, and when calls of the service are thrown away, holds as long as no
more than `k` calls are in progress in an election. -/
theorem reached_invariant {I : Bool → List Contest → Adds → Multiset (ℕ × Ballot) → Prop}
    (start : I false [] [] 0)
    (change : ∀ {now d es added cs es' cs' adds}, I d es added cs →
      Change E now es cs es' cs' adds → (∀ i, inProgress i cs' ≤ k) →
      I d es' (added ++ accepted d adds) cs')
    (stop : ∀ {d es added cs cs'}, I d es added cs → cs' ≤ cs → I true es added cs')
    (h : Reached (Initial (Fresh E)) (Ensured (Few k) (Step (program E))) σ) :
    I σ.service.done σ.world.elections σ.service.added (calls σ.world σ.service.live) := by
  refine h.invariant (I := fun σ => I σ.service.done σ.world.elections σ.service.added
    (calls σ.world σ.service.live)) ?_ ?_
  · intro σ hσ
    obtain ⟨⟨_, hes, _, hu⟩, hnew⟩ := hσ
    have hnone : calls σ.world σ.service.live = 0 := by
      rw [hnew, calls, hu]
      rfl
    rw [hnone, hes, hnew]
    exact start
  · intro σ a τ hσ hstep
    refine live_step (I := fun d w added fs => I d w.elections added (calls w fs))
      (J := fun d w added fs => (∀ i, inProgress i (calls w fs) ≤ k) →
        I d w.elections added (calls w fs)) ?_ ?_ ?_ ?_ hstep.1 hσ hstep.2
    · exact fun hI _ => hI
    · exact fun hI hact hfew => change hI (Change.of_act hact _ _) hfew
    · exact fun hI hcall hfew => change hI (Change.of_call hcall _ _) hfew
    · exact fun hle hI _ => stop hI (calls_mono _ hle)

theorem reached_bounded (hk : 0 < k)
    (h : Reached (Initial (Fresh E)) (Ensured (Few k) (Step (program E))) σ) :
    Bounded k σ.service.done σ.world.elections σ.service.added
      (calls σ.world σ.service.live) := by
  refine reached_invariant (I := Bounded k) ?_ (fun hI => hI.change hk) Bounded.stop h
  exact ⟨by simp, fun _ _ => rfl, by simp [Confirmed], by simp [Confirmed]⟩

theorem reached_unique (h : Reached (Initial (Fresh E)) (Ensured (Few 1) (Step (program E))) σ) :
    Unique σ.world.elections σ.service.added (calls σ.world σ.service.live) := by
  have hboth := reached_invariant (I := fun d es added cs =>
    Bounded 1 d es added cs ∧ Unique es added cs) ?_ ?_ ?_ h
  · exact hboth.2
  · exact ⟨⟨by simp, fun _ _ => rfl, by simp [Confirmed], by simp [Confirmed]⟩,
      ⟨by simp, by simp, by simp⟩⟩
  · exact fun hI hchange hfew =>
      ⟨hI.1.change Nat.one_pos hchange hfew, hI.2.change hI.1.known hchange hfew⟩
  · exact fun hI hle => ⟨hI.1.stop hle, hI.2.stop hle⟩

theorem Bounded.confirmations_le (h : Bounded k d es added cs) (i : ℕ) :
    confirmations i added ≤ k := by
  by_cases hi : Confirmed es i
  · exact (Nat.le_add_right _ _).trans (h.few i hi)
  · rw [h.waiting i hi]
    exact Nat.zero_le k

/-- The confirmation action of an election is added twice at most, and not before the election is
confirmed; while the service is not stopped it is added, once the calls in progress have returned.
As long as no two calls of `election::vote` overlap in an election, it is added once at most, with
the block that is the winner from then on. -/
theorem confirmed_per_call (h : Reached (Initial (Fresh E)) (Step (program E)) σ) (i : ℕ) :
    confirmations i σ.service.added ≤ 2 ∧
    (0 < confirmations i σ.service.added → Confirmed σ.world.elections i) ∧
    (σ.service.done = false → Confirmed σ.world.elections i →
      inProgress i (calls σ.world σ.service.live) = 0 → 0 < confirmations i σ.service.added) ∧
    (Reached (Initial (Fresh E)) (Ensured (Few 1) (Step (program E))) σ →
      confirmations i σ.service.added ≤ 1 ∧
      ∀ t b, (t, .confirm i b) ∈ σ.service.added → ∃ c, σ.world.elections[i]? = some c ∧
        c.election.confirmed = true ∧ b = some c.election.lastWinner) := by
  have htwo : Reached (Initial (Fresh E)) (Ensured (Few 2) (Step (program E))) σ := by
    refine h.induction (fun _ => Reached.start) fun σ a τ hσ ih hstep => ?_
    exact ih.next ⟨hstep, reached_few (hσ.next hstep)⟩
  have hbounded := reached_bounded Nat.two_pos htwo
  refine ⟨hbounded.confirmations_le i, fun hpos => ?_, fun hd hi hnone => ?_, fun hone => ?_⟩
  · by_contra hi
    rw [hbounded.waiting i hi] at hpos
    exact Nat.lt_irrefl 0 hpos
  · have hpos := hbounded.scheduled hd i hi
    have hle := undecided_le i (calls σ.world σ.service.live)
    omega
  · exact ⟨(reached_bounded Nat.one_pos hone).confirmations_le i,
      fun t b => (reached_unique hone).decided t i b⟩

/-- The one thread of the service is in `election::start` at time one. -/
def startingService (operations : List (Operation ℤ Function)) (added : Adds) (f : Function) :
    Service ℤ Function :=
  ⟨operations, false, [(.run, .running f)], added, [⟨1, 1, ⟨0, 0, .start 0⟩⟩]⟩

def Starting (E : Env) (w : World) (added : Adds) (f : Function) : Prop :=
  ∃ operations, Reached (Initial (Fresh E)) (Step (program E))
    ⟨1, w, startingService operations added f⟩

section Starting
variable {w w' : World} {adds : Adds} {f g : Function}

theorem startingService_addAll (operations : List (Operation ℤ Function)) (added adds : Adds)
    (f : Function) : ∃ operations', (startingService operations added f).addAll adds =
      startingService operations' (added ++ adds) f := by
  induction adds generalizing operations added with
  | nil => exact ⟨operations, by rw [List.append_nil]; rfl⟩
  | cons a adds ih =>
      obtain ⟨operations', h⟩ := ih (operations ++ [⟨added.length, a.1, a.2⟩]) (added ++ [a])
      exact ⟨operations', by rw [List.append_cons, ← h]; rfl⟩

theorem Starting.act (h : Starting E w added f) (hact : Act E 1 w f w' adds (some g)) :
    Starting E w' (added ++ adds) g := by
  obtain ⟨operations, hσ⟩ := h
  obtain ⟨operations', hadd⟩ := startingService_addAll operations added adds f
  have hstep : Step (program E) _ _ _ :=
    Step.act (σ := ⟨1, w, startingService operations added f⟩) (i := 0) (l := .run) rfl hact
  rw [hadd] at hstep
  exact ⟨operations', hσ.next hstep⟩

theorem Starting.call (h : Starting E w added f) (hcall : Call E 1 w w' adds) :
    Starting E w' (added ++ adds) f := by
  obtain ⟨operations, hσ⟩ := h
  obtain ⟨operations', hadd⟩ := startingService_addAll operations added adds f
  have hstep : Step (program E) _ _ _ :=
    Step.call (σ := ⟨1, w, startingService operations added f⟩) hcall
  rw [hadd] at hstep
  exact ⟨operations', hσ.next hstep⟩

theorem starting {s : Store} {e : Election} {b : Block}
    (h : Reached (Initial (Fresh E)) (Step (program E)) (startedNode 1 s e b)) :
    Starting E (startedNode 1 s e b).world [(0, .start 0)] (.start 0) := by
  have hops : (startedNode 1 s e b).service.operations = [] ++ ⟨0, 0, .start 0⟩ :: [] := rfl
  have htop : Top (startedNode 1 s e b).service.operations ⟨0, 0, .start 0⟩ :=
    ⟨List.mem_cons_self, by simp [startedNode]⟩
  have hstep := Step.take (P := program E) (i := 0) (l := .run) rfl (fun _ => rfl) hops htop
    (by decide : (0 : ℤ) < 1)
  exact ⟨[], h.next hstep⟩

/-- A vote from the network confirms the election while the vote of a representative, which is in
the record already, has not been counted. -/
theorem overlap_reached {it : Iteration} {fuel : ℕ} {s s' : Store} {e : Election} {b : Block}
    {own v : Vote} {c : Contest}
    (hσ : Reached (Initial (Fresh E)) (Step (program E)) (startedNode 1 s e b))
    (hopen : e.confirmed = false) (hroot : v.block.root = b.root)
    (hblock : own = ⟨0, e.lastWinner, own.account, own.signature⟩)
    (hown : (e.votes.vote E own).1 = false)
    (hvote : (((⟨e, 0, 0⟩ : Contest).enter E own).election.votes.vote E v).1 = true)
    (hcount : (((⟨e, 0, 0⟩ : Contest).enter E own).enter E v).count E it fuel s = .ok (s', c))
    (hconf : c.election.confirmed = true) :
    ∃ w, w.elections = [c] ∧ Starting E w
      [(0, .start 0), (1, .confirm 0 (some c.election.lastWinner)), (1, .confirm 0 none)]
      (.represent 0 0 true) := by
  let c₀ : Contest := ⟨e, 0, 0⟩
  let roots : Table BlockHash ℕ := Table.put ∅ b.root 0
  let w₀ : World := ⟨s, [c₀], roots, [], none⟩
  let w₁ : World := ⟨s, [c₀.enter E own], roots, [], none⟩
  let w₂ : World := ⟨s, [(c₀.enter E own).enter E v], roots, [], some (0, .entered true false)⟩
  let w₃ : World := ⟨s', [c], roots, [], some (0, .counted false (some c.election.lastWinner))⟩
  let w₄ : World := ⟨s', [c], roots, [], none⟩
  -- the service clones the block and puts the vote down
  have hclone : Act E 1 w₀ (.represent 0 0 false) w₀ [] (some (.cast 0 0 own)) := by
    rw [hblock]
    exact Act.clone (c := c₀) rfl
  have henter : Act E 1 w₀ (.cast 0 0 own) w₁ [] (some (.voting 0 0 (.entered false false))) := by
    have hballot : (w₀.enter E 0 c₀ own).2 = .entered false false := by
      rw [World.enter, hown, hopen]
    exact hballot ▸ Act.enter (c := c₀) rfl
  -- the vote from the network is put down, counted and handed over
  have hupdate : Call E 1 w₁ w₂ [] := by
    have hup : w₁.update E v = w₂ := by
      have hget : w₁.roots.get v.block.root = some 0 := hroot ▸ Table.get_put_self _ _ _
      have hballot : (w₁.enter E 0 (c₀.enter E own) v).2 = .entered true false := by
        rw [World.enter]
        exact congrArg₂ Ballot.entered hvote hopen
      rw [World.update, hget]
      simp only [w₁, List.getElem?_cons_zero]
      rw [hballot]
      rfl
    exact hup ▸ Call.update rfl
  have hcounted : Call E 1 w₂ w₃ [] := by
    have hw : w₂.count E it fuel 0 ((c₀.enter E own).enter E v) true false =
        .ok (⟨s', [c], roots, [], some (0, .entered true false)⟩,
          .counted false (some c.election.lastWinner)) := by
      rw [World.count, if_pos (show (!false && true) = true from rfl)]
      simp only [w₂, c₀, relabel_eq_ok.mpr hcount]
      rfl
    exact Call.count rfl rfl hw
  have hadds : ∀ winner, handOver 1 0 c false winner = [(1, .confirm 0 winner)] := by
    intro winner
    rw [handOver, hconf]
    rfl
  have hover : Call E 1 w₃ w₄ [(1, .confirm 0 (some c.election.lastWinner))] :=
    hadds _ ▸ Call.handOver (c := c) rfl rfl
  -- the vote of the representative is not counted, but finds the election confirmed
  have hskip : Act E 1 w₄ (.voting 0 0 (.entered false false)) w₄ []
      (some (.voting 0 0 (.counted false none))) := by
    have hcount : w₄.count E it fuel 0 c false false = .ok (w₄, .counted false none) := rfl
    exact .count rfl hcount
  have hagain : Act E 1 w₄ (.voting 0 0 (.counted false none)) w₄ [(1, .confirm 0 none)]
      (some (.represent 0 0 true)) :=
    hadds none ▸ Act.handOver (c := c) rfl
  have hstarted : Starting E w₀ _ (.represent 0 0 false) :=
    (starting hσ).act (Act.start (c := c₀) rfl)
  exact ⟨w₄, rfl, (((((hstarted.act hclone).act henter).call hupdate).call hcounted).call
    hover).act hskip |>.act hagain⟩

end Starting

/-- A representative's vote that is in the record already is put down, and before it is counted the
genesis account confirms the block. Both calls add the action, the second without a block. -/
theorem confirmed_per_call_overlap : ∃ σ, Reached (Initial (Fresh tieNetwork))
    (Step (program tieNetwork)) σ ∧ confirmations 0 σ.service.added = 2 ∧
      Confirmed σ.world.elections 0 ∧ (1, .confirm 0 none) ∈ σ.service.added := by
  have hrun : executes tieNetwork 20 tieLedger (fun s =>
      returns (Election.start tieNetwork .inPlace 20 s emptySend thirdAccount tieOpening) (fun r =>
        let c : Contest := ⟨r.2.1, 0, 0⟩
        let own : Vote := ⟨0, r.2.1.lastWinner, thirdAccount, tieOpening⟩
        let c₁ := c.enter tieNetwork own
        r.2.2.isNone && !r.2.1.confirmed && !(r.2.1.votes.vote tieNetwork own).1 &&
          (c₁.election.votes.vote tieNetwork sendBallot).1 &&
          returns ((c₁.enter tieNetwork sendBallot).count tieNetwork .inPlace 20 r.1) (fun t =>
            t.2.election.confirmed))) = true := by
    decide +kernel
  obtain ⟨s, hx, hrun⟩ := exists_of_executes hrun
  obtain ⟨⟨s₁, e₁, action⟩, hstart, hrun⟩ := exists_of_returns hrun
  simp only [Bool.and_eq_true, Bool.not_eq_true'] at hrun
  obtain ⟨⟨⟨⟨hnone, hopen⟩, hown⟩, hvote⟩, hrun⟩ := hrun
  obtain ⟨⟨s₂, c⟩, hcount, hconf⟩ := exists_of_returns hrun
  cases action with
  | some b => cases hnone
  | none =>
      have hsigned : Vote.Signed tieNetwork ⟨0, emptySend, thirdAccount, tieOpening⟩ := by
        unfold Vote.Signed
        decide +kernel
      have hσ := started_reached (execute_reachable hx) hsigned hstart 1
      have hroot : sendBallot.block.root = emptySend.root := rfl
      have hblock : (⟨0, e₁.lastWinner, thirdAccount, tieOpening⟩ : Vote) =
          ⟨0, e₁.lastWinner, thirdAccount, tieOpening⟩ := rfl
      obtain ⟨w, _, operations, hτ⟩ :=
        overlap_reached hσ hopen hroot hblock hown hvote hcount hconf
      have htwo : confirmations 0 (startingService operations
          [(0, .start 0), (1, .confirm 0 (some c.election.lastWinner)), (1, .confirm 0 none)]
          (.represent 0 0 true)).added = 2 := rfl
      exact ⟨_, hτ, htwo, (confirmed_per_call hτ 0).2.1 (htwo ▸ Nat.two_pos), by
        simp [startingService]⟩

end Runs

end PaperNode.Confirmations
