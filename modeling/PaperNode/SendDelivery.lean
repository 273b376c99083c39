import PaperNode.SendRounds

/-!
# Every packet is delivered

If the socket completes what it is given, handlers go on and timers fire, then each packet goes
through all its rounds and its callback is called. Within a round the packet comes nearer to the
socket with every step of the one activity, and from round to round there is less to broadcast.
-/
namespace PaperNode.SendDelivery
open SendQueue SendRounds TransitionRuns FairRuns

variable {D C R : Type*}

abbrev Course (D C R : Type*) :=
  Endless (Moves : Network D C R → Action D C R → Network D C R → Prop)

def Goes (s : Network D C R) (a : Action D C R) : Prop :=
  ∃ i result, a = .proceed i result ∧ i < s.activities.length

def Fires (p : Packet D C) (s : Network D C R) (a : Action D C R) : Prop :=
  ∃ i, a = .fire i ∧ s.timers[i]? = some p

/-- The socket completes, handlers go on, and timers fire. -/
structure Fair (e : Course D C R) : Prop where
  activities : ∀ n, (e.state n).activities ≠ [] → ∃ m, n ≤ m ∧ Goes (e.state m) (e.action m)
  timers : ∀ n, ∀ p ∈ (e.state n).timers, ∃ m, n ≤ m ∧ Fires p (e.state m) (e.action m)

section Steps
variable {s t : Network D C R} {a : Action D C R} {p : Packet D C}

theorem stays_or_goes (h : Effect s a t) {b : Activity D C R} (hs : s.activities = [b]) :
    Goes s a ∨ (t.activities = [b] ∧ ∃ l, waiting t = waiting s ++ l) := by
  cases h with
  | nothing => exact .inr ⟨hs, [], (List.append_nil _).symm⟩
  | entersIdle _ _ ha => cases hs.symm.trans ha
  | entersBusy entry hsends =>
      exact .inr ⟨entry.activities.trans hs, [_], waiting_append entry hsends _⟩
  | @proceeds result => exact .inl ⟨0, result, rfl, by simp [hs]⟩

theorem proceeds_of_goes (h : Effect s a t) (hgoes : Goes s a) {b : Activity D C R}
    (hs : s.activities = [b]) : Proceeds s b t := by
  obtain ⟨i, result, rfl, hi⟩ := hgoes
  cases h with
  | nothing h => exact absurd hi h
  | entersIdle entry => cases entry
  | entersBusy entry => cases entry
  | proceeds ha h =>
      cases hs.symm.trans ha
      exact h

/-- What comes next for the packet that an activity carries. -/
def After (t : Network D C R) : Activity D C R → Prop
  | .inFlight p => ∃ result, t.activities = [.handling p result]
  | .handling p result =>
      (0 < p.info.rebroadcast ∧ p.again ∈ t.timers) ∨ t.activities = [.calling p result]
  | .calling p result => p.info.rebroadcast = 0 ∧ .called p result ∈ t.log
  | .completing => True
  | .scheduled => True

theorem after_of_proceeds {b : Activity D C R} (h : Proceeds s b t) : After t b := by
  cases h with
  | completes _ result => exact ⟨result, rfl⟩
  | rests _ hr => exact .inl ⟨hr, by simp⟩
  | fetches => exact .inr rfl
  | calls _ hr => exact ⟨hr, by simp⟩
  | empties => trivial
  | pops => trivial
  | starts => trivial

/-- How far an activity is from handing the next packet to the socket. -/
def stepsLeft : Activity D C R → ℕ
  | .inFlight _ => 4
  | .handling _ _ => 3
  | .calling _ _ => 2
  | .completing => 1
  | .scheduled => 0

theorem stepsLeft_of_proceeds {b : Activity D C R} (h : Proceeds s b t) :
    b = .scheduled ∨ t.sends = [] ∨ ∃ b', t.activities = [b'] ∧ stepsLeft b' < stepsLeft b := by
  cases h with
  | empties => exact .inr (.inl rfl)
  | starts => exact .inl rfl
  | _ => exact .inr (.inr ⟨_, rfl, by simp [stepsLeft]⟩)

def Awaits (p : Packet D C) (rank : ℕ) (s : Network D C R) : Prop :=
  ∃ before after b, waiting s = before ++ p :: after ∧ s.activities = [b] ∧
    5 * before.length + stepsLeft b = rank

theorem sends_ne_nil_of_mem_waiting (h : p ∈ waiting s) : s.sends ≠ [] := by
  intro hs
  unfold waiting at h
  split at h <;> simp [hs] at h

/-- Each step brings the packet nearer to the socket. -/
theorem nearer_of_proceeds {before after : List (Packet D C)} {b : Activity D C R}
    (hwaiting : waiting s = before ++ p :: after) (hs : s.activities = [b]) (h : Proceeds s b t) :
    t.activities = [.inFlight p] ∨
      ∃ rank < 5 * before.length + stepsLeft b, Awaits p rank t := by
  rcases waiting_of_proceeds hs h with ⟨hb, hsame, _⟩ | ⟨front, rfl, ht, htaken, _⟩
  · have hqueue : waiting t = before ++ p :: after := hsame.trans hwaiting
    have hsends : t.sends ≠ [] := by
      apply sends_ne_nil_of_mem_waiting (p := p)
      simp [hqueue]
    rcases stepsLeft_of_proceeds h with hb' | ht | ⟨b', hb', hlt⟩
    · exact absurd hb' hb
    · exact absurd ht hsends
    · exact .inr ⟨_, Nat.add_lt_add_left hlt _, before, after, b', hqueue, hb', rfl⟩
  · -- the first of those that wait is taken
    rw [htaken] at hwaiting
    cases before with
    | nil =>
        obtain rfl := (List.cons.inj hwaiting).1
        exact .inl ht
    | cons first before =>
        refine .inr
          ⟨5 * before.length + 4, ?_, before, after, _, (List.cons.inj hwaiting).2, ht, rfl⟩
        simp only [List.length_cons]
        omega

theorem enters_of_fires (h : Effect s a t) (hfires : Fires p s a) :
    p ∈ waiting t ∨ t.activities = [.inFlight p] := by
  obtain ⟨i, rfl, hi⟩ := hfires
  cases h with
  | nothing h => exact absurd (List.getElem?_eq_some_iff.mp hi).1 h
  | entersIdle entry =>
      cases entry with
      | fire h =>
          cases hi.symm.trans h
          exact .inr rfl
  | entersBusy entry hsends =>
      rw [waiting_append entry hsends]
      cases entry with
      | fire h =>
          cases hi.symm.trans h
          exact .inl (by simp)

theorem mem_timers_of_entry {base : Network D C R} {q : Packet D C} (entry : Entry s a base q)
    (hp : p ∈ s.timers) : p = q ∨ p ∈ base.timers := by
  cases entry with
  | submit => exact .inr hp
  | fire h =>
      obtain ⟨hi, rfl⟩ := List.getElem?_eq_some_iff.mp h
      exact List.mem_cons.mp ((List.getElem_cons_eraseIdx_perm hi).mem_iff.mpr hp)

theorem timers_of_proceeds {b : Activity D C R} (h : Proceeds s b t) : s.timers <+: t.timers := by
  cases h with
  | rests => exact List.prefix_append _ _
  | _ => exact List.prefix_rfl

theorem rests_or_enters (h : Effect s a t) (hp : p ∈ s.timers) :
    p ∈ t.timers ∨ p ∈ waiting t ∨ t.activities = [.inFlight p] := by
  cases h with
  | nothing => exact .inl hp
  | entersIdle entry =>
      rcases mem_timers_of_entry entry hp with rfl | hp
      · exact .inr (.inr rfl)
      · exact .inl hp
  | entersBusy entry hsends =>
      rw [waiting_append entry hsends]
      rcases mem_timers_of_entry entry hp with rfl | hp
      · exact .inr (.inl (by simp))
      · exact .inl hp
  | proceeds _ h => exact .inl ((timers_of_proceeds h).mem hp)

theorem log_of_proceeds {b : Activity D C R} (h : Proceeds s b t) : s.log <+: t.log := by
  cases h with
  | rests => exact List.prefix_rfl
  | fetches => exact List.prefix_rfl
  | empties => exact List.prefix_rfl
  | pops => exact List.prefix_rfl
  | _ => exact List.prefix_append _ _

theorem log_of_effect (h : Effect s a t) : s.log <+: t.log := by
  cases h with
  | nothing => exact List.prefix_rfl
  | entersIdle => exact List.prefix_append _ _
  | entersBusy entry => exact entry.log ▸ List.prefix_rfl
  | proceeds _ h => exact log_of_proceeds h

theorem submitted_of_entry {base : Network D C R} (entry : Entry s a base p) :
    s.submitted <+: base.submitted := by
  cases entry with
  | submit => exact List.prefix_append _ _
  | fire => exact List.prefix_rfl

theorem submitted_of_effect (h : Effect s a t) : s.submitted <+: t.submitted := by
  cases h with
  | nothing => exact List.prefix_rfl
  | entersIdle entry =>
      dsimp only
      exact submitted_of_entry entry
  | entersBusy entry =>
      dsimp only
      exact submitted_of_entry entry
  | proceeds _ h => cases h <;> exact List.prefix_rfl

end Steps

section Course
variable {e : Course D C R} {p : Packet D C}

theorem effect_of_course (hinit : Initial (e.state 0)) (n : ℕ) :
    Effect (e.state n) (e.action n) (e.state (n + 1)) :=
  effect_of_reached (e.reached hinit n) (e.next n)

theorem leadsTo_of_activity (hinit : Initial (e.state 0)) (hfair : Fair e) (b : Activity D C R) :
    LeadsTo e.state (fun s => s.activities = [b]) (fun t => After t b) := by
  refine e.leadsTo_of_helpful Goes ?_ ?_ ?_
  · intro n hn
    have heffect := effect_of_course hinit n
    rcases stays_or_goes heffect hn with hgoes | ⟨hstays, _⟩
    · exact .inr (after_of_proceeds (proceeds_of_goes heffect hgoes hn))
    · exact .inl hstays
  · intro n hn hgoes
    exact after_of_proceeds (proceeds_of_goes (effect_of_course hinit n) hgoes hn)
  · intro n hn
    exact hfair.activities n (by simp [hn])

theorem leadsTo_of_awaits (hinit : Initial (e.state 0)) (hfair : Fair e) (rank : ℕ) :
    LeadsTo e.state (Awaits p rank) (fun s => s.activities = [.inFlight p]) := by
  refine leadsTo_of_rank (fun rank => ?_) rank
  refine e.leadsTo_of_helpful Goes ?_ ?_ ?_
  · intro n hn
    obtain ⟨before, after, b, hwaiting, hb, rfl⟩ := hn
    have heffect := effect_of_course hinit n
    rcases stays_or_goes heffect hb with hgoes | ⟨hstays, l, hl⟩
    · exact .inr (nearer_of_proceeds hwaiting hb (proceeds_of_goes heffect hgoes hb))
    · refine .inl ⟨before, after ++ l, b, ?_, hstays, rfl⟩
      rw [hl, hwaiting, List.append_assoc, List.cons_append]
  · intro n hn hgoes
    obtain ⟨before, after, b, hwaiting, hb, rfl⟩ := hn
    exact nearer_of_proceeds hwaiting hb (proceeds_of_goes (effect_of_course hinit n) hgoes hb)
  · intro n hn
    obtain ⟨_, _, b, _, hb, _⟩ := hn
    exact hfair.activities n (by simp [hb])

/-- Where the packet is when it is at a stage. -/
def Located (p : Packet D C) (s : Network D C R) : Stage → Prop
  | .queued => p ∈ waiting s
  | .inFlight => s.activities = [.inFlight p]
  | .handling => ∃ result, s.activities = [.handling p result]
  | .calling => ∃ result, s.activities = [.calling p result]
  | .resting => p ∈ s.timers

theorem located_of_mem_tokens {s : Network D C R} (hchain : Chain s.sends s.activities)
    {stage : Stage} (h : (p, stage) ∈ tokens s) : Located p s stage := by
  simp only [tokens, inStage, Multiset.mem_add, Multiset.mem_map, Multiset.mem_coe,
    Prod.mk.injEq] at h
  rcases h with hcarried | ⟨q, hq, rfl, rfl⟩ | ⟨q, hq, rfl, rfl⟩
  · rcases hchain.idle_or_busy with ⟨_, ha⟩ | ⟨_, _, b, _, ha, _⟩
    · simp [ha] at hcarried
    · rw [ha, filterMap_carried, Option.mem_toList] at hcarried
      cases b <;> cases hcarried
      · exact ha
      · exact ⟨_, ha⟩
      · exact ⟨_, ha⟩
  · exact hq
  · exact hq

def RoundDone (p : Packet D C) (s : Network D C R) : Prop :=
  (0 < p.info.rebroadcast ∧ p.again ∈ s.timers) ∨
    (p.info.rebroadcast = 0 ∧ ∃ result, .called p result ∈ s.log)

theorem leadsTo_roundDone (hinit : Initial (e.state 0)) (hfair : Fair e) (stage : Stage) :
    LeadsTo e.state (fun s => Located p s stage) (RoundDone p) := by
  have hcalling : LeadsTo e.state (fun s => Located p s .calling) (RoundDone p) := by
    intro n hn
    obtain ⟨result, hn⟩ := hn
    obtain ⟨m, hnm, hr, hcalled⟩ := leadsTo_of_activity hinit hfair _ n hn
    exact ⟨m, hnm, .inr ⟨hr, result, hcalled⟩⟩
  have hhandling : LeadsTo e.state (fun s => Located p s .handling) (RoundDone p) := by
    intro n hn
    obtain ⟨result, hn⟩ := hn
    obtain ⟨m, hnm, hrests | hfetched⟩ := leadsTo_of_activity hinit hfair _ n hn
    · exact ⟨m, hnm, .inl hrests⟩
    · obtain ⟨l, hml, hl⟩ := hcalling m ⟨result, hfetched⟩
      exact ⟨l, hnm.trans hml, hl⟩
  have hinFlight : LeadsTo e.state (fun s => Located p s .inFlight) (RoundDone p) :=
    (leadsTo_of_activity hinit hfair (.inFlight p)).trans hhandling
  have hqueued : LeadsTo e.state (fun s => Located p s .queued) (RoundDone p) := by
    intro n hn
    obtain ⟨before, after, hwaiting⟩ := List.append_of_mem hn
    rcases (chain_of_reached (e.reached hinit n)).idle_or_busy with ⟨hs, _⟩ | ⟨_, _, b, _, ha, _⟩
    · exact absurd hs (sends_ne_nil_of_mem_waiting hn)
    · exact ((leadsTo_of_awaits hinit hfair _).trans hinFlight) n
        ⟨before, after, b, hwaiting, ha, rfl⟩
  cases stage with
  | queued => exact hqueued
  | inFlight => exact hinFlight
  | handling => exact hhandling
  | calling => exact hcalling
  | resting =>
      refine LeadsTo.trans ?_ (hqueued.or hinFlight)
      refine e.leadsTo_of_helpful (Fires p) ?_ ?_ ?_
      · intro n hn
        exact rests_or_enters (effect_of_course hinit n) hn
      · intro n _ hfires
        exact enters_of_fires (effect_of_course hinit n) hfires
      · intro n hn
        exact hfair.timers n p hn

theorem leadsTo_called (hinit : Initial (e.state 0)) (hfair : Fair e) {k : ℕ}
    (hk : p.info.rebroadcast = k) (stage : Stage) : LeadsTo e.state (fun s => Located p s stage)
      (fun s => ∃ q result, q.number = p.number ∧ .called q result ∈ s.log) := by
  induction k generalizing p stage with
  | zero =>
      refine (leadsTo_roundDone hinit hfair stage).mono fun s hs => ?_
      rcases hs with ⟨hr, _⟩ | ⟨_, result, hcalled⟩
      · omega
      · exact ⟨p, result, rfl, hcalled⟩
  | succ k ih =>
      have hagain : p.again.info.rebroadcast = k := by
        simp [Packet.again, hk]
      refine ((leadsTo_roundDone hinit hfair stage).mono fun s hs => ?_).trans (ih hagain .resting)
      rcases hs with ⟨_, hrests⟩ | ⟨hr, _⟩
      · exact hrests
      · omega

theorem history_kept (hinit : Initial (e.state 0)) {m n : ℕ} (hmn : m ≤ n) (i : ℕ) :
    history (e.state m).log i <+: history (e.state n).log i := by
  have hlog : (e.state m).log <+: (e.state n).log :=
    Nat.rel_of_forall_rel_succ_of_le (f := fun n => (e.state n).log) (· <+: ·)
      (fun n => log_of_effect (effect_of_course hinit n)) hmn
  exact hlog.filter _

theorem submitted_kept (hinit : Initial (e.state 0)) {m n i : ℕ} (hmn : m ≤ n)
    {info : SendInfo D C} (h : (e.state m).submitted[i]? = some info) :
    (e.state n).submitted[i]? = some info := by
  have hsubmitted : (e.state m).submitted <+: (e.state n).submitted :=
    Nat.rel_of_forall_rel_succ_of_le (f := fun n => (e.state n).submitted) (· <+: ·)
      (fun n => submitted_of_effect (effect_of_course hinit n)) hmn
  obtain ⟨later, hlater⟩ := hsubmitted
  rw [← hlater, List.getElem?_append_left (List.getElem?_eq_some_iff.mp h).1]
  exact h

theorem life_of_submitted (hinit : Initial (e.state 0)) {n i : ℕ} {info : SendInfo D C}
    (h : (e.state n).submitted[i]? = some info) :
    Life i (some info) (numbered i (tokens (e.state n))) (history (e.state n).log i) :=
  h ▸ lives_of_reached (e.reached hinit n) i

theorem eventually_delivered (hinit : Initial (e.state 0)) (hfair : Fair e) {n i : ℕ}
    {info : SendInfo D C} (h : (e.state n).submitted[i]? = some info) :
    ∃ m result, n ≤ m ∧ history (e.state m).log i = delivery i info result := by
  have hlife := life_of_submitted hinit h
  generalize hnumbered : numbered i (tokens (e.state n)) = mine at hlife
  generalize hevents : history (e.state n).log i = events at hlife
  cases hlife with
  | @alive _ j stage =>
      have hmem : (round i info j, stage) ∈ numbered i (tokens (e.state n)) := by
        rw [hnumbered]
        exact Multiset.mem_singleton_self _
      have hlocated := located_of_mem_tokens (chain_of_reached (e.reached hinit n))
        (Multiset.mem_filter.mp hmem).1
      obtain ⟨m, hnm, q, result, hq, hcalled⟩ := leadsTo_called hinit hfair rfl stage n hlocated
      have hhistory : .called q result ∈ history (e.state m).log i :=
        List.mem_filter.mpr ⟨hcalled, decide_eq_true hq⟩
      obtain ⟨result, hdelivered⟩ :=
        (life_of_submitted hinit (submitted_kept hinit hnm h)).delivered_of_called hhistory
      exact ⟨m, result, hnm, hdelivered⟩
  | delivered _ result => exact ⟨n, result, le_rfl, hevents⟩

theorem delivered_kept (hinit : Initial (e.state 0)) {m n i : ℕ} (hmn : m ≤ n)
    {info : SendInfo D C} (h : (e.state m).submitted[i]? = some info) {result : R}
    (hm : history (e.state m).log i = delivery i info result) :
    history (e.state n).log i = delivery i info result := by
  have hkept := history_kept hinit hmn i
  rw [hm] at hkept
  have hcalled : .called (round i info info.rebroadcast) result ∈ history (e.state n).log i :=
    hkept.mem (List.mem_append_right _ (List.mem_singleton_self _))
  obtain ⟨result', hn⟩ :=
    (life_of_submitted hinit (submitted_kept hinit hmn h)).delivered_of_called hcalled
  rw [hn] at hkept ⊢
  exact (hkept.eq_of_length (by simp [delivery])).symm

end Course

theorem transmissions_of_rounds (i : ℕ) (info : SendInfo D C) (n : ℕ) :
    ((rounds (R := R) i info n).filterMap Event.transmission).length = n := by
  induction n with
  | zero => rfl
  | succ n ih => simp [rounds_succ, ih, Event.transmission]

theorem transmissions_of_delivery (i : ℕ) (info : SendInfo D C) (result : R) :
    ((delivery i info result).filterMap Event.transmission).length = info.rebroadcast + 1 := by
  simp [delivery, transmissions_of_rounds, Event.transmission]

/-- Datagrams are sent one at a time and in order, and every packet is transmitted once more than it
is to be broadcast again, with its callback called once and at the end. -/
theorem datagrams_sent_in_turn :
    (∀ s : Network D C R, Reached Initial Moves s →
      (∀ a, perform s a ≠ none) ∧ s.activities.length ≤ 1 ∧
      (s.activities ≠ [] ↔ s.sends ≠ []) ∧ s.queued = transmitted s ++ waiting s ∧
      ∀ i info, s.submitted[i]? = some info →
        history s.log i <+: rounds i info (info.rebroadcast + 1) ∨
          ∃ result, history s.log i = delivery i info result) ∧
    ∀ e : Course D C R, Initial (e.state 0) → Fair e →
      ∀ n i info, (e.state n).submitted[i]? = some info →
        ∃ m result, n ≤ m ∧ ∀ l, m ≤ l → history (e.state l).log i = delivery i info result ∧
          ((history (e.state l).log i).filterMap Event.transmission).length =
            info.rebroadcast + 1 := by
  constructor
  · intro s hs
    have hchain := chain_of_reached hs
    refine ⟨?_, ?_, ?_, inOrder_of_reached hs, ?_⟩
    · intro a
      obtain ⟨t, ht, _⟩ := perform_effect hchain a
      rw [ht]
      exact Option.some_ne_none t
    · rcases hchain.idle_or_busy with ⟨_, ha⟩ | ⟨_, _, _, _, ha, _⟩ <;> simp [ha]
    · rcases hchain.idle_or_busy with ⟨hsends, ha⟩ | ⟨_, _, _, hsends, ha, _⟩ <;> simp [hsends, ha]
    · intro i info hinfo
      have hlife := lives_of_reached hs i
      rw [show (population s).submitted[i]? = some info from hinfo] at hlife
      exact hlife.progress
  · intro e hinit hfair n i info hinfo
    obtain ⟨m, result, hnm, hm⟩ := eventually_delivered hinit hfair hinfo
    refine ⟨m, result, hnm, fun l hml => ?_⟩
    have hl := delivered_kept hinit hml (submitted_kept hinit hnm hinfo) hm
    rw [hl]
    exact ⟨rfl, transmissions_of_delivery i info result⟩

def onceAgain : SendInfo Unit Unit := ⟨(), 8, ⟨1, 7075⟩, 1, ()⟩

/-- The packet is submitted, sent, put on the queue again by its timer and sent again. -/
def script : List (Action Unit Unit Unit) :=
  [.submit onceAgain, .proceed 0 (), .proceed 0 (), .proceed 0 (), .fire 0, .proceed 0 (),
    .proceed 0 (), .proceed 0 (), .proceed 0 ()]

def scriptAction (n : ℕ) : Action Unit Unit Unit := script.getD n (.proceed 0 ())

def scriptState (n : ℕ) : Network Unit Unit Unit :=
  (script.take n).foldl (fun s a => (perform s a).getD s) ⟨[], [], [], [], [], []⟩

theorem scriptState_of_le {n : ℕ} (h : 9 ≤ n) : scriptState n = scriptState 9 := by
  unfold scriptState
  rw [List.take_of_length_le h, List.take_of_length_le (le_refl 9)]

theorem scriptAction_of_le {n : ℕ} (h : 9 ≤ n) : scriptAction n = .proceed 0 () := by
  unfold scriptAction
  rw [List.getD_eq_getElem?_getD, List.getElem?_eq_none h, Option.getD_none]

def scriptCourse : Course Unit Unit Unit where
  state := scriptState
  action := scriptAction
  next := by
    intro n
    by_cases hn : n < 9
    · have hscript : ∀ n < 9,
          perform (scriptState n) (scriptAction n) = some (scriptState (n + 1)) := by
        decide +kernel
      exact hscript n hn
    · have hn := Nat.not_lt.mp hn
      rw [scriptState_of_le hn, scriptAction_of_le hn, scriptState_of_le (Nat.le_succ_of_le hn)]
      exact (by decide +kernel : perform (scriptState 9) (.proceed 0 ()) = some (scriptState 9))

theorem scriptCourse_fair : Fair scriptCourse where
  activities := by
    intro n hn
    have hscript : ∀ n < 9, (scriptState n).activities ≠ [] →
        scriptAction n = .proceed 0 () ∧ 0 < (scriptState n).activities.length := by
      decide +kernel
    by_cases h9 : n < 9
    · obtain ⟨haction, hlength⟩ := hscript n h9 hn
      exact ⟨n, le_rfl, 0, (), haction, hlength⟩
    · rw [show scriptCourse.state n = scriptState 9 from scriptState_of_le (Nat.not_lt.mp h9)] at hn
      exact absurd (by decide +kernel) hn
  timers := by
    intro n p hp
    have hscript : ∀ n < 9, ∀ p ∈ (scriptState n).timers,
        n ≤ 4 ∧ (scriptState 4).timers[0]? = some p := by
      decide +kernel
    by_cases h9 : n < 9
    · obtain ⟨hn, hfirst⟩ := hscript n h9 p hp
      exact ⟨4, hn, 0, rfl, hfirst⟩
    · rw [show scriptCourse.state n = scriptState 9 from scriptState_of_le (Nat.not_lt.mp h9)] at hp
      rw [(by decide +kernel : (scriptState 9).timers = [])] at hp
      exact absurd hp List.not_mem_nil

theorem onceAgain_sent_twice : ∃ m result, 1 ≤ m ∧ ∀ l, m ≤ l →
    history (scriptCourse.state l).log 0 = delivery 0 onceAgain result ∧
      ((history (scriptCourse.state l).log 0).filterMap Event.transmission).length = 2 :=
  datagrams_sent_in_turn.2 scriptCourse rfl scriptCourse_fair 1 0 onceAgain (by decide +kernel)

end PaperNode.SendDelivery
