import PaperNode.SendQueue
import Mathlib.Algebra.Order.Group.Multiset
import Mathlib.Tactic.Abel

/-!
# The rounds of a packet

Seen from a single packet, the queue is a small machine: it waits, is handed to the socket, is
handled, and rests until it is put on the queue again, or has its callback called. A network is a
population of such machines, each of which takes its turns on its own. What a packet has been
through is therefore known from its place in its last round.
-/
namespace PaperNode.SendRounds
open SendQueue TransitionRuns

variable {D C R : Type*}

inductive Stage where
  | queued
  | inFlight
  | handling
  | calling
  | resting
  deriving DecidableEq, Repr

abbrev Token (D C : Type*) := Packet D C × Stage

/-- One turn of a packet: what becomes of it, and what is recorded. -/
inductive Turn : Token D C → Multiset (Token D C) → List (Event D C R) → Prop
  | start (p : Packet D C) : Turn (p, .queued) {(p, .inFlight)} [.started p]
  | complete (p : Packet D C) : Turn (p, .inFlight) {(p, .handling)} [.completed p]
  | rest {p : Packet D C} (h : 0 < p.info.rebroadcast) :
      Turn (p, .handling) {(p.again, .resting)} []
  | fetch {p : Packet D C} (h : p.info.rebroadcast = 0) : Turn (p, .handling) {(p, .calling)} []
  | call (p : Packet D C) (result : R) : Turn (p, .calling) 0 [.called p result]
  | requeue (p : Packet D C) : Turn (p, .resting) {(p, .queued)} []

structure Population (D C R : Type*) where
  tokens : Multiset (Token D C)
  submitted : List (SendInfo D C)
  log : List (Event D C R)

/-- A packet is admitted, or one of the packets takes a turn. -/
inductive Population.Step : Population D C R → Population D C R → Prop
  | join (P : Population D C R) (info : SendInfo D C) :
      Step P ⟨(⟨P.submitted.length, info⟩, .queued) ::ₘ P.tokens, P.submitted ++ [info], P.log⟩
  | turn {x : Token D C} {ys : Multiset (Token D C)} {events : List (Event D C R)}
      (h : Turn x ys events) (rest : Multiset (Token D C)) (submitted : List (SendInfo D C))
      (log : List (Event D C R)) :
      Step ⟨x ::ₘ rest, submitted, log⟩ ⟨ys + rest, submitted, log ++ events⟩

/-- The packet that an activity is about, as long as it is not done with it. -/
def carried : Activity D C R → Option (Token D C)
  | .inFlight p => some (p, .inFlight)
  | .handling p _ => some (p, .handling)
  | .calling p _ => some (p, .calling)
  | .completing => none
  | .scheduled => none

@[simp] theorem filterMap_carried (a : Activity D C R) :
    [a].filterMap carried = (carried a).toList := by
  cases a <;> rfl

def inStage (stage : Stage) (l : List (Packet D C)) : Multiset (Token D C) :=
  (l : Multiset (Packet D C)).map fun p => (p, stage)

def tokens (s : Network D C R) : Multiset (Token D C) :=
  s.activities.filterMap carried + (inStage .queued (waiting s) + inStage .resting s.timers)

def population (s : Network D C R) : Population D C R := ⟨tokens s, s.submitted, s.log⟩

section Refinement
variable {s t base : Network D C R} {a : Action D C R} {p : Packet D C}

theorem step_of_turn {x : Token D C} {ys : Multiset (Token D C)} {events : List (Event D C R)}
    (h : Turn x ys events) {P Q : Population D C R} (rest : Multiset (Token D C))
    (hP : P.tokens = {x} + rest) (hQ : Q.tokens = ys + rest)
    (hsubmitted : Q.submitted = P.submitted) (hlog : Q.log = P.log ++ events) :
    Population.Step P Q := by
  obtain ⟨P, submitted, log⟩ := P
  obtain ⟨Q, submitted', log'⟩ := Q
  dsimp only at hP hQ hsubmitted hlog
  subst hP hQ hsubmitted hlog
  exact .turn h rest submitted' log

theorem step_of_activity {x : Token D C} {ys : Multiset (Token D C)} {events : List (Event D C R)}
    (h : Turn x ys events) (hs : s.activities.filterMap carried = [x])
    (ht : tokens t = ys + (inStage .queued (waiting s) + inStage .resting s.timers))
    (hsubmitted : t.submitted = s.submitted) (hlog : t.log = s.log ++ events) :
    Population.Step (population s) (population t) := by
  refine step_of_turn h (inStage .queued (waiting s) + inStage .resting s.timers) ?_ ht hsubmitted
    hlog
  unfold population tokens
  rw [hs]
  rfl

theorem inStage_append (stage : Stage) (l l' : List (Packet D C)) :
    inStage stage (l ++ l') = inStage stage l + inStage stage l' := by
  simp [inStage, ← Multiset.coe_add]

theorem inStage_singleton (stage : Stage) (p : Packet D C) : inStage stage [p] = {(p, stage)} := rfl

theorem inStage_eraseIdx (stage : Stage) {l : List (Packet D C)} {i : ℕ} (h : l[i]? = some p) :
    inStage stage l = {(p, stage)} + inStage stage (l.eraseIdx i) := by
  obtain ⟨hi, rfl⟩ := List.getElem?_eq_some_iff.mp h
  unfold inStage
  rw [← Multiset.coe_eq_coe.mpr (List.getElem_cons_eraseIdx_perm hi)]
  simp

theorem step_of_entry (entry : Entry s a base p) : Population.Step (population s)
    ⟨{(p, .queued)} + tokens base, base.submitted, base.log⟩ := by
  cases entry with
  | submit info => exact .join (population s) info
  | @fire i _ h =>
      refine step_of_turn (.requeue p) (tokens { s with timers := s.timers.eraseIdx i }) ?_ rfl rfl
        (List.append_nil _).symm
      have hwaiting : waiting { s with timers := s.timers.eraseIdx i } = waiting s := rfl
      simp only [population, tokens, hwaiting, inStage_eraseIdx .resting h]
      abel

theorem refines_of_proceeds {b : Activity D C R} (ha : s.activities = [b]) (h : Proceeds s b t) :
    Relation.ReflTransGen Population.Step (population s) (population t) := by
  cases h with
  | completes hs =>
      refine .single (step_of_activity (.complete _) ?_ ?_ rfl rfl)
      · simp [ha, carried]
      · simp [tokens, waiting, carried, hs, ha]
  | rests hs hr =>
      refine .single (step_of_activity (.rest hr) ?_ ?_ rfl (List.append_nil _).symm)
      · simp [ha, carried]
      · simp only [tokens, waiting, ha, filterMap_carried, carried, Option.toList_none,
          Multiset.coe_nil, inStage_append, inStage_singleton]
        abel
  | fetches hs hr =>
      refine .single (step_of_activity (.fetch hr) ?_ ?_ rfl (List.append_nil _).symm)
      · simp [ha, carried]
      · simp [tokens, waiting, carried, hs, ha]
  | calls hs hr =>
      refine .single (step_of_activity (.call _ _) ?_ ?_ rfl rfl)
      · simp [ha, carried]
      · simp [tokens, waiting, carried, hs, ha]
  | empties hs =>
      have hsame : population { s with sends := [], activities := [] } = population s := by
        simp [population, tokens, waiting, carried, hs, ha]
      rw [hsame]
  | @pops _ next rest hs =>
      have hsame : population { s with sends := next :: rest, activities := [.scheduled] } =
          population s := by
        simp [population, tokens, waiting, carried, hs, ha]
      rw [hsame]
  | @starts front rest hs =>
      refine .single (step_of_turn (.start front) (inStage .queued rest + inStage .resting s.timers)
        ?_ ?_ rfl rfl)
      · simp [population, tokens, waiting, carried, hs, ha, inStage]
      · simp [population, tokens, waiting, carried, hs, inStage]

/-- A step of the network is made of turns. -/
theorem refines_of_effect (h : Effect s a t) :
    Relation.ReflTransGen Population.Step (population s) (population t) := by
  cases h with
  | nothing => exact .refl
  | @entersIdle _ base p entry hs ha =>
      -- the packet joins those that wait and is handed to the socket at once
      refine .tail (.single (step_of_entry entry))
        (step_of_turn (.start p) (tokens base) rfl ?_ rfl ?_)
      · simp [population, tokens, carried, waiting, inStage, entry.sends, entry.activities, hs, ha]
      · simp [population, entry.log]
  | @entersBusy _ base p entry front rest hs =>
      have hjoined : population
            { base with sends := front :: (rest ++ [p]), queued := s.queued ++ [p] } =
          ⟨{(p, .queued)} + tokens base, base.submitted, base.log⟩ := by
        have hbase : waiting base = waiting s := by
          simp only [waiting, entry.sends, entry.activities]
        simp only [population, tokens, waiting_append entry hs, hbase, inStage_append,
          inStage_singleton]
        congr 1
        abel
      rw [hjoined]
      exact .single (step_of_entry entry)
  | proceeds ha h => exact refines_of_proceeds ha h

end Refinement

def round (i : ℕ) (info : SendInfo D C) (j : ℕ) : Packet D C :=
  ⟨i, { info with rebroadcast := info.rebroadcast - j }⟩

def rounds (i : ℕ) (info : SendInfo D C) (n : ℕ) : List (Event D C R) :=
  (List.range n).flatMap fun j => [.started (round i info j), .completed (round i info j)]

/-- All that is recorded of a packet in the end: one round more than it is to be broadcast again,
and its callback. -/
def delivery (i : ℕ) (info : SendInfo D C) (result : R) : List (Event D C R) :=
  rounds i info (info.rebroadcast + 1) ++ [.called (round i info info.rebroadcast) result]

/-- What is recorded of a packet that is at a stage of a round. -/
def past (i : ℕ) (info : SendInfo D C) (j : ℕ) : Stage → List (Event D C R)
  | .queued => rounds i info j
  | .inFlight => rounds i info j ++ [.started (round i info j)]
  | .handling => rounds i info (j + 1)
  | .calling => rounds i info (j + 1)
  | .resting => rounds i info j

def numbered (i : ℕ) (tokens : Multiset (Token D C)) : Multiset (Token D C) :=
  tokens.filter fun x => x.1.number = i

def history (log : List (Event D C R)) (i : ℕ) : List (Event D C R) :=
  log.filter fun e => e.packet.number = i

/-- What a packet with the number can have come to. -/
inductive Life (i : ℕ) :
    Option (SendInfo D C) → Multiset (Token D C) → List (Event D C R) → Prop
  | unborn : Life i none 0 []
  | alive {info : SendInfo D C} {j : ℕ} {stage : Stage} (hj : j ≤ info.rebroadcast)
      (hcalling : stage = .calling → j = info.rebroadcast) :
      Life i (some info) {(round i info j, stage)} (past i info j stage)
  | delivered (info : SendInfo D C) (result : R) : Life i (some info) 0 (delivery i info result)

def Population.Lives (P : Population D C R) : Prop :=
  ∀ i, Life i P.submitted[i]? (numbered i P.tokens) (history P.log i)

theorem rounds_succ (i : ℕ) (info : SendInfo D C) (n : ℕ) :
    rounds (R := R) i info (n + 1) =
      rounds i info n ++ [.started (round i info n), .completed (round i info n)] := by
  simp [rounds, List.range_succ]

theorem again_round (i : ℕ) (info : SendInfo D C) (j : ℕ) :
    (round i info j).again = round i info (j + 1) := by
  simp [round, Packet.again, Nat.sub_sub]

theorem Life.turn {i j : ℕ} {info : SendInfo D C} {stage : Stage} {ys : Multiset (Token D C)}
    {events : List (Event D C R)} (h : Turn (round i info j, stage) ys events)
    (hj : j ≤ info.rebroadcast) (hcalling : stage = .calling → j = info.rebroadcast) :
    Life i (some info) ys (past i info j stage ++ events) := by
  cases h with
  | start => exact .alive hj (by simp)
  | complete =>
      have hpast : past (R := R) i info j .inFlight ++ [.completed (round i info j)] =
          past i info j .handling := by
        simp [past, rounds_succ]
      rw [hpast]
      exact .alive hj (by simp)
  | rest hr =>
      have hj' : j + 1 ≤ info.rebroadcast := by
        simp only [round] at hr
        omega
      have hpast : past (R := R) i info j .handling ++ [] = past i info (j + 1) .resting :=
        List.append_nil _
      rw [again_round, hpast]
      exact .alive hj' (by simp)
  | fetch hr =>
      have hpast : past (R := R) i info j .handling ++ [] = past i info j .calling :=
        List.append_nil _
      rw [hpast]
      refine .alive hj fun _ => ?_
      simp only [round] at hr
      omega
  | call _ result =>
      obtain rfl := hcalling rfl
      exact .delivered info result
  | requeue =>
      have hpast : past (R := R) i info j .resting ++ [] = past i info j .queued :=
        List.append_nil _
      rw [hpast]
      exact .alive hj (by simp)

theorem Turn.number {x : Token D C} {ys : Multiset (Token D C)} {events : List (Event D C R)}
    (h : Turn x ys events) : (∀ y ∈ ys, y.1.number = x.1.number) ∧
      ∀ e ∈ events, e.packet.number = x.1.number := by
  cases h <;> simp [Event.packet, Packet.again]

theorem Life.of_cons {i : ℕ} {info? : Option (SendInfo D C)} {x : Token D C}
    {others : Multiset (Token D C)} {events : List (Event D C R)}
    (h : Life i info? (x ::ₘ others) events) : others = 0 ∧ ∃ info j stage, info? = some info ∧
      x = (round i info j, stage) ∧ events = past i info j stage ∧ j ≤ info.rebroadcast ∧
      (stage = .calling → j = info.rebroadcast) := by
  generalize htokens : x ::ₘ others = tokens at h
  cases h with
  | unborn => exact absurd htokens (Multiset.cons_ne_zero)
  | @alive info j stage hj hcalling =>
      obtain ⟨rfl, rfl⟩ := (Multiset.singleton_eq_cons_iff others).mp htokens.symm
      exact ⟨rfl, info, j, stage, rfl, rfl, rfl, hj, hcalling⟩
  | delivered => exact absurd htokens (Multiset.cons_ne_zero)

theorem history_append (l l' : List (Event D C R)) (i : ℕ) :
    history (l ++ l') i = history l i ++ history l' i :=
  List.filter_append l l'

theorem history_of_number {l : List (Event D C R)} {i k : ℕ} (h : ∀ e ∈ l, e.packet.number = k) :
    history l i = if k = i then l else [] := by
  unfold history
  split_ifs with hk
  · exact List.filter_eq_self.mpr fun e he => decide_eq_true ((h e he).trans hk)
  · exact List.filter_eq_nil_iff.mpr fun e he => by simpa [h e he] using hk

theorem numbered_of_number {ys : Multiset (Token D C)} {i k : ℕ} (h : ∀ y ∈ ys, y.1.number = k) :
    numbered i ys = if k = i then ys else 0 := by
  unfold numbered
  split_ifs with hk
  · exact Multiset.filter_eq_self.mpr fun y hy => (h y hy).trans hk
  · exact Multiset.filter_eq_nil.mpr fun y hy hyi => hk ((h y hy).symm.trans hyi)

theorem numbered_cons (x : Token D C) (rest : Multiset (Token D C)) (i : ℕ) :
    numbered i (x ::ₘ rest) =
      if x.1.number = i then x ::ₘ numbered i rest else numbered i rest := by
  unfold numbered
  split_ifs with hx
  · exact Multiset.filter_cons_of_pos rest hx
  · exact Multiset.filter_cons_of_neg rest hx

/-- A new packet has no past. -/
theorem lives_of_join {P : Population D C R} (hP : P.Lives) (info : SendInfo D C) :
    Population.Lives ⟨(⟨P.submitted.length, info⟩, .queued) ::ₘ P.tokens, P.submitted ++ [info],
      P.log⟩ := by
  intro i
  have hi := hP i
  dsimp only
  by_cases hnew : i = P.submitted.length
  · rw [List.getElem?_eq_none (Nat.le_of_eq hnew.symm)] at hi
    generalize htokens : numbered i P.tokens = tokens at hi
    generalize hhistory : history P.log i = events at hi
    cases hi with
    | unborn =>
        rw [numbered_cons, if_pos hnew.symm, htokens, hnew, List.getElem?_concat_length]
        exact .alive (Nat.zero_le _) (by simp)
  · rw [numbered_cons, if_neg fun h => hnew h.symm]
    have hsubmitted : (P.submitted ++ [info])[i]? = P.submitted[i]? := by
      rcases Nat.lt_or_gt_of_ne hnew with hlt | hgt
      · exact List.getElem?_append_left hlt
      · rw [List.getElem?_eq_none (by simpa using hgt), List.getElem?_eq_none hgt.le]
    rw [hsubmitted]
    exact hi

/-- A turn goes on with the life of its packet and leaves the others alone. -/
theorem lives_of_turn {x : Token D C} {ys : Multiset (Token D C)} {events : List (Event D C R)}
    (h : Turn x ys events) {rest : Multiset (Token D C)} {submitted : List (SendInfo D C)}
    {log : List (Event D C R)} (hP : Population.Lives ⟨x ::ₘ rest, submitted, log⟩) :
    Population.Lives ⟨ys + rest, submitted, log ++ events⟩ := by
  intro i
  have hi := hP i
  obtain ⟨hys, hevents⟩ := h.number
  dsimp only at hi ⊢
  rw [numbered_cons] at hi
  have htokens : numbered i (ys + rest) = numbered i ys + numbered i rest :=
    Multiset.filter_add _ ys rest
  rw [htokens, numbered_of_number hys, history_append, history_of_number hevents]
  by_cases hx : x.1.number = i
  · rw [if_pos hx] at hi
    obtain ⟨hrest, info, j, stage, hinfo, rfl, hpast, hj, hcalling⟩ := hi.of_cons
    rw [if_pos hx, if_pos hx, hrest, hinfo, hpast, add_zero]
    exact .turn h hj hcalling
  · rw [if_neg hx] at hi
    rw [if_neg hx, if_neg hx, zero_add, List.append_nil]
    exact hi

theorem lives_of_step {P Q : Population D C R} (hP : P.Lives) (h : Population.Step P Q) :
    Q.Lives := by
  cases h with
  | join P info => exact lives_of_join hP info
  | turn h => exact lives_of_turn h hP

theorem lives_of_turns {P Q : Population D C R} (hP : P.Lives)
    (h : Relation.ReflTransGen Population.Step P Q) : Q.Lives := by
  induction h with
  | refl => exact hP
  | tail _ hstep ih => exact lives_of_step ih hstep

theorem lives_of_reached {s : Network D C R} (h : Reached Initial Moves s) :
    (population s).Lives := by
  refine h.induction (I := fun s => (population s).Lives) ?_ ?_
  · intro s hs i
    cases hs
    exact .unborn
  · intro s a t hreached hlives hstep
    exact lives_of_turns hlives (refines_of_effect (effect_of_reached hreached hstep))

theorem rounds_mono (i : ℕ) (info : SendInfo D C) {m n : ℕ} (h : m ≤ n) :
    rounds (R := R) i info m <+: rounds i info n := by
  induction h with
  | refl => exact List.prefix_rfl
  | step _ ih =>
      rw [rounds_succ]
      exact ih.trans (List.prefix_append _ _)

theorem past_within_rounds (i : ℕ) {info : SendInfo D C} {j : ℕ} (hj : j ≤ info.rebroadcast)
    (stage : Stage) : past (R := R) i info j stage <+: rounds i info (info.rebroadcast + 1) := by
  have hround : rounds (R := R) i info (j + 1) <+: rounds i info (info.rebroadcast + 1) :=
    rounds_mono i info (Nat.succ_le_succ hj)
  have hstart :
      rounds (R := R) i info j ++ [.started (round i info j)] <+: rounds i info (j + 1) := by
    rw [rounds_succ]
    exact ⟨[.completed (round i info j)], by simp⟩
  cases stage with
  | queued => exact rounds_mono i info (hj.trans (Nat.le_succ _))
  | inFlight => exact hstart.trans hround
  | handling => exact hround
  | calling => exact hround
  | resting => exact rounds_mono i info (hj.trans (Nat.le_succ _))

theorem Life.progress {i : ℕ} {info : SendInfo D C} {tokens : Multiset (Token D C)}
    {events : List (Event D C R)} (h : Life i (some info) tokens events) :
    events <+: rounds i info (info.rebroadcast + 1) ∨
      ∃ result, events = delivery i info result := by
  cases h with
  | alive hj _ => exact .inl (past_within_rounds i hj _)
  | delivered _ result => exact .inr ⟨result, rfl⟩

theorem not_called_mem_rounds {i n : ℕ} {info : SendInfo D C} {p : Packet D C} {result : R} :
    Event.called p result ∉ rounds i info n := by
  simp [rounds]

theorem Life.delivered_of_called {i : ℕ} {info : SendInfo D C} {tokens : Multiset (Token D C)}
    {events : List (Event D C R)} (h : Life i (some info) tokens events) {p : Packet D C}
    {result : R} (hcalled : .called p result ∈ events) :
    ∃ result, events = delivery i info result := by
  rcases h.progress with hwithin | hdelivered
  · exact absurd (hwithin.mem hcalled) not_called_mem_rounds
  · exact hdelivered

end PaperNode.SendRounds
