import PaperNode.MessageParser
import PaperNode.FairRuns

/-!
# The queue of outgoing datagrams

`network::send_buffer` puts a packet on the queue `sends` and starts to send it if the queue was
empty. The completion handler of `async_send_to` schedules a packet that is to be broadcast again,
or calls the packet's callback; then it takes the front off the queue and schedules `initiate_send`
if there is more. Each critical section is one step. The steps of handlers, of the delayed
continuation and of rebroadcasts may come in any order.

Packets carry the number of the call of `send_buffer` from outside that brought them in, and a
network remembers its calls, everything that was put on the queue and what happened to the packets.
The source has none of this, and no step depends on it.
-/
namespace PaperNode.SendQueue
open MessageParser TransitionRuns

variable {D C R : Type*}

/-- The bytes are known by a pointer of type `D`, callbacks are of type `C`. -/
structure SendInfo (D C : Type*) where
  data : D
  size : ℕ
  endpoint : Endpoint
  rebroadcast : ℕ
  callback : C
  deriving DecidableEq, Repr

structure Packet (D C : Type*) where
  number : ℕ
  info : SendInfo D C
  deriving DecidableEq, Repr

/-- What is under way: a datagram handed to the socket, its completion handler at one of three
places, with the error code and the size of type `R`, or a scheduled `initiate_send`. -/
inductive Activity (D C R : Type*) where
  | inFlight (front : Packet D C)
  | handling (front : Packet D C) (result : R)
  | calling (self : Packet D C) (result : R)
  | completing
  | scheduled
  deriving DecidableEq, Repr

inductive Event (D C R : Type*) where
  | started (packet : Packet D C)
  | completed (packet : Packet D C)
  | called (packet : Packet D C) (result : R)
  deriving DecidableEq, Repr

def Event.packet : Event D C R → Packet D C
  | .started p => p
  | .completed p => p
  | .called p _ => p

/-- `timers` are the packets that `node.service` will put on the queue again. -/
structure Network (D C R : Type*) where
  sends : List (Packet D C)
  activities : List (Activity D C R)
  timers : List (Packet D C)
  submitted : List (SendInfo D C)
  queued : List (Packet D C)
  log : List (Event D C R)
  deriving DecidableEq, Repr

def Initial (s : Network D C R) : Prop := s = ⟨[], [], [], [], [], []⟩

/-- There is no result if the assertion fails. -/
def initiateSend (s : Network D C R) : Option (Network D C R) :=
  match s.sends with
  | [] => none
  | front :: _ =>
      some { s with activities := .inFlight front :: s.activities
                    log := s.log ++ [.started front] }

def sendBuffer (s : Network D C R) (packet : Packet D C) : Option (Network D C R) :=
  let pushed := { s with sends := s.sends ++ [packet], queued := s.queued ++ [packet] }
  if s.sends.isEmpty then initiateSend pushed else some pushed

def sendComplete (s : Network D C R) : Option (Network D C R) :=
  match s.sends with
  | [] => none
  | _ :: rest =>
      if rest.isEmpty then some { s with sends := rest }
      else some { s with sends := rest, activities := .scheduled :: s.activities }

def Packet.again (p : Packet D C) : Packet D C :=
  { p with info := { p.info with rebroadcast := p.info.rebroadcast - 1 } }

/-- One more step of an activity that is no longer among those of the network. -/
def proceed (s : Network D C R) (result : R) : Activity D C R → Option (Network D C R)
  | .inFlight front =>
      some { s with activities := .handling front result :: s.activities
                    log := s.log ++ [.completed front] }
  | .handling front result =>
      if front.info.rebroadcast > 0 then
        some { s with timers := s.timers ++ [front.again]
                      activities := .completing :: s.activities }
      else
        match s.sends with
        | [] => none
        | self :: _ => some { s with activities := .calling self result :: s.activities }
  | .calling self result =>
      some { s with activities := .completing :: s.activities
                    log := s.log ++ [.called self result] }
  | .completing => sendComplete s
  | .scheduled => initiateSend s

/-- A call of `send_buffer` from outside, a step of the activity at a place, where the result is
that of the socket if it completes, or the timer at a place. -/
inductive Action (D C R : Type*) where
  | submit (info : SendInfo D C)
  | proceed (i : ℕ) (result : R)
  | fire (i : ℕ)
  deriving DecidableEq, Repr

/-- Nothing happens at a place where there is nothing. -/
def perform (s : Network D C R) : Action D C R → Option (Network D C R)
  | .submit info =>
      sendBuffer { s with submitted := s.submitted ++ [info] } ⟨s.submitted.length, info⟩
  | .proceed i result =>
      match s.activities[i]? with
      | none => some s
      | some a => proceed { s with activities := s.activities.eraseIdx i } result a
  | .fire i =>
      match s.timers[i]? with
      | none => some s
      | some packet => sendBuffer { s with timers := s.timers.eraseIdx i } packet

def Moves (s : Network D C R) (a : Action D C R) (t : Network D C R) : Prop := perform s a = some t

/-- An activity that belongs to the front of the queue. The callback is that of a packet that is not
broadcast again. -/
def AtFront (front : Packet D C) : Activity D C R → Prop
  | .inFlight p => p = front
  | .handling p _ => p = front
  | .calling p _ => p = front ∧ p.info.rebroadcast = 0
  | .completing => True
  | .scheduled => True

/-- There is one activity while there are packets on the queue, and none otherwise. -/
inductive Chain : List (Packet D C) → List (Activity D C R) → Prop
  | idle : Chain [] []
  | busy {front : Packet D C} {rest : List (Packet D C)} {a : Activity D C R}
      (h : AtFront front a) : Chain (front :: rest) [a]

def Acts (s : Network D C R) : Action D C R → Prop
  | .submit _ => True
  | .proceed i _ => i < s.activities.length
  | .fire i => i < s.timers.length

/-- A packet that comes from outside or from a timer, and the network it is put on the queue of. -/
inductive Entry (s : Network D C R) : Action D C R → Network D C R → Packet D C → Prop
  | submit (info : SendInfo D C) :
      Entry s (.submit info) { s with submitted := s.submitted ++ [info] }
        ⟨s.submitted.length, info⟩
  | fire {i : ℕ} {p : Packet D C} (h : s.timers[i]? = some p) :
      Entry s (.fire i) { s with timers := s.timers.eraseIdx i } p

/-- What becomes of the network when its one activity goes on. -/
inductive Proceeds (s : Network D C R) : Activity D C R → Network D C R → Prop
  | completes {front : Packet D C} {rest : List (Packet D C)} (hs : s.sends = front :: rest)
      (result : R) :
      Proceeds s (.inFlight front)
        { s with activities := [.handling front result], log := s.log ++ [.completed front] }
  | rests {front : Packet D C} {rest : List (Packet D C)} {result : R}
      (hs : s.sends = front :: rest) (hr : 0 < front.info.rebroadcast) :
      Proceeds s (.handling front result)
        { s with activities := [.completing], timers := s.timers ++ [front.again] }
  | fetches {front : Packet D C} {rest : List (Packet D C)} {result : R}
      (hs : s.sends = front :: rest) (hr : front.info.rebroadcast = 0) :
      Proceeds s (.handling front result) { s with activities := [.calling front result] }
  | calls {front : Packet D C} {rest : List (Packet D C)} {result : R}
      (hs : s.sends = front :: rest) (hr : front.info.rebroadcast = 0) :
      Proceeds s (.calling front result)
        { s with activities := [.completing], log := s.log ++ [.called front result] }
  | empties {front : Packet D C} (hs : s.sends = [front]) :
      Proceeds s .completing { s with sends := [], activities := [] }
  | pops {front next : Packet D C} {rest : List (Packet D C)}
      (hs : s.sends = front :: next :: rest) :
      Proceeds s .completing { s with sends := next :: rest, activities := [.scheduled] }
  | starts {front : Packet D C} {rest : List (Packet D C)} (hs : s.sends = front :: rest) :
      Proceeds s .scheduled
        { s with activities := [.inFlight front], log := s.log ++ [.started front] }

inductive Effect (s : Network D C R) : Action D C R → Network D C R → Prop
  | nothing {a : Action D C R} (h : ¬Acts s a) : Effect s a s
  | entersIdle {a : Action D C R} {base : Network D C R} {p : Packet D C} (entry : Entry s a base p)
      (hs : s.sends = []) (ha : s.activities = []) :
      Effect s a { base with sends := [p], activities := [.inFlight p]
                             queued := s.queued ++ [p], log := s.log ++ [.started p] }
  | entersBusy {a : Action D C R} {base : Network D C R} {p : Packet D C} (entry : Entry s a base p)
      {front : Packet D C} {rest : List (Packet D C)} (hs : s.sends = front :: rest) :
      Effect s a { base with sends := front :: (rest ++ [p]), queued := s.queued ++ [p] }
  | proceeds {result : R} {b : Activity D C R} {t : Network D C R} (ha : s.activities = [b])
      (h : Proceeds s b t) : Effect s (.proceed 0 result) t

section Step
variable {s t base : Network D C R} {a : Action D C R} {p : Packet D C}

theorem Entry.sends (h : Entry s a base p) : base.sends = s.sends := by
  cases h <;> rfl

theorem Entry.activities (h : Entry s a base p) : base.activities = s.activities := by
  cases h <;> rfl

theorem Entry.queued (h : Entry s a base p) : base.queued = s.queued := by
  cases h <;> rfl

theorem Entry.log (h : Entry s a base p) : base.log = s.log := by
  cases h <;> rfl

theorem Chain.idle_or_busy {sends : List (Packet D C)} {activities : List (Activity D C R)}
    (h : Chain sends activities) : (sends = [] ∧ activities = []) ∨
      ∃ front rest b, sends = front :: rest ∧ activities = [b] ∧ AtFront front b := by
  cases h with
  | idle => exact .inl ⟨rfl, rfl⟩
  | busy h => exact .inr ⟨_, _, _, rfl, rfl, h⟩

/-- The assertion in `initiate_send` holds since a packet was just put on the queue. -/
theorem sendBuffer_effect (hchain : Chain s.sends s.activities) (entry : Entry s a base p) :
    ∃ t, sendBuffer base p = some t ∧ Effect s a t := by
  unfold sendBuffer
  rcases hchain.idle_or_busy with ⟨hs, ha⟩ | ⟨front, rest, b, hs, ha, hb⟩
  · refine ⟨_, ?_, .entersIdle entry hs ha⟩
    simp [initiateSend, entry.sends, entry.queued, entry.activities, entry.log, hs, ha]
  · refine ⟨_, ?_, .entersBusy entry hs⟩
    simp [entry.sends, entry.queued, hs]

/-- The assertions in the handlers hold since the front is still on the queue. -/
theorem proceed_proceeds {front : Packet D C} {rest : List (Packet D C)} {b : Activity D C R}
    (hs : s.sends = front :: rest) (hb : AtFront front b) (result : R) :
    ∃ t, proceed { s with activities := [] } result b = some t ∧ Proceeds s b t := by
  cases b with
  | inFlight p =>
      obtain rfl : p = front := hb
      exact ⟨_, rfl, .completes hs result⟩
  | handling p result' =>
      obtain rfl : p = front := hb
      by_cases hr : 0 < p.info.rebroadcast
      · exact ⟨_, if_pos hr, .rests hs hr⟩
      · refine ⟨_, (if_neg hr).trans ?_, .fetches hs (Nat.eq_zero_of_not_pos hr)⟩
        simp only [hs]
  | calling p result' =>
      obtain ⟨rfl, hr⟩ : p = front ∧ p.info.rebroadcast = 0 := hb
      exact ⟨_, rfl, .calls hs hr⟩
  | completing =>
      cases rest with
      | nil => exact ⟨_, by simp [proceed, sendComplete, hs], .empties hs⟩
      | cons next rest => exact ⟨_, by simp [proceed, sendComplete, hs], .pops hs⟩
  | scheduled => exact ⟨_, by simp [proceed, initiateSend, hs], .starts hs⟩

/-- No assertion fails, and the step has one of the effects. -/
theorem perform_effect (hchain : Chain s.sends s.activities) (a : Action D C R) :
    ∃ t, perform s a = some t ∧ Effect s a t := by
  cases a with
  | submit info => exact sendBuffer_effect hchain (.submit info)
  | proceed i result =>
      rcases hchain.idle_or_busy with ⟨hs, ha⟩ | ⟨front, rest, b, hs, ha, hb⟩
      · exact ⟨s, by simp [perform, ha], .nothing (by simp [Acts, ha])⟩
      · cases i with
        | zero =>
            obtain ⟨t, ht, hproceeds⟩ := proceed_proceeds hs hb result
            exact ⟨t, by simp [perform, ha, ht], .proceeds ha hproceeds⟩
        | succ i => exact ⟨s, by simp [perform, ha], .nothing (by simp [Acts, ha])⟩
  | fire i =>
      cases hp : s.timers[i]? with
      | none =>
          exact ⟨s, by simp [perform, hp],
            .nothing (Nat.not_lt.mpr (List.getElem?_eq_none_iff.mp hp))⟩
      | some p =>
          obtain ⟨t, ht, heffect⟩ := sendBuffer_effect hchain (.fire hp)
          exact ⟨t, by simp [perform, hp, ht], heffect⟩

theorem effect_of_moves (hchain : Chain s.sends s.activities) (h : Moves s a t) : Effect s a t := by
  obtain ⟨u, hu, heffect⟩ := perform_effect hchain a
  cases hu.symm.trans h
  exact heffect

def waiting (s : Network D C R) : List (Packet D C) :=
  match s.activities with
  | [.scheduled] => s.sends
  | _ => s.sends.tail

def Event.transmission : Event D C R → Option (Packet D C)
  | .started p => some p
  | _ => none

def transmitted (s : Network D C R) : List (Packet D C) := s.log.filterMap Event.transmission

theorem chain_of_proceeds {b : Activity D C R} (h : Proceeds s b t) :
    Chain t.sends t.activities := by
  cases h with
  | completes hs result =>
      rw [hs]
      exact .busy rfl
  | rests hs _ =>
      rw [hs]
      exact .busy trivial
  | fetches hs hr =>
      rw [hs]
      exact .busy ⟨rfl, hr⟩
  | calls hs _ =>
      rw [hs]
      exact .busy trivial
  | empties => exact .idle
  | pops => exact .busy trivial
  | starts hs =>
      rw [hs]
      exact .busy rfl

theorem chain_of_effect (hchain : Chain s.sends s.activities) (h : Effect s a t) :
    Chain t.sends t.activities := by
  cases h with
  | nothing => exact hchain
  | entersIdle => exact .busy rfl
  | entersBusy entry hs =>
      rcases hchain.idle_or_busy with ⟨hempty, _⟩ | ⟨front, rest, b, hs', ha, hb⟩
      · rw [hs] at hempty
        cases hempty
      · rw [hs] at hs'
        cases hs'
        dsimp only
        rw [entry.activities, ha]
        exact .busy hb
  | proceeds _ h => exact chain_of_proceeds h

theorem chain_of_reached (h : Reached Initial Moves s) : Chain s.sends s.activities := by
  refine h.invariant (I := fun s => Chain s.sends s.activities) ?_ ?_
  · intro s hs
    cases hs
    exact .idle
  · intro s a t hchain hstep
    exact chain_of_effect hchain (effect_of_moves hchain hstep)

theorem effect_of_reached (h : Reached Initial Moves s) (hstep : Moves s a t) : Effect s a t :=
  effect_of_moves (chain_of_reached h) hstep

/-- What was put on the queue has been handed to the socket in that order, except for those that
still wait. -/
def InOrder (s : Network D C R) : Prop := s.queued = transmitted s ++ waiting s

theorem waiting_append (entry : Entry s a base p) {front : Packet D C} {rest : List (Packet D C)}
    (hs : s.sends = front :: rest) (queued : List (Packet D C)) :
    waiting { base with sends := front :: (rest ++ [p]), queued := queued } = waiting s ++ [p] := by
  unfold waiting
  rw [entry.activities]
  dsimp only
  split <;> simp [hs]

/-- Only a scheduled `initiate_send` takes a packet from those that wait. -/
theorem waiting_of_proceeds {b : Activity D C R} (ha : s.activities = [b]) (h : Proceeds s b t) :
    (b ≠ .scheduled ∧ waiting t = waiting s ∧ transmitted t = transmitted s) ∨
      ∃ front, b = .scheduled ∧ t.activities = [.inFlight front] ∧
        waiting s = front :: waiting t ∧ transmitted t = transmitted s ++ [front] := by
  cases h with
  | completes hs => exact .inl (by simp [waiting, transmitted, Event.transmission, ha])
  | rests hs hr => exact .inl (by simp [waiting, transmitted, ha])
  | fetches hs hr => exact .inl (by simp [waiting, transmitted, ha])
  | calls hs hr => exact .inl (by simp [waiting, transmitted, Event.transmission, ha])
  | empties hs => exact .inl (by simp [waiting, transmitted, ha, hs])
  | pops hs => exact .inl (by simp [waiting, transmitted, ha, hs])
  | @starts front rest hs =>
      exact .inr ⟨front, by simp [waiting, transmitted, Event.transmission, ha, hs]⟩

theorem queued_of_proceeds {b : Activity D C R} (h : Proceeds s b t) : t.queued = s.queued := by
  cases h <;> rfl

theorem inOrder_of_effect (horder : InOrder s) (h : Effect s a t) : InOrder t := by
  unfold InOrder at horder ⊢
  cases h with
  | nothing => exact horder
  | entersIdle entry hs ha => simp [horder, transmitted, waiting, Event.transmission, hs, ha]
  | entersBusy entry hs =>
      rw [waiting_append entry hs]
      simp [horder, transmitted, entry.log]
  | proceeds ha h =>
      rw [queued_of_proceeds h, horder]
      rcases waiting_of_proceeds ha h with ⟨_, hwaiting, hsent⟩ | ⟨front, _, _, hwaiting, hsent⟩
      · rw [hwaiting, hsent]
      · rw [hwaiting, hsent, List.append_assoc, List.singleton_append]

theorem inOrder_of_reached (h : Reached Initial Moves s) : InOrder s := by
  refine h.induction (I := InOrder) ?_ ?_
  · intro s hs
    cases hs
    rfl
  · intro s a t hreached horder hstep
    exact inOrder_of_effect horder (effect_of_reached hreached hstep)

end Step

end PaperNode.SendQueue
