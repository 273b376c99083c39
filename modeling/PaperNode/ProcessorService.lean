import PaperNode.FairRuns
import Mathlib.Data.List.Nodup
import Mathlib.Data.Multiset.Filter
import Mathlib.Order.Lattice

/-!
# The service that runs what has to wait

`processor_service` holds functions with the time each is to be run at. Threads that call `run` take
the earliest off a priority queue once its time has passed, run it outside the mutex, and sleep
while there is nothing to take; `poll` and `poll_one` do the same without sleeping. A function that
runs may add others. `stop` throws away what is left.

What the functions do is a parameter here, so that what is shown of the service holds for all of
them: however the threads take turns, whatever is added runs once, not before its time, and an
earlier function before a later one. No thread sleeps past the time of a function that waits.
-/
namespace PaperNode.ProcessorService
open TransitionRuns FairRuns

variable {T W F : Type*}

/-- What is run by the service, one step at a time. A step of a function has the time, the state
before, the function, the state after, what is added to the service and what is left of the
function. A call from outside has the time, the two states and what is added. -/
structure Program (T W F : Type*) where
  act : T → W → F → W → List (T × F) → Option F → Prop
  call : T → W → W → List (T × F) → Prop

/-- `operation`, with its place among all that were added. -/
structure Operation (T F : Type*) where
  number : ℕ
  wakeup : T
  function : F

inductive Loop where
  | run | poll | pollOne
  deriving DecidableEq, Repr

/-- A thread is about to look at the queue, sleeps until it is notified or its time has come, runs
a function, or has returned. -/
inductive Thread (T F : Type*) where
  | checking
  | waiting (deadline : Option T)
  | running (rest : F)
  | returned

/-- An operation is taken at a time, when so many had been added. -/
structure Start (T F : Type*) where
  time : T
  added : ℕ
  operation : Operation T F

/-- The members of the service with the threads that use it, and what was added and started. -/
structure Service (T F : Type*) where
  operations : List (Operation T F)
  done : Bool
  threads : List (Loop × Thread T F)
  added : List (T × F)
  started : List (Start T F)

structure System (T W F : Type*) where
  now : T
  world : W
  service : Service T F

def Thread.notified : Thread T F → Thread T F
  | .checking => .checking
  | .waiting _ => .checking
  | .running rest => .running rest
  | .returned => .returned

/-- `condition.notify_all ()`. -/
def Service.notifyAll (s : Service T F) : Service T F :=
  { s with threads := s.threads.map fun p => (p.1, p.2.notified) }

/-- `processor_service::add`. -/
def Service.add (s : Service T F) (a : T × F) : Service T F :=
  if s.done then s
  else Service.notifyAll { s with
    operations := s.operations ++ [⟨s.added.length, a.1, a.2⟩]
    added := s.added ++ [a] }

def Service.addAll (s : Service T F) (as : List (T × F)) : Service T F := as.foldl Service.add s

/-- `processor_service::stop`. -/
def Service.stop (s : Service T F) : Service T F :=
  Service.notifyAll { s with done := true, operations := [] }

def Service.setThread (s : Service T F) (i : ℕ) (l : Loop) (t : Thread T F) : Service T F :=
  { s with threads := s.threads.set i (l, t) }

def Service.start (s : Service T F) (now : T) (op : Operation T F) (rest : List (Operation T F)) :
    Service T F :=
  { s with operations := rest, started := s.started ++ [⟨now, s.added.length, op⟩] }

/-- What a thread goes on with behind a step of its function. -/
def Loop.next : Loop → Option F → Thread T F
  | _, some rest => .running rest
  | .run, none => .checking
  | .poll, none => .checking
  | .pollOne, none => .returned

section Additions
variable {s : Service T F} {d : Option T}

theorem notified_ne_waiting (t : Thread T F) : t.notified ≠ .waiting d := by
  cases t <;> simp [Thread.notified]

theorem Service.not_waiting_notifyAll {l : Loop} : (l, .waiting d) ∉ s.notifyAll.threads := by
  intro h
  obtain ⟨p, _, hp⟩ := List.mem_map.mp h
  exact notified_ne_waiting p.2 (congrArg Prod.snd hp)

theorem Loop.next_ne_waiting (l : Loop) (rest : Option F) :
    (l.next rest : Thread T F) ≠ .waiting d := by
  cases rest <;> cases l <;> simp [Loop.next]

theorem Service.add_open (h : s.done = false) (a : T × F) :
    s.add a = Service.notifyAll { s with
      operations := s.operations ++ [⟨s.added.length, a.1, a.2⟩], added := s.added ++ [a] } := by
  rw [Service.add, if_neg (by simp [h])]

theorem Service.add_done (h : s.done = true) (a : T × F) : s.add a = s := by
  rw [Service.add, if_pos h]

theorem Service.addAll_induction {I : Service T F → Prop} (h : I s)
    (next : ∀ s a, I s → I (s.add a)) (as : List (T × F)) : I (s.addAll as) := by
  induction as generalizing s with
  | nil => exact h
  | cons a as ih => exact ih (next s a h)

theorem Service.addAll_done (h : s.done = true) (as : List (T × F)) : s.addAll as = s :=
  addAll_induction (I := (· = s)) rfl (fun _ a hs => by rw [hs, add_done h]) as

theorem Service.done_addAll (s : Service T F) (as : List (T × F)) :
    (s.addAll as).done = s.done := by
  refine addAll_induction (I := fun s' => s'.done = s.done) rfl (fun s' a hs => ?_) as
  unfold Service.add
  split_ifs
  · exact hs
  · exact hs

theorem Service.addAll_threads {i : ℕ} {l : Loop} {t : Thread T F}
    (h : s.threads[i]? = some (l, t)) (as : List (T × F)) :
    (s.addAll as).threads[i]? = some (l, t) ∨
      (s.addAll as).threads[i]? = some (l, t.notified) := by
  refine addAll_induction (I := fun s' => s'.threads[i]? = some (l, t) ∨
    s'.threads[i]? = some (l, t.notified)) (Or.inl h) (fun s' a hs => ?_) as
  cases hd : s'.done with
  | true => rwa [add_done hd]
  | false =>
      refine Or.inr ?_
      rw [add_open hd, notifyAll, List.getElem?_map]
      rcases hs with hs | hs
      · rw [hs]
        rfl
      · rw [hs]
        cases t <;> rfl

theorem Service.addAll_operations (s : Service T F) (as : List (T × F)) :
    ∃ new, (s.addAll as).operations = s.operations ++ new ∧
      ∀ o ∈ new, ∃ a ∈ as, o.wakeup = a.1 := by
  induction as generalizing s with
  | nil => exact ⟨[], by simp [Service.addAll]⟩
  | cons a as ih =>
      obtain ⟨new, heq, hnew⟩ := ih (s.add a)
      have hcons : (s.addAll (a :: as)).operations = (s.add a).operations ++ new := heq
      have hmore : ∀ o ∈ new, ∃ b ∈ a :: as, o.wakeup = b.1 := by
        intro o ho
        obtain ⟨b, hb, hw⟩ := hnew o ho
        exact ⟨b, List.mem_cons_of_mem a hb, hw⟩
      cases hd : s.done with
      | true => exact ⟨new, by rw [hcons, Service.add_done hd], hmore⟩
      | false =>
          refine ⟨⟨s.added.length, a.1, a.2⟩ :: new, ?_, ?_⟩
          · rw [hcons, Service.add_open hd]
            exact List.append_assoc _ _ _
          · intro o ho
            rcases List.mem_cons.mp ho with rfl | ho
            · exact ⟨a, List.mem_cons_self, rfl⟩
            · exact hmore o ho

end Additions

def Service.numbers (s : Service T F) : List ℕ :=
  s.operations.map Operation.number ++ s.started.map (·.operation.number)

def Thread.current : Thread T F → Option F
  | .running f => some f
  | .checking => none
  | .waiting _ => none
  | .returned => none

def Service.current (s : Service T F) : Multiset F := ↑(s.threads.filterMap fun p => p.2.current)

/-- The functions that wait and those that run, whatever their threads and times. -/
def Service.live (s : Service T F) : Multiset F :=
  (s.operations.map Operation.function : List F) + s.current

/-- What is added unless the service was stopped. -/
def accepted (done : Bool) (adds : List (T × F)) : List (T × F) := if done then [] else adds

@[simp] theorem accepted_nil (done : Bool) : accepted done ([] : List (T × F)) = [] := by
  cases done <;> rfl

theorem accepted_append (done : Bool) (as bs : List (T × F)) :
    accepted done (as ++ bs) = accepted done as ++ accepted done bs := by
  cases done <;> rfl

theorem mem_of_mem_accepted {done : Bool} {a : T × F} {adds : List (T × F)}
    (h : a ∈ accepted done adds) : a ∈ adds := by
  cases done with
  | true => cases h
  | false => exact h

section Live
variable {s : Service T F}

theorem current_notified (t : Thread T F) : t.notified.current = t.current := by cases t <;> rfl

theorem current_next (l : Loop) (rest : Option F) : (l.next rest : Thread T F).current = rest := by
  cases rest <;> cases l <;> rfl

theorem Service.current_notifyAll (s : Service T F) : s.notifyAll.current = s.current := by
  simp only [Service.current, Service.notifyAll, List.filterMap_map, Function.comp_def,
    current_notified]

theorem Service.addAll_live (s : Service T F) (adds : List (T × F)) :
    (s.addAll adds).added = s.added ++ accepted s.done adds ∧
      (s.addAll adds).live = s.live + ((accepted s.done adds).map Prod.snd : List F) := by
  cases hd : s.done with
  | true =>
      rw [addAll_done hd]
      simp [accepted]
  | false =>
      simp only [accepted, Bool.false_eq_true, if_false]
      induction adds generalizing s with
      | nil => simp [Service.addAll]
      | cons a adds ih =>
          have hd' : (s.add a).done = false := by rw [Service.add_open hd]; exact hd
          obtain ⟨hadded, hlive⟩ := ih (s.add a) hd'
          have hone : (s.add a).added = s.added ++ [a] ∧ (s.add a).live = a.2 ::ₘ s.live := by
            rw [Service.add_open hd]
            refine ⟨rfl, ?_⟩
            rw [Service.live, Service.current_notifyAll]
            simp only [Service.notifyAll, Service.live, Service.current, List.map_append,
              List.map_cons, List.map_nil]
            rw [Multiset.coe_eq_coe.mpr (List.perm_append_singleton _ _), ← Multiset.cons_coe,
              Multiset.cons_add]
          refine ⟨?_, ?_⟩
          · rw [show s.addAll (a :: adds) = (s.add a).addAll adds from rfl, hadded, hone.1]
            simp
          · rw [show s.addAll (a :: adds) = (s.add a).addAll adds from rfl, hlive, hone.2]
            simp [← Multiset.cons_coe]

theorem Service.setThread_current {i : ℕ} {l : Loop} {t : Thread T F}
    (h : s.threads[i]? = some (l, t)) (u : Thread T F) :
    ∃ others : Multiset F, s.current = ↑t.current.toList + others ∧
      (s.setThread i l u).current = ↑u.current.toList + others := by
  obtain ⟨hi, ht⟩ := List.getElem?_eq_some_iff.mp h
  refine ⟨↑((s.threads.eraseIdx i).filterMap fun p => p.2.current), ?_, ?_⟩
  · have hperm := (List.getElem_cons_eraseIdx_perm hi).symm.filterMap (fun p => p.2.current)
    rw [ht] at hperm
    rw [Service.current, Multiset.coe_eq_coe.mpr hperm]
    cases hc : t.current <;> simp [hc]
  · have hperm := (List.set_perm_cons_eraseIdx hi (l, u)).filterMap (fun p => p.2.current)
    rw [Service.current, Service.setThread, Multiset.coe_eq_coe.mpr hperm]
    cases hc : u.current <;> simp [hc]

theorem Service.setThread_idle {i : ℕ} {l : Loop} {t u : Thread T F}
    (h : s.threads[i]? = some (l, t)) (ht : t.current = none) (hu : u.current = none) :
    (s.setThread i l u).live = s.live := by
  obtain ⟨others, hold, hnew⟩ := setThread_current h u
  rw [ht] at hold
  rw [hu] at hnew
  rw [Service.live, hnew, Service.live, hold]
  rfl

theorem Service.start_live {i : ℕ} {l : Loop} {before after : List (Operation T F)}
    {op : Operation T F} (h : s.threads[i]? = some (l, .checking))
    (hops : s.operations = before ++ op :: after) (now : T) :
    ((s.start now op (before ++ after)).setThread i l (.running op.function)).live = s.live := by
  have hi : (s.start now op (before ++ after)).threads[i]? = some (l, .checking) := h
  obtain ⟨others, hold, hnew⟩ := setThread_current hi (.running op.function)
  have hold : s.current = 0 + others := hold
  have hperm : (s.operations.map Operation.function).Perm
      (op.function :: (before ++ after).map Operation.function) := by
    simp only [hops, List.map_append, List.map_cons]
    exact List.perm_middle
  rw [Service.live, hnew, Service.live, hold, Multiset.coe_eq_coe.mpr hperm, Multiset.zero_add,
    ← Multiset.cons_coe, Multiset.cons_add, ← Multiset.add_cons]
  rfl

/-- A function takes a step. -/
theorem Service.act_live {i : ℕ} {l : Loop} {f : F} (h : s.threads[i]? = some (l, .running f))
    (adds : List (T × F)) (rest : Option F) : ∃ fs, s.live = f ::ₘ fs ∧
      ((s.addAll adds).setThread i l (l.next rest)).live =
        ↑rest.toList + fs + ((accepted s.done adds).map Prod.snd : List F) := by
  have h' : (s.addAll adds).threads[i]? = some (l, .running f) :=
    (Service.addAll_threads h adds).elim id id
  obtain ⟨others, hold, _⟩ := setThread_current h (l.next rest)
  obtain ⟨others', hold', hnew⟩ := setThread_current h' (l.next rest)
  have hlive : ∀ {s' : Service T F} {others : Multiset F},
      s'.current = ↑(Thread.running (T := T) f).current.toList + others →
      s'.live = f ::ₘ ((s'.operations.map Operation.function : List F) + others) := by
    intro s' others hs'
    rw [Service.live, hs', ← Multiset.add_cons]
    rfl
  -- the functions besides the one that runs
  have hrest : ((s.addAll adds).operations.map Operation.function : List F) + others' =
      (s.operations.map Operation.function : List F) + others +
        ((accepted s.done adds).map Prod.snd : List F) := by
    apply (Multiset.cons_inj_right f).mp
    rw [← hlive hold', (s.addAll_live adds).2, hlive hold, Multiset.cons_add]
  refine ⟨_, hlive hold, ?_⟩
  rw [Multiset.add_assoc, ← hrest, Service.live, hnew, current_next, ← Multiset.add_assoc,
    ← Multiset.add_assoc]
  congr 1
  exact Multiset.add_comm _ _

theorem Service.stop_live (s : Service T F) : s.stop.live ≤ s.live := by
  have hcurrent : s.stop.live = 0 + s.current := congrArg (0 + ·) (Service.current_notifyAll _)
  rw [hcurrent, Multiset.zero_add]
  exact Multiset.le_add_left _ _

theorem Service.spawn_live (s : Service T F) (l : Loop) :
    Service.live { s with threads := s.threads ++ [(l, .checking)] } = s.live := by
  simp [Service.live, Service.current, Thread.current]

end Live

variable [LinearOrder T]

/-- `operations.top ()`: none of the operations has an earlier time. -/
def Top (operations : List (Operation T F)) (op : Operation T F) : Prop :=
  op ∈ operations ∧ ∀ o ∈ operations, op.wakeup ≤ o.wakeup

/-- How long `run` sleeps: until the first time that is not yet past, or until it is notified. -/
def Deadline (now : T) (operations : List (Operation T F)) : Option T → Prop
  | none => operations = []
  | some t => ∃ op, Top operations op ∧ op.wakeup = t ∧ ¬ t < now

inductive Event where
  | clock
  | thread (i : ℕ)
  | outside
  deriving DecidableEq, Repr

/-- What happens next. The mutex is held from looking at the queue until an operation is taken or
the thread sleeps. A thread may wake up at any time, and the clock may be set. -/
inductive Step (P : Program T W F) : System T W F → Event → System T W F → Prop
  | tick {σ : System T W F} (t : T) : Step P σ .clock { σ with now := t }
  | take {σ : System T W F} {i : ℕ} {l : Loop} {before after : List (Operation T F)}
      {op : Operation T F} :
      σ.service.threads[i]? = some (l, .checking) → (l = .run → σ.service.done = false) →
      σ.service.operations = before ++ op :: after → Top σ.service.operations op →
      op.wakeup < σ.now →
      Step P σ (.thread i) { σ with service :=
        (σ.service.start σ.now op (before ++ after)).setThread i l (.running op.function) }
  | wait {σ : System T W F} {i : ℕ} {d : Option T} :
      σ.service.threads[i]? = some (.run, .checking) → σ.service.done = false →
      Deadline σ.now σ.service.operations d →
      Step P σ (.thread i) { σ with service := σ.service.setThread i .run (.waiting d) }
  | leave {σ : System T W F} {i : ℕ} {l : Loop} {d : Option T} :
      σ.service.threads[i]? = some (l, .checking) →
      (if l = .run then σ.service.done = true else Deadline σ.now σ.service.operations d) →
      Step P σ (.thread i) { σ with service := σ.service.setThread i l .returned }
  | wake {σ : System T W F} {i : ℕ} {l : Loop} {d : Option T} :
      σ.service.threads[i]? = some (l, .waiting d) →
      Step P σ (.thread i) { σ with service := σ.service.setThread i l .checking }
  | act {σ : System T W F} {i : ℕ} {l : Loop} {f : F} {world : W} {adds : List (T × F)}
      {rest : Option F} :
      σ.service.threads[i]? = some (l, .running f) → P.act σ.now σ.world f world adds rest →
      Step P σ (.thread i) ⟨σ.now, world, (σ.service.addAll adds).setThread i l (l.next rest)⟩
  | call {σ : System T W F} {world : W} {adds : List (T × F)} :
      P.call σ.now σ.world world adds →
      Step P σ .outside ⟨σ.now, world, σ.service.addAll adds⟩
  | stop {σ : System T W F} : Step P σ .outside { σ with service := σ.service.stop }
  | spawn {σ : System T W F} (l : Loop) :
      Step P σ .outside { σ with service :=
        { σ.service with threads := σ.service.threads ++ [(l, .checking)] } }

def Service.new : Service T F := ⟨[], false, [], [], []⟩

def Initial (init : W → Prop) (σ : System T W F) : Prop := init σ.world ∧ σ.service = .new

/-- A function that does nothing is added for the time it is added at. -/
def idle : Program ℕ Unit Unit where
  act _ _ _ _ adds rest := adds = [] ∧ rest = none
  call now _ _ adds := adds = [(now, ())]

def idleOperation : Operation ℕ Unit := ⟨0, 0, ()⟩

def idleService (operations : List (Operation ℕ Unit)) (thread : Thread ℕ Unit)
    (started : List (Start ℕ Unit)) : Service ℕ Unit :=
  ⟨operations, false, [(.run, thread)], [(0, ())], started⟩

/-- The operation is taken at time one; then the thread sleeps and the clock goes on. -/
def idleState : ℕ → System ℕ Unit Unit
  | 0 => ⟨1, (), idleService [idleOperation] .checking []⟩
  | 1 => ⟨1, (), idleService [] (.running ()) [⟨1, 1, idleOperation⟩]⟩
  | 2 => ⟨1, (), idleService [] .checking [⟨1, 1, idleOperation⟩]⟩
  | n + 3 => ⟨n + 1, (), idleService [] (.waiting none) [⟨1, 1, idleOperation⟩]⟩

/-- A thread calls `run`, and the operation is added. -/
theorem idle_reached : Reached (Initial fun _ => True) (Step idle) (idleState 0) := by
  have hspawn : Step idle ⟨0, (), .new⟩ .outside
      ⟨0, (), ⟨[], false, [(.run, .checking)], [], []⟩⟩ := Step.spawn .run
  have hadd : idle.call 0 () () [(0, ())] := rfl
  have hcall : Step idle ⟨0, (), ⟨[], false, [(.run, .checking)], [], []⟩⟩ .outside
      ⟨0, (), idleService [idleOperation] .checking []⟩ :=
    Step.call (σ := ⟨0, (), ⟨[], false, [(.run, .checking)], [], []⟩⟩) hadd
  exact (((Reached.start ⟨trivial, rfl⟩).next hspawn).next hcall).next (Step.tick 1)

def idleAction : ℕ → Event
  | 0 => .thread 0
  | 1 => .thread 0
  | 2 => .thread 0
  | _ + 3 => .clock

theorem idle_next (n : ℕ) : Step idle (idleState n) (idleAction n) (idleState (n + 1)) := by
  match n with
  | 0 =>
      have hops : (idleState 0).service.operations = [] ++ idleOperation :: [] := rfl
      have htop : Top (idleState 0).service.operations idleOperation :=
        ⟨List.mem_cons_self, by simp [idleState, idleService]⟩
      exact Step.take (l := .run) rfl (fun _ => rfl) hops htop Nat.zero_lt_one
  | 1 =>
      have hact : idle.act 1 () () () [] none := ⟨rfl, rfl⟩
      exact Step.act (σ := idleState 1) (l := .run) rfl hact
  | 2 => exact Step.wait (d := none) rfl rfl rfl
  | n + 3 => exact Step.tick (n + 2)

def idleRun : Endless (Step idle) := ⟨idleState, idleAction, idle_next⟩

/-- The operations that wait or were started are those that were added, each once, and none before
its time. Of two that were there together, the earlier was started first. A thread that sleeps
wakes up by the time of the first operation. -/
structure Kept (s : Service T F) : Prop where
  waiting : ∀ o ∈ s.operations, s.added[o.number]? = some (o.wakeup, o.function)
  running : ∀ x ∈ s.started, s.added[x.operation.number]? =
    some (x.operation.wakeup, x.operation.function)
  once : s.numbers.Nodup
  all : s.done = false → ∀ k < s.added.length, k ∈ s.numbers
  late : ∀ x ∈ s.started, x.operation.wakeup < x.time
  counted : ∀ x ∈ s.started, x.added ≤ s.added.length
  behind : ∀ x ∈ s.started, ∀ o ∈ s.operations, o.number < x.added →
    x.operation.wakeup ≤ o.wakeup
  ordered : s.started.Pairwise fun x y =>
    y.operation.number < x.added → x.operation.wakeup ≤ y.operation.wakeup
  stopped : s.done = true → s.operations = []
  sleeping : ∀ l d, (l, .waiting d) ∈ s.threads →
    s.done = false ∧ ∀ o ∈ s.operations, ∃ t ∈ d, t ≤ o.wakeup

namespace Kept
variable {s : Service T F} {i : ℕ} {l : Loop} {t : Thread T F}

theorem new : Kept (Service.new : Service T F) where
  waiting := by simp [Service.new]
  running := by simp [Service.new]
  once := by simp [Service.new, Service.numbers]
  all := by simp [Service.new]
  late := by simp [Service.new]
  counted := by simp [Service.new]
  behind := by simp [Service.new]
  ordered := List.Pairwise.nil
  stopped := fun _ => rfl
  sleeping := by simp [Service.new]

theorem number_lt (h : Kept s) {k : ℕ} (hk : k ∈ s.numbers) : k < s.added.length := by
  rcases List.mem_append.mp hk with hk | hk
  · obtain ⟨o, ho, rfl⟩ := List.mem_map.mp hk
    exact (List.getElem?_eq_some_iff.mp (h.waiting o ho)).1
  · obtain ⟨x, hx, rfl⟩ := List.mem_map.mp hk
    exact (List.getElem?_eq_some_iff.mp (h.running x hx)).1

theorem withThreads (h : Kept s) {threads : List (Loop × Thread T F)}
    (hnew : ∀ l d, (l, .waiting d) ∈ threads → (l, .waiting d) ∈ s.threads ∨
      (s.done = false ∧ ∀ o ∈ s.operations, ∃ t ∈ d, t ≤ o.wakeup)) :
    Kept { s with threads := threads } where
  __ := h
  sleeping := fun l d hd => (hnew l d hd).elim (h.sleeping l d) id

theorem setThread (h : Kept s) (hp : ∀ d, t = .waiting d →
    s.done = false ∧ ∀ o ∈ s.operations, ∃ t ∈ d, t ≤ o.wakeup) : Kept (s.setThread i l t) := by
  refine h.withThreads fun l' d hd => ?_
  rcases List.mem_or_eq_of_mem_set hd with hd | hd
  · exact Or.inl hd
  · cases hd
    exact Or.inr (hp d rfl)

theorem add (h : Kept s) (a : T × F) : Kept (s.add a) := by
  cases hd : s.done with
  | true => exact (Service.add_done hd a).symm ▸ h
  | false =>
      rw [Service.add_open hd]
      have hkeep : ∀ {k : ℕ} {x : T × F}, s.added[k]? = some x →
          (s.added ++ [a])[k]? = some x := by
        intro k x hx
        obtain ⟨hk, _⟩ := List.getElem?_eq_some_iff.mp hx
        rwa [List.getElem?_append_left hk]
      -- the new number is the first that is not taken
      have hperm : ((s.operations ++ [Operation.mk s.added.length a.1 a.2]).map Operation.number ++
          s.started.map (·.operation.number)).Perm (s.added.length :: s.numbers) := by
        rw [List.map_append, List.append_assoc]
        exact List.perm_middle
      refine ⟨?_, fun x hx => hkeep (h.running x hx), ?_, ?_, h.late, ?_, ?_, h.ordered, ?_, ?_⟩
      · intro o ho
        rcases List.mem_append.mp ho with ho | ho
        · exact hkeep (h.waiting o ho)
        · cases List.mem_singleton.mp ho
          exact List.getElem?_concat_length
      · refine hperm.nodup_iff.mpr (List.nodup_cons.mpr ⟨?_, h.once⟩)
        exact fun hmem => Nat.lt_irrefl _ (h.number_lt hmem)
      · intro _ k hk
        refine hperm.mem_iff.mpr (List.mem_cons.mpr ?_)
        have hk : k < (s.added ++ [a]).length := hk
        rw [List.length_append, List.length_singleton] at hk
        rcases Nat.lt_or_eq_of_le (Nat.le_of_lt_succ hk) with hk | hk
        · exact Or.inr (h.all hd k hk)
        · exact Or.inl hk
      · intro x hx
        have := h.counted x hx
        simp only [Service.notifyAll, List.length_append]
        omega
      · intro x hx o ho hlt
        rcases List.mem_append.mp ho with ho | ho
        · exact h.behind x hx o ho hlt
        · cases List.mem_singleton.mp ho
          exact absurd (h.counted x hx) (Nat.not_le_of_lt hlt)
      · intro hdone
        cases hd.symm.trans hdone
      · intro l d hw
        exact absurd hw Service.not_waiting_notifyAll

theorem stop (h : Kept s) : Kept s.stop := by
  refine ⟨by simp [Service.stop, Service.notifyAll], h.running, ?_, ?_, h.late, h.counted, ?_,
    h.ordered, fun _ => rfl, ?_⟩
  · exact h.once.sublist (List.sublist_append_right _ _)
  · intro hd
    cases hd
  · intro x _ o ho
    cases ho
  · intro l d hw
    exact absurd hw Service.not_waiting_notifyAll

theorem start (h : Kept s) {before after : List (Operation T F)} {op : Operation T F} {now : T}
    (hops : s.operations = before ++ op :: after) (htop : Top s.operations op)
    (hnow : op.wakeup < now) : Kept (s.start now op (before ++ after)) := by
  have hperm : s.numbers.Perm (op.number ::
      ((before ++ after).map Operation.number ++ s.started.map (·.operation.number))) := by
    simp only [Service.numbers, hops, List.map_append, List.map_cons, List.append_assoc,
      List.cons_append]
    exact List.perm_middle
  have hperm' : (s.start now op (before ++ after)).numbers.Perm s.numbers := by
    have heq : (s.start now op (before ++ after)).numbers = (before ++ after).map
        Operation.number ++ s.started.map (·.operation.number) ++ [op.number] := by
      simp [Service.numbers, Service.start]
    rw [heq]
    exact (List.perm_append_singleton _ _).trans hperm.symm
  have hsub : ∀ o ∈ before ++ after, o ∈ s.operations := by
    intro o ho
    rw [hops]
    exact List.mem_append.mpr ((List.mem_append.mp ho).imp id (List.mem_cons_of_mem op))
  have hmem : op ∈ s.operations := htop.1
  refine ⟨fun o ho => h.waiting o (hsub o ho), ?_, hperm'.nodup_iff.mpr h.once, ?_, ?_, ?_, ?_, ?_,
    ?_, ?_⟩
  · intro x hx
    rcases List.mem_append.mp hx with hx | hx
    · exact h.running x hx
    · cases List.mem_singleton.mp hx
      exact h.waiting op hmem
  · exact fun hd k hk => hperm'.mem_iff.mpr (h.all hd k hk)
  · intro x hx
    rcases List.mem_append.mp hx with hx | hx
    · exact h.late x hx
    · cases List.mem_singleton.mp hx
      exact hnow
  · intro x hx
    rcases List.mem_append.mp hx with hx | hx
    · exact h.counted x hx
    · cases List.mem_singleton.mp hx
      exact Nat.le_refl _
  · intro x hx o ho hlt
    rcases List.mem_append.mp hx with hx | hx
    · exact h.behind x hx o (hsub o ho) hlt
    · cases List.mem_singleton.mp hx
      exact htop.2 o (hsub o ho)
  · refine List.pairwise_append.mpr ⟨h.ordered, List.pairwise_singleton _ _, ?_⟩
    intro x hx y hy hlt
    cases List.mem_singleton.mp hy
    exact h.behind x hx op hmem hlt
  · intro hd
    rw [h.stopped hd] at hmem
    cases hmem
  · intro l d hw
    obtain ⟨hopen, hall⟩ := h.sleeping l d hw
    exact ⟨hopen, fun o ho => hall o (hsub o ho)⟩

theorem step {P : Program T W F} {σ τ : System T W F} {e : Event} (h : Kept σ.service)
    (hstep : Step P σ e τ) : Kept τ.service := by
  cases hstep with
  | tick t => exact h
  | take hi hrun hops htop hnow => exact (h.start hops htop hnow).setThread (by simp)
  | @wait i d hi hopen hd =>
      refine h.setThread fun d' hd' => ⟨hopen, fun o ho => ?_⟩
      cases hd'
      cases d with
      | none =>
          rw [show σ.service.operations = [] from hd] at ho
          cases ho
      | some t =>
          obtain ⟨op, htop, rfl, _⟩ := hd
          exact ⟨op.wakeup, rfl, htop.2 o ho⟩
  | leave hi hd => exact h.setThread (by simp)
  | wake hi => exact h.setThread (by simp)
  | @act i l f world adds rest hi hact =>
      refine (Service.addAll_induction h (fun _ a hs => hs.add a) adds).setThread ?_
      intro d hd
      exact absurd hd (l.next_ne_waiting rest)
  | call hcall => exact Service.addAll_induction h (fun _ a hs => hs.add a) _
  | stop => exact h.stop
  | spawn l =>
      refine h.withThreads fun l' d hd => Or.inl ?_
      simpa using hd

end Kept

section Runs
variable {P : Program T W F} {init : W → Prop} {σ τ : System T W F} {e : Event}

theorem reached_kept (h : Reached (Initial init) (Step P) σ) : Kept σ.service := by
  refine h.invariant (I := fun σ => Kept σ.service) ?_ (fun σ a τ hσ hstep => hσ.step hstep)
  intro σ hσ
  rw [hσ.2]
  exact Kept.new

/-- Nothing is added or started once the service was stopped. -/
theorem Step.stopped (h : Step P σ e τ) (hσ : σ.service.done = true ∧ σ.service.operations = []) :
    (τ.service.done = true ∧ τ.service.operations = []) ∧
      τ.service.started = σ.service.started := by
  cases h with
  | tick t => exact ⟨hσ, rfl⟩
  | take hi hrun hops htop hnow =>
      rw [hσ.2] at hops
      simp at hops
  | wait hi hopen hd => exact ⟨hσ, rfl⟩
  | leave hi hd => exact ⟨hσ, rfl⟩
  | wake hi => exact ⟨hσ, rfl⟩
  | act hi hact =>
      rw [Service.addAll_done hσ.1]
      exact ⟨hσ, rfl⟩
  | call hcall =>
      rw [Service.addAll_done hσ.1]
      exact ⟨hσ, rfl⟩
  | stop => exact ⟨⟨rfl, rfl⟩, rfl⟩
  | spawn l => exact ⟨hσ, rfl⟩

theorem started_of_stopped {as : List Event} (hr : Run (Step P) σ as τ)
    (hσ : σ.service.done = true ∧ σ.service.operations = []) :
    τ.service.started = σ.service.started := by
  have hall : (τ.service.done = true ∧ τ.service.operations = []) ∧
      τ.service.started = σ.service.started :=
    hr.invariant (I := fun _ τ => (τ.service.done = true ∧ τ.service.operations = []) ∧
      τ.service.started = σ.service.started) ⟨hσ, rfl⟩
      (fun _ t a u ih hstep =>
        ⟨(hstep.stopped ih.1).1, ((hstep.stopped ih.1).2).trans ih.2⟩)
  exact hall.2

/-- Whatever the functions do and however the threads take turns, an operation is started at most
once, as it was added, and after its time. Of two that were there together the earlier is started
first. None is lost, and no thread sleeps past the time of one, unless the service was stopped;
then nothing is started any more. -/
theorem service_starts_in_order (h : Reached (Initial init) (Step P) σ) :
    (σ.service.started.map (·.operation.number)).Nodup ∧
    (∀ x ∈ σ.service.started, x.operation.wakeup < x.time ∧
      σ.service.added[x.operation.number]? =
        some (x.operation.wakeup, x.operation.function)) ∧
    σ.service.started.Pairwise (fun x y =>
      y.operation.number < x.added → x.operation.wakeup ≤ y.operation.wakeup) ∧
    (σ.service.done = false → ∀ k < σ.service.added.length,
      (∃ o ∈ σ.service.operations, o.number = k) ∨
        ∃ x ∈ σ.service.started, x.operation.number = k) ∧
    (∀ l d, (l, .waiting d) ∈ σ.service.threads → σ.service.done = false ∧
      ∀ o ∈ σ.service.operations, ∃ t ∈ d, t ≤ o.wakeup) ∧
    (σ.service.done = true → σ.service.operations = [] ∧ ∀ as τ, Run (Step P) σ as τ →
      τ.service.started = σ.service.started) := by
  have hk := reached_kept h
  refine ⟨hk.once.of_append_right, fun x hx => ⟨hk.late x hx, hk.running x hx⟩, hk.ordered, ?_,
    hk.sleeping, fun hd => ⟨hk.stopped hd, fun as τ hr => ?_⟩⟩
  · intro hd k hlt
    exact (List.mem_append.mp (hk.all hd k hlt)).imp List.mem_map.mp List.mem_map.mp
  · exact started_of_stopped hr ⟨hd, hk.stopped hd⟩

/-- An operation for time two is added before one for time one. At time three the later addition is
started first. -/
theorem service_starts_in_order_two : ∃ σ : System ℕ Unit Unit,
    σ.service.added.map Prod.fst = [2, 1] ∧
    σ.service.started.map (·.operation.number) = [1, 0] ∧
    σ.service.started.Pairwise (fun x y =>
      y.operation.number < x.added → x.operation.wakeup ≤ y.operation.wakeup) := by
  let first : Operation ℕ Unit := ⟨0, 2, ()⟩
  let second : Operation ℕ Unit := ⟨1, 1, ()⟩
  let service (operations : List (Operation ℕ Unit)) (thread : Thread ℕ Unit)
      (started : List (Start ℕ Unit)) : Service ℕ Unit :=
    ⟨operations, false, [(.run, thread)], [(2, ()), (1, ())], started⟩
  let σ₀ : System ℕ Unit Unit := ⟨2, (), ⟨[], false, [(.run, .checking)], [], []⟩⟩
  let σ₁ : System ℕ Unit Unit := ⟨1, (), ⟨[first], false, [(.run, .checking)], [(2, ())], []⟩⟩
  let σ₂ : System ℕ Unit Unit := ⟨3, (), service [first, second] .checking []⟩
  let σ₃ : System ℕ Unit Unit := ⟨3, (), service [first] (.running ()) [⟨3, 2, second⟩]⟩
  let σ₄ : System ℕ Unit Unit := ⟨3, (), service [first] .checking [⟨3, 2, second⟩]⟩
  let σ₅ : System ℕ Unit Unit :=
    ⟨3, (), service [] (.running ()) [⟨3, 2, second⟩, ⟨3, 2, first⟩]⟩
  have hσ₀ : Reached (Initial fun _ => True) (Step idle) σ₀ :=
    ((Reached.start (s := ⟨0, (), .new⟩) ⟨trivial, rfl⟩).next (.spawn .run)).next (.tick 2)
  have hfirst : idle.call 2 () () [(2, ())] := rfl
  have hσ₁ : Reached (Initial fun _ => True) (Step idle) σ₁ :=
    (hσ₀.next (.call hfirst)).next (.tick 1)
  have hsecond : idle.call 1 () () [(1, ())] := rfl
  have hσ₂ : Reached (Initial fun _ => True) (Step idle) σ₂ :=
    (hσ₁.next (.call hsecond)).next (.tick 3)
  have hσ₃ : Step idle σ₂ (.thread 0) σ₃ := by
    have hops : σ₂.service.operations = [first] ++ second :: [] := rfl
    have htop : Top σ₂.service.operations second :=
      ⟨by simp [σ₂, service], by simp [σ₂, service, first, second]⟩
    exact .take (l := .run) rfl (fun _ => rfl) hops htop (by decide)
  have hσ₄ : Step idle σ₃ (.thread 0) σ₄ := by
    have hact : idle.act 3 () () () [] none := ⟨rfl, rfl⟩
    exact .act (σ := σ₃) (l := .run) rfl hact
  have hσ₅ : Step idle σ₄ (.thread 0) σ₅ := by
    have hops : σ₄.service.operations = [] ++ first :: [] := rfl
    have htop : Top σ₄.service.operations first := ⟨by simp [σ₄, service], by simp [σ₄, service]⟩
    exact .take (l := .run) rfl (fun _ => rfl) hops htop (by decide)
  exact ⟨σ₅, rfl, rfl,
    (service_starts_in_order (((hσ₂.next hσ₃).next hσ₄).next hσ₅)).2.2.1⟩

end Runs

structure Program.Ahead (P : Program T W F) : Prop where
  act : ∀ {now w f w' adds rest}, P.act now w f w' adds rest → ∀ a ∈ adds, now ≤ a.1
  call : ∀ {now w w' adds}, P.call now w w' adds → ∀ a ∈ adds, now ≤ a.1

theorem idle_ahead : idle.Ahead where
  act h a ha := by
    rw [h.1] at ha
    cases ha
  call h a ha := by
    rw [show _ = _ from h, List.mem_singleton] at ha
    rw [ha]

/-- The service is not stopped, the clock goes on, and no thread waits for the mutex, runs a
function or sleeps past its time for ever. -/
structure Fair {P : Program T W F} (e : Endless (Step P)) : Prop where
  stays : ∀ n, (e.state n).service.done = false
  monotone : ∀ n, (e.state n).now ≤ (e.state (n + 1)).now
  unbounded : ∀ t, ∃ n, t < (e.state n).now
  turns : ∀ n (i : ℕ) l, (e.state n).service.threads[i]? = some (l, .checking) →
    ∃ m, n ≤ m ∧ (e.state m).service.threads[i]? ≠ some (l, .checking)
  returns : ∀ n (i : ℕ) l f, (e.state n).service.threads[i]? = some (l, .running f) →
    ∃ m, n ≤ m ∧ ∀ g, (e.state m).service.threads[i]? ≠ some (l, .running g)
  wakes : ∀ n (i : ℕ) l t, (e.state n).service.threads[i]? = some (l, .waiting (some t)) →
    t < (e.state n).now →
    ∃ m, n ≤ m ∧ ∀ d, (e.state m).service.threads[i]? ≠ some (l, .waiting d)

theorem idle_fair : Fair idleRun where
  stays n := by rcases n with _ | _ | _ | n <;> rfl
  monotone n := by
    rcases n with _ | _ | _ | n
    · exact Nat.le_refl 1
    · exact Nat.le_refl 1
    · exact Nat.le_refl 1
    · exact Nat.le_succ (n + 1)
  unbounded t := ⟨t + 3, Nat.lt_succ_self t⟩
  turns n i _ _ := ⟨n + 3, Nat.le_add_right n 3, by
    rcases i with _ | i <;> simp [idleRun, idleState, idleService]⟩
  returns n i _ _ _ := ⟨n + 3, Nat.le_add_right n 3, by
    rcases i with _ | i <;> simp [idleRun, idleState, idleService]⟩
  wakes n i _ t h _ := by
    rcases i with _ | i <;> rcases n with _ | _ | _ | n <;>
      simp [idleRun, idleState, idleService] at h

/-- Thread `i` is in `run`. -/
def Serving (i : ℕ) (s : Service T F) : Prop :=
  ∃ t, s.threads[i]? = some (.run, t) ∧ t ≠ .returned

/-- The operations with a time no later than `t`. -/
def early (t : T) (s : Service T F) : ℕ := (s.operations.filter fun o => o.wakeup ≤ t).length

section Moves
variable {P : Program T W F} {σ τ : System T W F} {a : Event}

/-- How the queue changes while the service is not stopped. -/
theorem Step.queue (hP : P.Ahead) (h : Step P σ a τ) (hτ : τ.service.done = false) :
    (∃ new, τ.service.operations = σ.service.operations ++ new ∧ ∀ o ∈ new, σ.now ≤ o.wakeup) ∨
      ∃ before op after, σ.service.operations = before ++ op :: after ∧
        Top σ.service.operations op ∧ τ.service.operations = before ++ after := by
  cases h with
  | tick t => exact Or.inl ⟨[], by simp⟩
  | take hi hrun hops htop hnow => exact Or.inr ⟨_, _, _, hops, htop, rfl⟩
  | wait hi hopen hd => exact Or.inl ⟨[], by simp [Service.setThread]⟩
  | leave hi hd => exact Or.inl ⟨[], by simp [Service.setThread]⟩
  | wake hi => exact Or.inl ⟨[], by simp [Service.setThread]⟩
  | @act i l f world adds rest hi hact =>
      obtain ⟨new, heq, hnew⟩ := σ.service.addAll_operations adds
      refine Or.inl ⟨new, heq, fun o ho => ?_⟩
      obtain ⟨a, ha, hw⟩ := hnew o ho
      rw [hw]
      exact hP.act hact a ha
  | @call world adds hcall =>
      obtain ⟨new, heq, hnew⟩ := σ.service.addAll_operations adds
      refine Or.inl ⟨new, heq, fun o ho => ?_⟩
      obtain ⟨a, ha, hw⟩ := hnew o ho
      rw [hw]
      exact hP.call hcall a ha
  | stop => cases hτ
  | spawn l => exact Or.inl ⟨[], by simp⟩

/-- What becomes of a thread in one step: it goes on as `u`. -/
inductive Moved (P : Program T W F) (σ τ : System T W F) (l : Loop) :
    Thread T F → Thread T F → Prop
  | same (t : Thread T F) : Moved P σ τ l t t
  | notified (t : Thread T F) : Moved P σ τ l t t.notified
  | took {before after : List (Operation T F)} {op : Operation T F} :
      σ.service.operations = before ++ op :: after → Top σ.service.operations op →
      op.wakeup < σ.now → τ.now = σ.now → τ.world = σ.world →
      τ.service.operations = before ++ after →
      Moved P σ τ l .checking (.running op.function)
  | slept {d : Option T} : Deadline σ.now σ.service.operations d →
      Moved P σ τ l .checking (.waiting d)
  | left : (l = .run → σ.service.done = true) → Moved P σ τ l .checking .returned
  | acted {f : F} {adds : List (T × F)} {rest : Option F} :
      P.act σ.now σ.world f τ.world adds rest → τ.now = σ.now →
      τ.service.operations = (σ.service.addAll adds).operations →
      Moved P σ τ l (.running f) (l.next rest)

theorem Step.moved (h : Step P σ a τ) {i : ℕ} {l : Loop} {t : Thread T F}
    (hi : σ.service.threads[i]? = some (l, t)) :
    ∃ u, τ.service.threads[i]? = some (l, u) ∧ Moved P σ τ l t u := by
  have hlt : i < σ.service.threads.length := (List.getElem?_eq_some_iff.mp hi).1
  -- the thread itself goes on, or another does
  have hset : ∀ {threads : List (Loop × Thread T F)} {j : ℕ} {l' : Loop} {v : Thread T F},
      τ.service.threads = threads.set j (l', v) →
      (∃ u, threads[i]? = some (l, u) ∧ Moved P σ τ l t u) →
      (i = j → l' = l ∧ Moved P σ τ l t v) →
      ∃ u, τ.service.threads[i]? = some (l, u) ∧ Moved P σ τ l t u := by
    intro threads j l' v hτ hother hself
    obtain ⟨u, hu, hm⟩ := hother
    by_cases hij : j = i
    · subst hij
      obtain ⟨rfl, hv⟩ := hself rfl
      have hlt : j < threads.length := (List.getElem?_eq_some_iff.mp hu).1
      exact ⟨v, by rw [hτ, List.getElem?_set_self hlt], hv⟩
    · exact ⟨u, by rw [hτ, List.getElem?_set_ne hij, hu], hm⟩
  have hadds : ∀ adds, ∃ u, (σ.service.addAll adds).threads[i]? = some (l, u) ∧
      Moved P σ τ l t u := by
    intro adds
    rcases Service.addAll_threads hi adds with heq | heq
    · exact ⟨t, heq, .same t⟩
    · exact ⟨t.notified, heq, .notified t⟩
  cases h with
  | tick t' => exact ⟨t, hi, .same t⟩
  | take hj hrun hops htop hnow =>
      refine hset rfl ⟨t, hi, .same t⟩ fun hij => ?_
      cases hij
      cases hi.symm.trans hj
      exact ⟨rfl, .took hops htop hnow rfl rfl rfl⟩
  | wait hj hopen hd =>
      refine hset rfl ⟨t, hi, .same t⟩ fun hij => ?_
      cases hij
      cases hi.symm.trans hj
      exact ⟨rfl, .slept hd⟩
  | leave hj hd =>
      refine hset rfl ⟨t, hi, .same t⟩ fun hij => ?_
      cases hij
      cases hi.symm.trans hj
      exact ⟨rfl, .left fun hl => by rwa [if_pos hl] at hd⟩
  | wake hj =>
      refine hset rfl ⟨t, hi, .same t⟩ fun hij => ?_
      cases hij
      cases hi.symm.trans hj
      exact ⟨rfl, .notified _⟩
  | @act j l' f world adds rest hj hact =>
      refine hset rfl (hadds adds) fun hij => ?_
      cases hij
      cases hi.symm.trans hj
      exact ⟨rfl, .acted hact rfl rfl⟩
  | @call world adds hcall => exact hadds adds
  | stop => exact ⟨t.notified, by simp [Service.stop, Service.notifyAll, hi], .notified t⟩
  | spawn l' => exact ⟨t, by rw [List.getElem?_append_left hlt, hi], .same t⟩

end Moves

section Fairness
variable {P : Program T W F} {init : W → Prop} {e : Endless (Step P)} {i : ℕ} {op : Operation T F}

theorem kept_state (h₀ : Kept (e.state 0).service) (n : ℕ) : Kept (e.state n).service :=
  e.invariant (P := fun σ => Kept σ.service) h₀ (fun _ _ _ hσ hstep => hσ.step hstep) n

/-- A thread in `run` stays there while the service is not stopped. -/
theorem serving_state (he : Fair e) (h₀ : Serving i (e.state 0).service) (n : ℕ) :
    Serving i (e.state n).service := by
  induction n with
  | zero => exact h₀
  | succ n ih =>
      obtain ⟨t, ht, hne⟩ := ih
      obtain ⟨u, hu, hm⟩ := (e.next n).moved ht
      refine ⟨u, hu, ?_⟩
      cases hm with
      | same => exact hne
      | notified => cases t <;> simp [Thread.notified] at hne ⊢
      | took => simp
      | slept => simp
      | left hdone => cases (he.stays n).symm.trans (hdone rfl)
      | @acted f adds rest hact => cases rest <;> simp [Loop.next]

/-- The operation waits and its time is past, and so many have no later time. -/
def Due (op : Operation T F) (k : ℕ) (σ : System T W F) : Prop :=
  op ∈ σ.service.operations ∧ op.wakeup < σ.now ∧ early op.wakeup σ.service = k

/-- The operation was taken, or there are fewer that may be taken before it. -/
def Nearer (op : Operation T F) (k : ℕ) (σ : System T W F) : Prop :=
  op ∉ σ.service.operations ∨ ∃ v < k, Due op v σ

theorem early_take {before after : List (Operation T F)} {o : Operation T F} {s s' : Service T F}
    {t : T} (hs : s.operations = before ++ o :: after) (hs' : s'.operations = before ++ after)
    (ho : o.wakeup ≤ t) : early t s' < early t s := by
  simp only [early, hs, hs', List.filter_append, List.filter_cons, ho, decide_true, if_true,
    List.length_append, List.length_cons]
  omega

theorem Due.next (hP : P.Ahead) (he : Fair e) {k n : ℕ} (h : Due op k (e.state n)) :
    Due op k (e.state (n + 1)) ∨ Nearer op k (e.state (n + 1)) := by
  by_cases hmem : op ∈ (e.state (n + 1)).service.operations
  · have hnow := h.2.1.trans_le (he.monotone n)
    rcases (e.next n).queue hP (he.stays (n + 1)) with ⟨new, heq, hnew⟩ | ⟨b, o, a, hops, htop, heq⟩
    · refine Or.inl ⟨hmem, hnow, ?_⟩
      have hnone : new.filter (fun o => o.wakeup ≤ op.wakeup) = [] := by
        refine List.filter_eq_nil_iff.mpr fun o ho => ?_
        simpa using h.2.1.trans_le (hnew o ho)
      rw [← h.2.2, early, early, heq, List.filter_append, hnone, List.append_nil]
    · refine Or.inr (Or.inr ⟨_, ?_, hmem, hnow, rfl⟩)
      rw [← h.2.2]
      exact early_take hops heq (htop.2 op h.1)
  · exact Or.inr (Or.inl hmem)

theorem running_next {n : ℕ} {f : F}
    (h : (e.state n).service.threads[i]? = some (.run, .running f)) :
    (∃ f, (e.state (n + 1)).service.threads[i]? = some (.run, .running f)) ∨
      (e.state (n + 1)).service.threads[i]? = some (.run, .checking) := by
  obtain ⟨u, hu, hm⟩ := (e.next n).moved h
  rw [hu]
  cases hm with
  | same => exact Or.inl ⟨f, rfl⟩
  | notified => exact Or.inl ⟨f, rfl⟩
  | @acted _ adds rest =>
      cases rest with
      | none => exact Or.inr rfl
      | some g => exact Or.inl ⟨g, rfl⟩

theorem waiting_next {n : ℕ} {d : Option T}
    (h : (e.state n).service.threads[i]? = some (.run, .waiting d)) :
    (e.state (n + 1)).service.threads[i]? = some (.run, .waiting d) ∨
      (e.state (n + 1)).service.threads[i]? = some (.run, .checking) := by
  obtain ⟨u, hu, hm⟩ := (e.next n).moved h
  rw [hu]
  cases hm with
  | same => exact Or.inl rfl
  | notified => exact Or.inr rfl

/-- A thread at the queue waits for the mutex, or takes an operation if one is due. -/
theorem checking_next (he : Fair e) {k n : ℕ} (hdue : Due op k (e.state n))
    (h : (e.state n).service.threads[i]? = some (.run, .checking)) :
    (e.state (n + 1)).service.threads[i]? = some (.run, .checking) ∨
      early op.wakeup (e.state (n + 1)).service < k := by
  obtain ⟨u, hu, hm⟩ := (e.next n).moved h
  rw [hu]
  cases hm with
  | same => exact Or.inl rfl
  | notified => exact Or.inl rfl
  | took hops htop _ _ _ heq =>
      rw [← hdue.2.2]
      exact Or.inr (early_take hops heq (htop.2 op hdue.1))
  | @slept d hd =>
      cases d with
      | none =>
          have hmem := hdue.1
          rw [show (e.state n).service.operations = [] from hd] at hmem
          cases hmem
      | some t =>
          obtain ⟨o, htop, rfl, hnot⟩ := hd
          exact absurd ((htop.2 op hdue.1).trans_lt hdue.2.1) hnot
  | left hdone => cases (he.stays n).symm.trans (hdone rfl)

/-- Until an operation that is due is taken, the thread comes back to the queue. -/
theorem due_checking (hP : P.Ahead) (he : Fair e) (h₀ : Kept (e.state 0).service)
    (hi : Serving i (e.state 0).service) (k : ℕ) :
    LeadsTo e.state (Due op k) fun σ => Nearer op k σ ∨
      (Due op k σ ∧ σ.service.threads[i]? = some (.run, .checking)) := by
  have hrunning := e.leadsTo_of_ends
    (P := fun σ => Due op k σ ∧ ∃ f, σ.service.threads[i]? = some (.run, .running f))
    (Q := fun σ => Nearer op k σ ∨
      (Due op k σ ∧ σ.service.threads[i]? = some (.run, .checking)))
    (by
      intro n hn
      obtain ⟨hdue, f, hf⟩ := hn
      rcases hdue.next hP he with hdue | hgoal
      · exact (running_next hf).imp (fun hf => ⟨hdue, hf⟩) (fun hf => Or.inr ⟨hdue, hf⟩)
      · exact Or.inr (Or.inl hgoal))
    (by
      intro n hn
      obtain ⟨_, f, hf⟩ := hn
      obtain ⟨m, hnm, hm⟩ := he.returns n i .run f hf
      exact ⟨m, hnm, fun h => h.2.elim hm⟩)
  have hwaiting := e.leadsTo_of_ends
    (P := fun σ => Due op k σ ∧ ∃ d, σ.service.threads[i]? = some (.run, .waiting d))
    (Q := fun σ => Nearer op k σ ∨
      (Due op k σ ∧ σ.service.threads[i]? = some (.run, .checking)))
    (by
      intro n hn
      obtain ⟨hdue, d, hd⟩ := hn
      rcases hdue.next hP he with hdue | hgoal
      · exact (waiting_next hd).imp (fun hd => ⟨hdue, d, hd⟩) (fun hd => Or.inr ⟨hdue, hd⟩)
      · exact Or.inr (Or.inl hgoal))
    (by
      intro n hn
      obtain ⟨hdue, d, hd⟩ := hn
      -- the thread wakes up no later than the operation is due
      obtain ⟨t, rfl, ht⟩ :=
        ((kept_state h₀ n).sleeping .run d (List.mem_of_getElem? hd)).2 op hdue.1
      obtain ⟨m, hnm, hm⟩ := he.wakes n i .run t hd (ht.trans_lt hdue.2.1)
      exact ⟨m, hnm, fun h => h.2.elim hm⟩)
  intro n hn
  obtain ⟨t, ht, hne⟩ := serving_state he hi n
  cases t with
  | checking => exact ⟨n, Nat.le_refl n, Or.inr ⟨hn, ht⟩⟩
  | waiting d => exact hwaiting n ⟨hn, d, ht⟩
  | running f => exact hrunning n ⟨hn, f, ht⟩
  | returned => exact absurd rfl hne

theorem due_taken (hP : P.Ahead) (he : Fair e) (h₀ : Kept (e.state 0).service)
    (hi : Serving i (e.state 0).service) (k : ℕ) :
    LeadsTo e.state (Due op k) fun σ => op ∉ σ.service.operations := by
  refine leadsTo_of_rank (fun k => ?_) k
  refine (due_checking hP he h₀ hi k).trans (LeadsTo.or (fun n hn => ⟨n, Nat.le_refl n, hn⟩) ?_)
  refine e.leadsTo_of_ends ?_ ?_
  · intro n hn
    rcases hn.1.next hP he with hdue | hgoal
    · rcases checking_next he hn.1 hn.2 with hc | hlt
      · exact Or.inl ⟨hdue, hc⟩
      · exact absurd hlt (by rw [hdue.2.2]; exact Nat.lt_irrefl k)
    · exact Or.inr hgoal
  · intro n hn
    obtain ⟨m, hnm, hm⟩ := he.turns n i .run hn.2
    exact ⟨m, hnm, fun h => hm h.2⟩

theorem taken (hP : P.Ahead) (he : Fair e) (h₀ : Kept (e.state 0).service)
    (hi : Serving i (e.state 0).service) (op : Operation T F) (n : ℕ) :
    ∃ m, n ≤ m ∧ op ∉ (e.state m).service.operations := by
  obtain ⟨j, hj⟩ := he.unbounded op.wakeup
  have hmono : Monotone fun n => (e.state n).now := monotone_nat_of_le_succ he.monotone
  by_cases hmem : op ∈ (e.state (max n j)).service.operations
  · obtain ⟨m, hm, hgone⟩ := due_taken hP he h₀ hi _ (max n j)
      ⟨hmem, hj.trans_le (hmono (Nat.le_max_right n j)), rfl⟩
    exact ⟨m, (Nat.le_max_left n j).trans hm, hgone⟩
  · exact ⟨max n j, Nat.le_max_left n j, hmem⟩

/-- An operation leaves the queue by being run. -/
theorem Step.taken {σ τ : System T W F} {a : Event} (h : Step P σ a τ)
    (hop : op ∈ σ.service.operations) (hτ : τ.service.done = false) :
    op ∈ τ.service.operations ∨
      ∃ (j : ℕ) (l : Loop), τ.service.threads[j]? = some (l, .running op.function) := by
  cases h with
  | tick t => exact Or.inl hop
  | @take i l before after o hi hrun hops htop hnow =>
      rw [hops] at hop
      rcases List.mem_append.mp hop with hop | hop
      · exact Or.inl (List.mem_append_left _ hop)
      · rcases List.mem_cons.mp hop with rfl | hop
        · exact Or.inr ⟨i, l, List.getElem?_set_self (List.getElem?_eq_some_iff.mp hi).1⟩
        · exact Or.inl (List.mem_append_right _ hop)
  | wait hi hopen hd => exact Or.inl hop
  | leave hi hd => exact Or.inl hop
  | wake hi => exact Or.inl hop
  | act hi hact =>
      obtain ⟨new, heq, _⟩ := σ.service.addAll_operations _
      exact Or.inl (heq ▸ List.mem_append_left new hop)
  | call hcall =>
      obtain ⟨new, heq, _⟩ := σ.service.addAll_operations _
      exact Or.inl (heq ▸ List.mem_append_left new hop)
  | stop => cases hτ
  | spawn l => exact Or.inl hop

theorem run_of_waiting (hP : P.Ahead) (he : Fair e) (h₀ : Kept (e.state 0).service)
    (hi : Serving i (e.state 0).service) {n : ℕ} (hop : op ∈ (e.state n).service.operations) :
    ∃ m, n ≤ m ∧ ∃ (j : ℕ) (l : Loop),
      (e.state m).service.threads[j]? = some (l, .running op.function) := by
  have hleads := e.leadsTo_of_ends (P := fun σ => op ∈ σ.service.operations)
    (Q := fun σ => ∃ (j : ℕ) (l : Loop), σ.service.threads[j]? = some (l, .running op.function))
    (fun n hn => (e.next n).taken hn (he.stays (n + 1)))
    (fun n _ => taken hP he h₀ hi op n)
  exact hleads n hop

theorem Step.added_le {σ τ : System T W F} {a : Event} (h : Step P σ a τ) :
    σ.service.added <+: τ.service.added := by
  have hadds : ∀ adds, σ.service.added <+: (σ.service.addAll adds).added := by
    refine Service.addAll_induction (I := fun s => σ.service.added <+: s.added)
      (List.prefix_refl _) ?_
    intro s a hs
    cases hd : s.done with
    | true => rwa [Service.add_done hd]
    | false =>
        rw [Service.add_open hd]
        exact hs.trans (List.prefix_append _ _)
  cases h with
  | tick t => exact List.prefix_refl _
  | take hi hrun hops htop hnow => exact List.prefix_refl _
  | wait hi hopen hd => exact List.prefix_refl _
  | leave hi hd => exact List.prefix_refl _
  | wake hi => exact List.prefix_refl _
  | act hi hact => exact hadds _
  | call hcall => exact hadds _
  | stop => exact List.prefix_refl _
  | spawn l => exact List.prefix_refl _

theorem added_mono {n m : ℕ} (h : n ≤ m) :
    (e.state n).service.added <+: (e.state m).service.added := by
  induction h with
  | refl => exact List.prefix_refl _
  | @step m _ ih => exact ih.trans (e.next m).added_le

/-- If nothing is added for a time that is past, every operation is started in the end, however
many others there are, as long as the service is not stopped and one thread is in `run`. -/
theorem operation_started (hP : P.Ahead) (he : Fair e)
    (h₀ : Reached (Initial init) (Step P) (e.state 0)) (hi : Serving i (e.state 0).service)
    {n k : ℕ} (hk : k < (e.state n).service.added.length) :
    ∃ m, n ≤ m ∧ ∃ x ∈ (e.state m).service.started, x.operation.number = k := by
  have hkept := kept_state (reached_kept h₀)
  rcases List.mem_append.mp ((hkept n).all (he.stays n) k hk) with hmem | hmem
  · obtain ⟨op, hop, rfl⟩ := List.mem_map.mp hmem
    obtain ⟨m, hnm, hgone⟩ := taken hP he (reached_kept h₀) hi op n
    have hpre := added_mono (e := e) hnm
    have hlisted := (hkept n).waiting op hop
    refine ⟨m, hnm, List.mem_map.mp ?_⟩
    -- an operation with this number that still waited would be this one
    refine ((List.mem_append.mp ((hkept m).all (he.stays m) op.number
      (hk.trans_le hpre.length_le))).resolve_left fun hm => hgone ?_)
    obtain ⟨o, ho, hnumber⟩ := List.mem_map.mp hm
    have hsame := (hkept m).waiting o ho
    obtain ⟨more, hmore⟩ := hpre
    rw [hnumber, ← hmore, List.getElem?_append_left hk, hlisted] at hsame
    obtain ⟨number, wakeup, function⟩ := o
    cases hsame
    cases hnumber
    exact ho
  · exact ⟨n, Nat.le_refl n, List.mem_map.mp hmem⟩

theorem operation_started_idle : ∃ m, ∃ x ∈ (idleState m).service.started,
    x.operation.number = 0 := by
  have hserving : Serving 0 (idleRun.state 0).service := ⟨.checking, rfl, by simp⟩
  obtain ⟨m, _, hm⟩ := operation_started idle_ahead idle_fair idle_reached hserving
    (show 0 < (idleRun.state 0).service.added.length from Nat.zero_lt_one)
  exact ⟨m, hm⟩

end Fairness

section LiveFunctions
variable {P : Program T W F} {I J : Bool → W → List (T × F) → Multiset F → Prop}

/-- What a step does to the state, to what was added and to the functions left to run, if it is
known what every function and what comes from outside does to them. -/
theorem live_step (idle : ∀ {d w added fs}, I d w added fs → J d w added fs)
    (act : ∀ {d now w f w' adds rest added fs}, I d w added (f ::ₘ fs) →
      P.act now w f w' adds rest → J d w' (added ++ accepted d adds)
        (↑rest.toList + fs + ((accepted d adds).map Prod.snd : List F)))
    (call : ∀ {d now w w' adds added fs}, I d w added fs → P.call now w w' adds →
      J d w' (added ++ accepted d adds) (fs + ((accepted d adds).map Prod.snd : List F)))
    (stop : ∀ {d w added fs gs}, gs ≤ fs → I d w added fs → J true w added gs)
    {σ τ : System T W F} {a : Event} (hstep : Step P σ a τ)
    (hσ : I σ.service.done σ.world σ.service.added σ.service.live) :
    J τ.service.done τ.world τ.service.added τ.service.live := by
  cases hstep with
  | tick t => exact idle hσ
  | take hi hrun hops htop hnow => exact (Service.start_live hi hops σ.now).symm ▸ idle hσ
  | @wait i d hi hopen hd =>
      exact (Service.setThread_idle (u := .waiting d) hi rfl rfl).symm ▸ idle hσ
  | leave hi hd => exact (Service.setThread_idle (u := .returned) hi rfl rfl).symm ▸ idle hσ
  | wake hi => exact (Service.setThread_idle (u := .checking) hi rfl rfl).symm ▸ idle hσ
  | @act i l f world adds rest hi hact =>
      obtain ⟨fs, hbefore, hafter⟩ := Service.act_live hi adds rest
      rw [hbefore] at hσ
      have hall := act hσ hact
      rw [← hafter, ← (σ.service.addAll_live adds).1, ← σ.service.done_addAll adds] at hall
      exact hall
  | @call world adds hcall =>
      obtain ⟨hadded, hlive⟩ := σ.service.addAll_live adds
      simp only [Service.done_addAll, hadded, hlive]
      exact call hσ hcall
  | stop => exact stop σ.service.stop_live hσ
  | spawn l => exact (σ.service.spawn_live l).symm ▸ idle hσ

/-- A property of the state, of what was added and of the functions left to run, kept by every
function, by what comes from outside and when functions are thrown away, is kept by the service. -/
theorem live_invariant {init : W → Prop} (start : ∀ w, init w → I false w [] 0)
    (act : ∀ {d now w f w' adds rest added fs}, I d w added (f ::ₘ fs) →
      P.act now w f w' adds rest → I d w' (added ++ accepted d adds)
        (↑rest.toList + fs + ((accepted d adds).map Prod.snd : List F)))
    (call : ∀ {d now w w' adds added fs}, I d w added fs → P.call now w w' adds →
      I d w' (added ++ accepted d adds) (fs + ((accepted d adds).map Prod.snd : List F)))
    (stop : ∀ {d w added fs gs}, gs ≤ fs → I d w added fs → I true w added gs)
    {σ : System T W F} (h : Reached (Initial init) (Step P) σ) :
    I σ.service.done σ.world σ.service.added σ.service.live := by
  refine h.invariant (I := fun σ => I σ.service.done σ.world σ.service.added σ.service.live) ?_ ?_
  · intro σ hσ
    rw [hσ.2]
    exact start σ.world hσ.1
  · intro σ a τ hσ hstep
    exact live_step (I := I) (J := I) id act call stop hstep hσ

end LiveFunctions

end PaperNode.ProcessorService
