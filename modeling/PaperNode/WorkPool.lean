import PaperNode.OrderedTable
import PaperNode.BoundedRecursion
import PaperNode.TransitionRuns
import PaperNode.ProofOfWork

/-!
# The work pool

Threads that want work for a root queue the root and wait until a result for it
has been stored. The workers take one root at a time and all search for it, outside
the lock. The first to find work stores it and raises the ticket, and the others
see the ticket change and give up. Back inside the lock a worker asks only whether
the root it searched for is the current one.

Two things follow from that. A root that is requested again while a worker that
gave up on it has not yet come back is current when it does, and the worker takes
what it has for a result. And results are kept in a map by root, so a second
result for a root replaces one that nobody has fetched yet.
-/
namespace PaperNode.WorkPool
open BoundedRecursion OrderedTable TransitionRuns Blocks ProofOfWork

abbrev Root := BlockHash

inductive PoolAssertion where
  | rootZero | workOutput
  deriving DecidableEq, Repr

/-- What the mutex protects. No root is current while `current` is zero. -/
structure Pool where
  current : Root := 0
  ticket : BitVec 32 := 0
  done : Bool := false
  completed : Table Root Word64 := ∅
  pending : List Root := []

/-- Where a worker is: at the lock with nothing to report, in its search, out of its search with
the last work it tried and the digest of it, or gone. -/
inductive Worker where
  | waiting
  | searching (root : Root) (ticket : BitVec 32)
  | leaving (root : Root) (work output : Word64)
  | stopped
  deriving DecidableEq

/-- The pool, its workers, the roots of the calls of `generate` that wait for a result, and
what the other calls returned. -/
structure System (W : Type*) where
  pool : Pool := {}
  workers : W → Worker := fun _ => .waiting
  calls : List Root := []
  returned : List (Root × Word64) := []

/-- The loop of a worker from its head, the lock held, to where it gives the lock up. The roots
pending are the argument of the recursion. -/
def iterate (p : Pool) : List Root → Pool × Worker
  | [] =>
      if p.done then ({ p with pending := [] }, .stopped)
      else if p.current ≠ 0 then ({ p with pending := [] }, .searching p.current p.ticket)
      else ({ p with pending := [] }, .waiting)
  | root :: rest =>
      if p.current ≠ 0 then ({ p with pending := root :: rest }, .searching p.current p.ticket)
      else iterate { p with current := root } rest

/-- What a worker does first when it comes back from its search. -/
def finish (E : WorkEnv) (p : Pool) (root : Root) (work output : Word64) :
    Check PoolAssertion Pool :=
  if p.current = root then do
    require (E.asserting = false ∨ publishThreshold E ≤ output) .workOutput
    .ok { p with
      ticket := p.ticket + 1
      completed := p.completed.put root work
      -- so that only one worker publishes its result
      current := 0 }
  else .ok p

/-- The first section of `generate`, up to its wait. -/
def generate (p : Pool) (root : Root) : Check PoolAssertion Pool := do
  require (root ≠ 0) .rootZero
  .ok { p with pending := p.pending ++ [root] }

def stop (p : Pool) : Pool := { p with done := true }

section Steps
variable {W : Type*} [DecidableEq W]

/-- Worker `i` runs on from the head of its loop. -/
def System.resume (s : System W) (i : W) (p : Pool) : System W :=
  let (pool, worker) := iterate p p.pending
  { s with pool := pool, workers := Function.update s.workers i worker }

/-- A call that waits for the root looks for a result, having been notified or not. -/
def System.wake (s : System W) (root : Root) : System W :=
  match s.pool.completed.get root with
  | none => s
  | some work =>
      { s with
        pool := { s.pool with completed := s.pool.completed.del root }
        calls := s.calls.erase root
        returned := (root, work) :: s.returned }

inductive Event (W : Type*) where
  | generate (root : Root)
  | wake (root : Root)
  | enter (i : W)
  | find (i : W) (work : Word64)
  | abandon (i : W) (work output : Word64)
  | commit (i : W)
  | stop

/-- One section under the lock, or the end of a search. A search ends with work above the
threshold, or with any work below it once the ticket has changed. -/
inductive Step (E : WorkEnv) : System W → Event W → System W → Prop
  | generate {s root p} (returns : generate s.pool root = .ok p) :
      Step E s (.generate root) { s with pool := p, calls := root :: s.calls }
  | wake {s root} (waits : root ∈ s.calls) : Step E s (.wake root) (s.wake root)
  | enter {s i} (place : s.workers i = .waiting) : Step E s (.enter i) (s.resume i s.pool)
  | find {s i root ticket work} (place : s.workers i = .searching root ticket)
      (found : publishThreshold E ≤ workValue E root work) :
      Step E s (.find i work)
        { s with workers :=
            Function.update s.workers i (.leaving root work (workValue E root work)) }
  | abandon {s i root ticket work output} (place : s.workers i = .searching root ticket)
      (changed : s.pool.ticket ≠ ticket) (low : output < publishThreshold E) :
      Step E s (.abandon i work output)
        { s with workers := Function.update s.workers i (.leaving root work output) }
  | commit {s i root work output p} (place : s.workers i = .leaving root work output)
      (returns : finish E s.pool root work output = .ok p) :
      Step E s (.commit i) (s.resume i p)
  | stop {s} : Step E s .stop { s with pool := stop s.pool }

def Initial (s : System W) : Prop := s = {}

variable {E : WorkEnv}

/-- What the loop does from its head: it takes at most one root, and only if none is current. -/
inductive Resumes (p : Pool) : Pool → Worker → Prop
  | stopped : Resumes p p .stopped
  | waiting : Resumes p p .waiting
  | searching (busy : p.current ≠ 0) : Resumes p p (.searching p.current p.ticket)
  | taken {root : Root} {rest : List Root} {w : Worker} (idle : p.current = 0)
      (front : p.pending = root :: rest) (place : w = .stopped ∨ w = .searching root p.ticket) :
      Resumes p { p with current := root, pending := rest } w

theorem iterate_resumes {p : Pool} (hp : ∀ r ∈ p.pending, r ≠ 0) :
    Resumes p (iterate p p.pending).1 (iterate p p.pending).2 := by
  obtain ⟨current, ticket, done, completed, pending⟩ := p
  cases pending with
  | nil =>
      simp only [iterate]
      split_ifs with hdone hbusy
      · exact .stopped
      · exact .searching hbusy
      · exact .waiting
  | cons root rest =>
      simp only [iterate]
      split_ifs with hbusy
      · exact .searching hbusy
      · have hidle : current = 0 := not_not.mp hbusy
        have hroot : root ≠ 0 := hp root List.mem_cons_self
        -- the root taken is not zero, so the next turn of the loop does not take another
        cases rest with
        | nil =>
            simp only [iterate, if_pos hroot]
            split_ifs
            · exact .taken hidle rfl (Or.inl rfl)
            · exact .taken hidle rfl (Or.inr rfl)
        | cons next rest =>
            simp only [iterate, if_pos hroot]
            exact .taken hidle rfl (Or.inr rfl)

theorem finish_ok {p p' : Pool} {root : Root} {work output : Word64}
    (h : finish E p root work output = .ok p') :
    p.current = root ∧ p' = { p with
        ticket := p.ticket + 1, completed := p.completed.put root work, current := 0 } ∨
      p.current ≠ root ∧ p' = p := by
  unfold finish at h
  split_ifs at h with hc
  · obtain ⟨_, _, h⟩ := bind_eq_ok.mp h
    cases h
    exact Or.inl ⟨hc, rfl⟩
  · cases h
    exact Or.inr ⟨hc, rfl⟩

theorem generate_ok {p p' : Pool} {root : Root} (h : generate p root = .ok p') :
    root ≠ 0 ∧ p' = { p with pending := p.pending ++ [root] } := by
  obtain ⟨_, hroot, hp⟩ := bind_eq_ok.mp h
  cases hp
  exact ⟨require_eq_ok.mp hroot, rfl⟩

def Worker.root : Worker → Option Root
  | .searching root _ => some root
  | .leaving root _ _ => some root
  | _ => none

/-- `generate` lets no zero in. -/
structure Nonzero (s : System W) : Prop where
  pending : ∀ r ∈ s.pool.pending, r ≠ 0
  workers : ∀ i, ∀ r ∈ (s.workers i).root, r ≠ 0

variable {s t : System W} {e : Event W}

theorem Resumes.root_ne {p p' : Pool} {w : Worker} (h : Resumes p p' w)
    (hp : ∀ r ∈ p.pending, r ≠ 0) : (∀ r ∈ p'.pending, r ≠ 0) ∧ ∀ r ∈ w.root, r ≠ 0 := by
  cases h with
  | stopped => exact ⟨hp, by simp [Worker.root]⟩
  | waiting => exact ⟨hp, by simp [Worker.root]⟩
  | searching busy => exact ⟨hp, by simpa [Worker.root] using busy⟩
  | @taken root rest _ _ front place =>
      rw [front] at hp
      have hroot : root ≠ 0 := hp root List.mem_cons_self
      refine ⟨fun r hr => hp r (List.mem_cons_of_mem root hr), ?_⟩
      rcases place with rfl | rfl
      · simp [Worker.root]
      · simpa [Worker.root] using hroot

theorem Nonzero.resume (hs : Nonzero s) (i : W) {p : Pool} (hp : ∀ r ∈ p.pending, r ≠ 0) :
    Nonzero (s.resume i p) := by
  obtain ⟨hpending, hroot⟩ := (iterate_resumes hp).root_ne hp
  refine ⟨hpending, ?_⟩
  intro j
  by_cases hj : j = i
  · subst hj
    simpa [System.resume] using hroot
  · simpa [System.resume, hj] using hs.workers j

theorem finish_pending {p p' : Pool} {root : Root} {work output : Word64}
    (h : finish E p root work output = .ok p') : p'.pending = p.pending := by
  rcases finish_ok h with ⟨_, rfl⟩ | ⟨_, rfl⟩ <;> rfl

theorem Nonzero.leave (hs : Nonzero s) {i : W} {root : Root} {ticket : BitVec 32}
    (hplace : s.workers i = .searching root ticket) (work output : Word64) :
    Nonzero { s with workers := Function.update s.workers i (.leaving root work output) } := by
  refine ⟨hs.pending, ?_⟩
  intro j
  by_cases hj : j = i
  · subst hj
    have hroot := hs.workers j root (by simp [hplace, Worker.root])
    simpa [Worker.root] using hroot
  · simpa [hj] using hs.workers j

omit [DecidableEq W] in
theorem Nonzero.generate (hs : Nonzero s) {root : Root} {p : Pool}
    (h : generate s.pool root = .ok p) :
    Nonzero { s with pool := p, calls := root :: s.calls } := by
  obtain ⟨hroot, rfl⟩ := generate_ok h
  refine ⟨?_, hs.workers⟩
  intro r hr
  rcases List.mem_append.mp hr with hr | hr
  · exact hs.pending r hr
  · rw [List.mem_singleton.mp hr]
    exact hroot

theorem Nonzero.step (hs : Nonzero s) (h : Step E s e t) : Nonzero t := by
  cases h with
  | generate returns => exact hs.generate returns
  | @wake root _ =>
      unfold System.wake
      split
      · exact hs
      · exact ⟨hs.pending, hs.workers⟩
  | enter _ => exact hs.resume _ hs.pending
  | find place _ => exact hs.leave place _ _
  | abandon place _ _ => exact hs.leave place _ _
  | commit _ returns =>
      refine hs.resume _ ?_
      rw [finish_pending returns]
      exact hs.pending
  | stop => exact ⟨hs.pending, hs.workers⟩

def Outdated (E : WorkEnv) (r : Root) : Worker → Prop
  | .searching root _ => root = r
  | .leaving root _ output => root = r ∧ output < publishThreshold E
  | _ => False

/-- Worker `i`, at the head of its loop, finds no root current, or has just cleared it. -/
def Frees (s : System W) (i : W) : Prop :=
  s.pool.current = 0 ∨ ∃ work output, s.workers i = .leaving s.pool.current work output

def Fresh (E : WorkEnv) (s : System W) : Event W → Prop
  | .enter i | .commit i =>
      Frees s i → ∀ r ∈ s.pool.pending.head?, ∀ j, j ≠ i → ¬ Outdated E r (s.workers j)
  | _ => True

/-- The worker has found work, or the root it gave up on is no longer current; while it
searches for the current root the ticket has not changed. -/
def Sane (E : WorkEnv) (p : Pool) : Worker → Prop
  | .searching root ticket => p.current = root → p.ticket = ticket
  | .leaving root work output =>
      publishThreshold E ≤ output ∧ output = workValue E root work ∨
        output < publishThreshold E ∧ p.current ≠ root
  | _ => True

/-- Every value kept or handed out is above the threshold for its root. -/
structure Valid (E : WorkEnv) (s : System W) : Prop where
  completed : ∀ r work, s.pool.completed.get r = some work → workValidate E r work = false
  returned : ∀ r work, (r, work) ∈ s.returned → workValidate E r work = false
  workers : ∀ i, Sane E s.pool (s.workers i)

theorem Sane.congr {p p' : Pool} {w : Worker} (h : Sane E p w) (hcurrent : p'.current = p.current)
    (hticket : p'.ticket = p.ticket) : Sane E p' w := by
  cases w with
  | waiting => trivial
  | stopped => trivial
  | searching root ticket => simpa [Sane, hcurrent, hticket] using h
  | leaving root work output => simpa [Sane, hcurrent] using h

theorem Sane.clear {p : Pool} {w : Worker} (h : Sane E p w) (hw : ∀ r ∈ w.root, r ≠ 0)
    {ticket : BitVec 32} {completed : Table Root Word64} :
    Sane E { p with ticket := ticket, completed := completed, current := 0 } w := by
  cases w with
  | searching root _ =>
      intro hcurrent
      exact absurd hcurrent.symm (hw root (by simp [Worker.root]))
  | leaving root work output =>
      refine h.imp_right fun hlow => ⟨hlow.1, ?_⟩
      exact (hw root (by simp [Worker.root])).symm
  | waiting => trivial
  | stopped => trivial

theorem Sane.take {p : Pool} {w : Worker} {root : Root} (h : Sane E p w)
    (hw : ¬ Outdated E root w) (rest : List Root) :
    Sane E { p with current := root, pending := rest } w := by
  cases w with
  | searching r _ => exact fun hcurrent => absurd hcurrent.symm hw
  | leaving r work output =>
      refine h.imp_right fun hlow => ⟨hlow.1, ?_⟩
      intro hcurrent
      exact hw ⟨hcurrent.symm, hlow.1⟩
  | waiting => trivial
  | stopped => trivial

theorem Resumes.sane {p p' : Pool} {w : Worker} (h : Resumes p p' w) : Sane E p' w := by
  cases h with
  | stopped => trivial
  | waiting => trivial
  | searching _ => exact fun _ => rfl
  | taken _ _ place =>
      rcases place with rfl | rfl
      · trivial
      · exact fun _ => rfl

theorem Resumes.keeps_sane {p p' : Pool} {w v : Worker} (h : Resumes p p' w) (hv : Sane E p v)
    (hfresh : p.current = 0 → ∀ r ∈ p.pending.head?, ¬ Outdated E r v) : Sane E p' v := by
  cases h with
  | stopped => exact hv
  | waiting => exact hv
  | searching _ => exact hv
  | taken idle front _ => exact hv.take (hfresh idle _ (by simp [front])) _

theorem Resumes.completed {p p' : Pool} {w : Worker} (h : Resumes p p' w) :
    p'.completed = p.completed := by
  cases h <;> rfl

theorem Valid.resume {i : W} {p : Pool} (hs : Valid E s) (hp : ∀ r ∈ p.pending, r ≠ 0)
    (hcompleted : ∀ r work, p.completed.get r = some work → workValidate E r work = false)
    (hworkers : ∀ j, j ≠ i → Sane E p (s.workers j))
    (hfresh : p.current = 0 →
      ∀ r ∈ p.pending.head?, ∀ j, j ≠ i → ¬ Outdated E r (s.workers j)) :
    Valid E (s.resume i p) := by
  have hres := iterate_resumes hp
  refine ⟨?_, hs.returned, ?_⟩
  · intro r work hr
    exact hcompleted r work (hres.completed ▸ hr)
  · intro j
    by_cases hj : j = i
    · subst hj
      simpa [System.resume] using hres.sane
    · have hold := hworkers j hj
      have hnew := hres.keeps_sane hold (fun hidle r hr => hfresh hidle r hr j hj)
      simpa [System.resume, hj] using hnew

theorem Valid.leave (hs : Valid E s) {i : W} {root : Root} {work output : Word64}
    (hleave : Sane E s.pool (.leaving root work output)) :
    Valid E { s with workers := Function.update s.workers i (.leaving root work output) } := by
  refine ⟨hs.completed, hs.returned, ?_⟩
  intro j
  by_cases hj : j = i
  · subst hj
    simpa using hleave
  · simpa [hj] using hs.workers j

theorem Valid.commit {i : W} {root : Root} {work output : Word64} {p : Pool} (hs : Valid E s)
    (hn : Nonzero s) (hplace : s.workers i = .leaving root work output)
    (hreturns : finish E s.pool root work output = .ok p) (hfresh : Fresh E s (.commit i)) :
    Valid E (s.resume i p) := by
  have hi := hs.workers i
  rw [hplace] at hi
  rcases finish_ok hreturns with ⟨hcurrent, rfl⟩ | ⟨hcurrent, rfl⟩
  · -- the root is current, so the worker did not give up on it
    have hfound : output = workValue E root work ∧ publishThreshold E ≤ output := by
      rcases hi with hi | hi
      · exact ⟨hi.2, hi.1⟩
      · exact absurd hcurrent hi.2
    refine hs.resume hn.pending ?_ (fun j _ => (hs.workers j).clear (hn.workers j)) ?_
    · intro r w hr
      rw [Table.get_put] at hr
      split_ifs at hr with hroot
      · cases hr
        rw [hroot, workValidate_eq_false, ← hfound.1]
        exact hfound.2
      · exact hs.completed r w hr
    · intro _
      exact hfresh (Or.inr ⟨work, output, by rw [hplace, hcurrent]⟩)
  · refine hs.resume hn.pending hs.completed (fun j _ => hs.workers j) ?_
    exact fun hidle => hfresh (Or.inl hidle)

theorem Valid.step (hs : Valid E s) (hn : Nonzero s) (h : Step E s e t) (hfresh : Fresh E s e) :
    Valid E t := by
  cases h with
  | generate returns =>
      obtain ⟨_, rfl⟩ := generate_ok returns
      exact ⟨hs.completed, hs.returned, fun i => (hs.workers i).congr rfl rfl⟩
  | @wake root _ =>
      unfold System.wake
      split
      · exact hs
      · next work hwork =>
        refine ⟨?_, ?_, ?_⟩
        · intro r w hr
          rw [Table.get_del] at hr
          split_ifs at hr
          exact hs.completed r w hr
        · intro r w hr
          rcases List.mem_cons.mp hr with hr | hr
          · cases hr
            exact hs.completed root work hwork
          · exact hs.returned r w hr
        · exact fun i => (hs.workers i).congr rfl rfl
  | enter place =>
      refine hs.resume hn.pending hs.completed (fun j _ => hs.workers j) ?_
      exact fun hidle => hfresh (Or.inl hidle)
  | find _ found => exact hs.leave (Or.inl ⟨found, rfl⟩)
  | @abandon i root ticket work output place changed low =>
      refine hs.leave (Or.inr ⟨low, ?_⟩)
      -- the ticket has changed since the root was copied, so the root is not current
      intro hcurrent
      have hi := hs.workers i
      rw [place] at hi
      exact changed (hi hcurrent)
  | commit place returns => exact hs.commit hn place returns hfresh
  | stop => exact ⟨hs.completed, hs.returned, fun i => (hs.workers i).congr rfl rfl⟩

/-- In a run in which no root is taken while another worker is out with a copy of it, every
value kept for a root or returned for it is valid work, and a worker that finds its root current
has found work. -/
theorem work_valid (hs : Reached Initial (Guarded (Fresh E) (Step E)) s) :
    (∀ r work, s.pool.completed.get r = some work → workValidate E r work = false) ∧
      (∀ r work, (r, work) ∈ s.returned → workValidate E r work = false) ∧
      ∀ i root work output, s.workers i = .leaving root work output →
        s.pool.current = root → publishThreshold E ≤ output := by
  have hinv : Nonzero s ∧ Valid E s := by
    refine hs.invariant (I := fun s => Nonzero s ∧ Valid E s) ?_ ?_
    · rintro _ rfl
      refine ⟨⟨by simp, by simp [Worker.root]⟩, ⟨by simp, by simp, fun _ => trivial⟩⟩
    · intro t e u ht hstep
      exact ⟨ht.1.step hstep.2, ht.2.step ht.1 hstep.2 hstep.1⟩
  refine ⟨hinv.2.completed, hinv.2.returned, ?_⟩
  intro i root work output hplace hcurrent
  have hi := hinv.2.workers i
  rw [hplace] at hi
  rcases hi with hi | hi
  · exact hi.1
  · exact absurd hcurrent hi.2

def due (p : Pool) (r : Root) : ℕ :=
  p.pending.count r + (if p.current = r then 1 else 0) +
    (if (p.completed.get r).isSome then 1 else 0)

def Served (s : System W) : Prop := ∀ r, s.calls.count r ≤ due s.pool r

def SlotFree (s : System W) : Event W → Prop
  | .commit i => ∀ work output, s.workers i = .leaving s.pool.current work output →
      s.pool.completed.get s.pool.current = none
  | _ => True

/-- The waiting calls are as many as the results to come. Zero is no root. -/
structure Balanced (s : System W) : Prop extends Nonzero s where
  calls : ∀ r ∈ s.calls, r ≠ 0
  due_eq : ∀ r, r ≠ 0 → s.calls.count r = due s.pool r

omit [DecidableEq W] in
theorem Balanced.served (hs : Balanced s) : Served s := by
  intro r
  by_cases hr : r = 0
  · have hnone : r ∉ s.calls := fun h => hs.calls r h hr
    rw [List.count_eq_zero_of_not_mem hnone]
    exact Nat.zero_le _
  · exact (hs.due_eq r hr).le

theorem Resumes.due_eq {p p' : Pool} {w : Worker} (h : Resumes p p' w) {r : Root} (hr : r ≠ 0) :
    due p' r = due p r := by
  cases h with
  | stopped => rfl
  | waiting => rfl
  | searching _ => rfl
  | @taken root rest _ idle front _ =>
      simp only [due, idle, front, if_neg hr.symm, List.count_cons, beq_iff_eq]
      omega

theorem due_generate (p : Pool) (root r : Root) :
    due { p with pending := p.pending ++ [root] } r = due p r + if root = r then 1 else 0 := by
  simp only [due, List.count_append, List.count_singleton, beq_iff_eq]
  omega

/-- A result stored for the current root is due instead of the root, or instead of the result it
replaces. -/
theorem due_store {p : Pool} {root : Root} (hcurrent : p.current = root) (work : Word64)
    (ticket : BitVec 32) {r : Root} (hr : r ≠ 0) :
    due { p with ticket := ticket, completed := p.completed.put root work, current := 0 } r +
      (if r = root ∧ (p.completed.get root).isSome then 1 else 0) = due p r := by
  by_cases h : r = root
  · subst h
    simp only [due, hcurrent, if_neg hr.symm, if_pos, Table.get_put_self, Option.isSome_some,
      true_and]
  · simp only [due, hcurrent, if_neg hr.symm, if_neg (Ne.symm h), Table.get_put_ne _ _ h, h,
      false_and, if_false, Nat.add_zero]

theorem Balanced.resume (hs : Balanced s) {i : W} {p : Pool} (hp : ∀ r ∈ p.pending, r ≠ 0)
    (hdue : ∀ r, r ≠ 0 → s.calls.count r = due p r) : Balanced (s.resume i p) := by
  refine ⟨hs.toNonzero.resume i hp, hs.calls, ?_⟩
  intro r hr
  exact (hdue r hr).trans ((iterate_resumes hp).due_eq hr).symm

omit [DecidableEq W] in
theorem Balanced.generate (hs : Balanced s) {root : Root} {p : Pool}
    (hreturns : generate s.pool root = .ok p) :
    Balanced { s with pool := p, calls := root :: s.calls } := by
  have hnonzero := hs.toNonzero.generate hreturns
  obtain ⟨hroot, rfl⟩ := generate_ok hreturns
  refine ⟨hnonzero, ?_, ?_⟩
  · intro r hr
    rcases List.mem_cons.mp hr with rfl | hr
    · exact hroot
    · exact hs.calls r hr
  · intro r hr
    rw [due_generate, ← hs.due_eq r hr, List.count_cons]
    simp only [beq_iff_eq]

omit [DecidableEq W] in
theorem Balanced.wake (hs : Balanced s) {root : Root} (hwaits : root ∈ s.calls) :
    Balanced (s.wake root) := by
  unfold System.wake
  split
  · exact hs
  · next work hwork =>
    refine ⟨⟨hs.pending, hs.workers⟩, fun r hr => hs.calls r (List.mem_of_mem_erase hr), ?_⟩
    intro r hr
    have hdue := hs.due_eq r hr
    by_cases h : r = root
    · subst h
      have hpos := List.count_pos_iff.mpr hwaits
      simp only [due, hwork, Option.isSome_some, if_true] at hdue
      simp only [due, Table.get_del_self, Option.isSome_none, List.count_erase_self]
      simp
      omega
    · simpa [due, List.count_erase_of_ne h, Table.get_del_ne _ h] using hdue

/-- What a worker stores leaves one call without a result exactly when it replaces one. -/
theorem Balanced.commit (hs : Balanced s) {i : W} {root : Root} {work output : Word64} {p : Pool}
    (hplace : s.workers i = .leaving root work output)
    (hreturns : finish E s.pool root work output = .ok p) :
    (SlotFree s (.commit i) → Balanced (s.resume i p)) ∧
      (Served (s.resume i p) → SlotFree s (.commit i)) := by
  have hroot : root ≠ 0 := hs.workers i root (by simp [hplace, Worker.root])
  have hpending : ∀ r ∈ p.pending, r ≠ 0 := finish_pending hreturns ▸ hs.pending
  rcases finish_ok hreturns with ⟨hcurrent, rfl⟩ | ⟨hcurrent, rfl⟩
  · have hstored {r : Root} (hr : r ≠ 0) :=
      due_store hcurrent work (s.pool.ticket + 1) hr
    constructor
    · intro hguard
      have hnone := hguard work output (by rw [hplace, hcurrent])
      refine hs.resume hpending ?_
      intro r hr
      rw [hs.due_eq r hr, ← hstored hr, ← hcurrent, hnone]
      simp
    · intro hserved _ _ _
      have hle : s.calls.count root ≤ _ :=
        (hserved root).trans ((iterate_resumes hpending).due_eq hroot).le
      have hold := hstored hroot
      rw [hs.due_eq root hroot, ← hold] at hle
      rw [hcurrent]
      by_contra hsome
      rw [if_pos ⟨rfl, Option.isSome_iff_ne_none.mpr hsome⟩] at hle
      omega
  · refine ⟨fun _ => hs.resume hpending hs.due_eq, ?_⟩
    intro _ work' output' hplace'
    rw [hplace] at hplace'
    cases hplace'
    exact absurd rfl hcurrent

theorem Balanced.step (hs : Balanced s) (h : Step E s e t) :
    (SlotFree s e → Balanced t) ∧ (Served t → SlotFree s e) := by
  cases h with
  | generate returns => exact ⟨fun _ => hs.generate returns, fun _ => trivial⟩
  | wake waits => exact ⟨fun _ => hs.wake waits, fun _ => trivial⟩
  | enter _ => exact ⟨fun _ => hs.resume hs.pending hs.due_eq, fun _ => trivial⟩
  | find place _ =>
      exact ⟨fun _ => ⟨hs.toNonzero.leave place _ _, hs.calls, hs.due_eq⟩, fun _ => trivial⟩
  | abandon place _ _ =>
      exact ⟨fun _ => ⟨hs.toNonzero.leave place _ _, hs.calls, hs.due_eq⟩, fun _ => trivial⟩
  | commit place returns => exact hs.commit place returns
  | stop => exact ⟨fun _ => ⟨⟨hs.pending, hs.workers⟩, hs.calls, hs.due_eq⟩, fun _ => trivial⟩

/-- The runs in which no waiting call is left without a result to come are those in which no
worker stores a result for a root while another result for it has not been fetched. -/
theorem served_run_iff {es : List (Event W)} :
    Run (Ensured Served (Step E)) {} es t ↔ Run (Guarded SlotFree (Step E)) {} es t := by
  refine Run.ensured_iff (J := Balanced) ?_ ?_ ?_
  · refine ⟨⟨by simp, by simp [Worker.root]⟩, by simp, ?_⟩
    intro r hr
    change 0 = 0 + (if (0 : Root) = r then 1 else 0) + 0
    rw [if_neg hr.symm]
  · intro s e u hs hstep
    exact ⟨(hs.step hstep).2, fun hguard => ((hs.step hstep).1 hguard).served⟩
  · intro s e u hs hstep hguard
    exact (hs.step hstep).1 hguard

end Steps

def easyWork : WorkEnv := ⟨.testNetwork, fun _ => -1, true⟩

/-- One worker serves a request while the other waits. -/
theorem work_valid_once :
    ∃ s : System Bool, Reached Initial (Guarded (Fresh easyWork) (Step easyWork)) s ∧
      (1, 7) ∈ s.returned ∧ workValidate easyWork 1 7 = false := by
  have other (s : System Bool) (h : s.workers true = .waiting) (r : Root) (j : Bool)
      (hj : j ≠ false) : ¬ Outdated easyWork r (s.workers j) := by
    rw [Bool.eq_true_of_not_eq_false hj, h]
    exact id
  have run : Reached Initial (Guarded (Fresh easyWork) (Step easyWork)) ({} : System Bool) :=
    .start rfl
  have run := run.next (a := Event.generate 1) ⟨trivial, .generate rfl⟩
  have run := run.next (a := Event.enter false) ⟨fun _ r _ => other _ rfl r, .enter rfl⟩
  have run := run.next (a := Event.find false 7) ⟨trivial, .find rfl (by decide)⟩
  have run := run.next (a := Event.commit false) ⟨fun _ r _ => other _ rfl r, .commit rfl rfl⟩
  have run := run.next (a := Event.wake 1) ⟨trivial, .wake (by decide)⟩
  have fetched : ((1 : Root), (7 : Word64)) ∈ [((1 : Root), (7 : Word64))] := by decide
  exact ⟨_, run, fetched, (work_valid run).2.1 1 7 fetched⟩

/-- The second worker gives up on a root that the first has finished, and comes back when the
root has been requested again and is current. -/
theorem outdated_worker_fails :
    ∃ s : System Bool, Reached Initial (Step easyWork) s ∧
      s.workers true = .leaving 1 5 0 ∧ s.pool.current = 1 ∧
      finish easyWork s.pool 1 5 0 = .error (.failed .workOutput) := by
  have run : Reached Initial (Step easyWork) ({} : System Bool) := .start rfl
  have run := run.next (a := Event.generate 1) (.generate rfl)
  have run := run.next (a := Event.enter false) (.enter rfl)
  have run := run.next (a := Event.enter true) (.enter rfl)
  have run := run.next (a := Event.find false 7) (.find rfl (by decide))
  have run := run.next (a := Event.commit false) (.commit rfl rfl)
  have run := run.next (a := Event.wake 1) (.wake (by decide))
  have run := run.next (a := Event.generate 1) (.generate rfl)
  have run := run.next (a := Event.abandon true 5 0) (.abandon rfl (by decide) (by decide))
  have run := run.next (a := Event.enter false) (.enter rfl)
  exact ⟨_, run, rfl, rfl, rfl⟩

/-- Two requests for one root, both finished before either call wakes. -/
theorem result_replaced :
    ∃ s : System Unit, Reached Initial (Step easyWork) s ∧
      s.calls.count 1 = 2 ∧ due s.pool 1 = 1 := by
  have run : Reached Initial (Step easyWork) ({} : System Unit) := .start rfl
  have run := run.next (a := Event.generate 1) (.generate rfl)
  have run := run.next (a := Event.generate 1) (.generate rfl)
  have run := run.next (a := Event.enter ()) (.enter rfl)
  have run := run.next (a := Event.find () 7) (.find rfl (by decide))
  have run := run.next (a := Event.commit ()) (.commit rfl rfl)
  have run := run.next (a := Event.find () 8) (.find rfl (by decide))
  have run := run.next (a := Event.commit ()) (.commit rfl rfl)
  exact ⟨_, run, by decide, by decide⟩

end PaperNode.WorkPool
