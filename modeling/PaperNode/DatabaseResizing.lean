import PaperNode.TransactionMonitor
import Mathlib.Algebra.BigOperators.Group.Finset.Basic
import Mathlib.Data.Fintype.Defs

/-!
# The database is resized when it is idle

The monitor counts the open transactions in an unsigned number of 32 bits, and whoever wants to
resize raises a flag first. As long as the count does not wrap around, it is the number of the
transactions that are open, and the map is resized only when there are none. The flag is up exactly
while one thread waits to resize, and there is never a second one.
-/
namespace PaperNode.DatabaseResizing
open TransitionRuns Blocks TransactionMonitor

variable {τ : Type} {z : Sizes} {c d : System τ} {m : Move τ} {t u : τ}

def Resizing (c : System τ) (t : τ) : Prop := ∃ mapsize, (c.threads t).place = .openNotify mapsize

/-- The move calls `mdb_env_set_mapsize`. -/
def SetsMapsize (z : Sizes) (c : System τ) : Move τ → Prop
  | .add t => (c.threads t).place = .outside ∧ AddSets z c.env
  | .wake t =>
      match (c.threads t).place with
      | .resizeNotify => AddSets z c.env
      | .openNotify _ => c.env.openTransactions = 0
      | .outside | .committed => False
  | .commit _ _ => False
  | .remove _ => False

section Steps
variable [DecidableEq τ]

theorem resizing_proceed_self {r : MdbEnv × Place} :
    Resizing (c.proceed t r) t ↔ ∃ mapsize, r.2 = .openNotify mapsize := by
  unfold Resizing
  rw [proceed_self, proceed_place]

theorem resizing_proceed_other {r : MdbEnv × Place} (h : u ≠ t) :
    Resizing (c.proceed t r) u ↔ Resizing c u := by
  unfold Resizing
  rw [proceed_other c r h]

theorem resizing_proceed {r : MdbEnv × Place}
    (h : (∃ mapsize, r.2 = .openNotify mapsize) ↔ Resizing c t) (u : τ) :
    Resizing (c.proceed t r) u ↔ Resizing c u := by
  by_cases hu : u = t
  · rw [hu, resizing_proceed_self, h]
  · exact resizing_proceed_other hu

theorem resizing_set {e : MdbEnv} {x y : Thread} (hy : c.threads t = y)
    (hout : ∀ mapsize, y.place ≠ .openNotify mapsize)
    (hin : ∀ mapsize, x.place ≠ .openNotify mapsize) (u : τ) :
    Resizing (c.set e t x) u ↔ Resizing c u := by
  unfold Resizing
  by_cases hu : u = t
  · subst hu
    simp [System.set, hy, hout, hin]
  · simp [System.set, Function.update_of_ne hu]

end Steps

/-- The flag is down and no thread waits to resize, or it is up and one thread does. -/
def OneResizer (c : System τ) : Prop :=
  (c.env.resizing = false ∧ ∀ u, ¬ Resizing c u) ∨
    (c.env.resizing = true ∧ ∃ t, ∀ u, Resizing c u ↔ u = t)

theorem OneResizer.congr (h : OneResizer c) (hflag : d.env.resizing = c.env.resizing)
    (hsame : ∀ u, Resizing d u ↔ Resizing c u) : OneResizer d := by
  unfold OneResizer
  simp only [hflag, hsame]
  exact h

theorem OneResizer.none (h : OneResizer c) (hdown : c.env.resizing = false) (u : τ) :
    ¬ Resizing c u := by
  rcases h with ⟨_, hnone⟩ | ⟨hup, _⟩
  · exact hnone u
  · rw [hdown] at hup
    cases hup

theorem OneResizer.unique (h : OneResizer c) (ht : Resizing c t) (hu : Resizing c u) : t = u := by
  rcases h with ⟨_, hnone⟩ | ⟨_, v, hv⟩
  · exact absurd ht (hnone t)
  · rw [(hv t).mp ht, (hv u).mp hu]

theorem Initial.oneResizer (h : Initial c) : OneResizer c := by
  obtain ⟨⟨mapsize, load, henv⟩, hthreads⟩ := h
  refine .inl ⟨by rw [henv], ?_⟩
  intro u hu
  obtain ⟨mapsize, hp⟩ := hu
  rw [hthreads u] at hp
  cases hp

section Steps
variable [DecidableEq τ]

theorem OneResizer.stretch {r : MdbEnv × Place} (h : OneResizer c) (ht : ¬ Resizing c t)
    (hr : Stretch z c.env r) : OneResizer (c.proceed t r) := by
  cases hr with
  | wait hup => exact h.congr rfl (resizing_proceed (iff_of_false nofun ht))
  | raise hdown _ _ =>
      refine .inr ⟨rfl, t, ?_⟩
      intro u
      by_cases hu : u = t
      · rw [hu, resizing_proceed_self]
        exact iff_of_true ⟨_, rfl⟩ rfl
      · rw [resizing_proceed_other hu]
        exact iff_of_false (h.none hdown u) hu
  | resized hsets _ => exact h.congr hsets.1.symm (resizing_proceed (iff_of_false nofun ht))
  | added hdown _ => exact h.congr rfl (resizing_proceed (iff_of_false nofun ht))

theorem OneResizer.step (h : OneResizer c) (hs : Step z c m d) : OneResizer d := by
  have hout : ∀ {t p}, (c.threads t).place = p → p = .outside ∨ p = .resizeNotify →
      ¬ Resizing c t := by
    intro t p hp hcases hres
    obtain ⟨mapsize, hres⟩ := hres
    rw [hp] at hres
    rcases hcases with rfl | rfl <;> cases hres
  cases hs with
  | add hp hr => exact h.stretch (hout hp (.inl rfl)) hr
  | again hp hr => exact h.stretch (hout hp (.inr rfl)) hr
  | waits hp _ => exact h.congr rfl (resizing_proceed (iff_of_true ⟨_, rfl⟩ ⟨_, hp⟩))
  | @resizes t mapsize hp _ =>
      refine .inl ⟨rfl, ?_⟩
      intro u hu
      by_cases hut : u = t
      · rw [hut, resizing_proceed_self] at hu
        obtain ⟨_, hu⟩ := hu
        cases hu
      · exact hut (h.unique ((resizing_proceed_other hut).mp hu) ⟨_, hp⟩)
  | commit ht => exact h.congr rfl (resizing_set ht nofun nofun)
  | remove ht => exact h.congr rfl (resizing_set ht nofun nofun)

variable [Fintype τ]

def openCount (c : System τ) : ℕ := ∑ t, (c.threads t).held

theorem openCount_set (e : MdbEnv) (t : τ) (x : Thread) :
    openCount (c.set e t x) + (c.threads t).held = openCount c + x.held := by
  have hrest : ∀ u ∈ Finset.univ.erase t, ((c.set e t x).threads u).held = (c.threads u).held := by
    intro u hu
    simp [System.set, Function.update_of_ne (Finset.ne_of_mem_erase hu)]
  have hself : ((c.set e t x).threads t).held = x.held := by simp [System.set]
  unfold openCount
  rw [← Finset.add_sum_erase _ _ (Finset.mem_univ t), hself, Finset.sum_congr rfl hrest,
    ← Finset.add_sum_erase _ (fun u => (c.threads u).held) (Finset.mem_univ t)]
  omega

def opened : Place → ℕ
  | .outside => 1
  | _ => 0

theorem openCount_proceed (r : MdbEnv × Place) :
    openCount (c.proceed t r) = openCount c + opened r.2 := by
  have hset := openCount_set (c := c) r.1 t ((c.threads t).proceed r.2)
  have hheld : ((c.threads t).proceed r.2).held = (c.threads t).held + opened r.2 := by
    cases r.2 <;> rfl
  rw [System.proceed]
  omega

theorem stretch_openTransactions {e : MdbEnv} {r : MdbEnv × Place} (h : Stretch z e r) :
    r.1.openTransactions = e.openTransactions + BitVec.ofNat 32 (opened r.2) := by
  cases h with
  | wait _ => exact (BitVec.add_zero _).symm
  | raise _ _ _ => exact (BitVec.add_zero _).symm
  | resized _ _ => rfl
  | added _ _ => rfl

def Counted (c : System τ) : Prop := c.env.openTransactions = BitVec.ofNat 32 (openCount c)

omit [DecidableEq τ] in
theorem Initial.counted (h : Initial c) : Counted c := by
  obtain ⟨⟨mapsize, load, henv⟩, hthreads⟩ := h
  have hzero : openCount c = 0 := Finset.sum_eq_zero fun t _ => by rw [hthreads t]
  rw [Counted, henv, hzero]
  rfl

theorem Counted.proceed {r : MdbEnv × Place} (h : Counted c)
    (hr : r.1.openTransactions = c.env.openTransactions + BitVec.ofNat 32 (opened r.2)) :
    Counted (c.proceed t r) := by
  rw [Counted, openCount_proceed, BitVec.ofNat_add, ← h]
  exact hr

theorem Counted.step (h : Counted c) (hs : Step z c m d) : Counted d := by
  cases hs with
  | add _ hr => exact h.proceed (stretch_openTransactions hr)
  | again _ hr => exact h.proceed (stretch_openTransactions hr)
  | waits _ _ => exact h.proceed (BitVec.add_zero _).symm
  | resizes _ _ => exact h.proceed rfl
  | @commit t n load ht =>
      have hsame := openCount_set (c := c) { c.env with load := load } t ⟨.committed, n + 1⟩
      rw [ht] at hsame
      rw [Counted, Nat.add_right_cancel hsame]
      exact h
  | @remove t n ht =>
      have hset := openCount_set (c := c) c.env.removeTransaction t ⟨.outside, n⟩
      have hcount :
          openCount c = openCount (c.set c.env.removeTransaction t ⟨.outside, n⟩) + 1 := by
        rw [ht] at hset
        dsimp only at hset
        omega
      show c.env.openTransactions - 1 = _
      rw [h, hcount, BitVec.ofNat_add]
      exact BitVec.add_sub_cancel _ _

omit [DecidableEq τ] [Fintype τ] in
theorem SetsMapsize.openTransactions (h : SetsMapsize z c m) : c.env.openTransactions = 0 := by
  unfold SetsMapsize at h
  split at h
  · exact h.2.2.2.2
  · split at h
    · exact h.2.2.2
    · exact h
    · exact h.elim
    · exact h.elim
  · exact h.elim
  · exact h.elim

omit [DecidableEq τ] [Fintype τ] in
theorem SetsMapsize.alone (h : SetsMapsize z c m) (hone : OneResizer c) (hu : Resizing c u) :
    m = .wake u := by
  unfold SetsMapsize at h
  split at h
  · exact absurd hu (hone.none h.2.1 u)
  · split at h
    · exact absurd hu (hone.none h.1 u)
    · rename_i t _ mapsize hp
      rw [hone.unique hu ⟨mapsize, hp⟩]
    · exact h.elim
    · exact h.elim
  · exact h.elim
  · exact h.elim

def Few (c : System τ) : Prop := openCount c < 2 ^ 32

/-- The counter is the number of the open transactions; a move that calls `mdb_env_set_mapsize` is
made when there are none, and by the only thread that is about to. -/
structure Idle (z : Sizes) (c : System τ) : Prop where
  count : c.env.openTransactions.toNat = openCount c
  sets : ∀ m d, Moves z c m d → SetsMapsize z c m →
    openCount c = 0 ∧ ∀ u, Resizing c u → m = .wake u
  one : ∀ t u, Resizing c t → Resizing c u → t = u

theorem run_invariant {ms : List (Move τ)} (h₀ : Initial c)
    (hrun : Run (Ensured Few (Moves z)) c ms d) : Few d ∧ OneResizer d ∧ Counted d := by
  refine hrun.invariant (I := fun _ d => Few d ∧ OneResizer d ∧ Counted d) ?_ ?_
  · refine ⟨?_, Initial.oneResizer h₀, Initial.counted h₀⟩
    have hzero : openCount c = 0 := Finset.sum_eq_zero fun t _ => by rw [h₀.2 t]
    rw [Few, hzero]
    decide
  · intro _ c m d h hstep
    have hs := hstep.1.step
    exact ⟨hstep.2, h.2.1.step hs, h.2.2.step hs⟩

/-- In every run in which the number of the open transactions stays below the capacity of the
counter, the counter is right and the database is resized only when it is idle. -/
theorem resized_only_when_idle {ms : List (Move τ)} (h₀ : Initial c)
    (hrun : Run (Ensured Few (Moves z)) c ms d) : Idle z d := by
  obtain ⟨hfew, hone, hcounted⟩ := run_invariant h₀ hrun
  have hcount : d.env.openTransactions.toNat = openCount d := by
    rw [hcounted, BitVec.toNat_ofNat]
    exact Nat.mod_eq_of_lt hfew
  refine ⟨hcount, ?_, fun t u => hone.unique⟩
  intro m e _ hsets
  refine ⟨?_, fun u hu => hsets.alone hone hu⟩
  rw [← hcount, hsets.openTransactions]
  rfl

end Steps

/-- One thread holds `k` transactions, one inside the other, of `n` that it has opened. -/
def nested (n k : ℕ) (load : Word64) : System Unit :=
  ⟨{ openTransactions := BitVec.ofNat 32 k
     transactionIteration := BitVec.ofNat 32 n
     mapsize := testSizes.databaseSizeIncrement
     load := load }, fun _ => ⟨.outside, k⟩⟩

theorem nested_add (n k : ℕ) :
    Moves testSizes (nested n k 0) (.add ()) (nested (n + 1) (k + 1) 0) := by
  have hroom : ¬ (nested n k 0).env.slack.toNat < (testSizes.databaseSizeIncrement / 4).toNat := by
    show ¬ (testSizes.databaseSizeIncrement - 0).toNat < _
    decide
  have hadd : (nested n k 0).env.addTransaction testSizes =
      ((nested n k 0).env.added, .outside) := by
    rw [MdbEnv.addTransaction, if_neg (by exact Bool.false_ne_true), if_neg hroom]
    exact ite_self _
  have henv : (nested n k 0).env.added = (nested (n + 1) (k + 1) 0).env := by
    simp [nested, MdbEnv.added, BitVec.ofNat_add]
  show some ((nested n k 0).proceed () ((nested n k 0).env.addTransaction testSizes)) = _
  rw [hadd, henv, System.proceed, System.set]
  congr 1

theorem run_nested_adds (k : ℕ) :
    Run (Moves testSizes) loneThread (List.replicate k (.add ())) (nested k k 0) := by
  induction k with
  | zero => exact .nil
  | succ k ih =>
      rw [List.replicate_succ']
      exact ih.snoc (nested_add k k)

theorem run_nested_end {c : System Unit} {ms : List (Move Unit)} {n k : ℕ} {load : Word64}
    (h : Run (Moves testSizes) c ms (nested n (k + 1) load)) (load' : Word64) :
    Run (Moves testSizes) c (ms ++ [.commit () load'] ++ [.remove ()]) (nested n k load') := by
  let d : System Unit :=
    ⟨{ (nested n (k + 1) load).env with load := load' }, fun _ => ⟨.committed, k + 1⟩⟩
  have hcommit : Moves testSizes (nested n (k + 1) load) (.commit () load') d :=
    congrArg (fun threads => some (System.mk _ threads)) (funext fun _ => by simp)
  have henv : d.env.removeTransaction = (nested n k load').env := by
    simp only [d, nested, MdbEnv.removeTransaction, BitVec.ofNat_add]
    congr 1
    exact BitVec.add_sub_cancel _ _
  have hremove : Moves testSizes d (.remove ()) (nested n k load') :=
    congrArg some (congrArg₂ System.mk henv (funext fun _ => by simp))
  exact (h.snoc hcommit).snoc hremove

theorem openCount_unit (c : System Unit) : openCount c = (c.threads ()).held :=
  Fintype.sum_unique _

/-- One open transaction, and the counter says so. -/
theorem resized_only_when_idle_one :
    Few (nested 1 1 0) ∧ Idle testSizes (nested 1 1 0) ∧
      (nested 1 1 0).env.openTransactions.toNat = 1 := by
  have hfew : Few (nested 1 1 0) := by
    rw [Few, openCount_unit]
    decide
  have hrun : Run (Ensured Few (Moves testSizes)) loneThread [.add ()] (nested 1 1 0) :=
    Run.nil.snoc ⟨nested_add 0 0, hfew⟩
  exact ⟨hfew, resized_only_when_idle loneThread_initial hrun, rfl⟩

/-- The thread opens `2 ^ 32 + 4` transactions and ends four of them, and the last of the four
fills the map. With `2 ^ 32` open the counter is zero, and when the thread opens one more, the map
is resized. -/
theorem resized_while_open : ∃ (ms : List (Move Unit)) (d e : System Unit),
    Initial loneThread ∧ Run (Moves testSizes) loneThread ms d ∧ openCount d = 2 ^ 32 ∧
      d.env.openTransactions = 0 ∧ Moves testSizes d (.add ()) e ∧
      SetsMapsize testSizes d (.add ()) := by
  have hopened := run_nested_adds (2 ^ 32 + 3 + 1)
  have hthree := run_nested_end (run_nested_end (run_nested_end hopened 0) 0) 0
  have hfull := run_nested_end hthree (511 * 4096)
  refine ⟨_, _, _, loneThread_initial, hfull, (openCount_unit _).trans rfl, rfl, rfl, rfl, ?_⟩
  exact ⟨rfl, rfl, by decide, rfl⟩

end PaperNode.DatabaseResizing
