import PaperNode.TransitionRuns
import PaperNode.Blocks

/-!
# Transactions and the resizing of the database

Every transaction on the database is announced to `mdb_env` and taken back when it
ends. From time to time the call that announces one looks at the room left in the
memory map. If there is little, it waits until no transaction is open and makes the
map larger; whoever announces a transaction meanwhile waits for it.

The wait is for all open transactions, those of the waiting thread included. A thread
that opens a second transaction inside its first may therefore wait for itself, or
for another thread that waits for it. The bootstrap client does open them that way.

A call runs under the lock from its start, or from the end of a wait, to its next
wait or its end. These stretches are steps of the model; a wait may end at any
time and is taken up again if its condition still holds.

What a transaction writes counts only when it is committed: `mdb_env_info` reads the
last page from the last commit. The end of a transaction is two steps, the commit and
then `remove_transaction`.
-/
namespace PaperNode.TransactionMonitor
open TransitionRuns Blocks

/-- How often the room is looked at, and by how much the map grows. -/
structure Sizes where
  databaseCheckInterval : BitVec 32
  databaseSizeIncrement : Word64

def testSizes : Sizes := ⟨4, 2 * 1024 * 1024⟩

/-- `mdb_env`, with the size of the map and the load that the database library reports. -/
structure MdbEnv where
  openTransactions : BitVec 32 := 0
  transactionIteration : BitVec 32 := 0
  resizing : Bool := false
  mapsize : Word64
  load : Word64
  deriving DecidableEq, Repr

/-- Where a thread is: in one of the two waits of `add_transaction`, the second with the size of
the map that it has read, between `mdb_txn_commit` and `remove_transaction`, or outside. -/
inductive Place where
  | outside
  | resizeNotify
  | openNotify (mapsize : Word64)
  | committed
  deriving DecidableEq, Repr

def Place.Waits : Place → Prop
  | outside | committed => False
  | resizeNotify | openNotify _ => True

def MdbEnv.slack (e : MdbEnv) : Word64 := e.mapsize - e.load

/-- The end of `add_transaction`. -/
def MdbEnv.added (e : MdbEnv) : MdbEnv :=
  { e with
    transactionIteration := e.transactionIteration + 1
    openTransactions := e.openTransactions + 1 }

/-- The loop that waits for the open transactions, and what follows it. -/
def MdbEnv.resize (z : Sizes) (e : MdbEnv) (mapsize : Word64) : MdbEnv × Place :=
  if e.openTransactions ≠ 0 then (e, .openNotify mapsize)
  else
    let nextSize := (mapsize / z.databaseSizeIncrement + 1) * z.databaseSizeIncrement
    (MdbEnv.added { e with mapsize := nextSize, resizing := false }, .outside)

/-- `mdb_env::add_transaction` up to its first wait, and after a wait for a resize. -/
def MdbEnv.addTransaction (z : Sizes) (e : MdbEnv) : MdbEnv × Place :=
  if e.resizing then (e, .resizeNotify)
  else if e.transactionIteration % z.databaseCheckInterval = 0 then
    if e.slack.toNat < (z.databaseSizeIncrement / 4).toNat then
      MdbEnv.resize z { e with resizing := true } e.mapsize
    else (e.added, .outside)
  else (e.added, .outside)

/-- `mdb_env::remove_transaction`. -/
def MdbEnv.removeTransaction (e : MdbEnv) : MdbEnv :=
  { e with openTransactions := e.openTransactions - 1 }

/-- A thread: where it is, and how many transactions it holds. -/
structure Thread where
  place : Place := .outside
  held : ℕ := 0
  deriving DecidableEq, Repr

/-- A call that has come to its end leaves the thread with one transaction more. -/
def Thread.proceed (x : Thread) : Place → Thread
  | .outside => ⟨.outside, x.held + 1⟩
  | place => ⟨place, x.held⟩

structure System (τ : Type) where
  env : MdbEnv
  threads : τ → Thread

variable {τ : Type}

def Initial (c : System τ) : Prop :=
  (∃ mapsize load, c.env = { mapsize := mapsize, load := load }) ∧ ∀ t, c.threads t = {}

/-- The thread waits in `add_transaction` and the condition it waits for does not hold. -/
def Blocked (c : System τ) (t : τ) : Prop :=
  match (c.threads t).place with
  | .outside | .committed => False
  | .resizeNotify => c.env.resizing = true
  | .openNotify _ => c.env.openTransactions ≠ 0

def Unentangled (c : System τ) : Prop := ∀ t, Blocked c t → (c.threads t).held = 0

/-- A call of `add_transaction` would wait. -/
def MdbEnv.Busy (z : Sizes) (e : MdbEnv) : Prop :=
  e.resizing = true ∨ (e.transactionIteration % z.databaseCheckInterval = 0 ∧
    e.slack.toNat < (z.databaseSizeIncrement / 4).toNat ∧ e.openTransactions ≠ 0)

inductive Move (τ : Type) where
  | add (t : τ)
  | wake (t : τ)
  | commit (t : τ) (load : Word64)
  | remove (t : τ)

/-- No thread that holds a transaction opens another one when the call would wait. -/
def Unnested (z : Sizes) (c : System τ) (m : Move τ) : Prop :=
  ∀ t, m = .add t → 0 < (c.threads t).held → ¬ c.env.Busy z

variable {z : Sizes} {c d : System τ} {m : Move τ} {t u : τ}

def nextSize (z : Sizes) (mapsize : Word64) : Word64 :=
  (mapsize / z.databaseSizeIncrement + 1) * z.databaseSizeIncrement

/-- A call of `add_transaction` goes through to `mdb_env_set_mapsize` without a wait. -/
def AddSets (z : Sizes) (e : MdbEnv) : Prop :=
  e.resizing = false ∧ e.transactionIteration % z.databaseCheckInterval = 0 ∧
    e.slack.toNat < (z.databaseSizeIncrement / 4).toNat ∧ e.openTransactions = 0

/-- What a stretch of `add_transaction` can do to the monitor. -/
inductive Stretch (z : Sizes) (e : MdbEnv) : MdbEnv × Place → Prop
  | wait : e.resizing = true → Stretch z e (e, .resizeNotify)
  | raise : e.resizing = false → e.Busy z → e.openTransactions ≠ 0 →
      Stretch z e ({ e with resizing := true }, .openNotify e.mapsize)
  | resized : AddSets z e → ¬ e.Busy z →
      Stretch z e (MdbEnv.added { e with mapsize := nextSize z e.mapsize, resizing := false },
        .outside)
  | added : e.resizing = false → ¬ e.Busy z → Stretch z e (e.added, .outside)

theorem addTransaction_stretch (z : Sizes) (e : MdbEnv) : Stretch z e (e.addTransaction z) := by
  unfold MdbEnv.addTransaction MdbEnv.resize
  by_cases hr : e.resizing = true
  · rw [if_pos hr]
    exact .wait hr
  have hdown : e.resizing = false := Bool.eq_false_iff.mpr hr
  rw [if_neg hr]
  split_ifs with hdue hlow hopen
  · exact .raise hdown (Or.inr ⟨hdue, hlow, hopen⟩) hopen
  · have hzero := not_not.mp hopen
    exact .resized ⟨hdown, hdue, hlow, hzero⟩ fun hb => (hb.resolve_left hr).2.2 hzero
  · exact .added hdown fun hb => hlow (hb.resolve_left hr).2.1
  · exact .added hdown fun hb => hdue (hb.resolve_left hr).1

theorem proceed_place (x : Thread) (p : Place) : (x.proceed p).place = p := by
  cases p <;> rfl

theorem proceed_held {p : Place} (x : Thread) (hp : p.Waits) : (x.proceed p).held = x.held := by
  cases p with
  | outside => exact hp.elim
  | resizeNotify | openNotify mapsize | committed => rfl

theorem Blocked.waits (h : Blocked c t) : (c.threads t).place.Waits := by
  unfold Blocked at h
  split at h <;> rename_i hp
  · exact h.elim
  · exact h.elim
  · rw [hp]
    trivial
  · rw [hp]
    trivial

/-- A thread that waits in `add_transaction` holds nothing. -/
def Bare (c : System τ) : Prop := ∀ t, (c.threads t).place.Waits → (c.threads t).held = 0

theorem Bare.unentangled (h : Bare c) : Unentangled c := fun t ht => h t ht.waits

theorem Initial.bare (h : Initial c) : Bare c := by
  intro t _
  rw [h.2 t]

section Steps
variable [DecidableEq τ]

def System.set (c : System τ) (e : MdbEnv) (t : τ) (x : Thread) : System τ :=
  ⟨e, Function.update c.threads t x⟩

/-- Thread `t` has run a stretch of `add_transaction`. -/
def System.proceed (c : System τ) (t : τ) (r : MdbEnv × Place) : System τ :=
  c.set r.1 t ((c.threads t).proceed r.2)

/-- What a thread may do next. A thread that is outside may open a transaction, whether it
holds one or not, and may commit one it holds, which it then takes back. A commit changes the load
if the transaction has written. -/
def System.move (z : Sizes) (c : System τ) : Move τ → Option (System τ)
  | .add t =>
      match (c.threads t).place with
      | .outside => some (c.proceed t (c.env.addTransaction z))
      | _ => none
  | .wake t =>
      match (c.threads t).place with
      | .resizeNotify => some (c.proceed t (c.env.addTransaction z))
      | .openNotify mapsize => some (c.proceed t (c.env.resize z mapsize))
      | _ => none
  | .commit t load =>
      match c.threads t with
      | ⟨.outside, n + 1⟩ => some (c.set { c.env with load := load } t ⟨.committed, n + 1⟩)
      | _ => none
  | .remove t =>
      match c.threads t with
      | ⟨.committed, n + 1⟩ => some (c.set c.env.removeTransaction t ⟨.outside, n⟩)
      | _ => none

def Moves (z : Sizes) (c : System τ) (m : Move τ) (d : System τ) : Prop := c.move z m = some d

/-- The moves, with what each thread was doing before. -/
inductive Step (z : Sizes) (c : System τ) : Move τ → System τ → Prop
  | add {t : τ} {r : MdbEnv × Place} : (c.threads t).place = .outside → Stretch z c.env r →
      Step z c (.add t) (c.proceed t r)
  | again {t : τ} {r : MdbEnv × Place} : (c.threads t).place = .resizeNotify →
      Stretch z c.env r → Step z c (.wake t) (c.proceed t r)
  | waits {t : τ} {mapsize : Word64} : (c.threads t).place = .openNotify mapsize →
      c.env.openTransactions ≠ 0 →
      Step z c (.wake t) (c.proceed t (c.env, .openNotify mapsize))
  | resizes {t : τ} {mapsize : Word64} : (c.threads t).place = .openNotify mapsize →
      c.env.openTransactions = 0 →
      Step z c (.wake t) (c.proceed t
        (MdbEnv.added { c.env with mapsize := nextSize z mapsize, resizing := false }, .outside))
  | commit {t : τ} {n : ℕ} {load : Word64} : c.threads t = ⟨.outside, n + 1⟩ →
      Step z c (.commit t load) (c.set { c.env with load := load } t ⟨.committed, n + 1⟩)
  | remove {t : τ} {n : ℕ} : c.threads t = ⟨.committed, n + 1⟩ →
      Step z c (.remove t) (c.set c.env.removeTransaction t ⟨.outside, n⟩)

theorem Moves.step (h : Moves z c m d) : Step z c m d := by
  unfold Moves System.move at h
  cases m with
  | add t =>
      dsimp only at h
      split at h
      · rename_i hp
        cases h
        exact .add hp (addTransaction_stretch z c.env)
      · cases h
  | wake t =>
      dsimp only at h
      split at h
      · rename_i hp
        cases h
        exact .again hp (addTransaction_stretch z c.env)
      · rename_i mapsize hp
        cases h
        unfold MdbEnv.resize
        split_ifs with hopen
        · exact .waits hp hopen
        · exact .resizes hp (not_not.mp hopen)
      · cases h
  | commit t load =>
      dsimp only at h
      split at h
      · rename_i n ht
        cases h
        exact .commit ht
      · cases h
  | remove t =>
      dsimp only at h
      split at h
      · rename_i n ht
        cases h
        exact .remove ht
      · cases h

theorem proceed_self (c : System τ) (t : τ) (r : MdbEnv × Place) :
    (c.proceed t r).threads t = (c.threads t).proceed r.2 := by
  simp [System.proceed, System.set]

theorem proceed_other (c : System τ) (r : MdbEnv × Place) (h : u ≠ t) :
    (c.proceed t r).threads u = c.threads u := by
  simp [System.proceed, System.set, Function.update_of_ne h]

theorem Bare.proceed {r : MdbEnv × Place} (h : Bare c)
    (ht : (c.threads t).held = 0 ∨ r.2 = .outside) : Bare (c.proceed t r) := by
  intro u hu
  by_cases hut : u = t
  · subst hut
    rw [proceed_self, proceed_place] at hu
    rw [proceed_self, proceed_held _ hu]
    refine ht.resolve_right ?_
    intro hout
    rw [hout] at hu
    exact hu
  · rw [proceed_other c r hut] at hu ⊢
    exact h u hu

theorem Bare.set {x : Thread} (h : Bare c) (e : MdbEnv) (hx : ¬ x.place.Waits) :
    Bare (c.set e t x) := by
  intro u hu
  by_cases hut : u = t
  · subst hut
    simp only [System.set, Function.update_self] at hu
    exact absurd hu hx
  · simp only [System.set, Function.update_of_ne hut] at hu ⊢
    exact h u hu

theorem Bare.step (h : Bare c) (hm : Step z c m d) (hn : Unnested z c m) : Bare d := by
  cases hm with
  | @add t r hp hr =>
      refine h.proceed ?_
      rcases Nat.eq_zero_or_pos (c.threads t).held with h₀ | hpos
      · exact Or.inl h₀
      · have hfree := hn t rfl hpos
        cases hr with
        | wait hup => exact absurd (Or.inl hup) hfree
        | raise _ hbusy _ => exact absurd hbusy hfree
        | resized | added => exact Or.inr rfl
  | @again t r hp _ => exact h.proceed (Or.inl (h t (by rw [hp]; trivial)))
  | @waits t mapsize hp _ => exact h.proceed (Or.inl (h t (by rw [hp]; trivial)))
  | resizes => exact h.proceed (Or.inr rfl)
  | commit | remove => exact h.set _ id

/-- A nested call that waits blocks a thread that holds a transaction. -/
theorem unentangled_step_iff (h : Bare c) (hm : Step z c m d) :
    Unentangled d ↔ Unnested z c m := by
  constructor
  · intro hd t hmt hpos hbusy
    subst hmt
    cases hm with
    | @add t r hp hr =>
        have blocks : r.2.Waits → Blocked (c.proceed t r) t → False := by
          intro hwaits hblocked
          have hzero := hd t hblocked
          rw [proceed_self, proceed_held _ hwaits] at hzero
          omega
        unfold Blocked at blocks
        rw [proceed_self, proceed_place] at blocks
        cases hr with
        | wait hup => exact blocks trivial hup
        | raise _ _ hopen => exact blocks trivial hopen
        | resized _ hfree => exact hfree hbusy
        | added _ hfree => exact hfree hbusy
  · intro hn
    exact (h.step hm hn).unentangled

/-- In a run from a new monitor, no thread ever waits in `add_transaction` while it holds a
transaction exactly when no thread that holds one opens another at a moment when the call
has to wait. -/
theorem never_waits_for_itself_iff {ms : List (Move τ)} (h₀ : Initial c) :
    Unentangled c ∧ (Run (Ensured Unentangled (Moves z)) c ms d ↔
      Run (Guarded (Unnested z) (Moves z)) c ms d) := by
  refine ⟨h₀.bare.unentangled, Run.ensured_iff (J := Bare) h₀.bare ?_ ?_⟩
  · exact fun c m d hc hm => unentangled_step_iff hc hm.step
  · exact fun c m d hc hm hn => hc.step hm.step hn

theorem run_of_foldlM {ms : List (Move τ)} (h : ms.foldlM (System.move z) c = some d) :
    Run (Moves z) c ms d := by
  induction ms generalizing c with
  | nil =>
      cases h
      exact .nil
  | cons m ms ih =>
      obtain ⟨e, he, h⟩ := Option.bind_eq_some_iff.mp h
      exact .cons he (ih h)

end Steps

def loneThread : System Unit :=
  ⟨{ mapsize := testSizes.databaseSizeIncrement, load := 0 }, fun _ => {}⟩

theorem loneThread_initial : Initial loneThread := ⟨⟨_, _, rfl⟩, fun _ => rfl⟩

/-- One transaction is opened and nobody waits. -/
theorem never_waits_for_itself_one : ∃ d, Initial loneThread ∧
    Run (Ensured Unentangled (Moves testSizes)) loneThread [.add ()] d ∧
    d.env.openTransactions = 1 := by
  have hfree : Unnested testSizes loneThread (.add ()) :=
    fun _ _ hpos => absurd hpos (Nat.lt_irrefl 0)
  have hrun : Run (Guarded (Unnested testSizes) (Moves testSizes)) loneThread [.add ()]
      (loneThread.proceed () (loneThread.env.addTransaction testSizes)) :=
    Run.nil.snoc ⟨hfree, rfl⟩
  exact ⟨_, loneThread_initial, (never_waits_for_itself_iff loneThread_initial).2.mpr hrun,
    by decide⟩

/-- With its first transaction the thread uses all 512 pages of the map, and it ends two others.
Inside the fourth it opens another one. -/
def nestedMoves : List (Move Unit) :=
  [.add (), .commit () (511 * 4096), .remove (), .add (), .commit () (511 * 4096), .remove (),
    .add (), .commit () (511 * 4096), .remove (), .add (), .add ()]

/-- The check is due at the nested call, which waits for the outer transaction to end. -/
theorem nested_transaction_waits : ¬ ∀ (z : Sizes) (c d : System Unit) (ms : List (Move Unit)),
    Initial c → Run (Moves z) c ms d → Unentangled d := by
  intro hall
  have hrun : (nestedMoves.foldlM (System.move testSizes) loneThread).any (fun d =>
      decide ((d.threads ()).place = .openNotify testSizes.databaseSizeIncrement) &&
        decide (d.env.openTransactions ≠ 0) && decide ((d.threads ()).held = 1)) = true := by
    decide +kernel
  obtain ⟨d, hd⟩ : ∃ d, nestedMoves.foldlM (System.move testSizes) loneThread = some d := by
    rw [← Option.isSome_iff_exists]
    decide +kernel
  rw [hd, Option.any_some] at hrun
  simp only [Bool.and_eq_true, decide_eq_true_eq] at hrun
  obtain ⟨⟨hplace, hopen⟩, hheld⟩ := hrun
  have hblocked : Blocked d () := by
    unfold Blocked
    rw [hplace]
    exact hopen
  have hzero := hall testSizes loneThread d nestedMoves loneThread_initial (run_of_foldlM hd) ()
    hblocked
  rw [hheld] at hzero
  cases hzero

end PaperNode.TransactionMonitor
