import Mathlib.Data.Finset.Basic
import PaperNode.BoundedRecursion
import PaperNode.TransitionRuns

/-!
# Actions on the accounts of a wallet

Blocks for one account must be made one after the other. A thread that wants to run
an action for an account runs it at once if no thread is busy with the account, and
leaves it in a multimap otherwise. The thread that is busy with an account goes on
with one of the actions left for it until it finds none. An action may queue others,
for any account: the calls of one thread are nested.

The steps are the two sections under the mutex and the start of an action. An action
counts as executing until its thread is in the section after it.
-/
namespace PaperNode.WalletActions
open BoundedRecursion TransitionRuns

inductive WalletAssertion where
  | erasedOne
  deriving DecidableEq, Repr

/-- A call of `queueWalletAction` that performs actions: the action it is about to execute or,
if `executing`, executes. -/
structure Call (Thread Account : Type*) where
  thread : Thread
  account : Account
  action : ℕ
  executing : Bool
  deriving DecidableEq

/-- The two containers under the mutex, the calls that perform actions, a thread's innermost
call before the calls it is nested in, the number of actions queued so far and the actions whose
execution has begun. Actions are numbered as they are queued. -/
structure Wallets (Thread Account : Type*) where
  currentActions : Finset Account := ∅
  pendingActions : List (Account × ℕ) := []
  calls : List (Call Thread Account) := []
  queued : ℕ := 0
  executed : List ℕ := []

variable {Thread Account : Type*} [DecidableEq Account]

/-- The first section: the call goes on to perform its action or returns. -/
def queueWalletAction (s : Wallets Thread Account) (thread : Thread) (account : Account) :
    Wallets Thread Account :=
  if account ∉ s.currentActions then
    { s with
      currentActions := insert account s.currentActions
      calls := ⟨thread, account, s.queued, false⟩ :: s.calls
      queued := s.queued + 1 }
  else
    { s with
      pendingActions := (account, s.queued) :: s.pendingActions
      queued := s.queued + 1 }

/-- What `find` may give in the multimap: any one of the actions left for the account. -/
inductive Finds (pending : List (Account × ℕ)) (account : Account) : Option ℕ → Prop
  | found {action : ℕ} (left : (account, action) ∈ pending) : Finds pending account (some action)
  | absent (none_left : ∀ action, (account, action) ∉ pending) : Finds pending account none

/-- The section after an action: what the call goes on with, if anything. -/
def afterAction (s : Wallets Thread Account) (call : Call Thread Account) :
    Option ℕ → Check WalletAssertion (Wallets Thread Account × Option (Call Thread Account))
  | some next =>
      .ok ({ s with pendingActions := s.pendingActions.erase (call.account, next) },
        some { call with action := next, executing := false })
  | none => do
      require (call.account ∈ s.currentActions) .erasedOne
      .ok ({ s with currentActions := s.currentActions.erase call.account }, none)

def Innermost (s : Wallets Thread Account) (before : List (Call Thread Account))
    (call : Call Thread Account) (after : List (Call Thread Account)) : Prop :=
  s.calls = before ++ call :: after ∧ ∀ c ∈ before, c.thread ≠ call.thread

inductive Event (Thread Account : Type*) where
  | queue (thread : Thread) (account : Account)
  | start (thread : Thread)
  | finish (thread : Thread)

/-- A thread queues an action when it performs none, or from the action it executes: no call of
it is about to execute one. -/
inductive Step : Wallets Thread Account → Event Thread Account → Wallets Thread Account → Prop
  | queue {s thread account}
      (free : ∀ call ∈ s.calls, call.thread = thread → call.executing = true) :
      Step s (.queue thread account) (queueWalletAction s thread account)
  | start {s before call after} (inner : Innermost s before call after)
      (ready : call.executing = false) :
      Step s (.start call.thread)
        { s with
          calls := before ++ { call with executing := true } :: after
          executed := call.action :: s.executed }
  | finish {s before call after found s' next} (inner : Innermost s before call after)
      (executing : call.executing = true) (finds : Finds s.pendingActions call.account found)
      (returns : afterAction s call found = .ok (s', next)) :
      Step s (.finish call.thread) { s' with calls := before ++ next.toList ++ after }

def Initial (s : Wallets Thread Account) : Prop := s = {}

def ready (calls : List (Call Thread Account)) : List ℕ :=
  (calls.filter (fun c => !c.executing)).map (·.action)

/-- One call for each current account, actions left only for those, and every action queued in
exactly one place. -/
structure Serial (s : Wallets Thread Account) : Prop where
  accounts : (s.calls.map (·.account)).Nodup
  current : ∀ a, a ∈ s.currentActions ↔ a ∈ s.calls.map (·.account)
  pending : ∀ a n, (a, n) ∈ s.pendingActions → a ∈ s.currentActions
  actions : ∀ n, (s.pendingActions.map (·.2)).count n + (ready s.calls).count n +
    s.executed.count n = (List.range s.queued).count n

section Ready
omit [DecidableEq Account]
variable (before after : List (Call Thread Account)) (call : Call Thread Account)

@[simp] theorem ready_append : ready (before ++ after) = ready before ++ ready after := by
  simp [ready]

@[simp] theorem ready_cons :
    ready (call :: after) = (if call.executing then [] else [call.action]) ++ ready after := by
  cases h : call.executing <;> simp [ready, h]

end Ready

variable {s t : Wallets Thread Account}

theorem Serial.queue (hs : Serial s) (thread : Thread) (account : Account) :
    Serial (queueWalletAction s thread account) := by
  unfold queueWalletAction
  split_ifs with h
  · -- the action is left for the call that is busy with the account
    refine ⟨hs.accounts, hs.current, ?_, ?_⟩
    · intro a n ha
      rcases List.mem_cons.mp ha with ha | ha
      · cases ha
        exact h
      · exact hs.pending a n ha
    · intro n
      have hn := hs.actions n
      simp only [List.map_cons, List.count_cons, List.range_succ, List.count_append,
        List.count_nil]
      omega
  · have hnew : account ∉ s.calls.map (·.account) := fun hc => h ((hs.current account).mpr hc)
    refine ⟨List.nodup_cons.mpr ⟨hnew, hs.accounts⟩, ?_, ?_, ?_⟩
    · intro a
      simp only [Finset.mem_insert, List.map_cons, List.mem_cons, hs.current]
    · intro a n ha
      exact Finset.mem_insert_of_mem (hs.pending a n ha)
    · intro n
      have hn := hs.actions n
      simp only [ready_cons, Bool.false_eq_true, if_false, List.range_succ, List.count_append,
        List.count_singleton]
      omega

omit [DecidableEq Account] in
theorem Serial.start {before after : List (Call Thread Account)} {call : Call Thread Account}
    (hs : Serial s) (hcalls : s.calls = before ++ call :: after)
    (hready : call.executing = false) :
    Serial { s with
      calls := before ++ { call with executing := true } :: after
      executed := call.action :: s.executed } := by
  have hsame : (before ++ { call with executing := true } :: after).map (·.account) =
      s.calls.map (·.account) := by
    simp [hcalls]
  refine ⟨hsame ▸ hs.accounts, fun a => hsame ▸ hs.current a, hs.pending, ?_⟩
  intro n
  have hn := hs.actions n
  rw [hcalls] at hn
  simp only [ready_append, ready_cons, hready, Bool.false_eq_true, if_false, if_true,
    List.count_append, List.count_cons, List.count_nil] at hn ⊢
  omega

theorem Serial.next {before after : List (Call Thread Account)} {call : Call Thread Account}
    {action : ℕ} (hs : Serial s) (hcalls : s.calls = before ++ call :: after)
    (hexecuting : call.executing = true) (hleft : (call.account, action) ∈ s.pendingActions) :
    Serial { s with
      pendingActions := s.pendingActions.erase (call.account, action)
      calls := before ++ { call with action := action, executing := false } :: after } := by
  have hsame : (before ++ { call with action := action, executing := false } :: after).map
      (·.account) = s.calls.map (·.account) := by
    simp [hcalls]
  refine ⟨hsame ▸ hs.accounts, fun a => hsame ▸ hs.current a, ?_, ?_⟩
  · exact fun a n ha => hs.pending a n (List.mem_of_mem_erase ha)
  · intro n
    have hn := hs.actions n
    have herase := ((List.perm_cons_erase hleft).map (·.2)).count_eq n
    rw [hcalls] at hn
    simp only [ready_append, ready_cons, hexecuting, Bool.false_eq_true, if_false, if_true,
      List.count_append, List.count_cons, List.count_nil, List.map_cons] at hn herase ⊢
    omega

/-- No action is left for the account: the call is over. -/
theorem Serial.last {before after : List (Call Thread Account)} {call : Call Thread Account}
    (hs : Serial s) (hcalls : s.calls = before ++ call :: after)
    (hexecuting : call.executing = true) (hnone : ∀ n, (call.account, n) ∉ s.pendingActions) :
    Serial { s with
      currentActions := s.currentActions.erase call.account, calls := before ++ after } := by
  have hperm : (s.calls.map (·.account)).Perm
      (call.account :: (before ++ after).map (·.account)) := by
    rw [hcalls]
    exact List.perm_middle.map _
  have hnodup := List.nodup_cons.mp (hperm.nodup_iff.mp hs.accounts)
  refine ⟨hnodup.2, ?_, ?_, ?_⟩
  · intro a
    rw [Finset.mem_erase, hs.current, hperm.mem_iff, List.mem_cons]
    constructor
    · exact fun ha => ha.2.resolve_left ha.1
    · exact fun ha => ⟨fun heq => hnodup.1 (heq ▸ ha), Or.inr ha⟩
  · intro a n ha
    refine Finset.mem_erase.mpr ⟨?_, hs.pending a n ha⟩
    rintro rfl
    exact hnone n ha
  · intro n
    have hn := hs.actions n
    rw [hcalls] at hn
    simpa [hexecuting] using hn

theorem Serial.step {e : Event Thread Account} (hs : Serial s) (h : Step s e t) : Serial t := by
  cases h with
  | queue _ => exact hs.queue _ _
  | start inner hready => exact hs.start inner.1 hready
  | finish inner executing finds returns =>
      cases finds with
      | found left =>
          cases returns
          simpa using hs.next inner.1 executing left
      | absent none_left =>
          obtain ⟨_, _, h⟩ := bind_eq_ok.mp returns
          cases h
          simpa using hs.last inner.1 executing none_left

theorem reached_serial (hs : Reached Initial Step s) : Serial s := by
  refine hs.invariant ?_ (fun _ _ _ hs h => hs.step h)
  rintro _ rfl
  exact ⟨by simp, by simp, by simp, by simp [ready]⟩

/-- At no time do two calls execute actions for one account, an account is current exactly while
a call executes or is about to execute an action for it, actions are left only for current
accounts, and once all calls have returned every action queued has been executed once. -/
theorem actions_serialised (hs : Reached Initial Step s) :
    ((s.calls.filter (·.executing)).map (·.account)).Nodup ∧
      (∀ a, a ∈ s.currentActions ↔ ∃ c ∈ s.calls, c.account = a) ∧
      (∀ a n, (a, n) ∈ s.pendingActions → a ∈ s.currentActions) ∧
      (s.calls = [] → s.executed.Perm (List.range s.queued)) := by
  have hserial := reached_serial hs
  refine ⟨?_, ?_, hserial.pending, ?_⟩
  · exact hserial.accounts.sublist (List.filter_sublist.map _)
  · intro a
    rw [hserial.current, List.mem_map]
  · intro hcalls
    have hidle : ∀ a, a ∉ s.currentActions := by
      intro a ha
      simpa [hcalls] using (hserial.current a).mp ha
    have hnone : s.pendingActions = [] := by
      refine List.eq_nil_iff_forall_not_mem.mpr ?_
      rintro ⟨a, n⟩ ha
      exact hidle a (hserial.pending a n ha)
    refine List.perm_iff_count.mpr ?_
    intro n
    simpa [hcalls, hnone, ready] using hserial.actions n

/-- Two threads and one account: the second action is left for the first thread, which executes
both. -/
theorem actions_serialised_two :
    ∃ s : Wallets Bool ℕ, Reached Initial Step s ∧ s.queued = 2 ∧
      s.executed.Perm (List.range 2) := by
  have only {s : Wallets Bool ℕ} (action : ℕ) (executing : Bool)
      (h : s.calls = [⟨false, 9, action, executing⟩]) :
      Innermost s [] ⟨false, 9, action, executing⟩ [] := ⟨h, by simp⟩
  have run : Reached Initial Step (⟨∅, [], [], 0, []⟩ : Wallets Bool ℕ) := .start rfl
  have run : Reached Initial Step ⟨{9}, [], [⟨false, 9, 0, false⟩], 1, []⟩ :=
    run.next (a := Event.queue false 9) (.queue (by simp))
  have run : Reached Initial Step ⟨{9}, [], [⟨false, 9, 0, true⟩], 1, [0]⟩ :=
    run.next (a := Event.start false) (.start (only 0 false rfl) rfl)
  have run : Reached Initial Step ⟨{9}, [(9, 1)], [⟨false, 9, 0, true⟩], 2, [0]⟩ :=
    run.next (a := Event.queue true 9) (.queue (by simp))
  have taken := Step.finish (s := ⟨{9}, [(9, 1)], [⟨false, 9, 0, true⟩], 2, [0]⟩)
    (only 0 true rfl) rfl (.found List.mem_cons_self) rfl
  have run : Reached Initial Step ⟨{9}, [], [⟨false, 9, 1, false⟩], 2, [0]⟩ := run.next taken
  have run : Reached Initial Step ⟨{9}, [], [⟨false, 9, 1, true⟩], 2, [1, 0]⟩ :=
    run.next (a := Event.start false) (.start (only 1 false rfl) rfl)
  have ended := Step.finish (s := ⟨{9}, [], [⟨false, 9, 1, true⟩], 2, [1, 0]⟩)
    (only 1 true rfl) rfl (.absent (fun _ => List.not_mem_nil)) rfl
  have run : Reached Initial Step ⟨∅, [], [], 2, [1, 0]⟩ := run.next ended
  exact ⟨_, run, rfl, (actions_serialised run).2.2.2 rfl⟩

end PaperNode.WalletActions
