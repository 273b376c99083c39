import Mathlib.Tactic.SplitIfs
import PaperNode.TransitionRuns

/-!
# Starting bootstraps

The node starts a bootstrap when it first hears from a peer (`warmup`), when it is
told to (`bootstrap`) and when a block keeps missing its dependencies
(`bootstrapAny`). A flag says that one is in progress. It is set by `warmup` alone
and cleared by the destructor of any client, so a bootstrap that was not started by
`warmup` runs without the flag, and a second one can be started beside it.
-/
namespace PaperNode.BootstrapInitiator
open TransitionRuns

/-- The initiator, the clients it started that are still alive, and what its observers were
told, latest first. -/
structure Initiator (Endpoint : Type*) where
  inProgress : Bool := false
  warmedUp : List Endpoint := []
  clients : List Endpoint := []
  notified : List Bool := []
  deriving DecidableEq, Repr

variable {Endpoint : Type*}

namespace Initiator

def notifyListeners (s : Initiator Endpoint) : Initiator Endpoint :=
  { s with notified := s.inProgress :: s.notified }

def initiate (s : Initiator Endpoint) (endpoint : Endpoint) : Initiator Endpoint :=
  { s with clients := endpoint :: s.clients }

def warmup [DecidableEq Endpoint] (s : Initiator Endpoint) (endpoint : Endpoint) :
    Initiator Endpoint :=
  if !s.inProgress && s.warmedUp.length < 2 && !s.inProgress && !s.warmedUp.contains endpoint then
    initiate (notifyListeners
      { s with warmedUp := endpoint :: s.warmedUp, inProgress := true }) endpoint
  else s

def bootstrap (s : Initiator Endpoint) (endpoint : Endpoint) : Initiator Endpoint :=
  if !s.inProgress then s.initiate endpoint else s

/-- One of the peers that may be bootstrapped from, by the random word drawn, if there is any. -/
def bootstrapAny (s : Initiator Endpoint) (candidates : List Endpoint) (word : ℕ) :
    Initiator Endpoint :=
  match candidates[word % candidates.length]? with
  | none => s
  | some endpoint => s.bootstrap endpoint

/-- The destructor of a client, with the completion action `initiate` gave it. -/
def complete (s : Initiator Endpoint) (client : ℕ) : Initiator Endpoint :=
  notifyListeners { s with clients := s.clients.eraseIdx client, inProgress := false }

end Initiator

open Initiator

inductive Event (Endpoint : Type*) where
  | warmup (endpoint : Endpoint)
  | bootstrap (endpoint : Endpoint)
  | bootstrapAny (candidates : List Endpoint) (word : ℕ)
  | complete (client : ℕ)

inductive Step [DecidableEq Endpoint] :
    Initiator Endpoint → Event Endpoint → Initiator Endpoint → Prop
  | warmup (s endpoint) : Step s (.warmup endpoint) (s.warmup endpoint)
  | bootstrap (s endpoint) : Step s (.bootstrap endpoint) (s.bootstrap endpoint)
  | bootstrapAny (s candidates word) :
      Step s (.bootstrapAny candidates word) (s.bootstrapAny candidates word)
  | complete (s client) (live : client < s.clients.length) :
      Step s (.complete client) (s.complete client)

def OneClient (s : Initiator Endpoint) : Prop :=
  s.clients.length ≤ 1 ∧ (s.inProgress = true ↔ s.clients.length = 1)

/-- The call is not one that would start a client without setting the flag. -/
def Flagged (s : Initiator Endpoint) : Event Endpoint → Prop
  | .bootstrap _ => s.inProgress = true
  | .bootstrapAny candidates _ => candidates = [] ∨ s.inProgress = true
  | _ => True

variable {s : Initiator Endpoint}

theorem OneClient.idle_iff (hs : OneClient s) : s.inProgress = false ↔ s.clients = [] := by
  have hflag := hs.2
  have hlength := hs.1
  rw [← Bool.not_eq_true, hflag, ← List.length_eq_zero_iff]
  omega

theorem OneClient.warmup [DecidableEq Endpoint] (hs : OneClient s) (endpoint : Endpoint) :
    OneClient (s.warmup endpoint) := by
  unfold Initiator.warmup
  split_ifs with h
  · have hidle : s.inProgress = false := by
      simp only [Bool.and_eq_true, Bool.not_eq_true'] at h
      exact h.1.1.1
    simp [OneClient, initiate, notifyListeners, hs.idle_iff.mp hidle]
  · exact hs

theorem OneClient.bootstrap_iff (hs : OneClient s) (endpoint : Endpoint) :
    OneClient (s.bootstrap endpoint) ↔ s.inProgress = true := by
  unfold Initiator.bootstrap
  cases hflag : s.inProgress with
  | true => simpa using hs
  | false => simp [OneClient, initiate, hflag, hs.idle_iff.mp hflag]

theorem OneClient.bootstrapAny_iff (hs : OneClient s) (candidates : List Endpoint) (word : ℕ) :
    OneClient (s.bootstrapAny candidates word) ↔ candidates = [] ∨ s.inProgress = true := by
  unfold Initiator.bootstrapAny
  cases candidates with
  | nil => simpa using hs
  | cons first rest =>
      have hindex : word % (first :: rest).length < (first :: rest).length :=
        Nat.mod_lt _ (Nat.succ_pos _)
      rw [List.getElem?_eq_getElem hindex]
      simpa using hs.bootstrap_iff _

theorem OneClient.complete (hs : OneClient s) {client : ℕ} (hlive : client < s.clients.length) :
    OneClient (s.complete client) := by
  have hlength := hs.1
  have hnone : (s.clients.eraseIdx client).length = 0 := by
    rw [List.length_eraseIdx_of_lt hlive]
    omega
  simp [OneClient, Initiator.complete, notifyListeners, hnone]

theorem OneClient.step_iff [DecidableEq Endpoint] {e : Event Endpoint} {t : Initiator Endpoint}
    (hs : OneClient s) (h : Step s e t) : OneClient t ↔ Flagged s e := by
  cases h with
  | warmup endpoint => exact iff_of_true (hs.warmup endpoint) trivial
  | bootstrap endpoint => exact hs.bootstrap_iff endpoint
  | bootstrapAny candidates word => exact hs.bootstrapAny_iff candidates word
  | complete client hlive => exact iff_of_true (hs.complete hlive) trivial

/-- The runs of the initiator with one client at a time, the flag set exactly while it lives,
are those that never call `bootstrap` while no bootstrap is in progress. -/
theorem one_client_run_iff [DecidableEq Endpoint] {es : List (Event Endpoint)}
    {t : Initiator Endpoint} :
    Run (Ensured OneClient Step) {} es t ↔ Run (Guarded Flagged Step) {} es t := by
  refine Run.ensured_iff (J := OneClient) (by simp [OneClient]) ?_ ?_
  · intro s e u hs hstep
    exact hs.step_iff hstep
  · intro s e u hs hstep hflag
    exact (hs.step_iff hstep).mpr hflag

/-- Two calls of `bootstrap` start two clients, and the flag is clear. -/
theorem two_clients :
    ∃ s : Initiator ℕ, Run Step {} [.bootstrap 1, .bootstrap 2] s ∧
      s.clients.length = 2 ∧ s.inProgress = false := by
  refine ⟨_, .snoc (.snoc .nil (.bootstrap {} 1)) (.bootstrap _ 2), ?_, ?_⟩ <;> decide

end PaperNode.BootstrapInitiator
