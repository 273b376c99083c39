import PaperNode.TransitionRuns
import Mathlib.Order.OrderIsoNat

/-!
# Endless runs and what they come to

An endless run has a state at every time and an action between two of them. `LeadsTo` says that one
property of states is always followed by another, sooner or later. It is proved from an action that
cannot be put off for ever, or from a rank that cannot fall for ever.
-/
namespace PaperNode.FairRuns
open TransitionRuns

variable {S A : Type*}

structure Endless (step : S → A → S → Prop) where
  state : ℕ → S
  action : ℕ → A
  next : ∀ n, step (state n) (action n) (state (n + 1))

/-- From every state with `P` on, there is one with `Q` at that time or later. -/
def LeadsTo (state : ℕ → S) (P Q : S → Prop) : Prop :=
  ∀ n, P (state n) → ∃ m, n ≤ m ∧ Q (state m)

section LeadsTo
variable {state : ℕ → S} {P Q R : S → Prop}

theorem LeadsTo.trans (h : LeadsTo state P Q) (h' : LeadsTo state Q R) : LeadsTo state P R := by
  intro n hn
  obtain ⟨m, hnm, hm⟩ := h n hn
  obtain ⟨k, hmk, hk⟩ := h' m hm
  exact ⟨k, hnm.trans hmk, hk⟩

theorem LeadsTo.mono {Q' : S → Prop} (h : LeadsTo state P Q) (hQ : ∀ s, Q s → Q' s) :
    LeadsTo state P Q' := by
  intro n hn
  obtain ⟨m, hnm, hm⟩ := h n hn
  exact ⟨m, hnm, hQ _ hm⟩

theorem LeadsTo.or (h : LeadsTo state P R) (h' : LeadsTo state Q R) :
    LeadsTo state (fun s => P s ∨ Q s) R := by
  intro n hn
  rcases hn with hn | hn
  · exact h n hn
  · exact h' n hn

/-- Each rank leads to the goal or to a smaller rank. -/
theorem leadsTo_of_rank {W : Type*} [LT W] [WellFoundedLT W] {P : W → S → Prop}
    (h : ∀ w, LeadsTo state (P w) fun s => Q s ∨ ∃ v < w, P v s) (w : W) :
    LeadsTo state (P w) Q := by
  induction w using WellFoundedLT.induction with
  | ind w ih =>
      intro n hn
      obtain ⟨m, hnm, hm⟩ := h w n hn
      rcases hm with hm | ⟨v, hv, hm⟩
      · exact ⟨m, hnm, hm⟩
      · obtain ⟨k, hmk, hk⟩ := ih v hv m hm
        exact ⟨k, hnm.trans hmk, hk⟩

end LeadsTo

namespace Endless
variable {step : S → A → S → Prop} {init : S → Prop} {P Q : S → Prop} (e : Endless step)

theorem reached (h : init (e.state 0)) (n : ℕ) : Reached init step (e.state n) := by
  induction n with
  | zero => exact .start h
  | succ n ih => exact ih.next (e.next n)

theorem invariant (base : P (e.state 0)) (next : ∀ s a t, P s → step s a t → P t) (n : ℕ) :
    P (e.state n) := by
  induction n with
  | zero => exact base
  | succ n ih => exact next _ _ _ ih (e.next n)

/-- `P` stays until `Q` holds, and the action that brings `Q` about is performed at some time. -/
theorem leadsTo_of_helpful (helpful : S → A → Prop)
    (stay : ∀ n, P (e.state n) → P (e.state (n + 1)) ∨ Q (e.state (n + 1)))
    (help : ∀ n, P (e.state n) → helpful (e.state n) (e.action n) → Q (e.state (n + 1)))
    (fair : ∀ n, P (e.state n) → ∃ m, n ≤ m ∧ helpful (e.state m) (e.action m)) :
    LeadsTo e.state P Q := by
  intro n hn
  obtain ⟨m, hnm, hm⟩ := fair n hn
  -- until then the goal was reached, or `P` still holds
  have huntil : (∃ k, n ≤ k ∧ Q (e.state k)) ∨ P (e.state m) := by
    clear hm
    induction hnm with
    | refl => exact .inr hn
    | @step m hnm ih =>
        rcases ih with hgoal | hm
        · exact .inl hgoal
        · rcases stay m hm with hm | hm
          · exact .inr hm
          · exact .inl ⟨m + 1, Nat.le_succ_of_le hnm, hm⟩
  rcases huntil with hgoal | hPm
  · exact hgoal
  · exact ⟨m + 1, Nat.le_succ_of_le hnm, help m hPm hm⟩

/-- `P` stays until `Q` holds, and it does not stay for ever. -/
theorem leadsTo_of_ends (stay : ∀ n, P (e.state n) → P (e.state (n + 1)) ∨ Q (e.state (n + 1)))
    (ends : ∀ n, P (e.state n) → ∃ m, n ≤ m ∧ ¬ P (e.state m)) : LeadsTo e.state P Q := by
  intro n hn
  obtain ⟨m, hnm, hm⟩ := ends n hn
  by_contra hnever
  apply hm
  clear hm
  induction hnm with
  | refl => exact hn
  | @step m hnm ih =>
      rcases stay m ih with hm | hm
      · exact hm
      · exact absurd ⟨m + 1, Nat.le_succ_of_le hnm, hm⟩ hnever

/-- A rank that never grows, and that falls with certain actions, puts an end to them. -/
theorem ceases {W : Type*} [PartialOrder W] [WellFoundedLT W] (rank : S → W) (falls : A → Prop)
    (base : P (e.state 0)) (next : ∀ s a t, P s → step s a t → P t)
    (le : ∀ s a t, P s → step s a t → rank t ≤ rank s)
    (less : ∀ s a t, P s → step s a t → falls a → rank t < rank s) :
    ∃ n, ∀ m, n ≤ m → ¬ falls (e.action m) := by
  have hP := e.invariant base next
  have hanti : Antitone fun n => rank (e.state n) :=
    antitone_nat_of_succ_le fun n => le _ _ _ (hP n) (e.next n)
  obtain ⟨n, hn⟩ := WellFoundedLT.antitone_chain_condition hanti
  refine ⟨n, fun m hm hfalls => ?_⟩
  have hlt := less _ _ _ (hP m) (e.next m) hfalls
  have hsame : rank (e.state m) = rank (e.state (m + 1)) :=
    (hn m hm).symm.trans (hn (m + 1) (Nat.le_succ_of_le hm))
  exact hlt.ne hsame.symm

end Endless

end PaperNode.FairRuns
