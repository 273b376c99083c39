import Mathlib.Logic.Relation
import Mathlib.Algebra.Group.Defs

/-!
# Runs of a labelled transition system

A run is a start state, the list of actions performed and the state reached.
A property of runs that holds of the empty run and is kept by one more action
holds of every run. A guard restricts a system to the steps whose action, in the
state before it, meets a condition; `Ensured` restricts it to the steps that end in
a state with a property. A metered run adds up a cost of every action, read off the
state before it. `Since` speaks of the actions alone: one kind was
performed and another has not been performed since.
-/
namespace PaperNode.TransitionRuns

variable {S A : Type*}

/-- The actions performed, in order, and the state reached. -/
inductive Run (step : S → A → S → Prop) (s : S) : List A → S → Prop
  | nil : Run step s [] s
  | snoc {as : List A} {t u : S} {a : A} :
      Run step s as t → step t a u → Run step s (as ++ [a]) u

def Reached (init : S → Prop) (step : S → A → S → Prop) (s : S) : Prop :=
  ∃ s₀ as, init s₀ ∧ Run step s₀ as s

def Guarded (guard : S → A → Prop) (step : S → A → S → Prop) (s : S) (a : A) (t : S) : Prop :=
  guard s a ∧ step s a t

def Ensured (I : S → Prop) (step : S → A → S → Prop) (s : S) (a : A) (t : S) : Prop :=
  step s a t ∧ I t

/-- A run with the sum of the costs of its actions. -/
inductive Metered {M : Type*} [AddMonoid M] (step : S → A → S → Prop) (cost : S → A → M) (s : S) :
    List A → M → S → Prop
  | nil : Metered step cost s [] 0 s
  | snoc {as : List A} {m : M} {t u : S} {a : A} :
      Metered step cost s as m t → step t a u →
        Metered step cost s (as ++ [a]) (m + cost t a) u

variable {step step' : S → A → S → Prop} {init : S → Prop} {s t : S} {as : List A}

theorem Run.invariant {I : List A → S → Prop} (base : I [] s)
    (next : ∀ as t a u, I as t → step t a u → I (as ++ [a]) u) (h : Run step s as t) : I as t := by
  induction h with
  | nil => exact base
  | snoc _ hstep ih => exact next _ _ _ _ ih hstep

theorem Reached.invariant {I : S → Prop} (base : ∀ s, init s → I s)
    (next : ∀ t a u, I t → step t a u → I u) (h : Reached init step s) : I s := by
  obtain ⟨s₀, as, h₀, hr⟩ := h
  exact Run.invariant (I := fun _ t => I t) (base s₀ h₀) (fun _ t a u => next t a u) hr

theorem Run.append {bs : List A} {u : S} (h : Run step s as t) (h' : Run step t bs u) :
    Run step s (as ++ bs) u := by
  induction h' with
  | nil => simpa using h
  | snoc _ hlast ih =>
      rw [← List.append_assoc]
      exact .snoc ih hlast

theorem Reached.start (h : init s) : Reached init step s := ⟨s, [], h, .nil⟩

theorem Reached.next {a : A} (h : Reached init step s) (hstep : step s a t) :
    Reached init step t := by
  obtain ⟨s₀, as, h₀, hr⟩ := h
  exact ⟨s₀, as ++ [a], h₀, .snoc hr hstep⟩

/-- An invariant whose step may use that the state before it was reached. -/
theorem Reached.induction {I : S → Prop} (base : ∀ s, init s → I s)
    (next : ∀ t a u, Reached init step t → I t → step t a u → I u) (h : Reached init step s) :
    I s := by
  have hboth : Reached init step s ∧ I s :=
    h.invariant (I := fun t => Reached init step t ∧ I t) (fun t ht => ⟨.start ht, base t ht⟩)
      (fun t a u ht hstep => ⟨ht.1.next hstep, next t a u ht.1 ht.2 hstep⟩)
  exact hboth.2

theorem Reached.run (h : Reached init step s) (hr : Run step s as t) : Reached init step t := by
  obtain ⟨s₀, bs, h₀, hs⟩ := h
  exact ⟨s₀, bs ++ as, h₀, hs.append hr⟩

theorem Reached.mono (hstep : ∀ t a u, step t a u → step' t a u) (h : Reached init step s) :
    Reached init step' s :=
  h.invariant (fun _ => Reached.start) (fun _ _ _ ht hs => ht.next (hstep _ _ _ hs))

theorem Run.cons {a : A} {u : S} (hstep : step s a t) (h : Run step t as u) :
    Run step s (a :: as) u :=
  (Run.nil.snoc hstep).append h

theorem Run.cases_head (h : Run step s as t) :
    (as = [] ∧ t = s) ∨ ∃ a u bs, as = a :: bs ∧ step s a u ∧ Run step u bs t := by
  induction h with
  | nil => exact Or.inl ⟨rfl, rfl⟩
  | @snoc as t u a _ hstep ih =>
      refine Or.inr ?_
      rcases ih with ⟨rfl, rfl⟩ | ⟨b, v, bs, rfl, hb, hv⟩
      · exact ⟨a, u, [], rfl, hstep, .nil⟩
      · exact ⟨b, v, bs ++ [a], rfl, hb, .snoc hv hstep⟩

/-- In a deterministic system a run to a state without steps passes through every state that is
reached. -/
theorem Run.through {bs : List A} {u : S}
    (det : ∀ t a u b v, step t a u → step t b v → u = v) (stop : ∀ a u, ¬ step t a u)
    (h : Run step s as t) (h' : Run step s bs u) : ∃ cs, Run step u cs t := by
  induction h' with
  | nil => exact ⟨as, h⟩
  | @snoc bs v u a _ hstep ih =>
      obtain ⟨cs, hcs⟩ := ih
      rcases hcs.cases_head with ⟨_, rfl⟩ | ⟨b, w, ds, _, hb, hw⟩
      · exact absurd hstep (stop a u)
      · cases det v a u b w hstep hb
        exact ⟨ds, hw⟩

theorem Run.mono (hstep : ∀ t a u, step t a u → step' t a u) (h : Run step s as t) :
    Run step' s as t :=
  h.invariant .nil (fun _ _ _ _ ih hs => .snoc ih (hstep _ _ _ hs))

theorem Run.guarded {guard : S → A → Prop} (hall : ∀ u, ∀ a ∈ as, guard u a)
    (h : Run step s as t) : Run (Guarded guard step) s as t := by
  induction h with
  | nil => exact .nil
  | @snoc as u _ a _ hstep ih =>
      have hlast := hall u a (List.mem_append_right as (List.mem_singleton_self a))
      exact .snoc (ih (fun u a ha => hall u a (List.mem_append_left _ ha))) ⟨hlast, hstep⟩

/-- Every state of a run has the property exactly when every action of it meets the guard,
if that is so of a single step from the states with the invariant `J` and the guard keeps `J`. -/
theorem Run.ensured_iff {I J : S → Prop} {guard : S → A → Prop} (base : J s)
    (local_iff : ∀ t a u, J t → step t a u → (I u ↔ guard t a))
    (next : ∀ t a u, J t → step t a u → guard t a → J u) :
    Run (Ensured I step) s as t ↔ Run (Guarded guard step) s as t := by
  have toGuarded : ∀ {as t}, Run (Ensured I step) s as t →
      Run (Guarded guard step) s as t ∧ J t := by
    intro as t h
    refine h.invariant (I := fun as t => Run (Guarded guard step) s as t ∧ J t) ⟨.nil, base⟩ ?_
    intro as t a u ih hstep
    have hguard := (local_iff t a u ih.2 hstep.1).mp hstep.2
    exact ⟨.snoc ih.1 ⟨hguard, hstep.1⟩, next t a u ih.2 hstep.1 hguard⟩
  have toEnsured : ∀ {as t}, Run (Guarded guard step) s as t →
      Run (Ensured I step) s as t ∧ J t := by
    intro as t h
    refine h.invariant (I := fun as t => Run (Ensured I step) s as t ∧ J t) ⟨.nil, base⟩ ?_
    intro as t a u ih hstep
    have hgood := (local_iff t a u ih.2 hstep.2).mpr hstep.1
    exact ⟨.snoc ih.1 ⟨hstep.2, hgood⟩, next t a u ih.2 hstep.2 hstep.1⟩
  exact ⟨fun h => (toGuarded h).1, fun h => (toEnsured h).1⟩

theorem Run.metered {M : Type*} [AddMonoid M] (cost : S → A → M) (h : Run step s as t) :
    ∃ m, Metered step cost s as m t := by
  induction h with
  | nil => exact ⟨0, .nil⟩
  | snoc _ hstep ih =>
      obtain ⟨m, hm⟩ := ih
      exact ⟨_, .snoc hm hstep⟩

theorem Metered.invariant {M : Type*} [AddMonoid M] {cost : S → A → M} {m : M}
    {I : List A → M → S → Prop} (base : I [] 0 s)
    (next : ∀ as m t a u, I as m t → step t a u → I (as ++ [a]) (m + cost t a) u)
    (h : Metered step cost s as m t) : I as m t := by
  induction h with
  | nil => exact base
  | snoc _ hstep ih => exact next _ _ _ _ _ ih hstep

/-- An action of kind `P` was performed, and none of kind `Q` after it. -/
def Since (P Q : A → Prop) (as : List A) : Prop :=
  ∃ before a after, as = before ++ a :: after ∧ P a ∧ ∀ b ∈ after, ¬ Q b

section Since
variable {P Q : A → Prop} {a : A}

theorem not_since_nil : ¬ Since P Q [] := by
  intro h
  obtain ⟨before, a, after, he, _⟩ := h
  simp at he

theorem since_snoc : Since P Q (as ++ [a]) ↔ P a ∨ (Since P Q as ∧ ¬ Q a) := by
  constructor
  · intro h
    obtain ⟨before, b, after, he, hb, hafter⟩ := h
    rcases List.eq_nil_or_concat after with rfl | ⟨after, c, rfl⟩
    · obtain ⟨_, hab⟩ := List.append_inj' he rfl
      cases hab
      exact Or.inl hb
    · rw [List.concat_eq_append] at he hafter
      rw [← List.cons_append, ← List.append_assoc] at he
      obtain ⟨has, hac⟩ := List.append_inj' he rfl
      cases hac
      refine Or.inr ⟨⟨before, b, after, has, hb, ?_⟩, hafter a (by simp)⟩
      exact fun d hd => hafter d (List.mem_append_left _ hd)
  · intro h
    rcases h with ha | ⟨⟨before, b, after, rfl, hb, hafter⟩, ha⟩
    · exact ⟨as, a, [], rfl, ha, by simp⟩
    · refine ⟨before, b, after ++ [a], by simp, hb, ?_⟩
      intro d hd
      rcases List.mem_append.mp hd with hd | hd
      · exact hafter d hd
      · rw [List.mem_singleton.mp hd]
        exact ha

theorem Since.exists_mem (h : Since P Q as) : ∃ a ∈ as, P a := by
  obtain ⟨before, a, after, rfl, ha, _⟩ := h
  exact ⟨a, by simp, ha⟩

end Since

end PaperNode.TransitionRuns
