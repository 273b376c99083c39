import Mathlib.Algebra.BigOperators.Group.List.Basic
import Mathlib.Data.List.Induction
import Mathlib.Tactic.Common

/-!
# Sums grouped by key

A list of keys and amounts is summed up key by key, as a program does with a map
from keys to running totals: look the key up, enter it with zero if it is new, add
the amount. The result holds each key once, with the sum of its amounts, whatever
the order of the list.
-/
namespace PaperNode.GroupedSums

variable {K M : Type*} [DecidableEq K] [AddCommMonoid M]

def credit (k : K) (m : M) : List (K × M) → List (K × M)
  | [] => [(k, 0 + m)]
  | e :: es => if e.1 = k then (e.1, e.2 + m) :: es else e :: credit k m es

def sums (l : List (K × M)) : List (K × M) := l.foldl (fun t e => credit e.1 e.2 t) []

def sumOf (k : K) (l : List (K × M)) : M := (l.map (fun e => if e.1 = k then e.2 else 0)).sum

theorem sumOf_perm {l l' : List (K × M)} (h : l.Perm l') (k : K) : sumOf k l = sumOf k l' :=
  (h.map _).sum_eq

theorem sumOf_credit (j k : K) (m : M) (t : List (K × M)) :
    sumOf j (credit k m t) = sumOf j t + if k = j then m else 0 := by
  induction t with
  | nil => simp [sumOf, credit]
  | cons e es ih =>
      unfold credit
      split_ifs with he hj hj
      · subst he hj
        simp only [sumOf, List.map_cons, List.sum_cons, if_true]
        rw [add_right_comm]
      · subst he
        simp [sumOf, hj]
      · simp only [sumOf, List.map_cons, List.sum_cons] at ih ⊢
        rw [ih, if_pos hj, add_assoc]
      · simp only [sumOf, List.map_cons, List.sum_cons] at ih ⊢
        rw [ih, if_neg hj, add_assoc]

theorem mem_keys_credit {j k : K} {m : M} {t : List (K × M)} :
    j ∈ (credit k m t).map Prod.fst ↔ j = k ∨ j ∈ t.map Prod.fst := by
  induction t with
  | nil => simp [credit]
  | cons e es ih =>
      unfold credit
      split_ifs with he
      · subst he
        simp
      · simp only [List.map_cons, List.mem_cons, ih]
        tauto

theorem nodup_keys_credit {k : K} {m : M} {t : List (K × M)} (h : (t.map Prod.fst).Nodup) :
    ((credit k m t).map Prod.fst).Nodup := by
  induction t with
  | nil => simp [credit]
  | cons e es ih =>
      rw [List.map_cons, List.nodup_cons] at h
      unfold credit
      split_ifs with he
      · rw [List.map_cons, List.nodup_cons]
        exact h
      · rw [List.map_cons, List.nodup_cons, mem_keys_credit]
        refine ⟨?_, ih h.2⟩
        intro hm
        rcases hm with hk | hm
        · exact he hk
        · exact h.1 hm

/-- With its keys distinct, an entry holds the whole sum of its key. -/
theorem eq_sumOf_of_mem {k : K} {m : M} {t : List (K × M)} (h : (t.map Prod.fst).Nodup)
    (hm : (k, m) ∈ t) : m = sumOf k t := by
  induction t with
  | nil => cases hm
  | cons e es ih =>
      rw [List.map_cons, List.nodup_cons] at h
      rcases List.mem_cons.mp hm with rfl | hm
      · have hzero : sumOf k es = 0 := by
          apply List.sum_eq_zero
          intro x hx
          obtain ⟨f, hf, rfl⟩ := List.mem_map.mp hx
          rw [if_neg]
          intro hk
          exact h.1 (List.mem_map.mpr ⟨f, hf, hk⟩)
        change m = (if k = k then m else 0) + sumOf k es
        rw [hzero, if_pos rfl, add_zero]
      · have hk : e.1 ≠ k := by
          intro hk
          exact h.1 (List.mem_map.mpr ⟨(k, m), hm, hk.symm⟩)
        change m = (if e.1 = k then e.2 else 0) + sumOf k es
        rw [if_neg hk, zero_add]
        exact ih h.2 hm

theorem sums_snoc (l : List (K × M)) (e : K × M) : sums (l ++ [e]) = credit e.1 e.2 (sums l) := by
  simp [sums]

theorem nodup_keys_sums (l : List (K × M)) : ((sums l).map Prod.fst).Nodup := by
  induction l using List.reverseRecOn with
  | nil => exact List.nodup_nil
  | append_singleton l e ih =>
      rw [sums_snoc]
      exact nodup_keys_credit ih

theorem mem_keys_sums {k : K} {l : List (K × M)} :
    k ∈ (sums l).map Prod.fst ↔ k ∈ l.map Prod.fst := by
  induction l using List.reverseRecOn with
  | nil => rfl
  | append_singleton l e ih =>
      rw [sums_snoc, mem_keys_credit, ih]
      simp [or_comm]

theorem sumOf_sums (k : K) (l : List (K × M)) : sumOf k (sums l) = sumOf k l := by
  induction l using List.reverseRecOn with
  | nil => rfl
  | append_singleton l e ih =>
      rw [sums_snoc, sumOf_credit, ih]
      simp [sumOf]

theorem mem_sums {k : K} {m : M} {l : List (K × M)} :
    (k, m) ∈ sums l ↔ k ∈ l.map Prod.fst ∧ m = sumOf k l := by
  constructor
  · intro h
    refine ⟨mem_keys_sums.mp (List.mem_map.mpr ⟨_, h, rfl⟩), ?_⟩
    rw [eq_sumOf_of_mem (nodup_keys_sums l) h, sumOf_sums]
  · intro h
    obtain ⟨hk, rfl⟩ := h
    obtain ⟨e, he, rfl⟩ := List.mem_map.mp (mem_keys_sums.mpr hk)
    rw [← sumOf_sums, ← eq_sumOf_of_mem (nodup_keys_sums l) he]
    exact he

end PaperNode.GroupedSums
