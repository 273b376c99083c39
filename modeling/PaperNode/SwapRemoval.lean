import Mathlib.Data.List.Perm.Basic
import Mathlib.Tactic.Common

/-!
# Selection without replacement

The elements of a list in front of a mark are live. An element is selected by its place; the last
live element is written over it and the mark moves down by one. No element is lost and none is
selected twice, whichever places are chosen. Where all elements are live, the list is cut instead of
moving a mark.
-/
namespace PaperNode.SwapRemoval

variable {α : Type*} {l : List α} {i m : ℕ}

theorem take_perm_cons_set (hi : i ≤ m) (hm : m < l.length) :
    (l.take (m + 1)).Perm (l[i] :: (l.set i l[m]).take m) := by
  rw [← List.take_append_getElem hm]
  rcases Nat.eq_or_lt_of_le hi with rfl | hlt
  · rw [List.set_getElem_self]
    exact List.perm_append_singleton _ _
  · have hlength : i < (l.take m).length := by
      rw [List.length_take]
      omega
    have hselected : (l.take m)[i] = l[i] := List.getElem_take
    rw [List.take_set, ← hselected]
    calc List.Perm (l.take m ++ [l[m]]) (l[m] :: l.take m) := List.perm_append_singleton _ _
      List.Perm _ (l[m] :: (l.take m)[i] :: (l.take m).eraseIdx i) :=
        ((List.getElem_cons_eraseIdx_perm hlength).symm).cons _
      List.Perm _ ((l.take m)[i] :: l[m] :: (l.take m).eraseIdx i) := .swap _ _ _
      List.Perm _ ((l.take m)[i] :: (l.take m).set i l[m]) :=
        ((List.set_perm_cons_eraseIdx hlength _).symm).cons _

/-- The last element is written over the one at the place, and the list is cut by one. -/
def remove (l : List α) (i : ℕ) (h : i < l.length) : List α := (l.set i l[l.length - 1]).dropLast

theorem length_remove (h : i < l.length) : (remove l i h).length = l.length - 1 := by
  rw [remove, List.length_dropLast, List.length_set]

theorem remove_last (h : i < l.length) (hi : i = l.length - 1) : remove l i h = l.dropLast := by
  subst hi
  rw [remove, List.set_getElem_self]

theorem perm_cons_remove (h : i < l.length) : l.Perm (l[i] :: remove l i h) := by
  have hlast : l.length - 1 < l.length := by omega
  have hperm := take_perm_cons_set (Nat.le_sub_one_of_lt h) hlast
  rw [Nat.sub_add_cancel (by omega), List.take_length] at hperm
  rwa [remove, List.dropLast_eq_take, List.length_set]

end PaperNode.SwapRemoval
