import Mathlib.Data.List.Basic
import Mathlib.Tactic.Common

/-!
# Trees of named values

A tree holds a value and a list of named children. Names may be repeated; a search finds the
first child with a name. A path is a list of names. `put` writes the value at a path and adds
the children that are missing at the end of their lists.

A tree that is filled with different names has its values in the order they were written.
-/
namespace PaperNode.PropertyTree

inductive Tree (K D : Type*) where
  | node (data : D) (children : List (K × Tree K D))

def segments {α : Type*} [DecidableEq α] (separator : α) (path : List α) : List (List α) :=
  if path = [] then [] else path.splitOn separator

namespace Tree
variable {K D : Type*}

def data : Tree K D → D
  | .node d _ => d

def children : Tree K D → List (K × Tree K D)
  | .node _ cs => cs

variable [DecidableEq K]

def child (t : Tree K D) (k : K) : Option (Tree K D) :=
  (t.children.find? (fun m => m.1 = k)).map Prod.snd

def getChild : Tree K D → List K → Option (Tree K D)
  | t, [] => some t
  | t, k :: ks => (t.child k).bind (fun c => c.getChild ks)

def get (t : Tree K D) (path : List K) : Option D := (t.getChild path).map data

def setChild (k : K) (change : Tree K D → Tree K D) (new : Tree K D) :
    List (K × Tree K D) → List (K × Tree K D)
  | [] => [(k, new)]
  | m :: ms => if m.1 = k then (m.1, change m.2) :: ms else m :: setChild k change new ms

def put [Inhabited D] : List K → D → Tree K D → Tree K D
  | [], d, .node _ cs => .node d cs
  | k :: ks, d, .node d₀ cs => .node d₀ (setChild k (put ks d) (put ks d (.node default [])) cs)

theorem get_single (t : Tree K D) (k : K) :
    t.get [k] = (t.children.find? (fun m => m.1 = k)).map (fun m => m.2.data) := by
  unfold get getChild child
  cases t.children.find? (fun m => m.1 = k) with
  | none => rfl
  | some m => rfl

theorem get_of_first {t : Tree K D} {before after : List (K × Tree K D)} {m : K × Tree K D}
    (ht : t.children = before ++ m :: after) (hm : ∀ x ∈ before, x.1 ≠ m.1) :
    t.get [m.1] = some m.2.data := by
  have hnone : before.find? (fun x => x.1 = m.1) = none := by
    rw [List.find?_eq_none]
    intro x hx
    simpa using hm x hx
  rw [get_single, ht, List.find?_append, hnone, Option.none_or,
    List.find?_cons_of_pos (by simp), Option.map_some]

section Put
variable [Inhabited D]

theorem children_put_fresh {t : Tree K D} {k : K} (d : D) (hk : ∀ m ∈ t.children, m.1 ≠ k) :
    (t.put [k] d).children = t.children ++ [(k, .node d [])] := by
  obtain ⟨d₀, cs⟩ := t
  change setChild k _ _ cs = cs ++ _
  simp only [children] at hk
  induction cs with
  | nil => rfl
  | cons m ms ih =>
      rw [setChild, if_neg (hk m (by simp)), ih (fun x hx => hk x (by simp [hx])),
        List.cons_append]

def ofPairs (l : List (K × D)) : Tree K D :=
  l.foldl (fun t m => t.put [m.1] m.2) (.node default [])

theorem children_ofPairs {l : List (K × D)} (hl : (l.map Prod.fst).Nodup) :
    (ofPairs l).children = l.map (fun m => (m.1, .node m.2 [])) := by
  have general : ∀ (l : List (K × D)) (t : Tree K D), (l.map Prod.fst).Nodup →
      (∀ m ∈ l, ∀ x ∈ t.children, x.1 ≠ m.1) →
      (l.foldl (fun t m => t.put [m.1] m.2) t).children =
        t.children ++ l.map (fun m => (m.1, .node m.2 [])) := by
    intro l
    induction l with
    | nil => simp
    | cons m l ih =>
        intro t hl ht
        rw [List.map_cons, List.nodup_cons] at hl
        have hput := children_put_fresh m.2 (ht m (by simp))
        rw [List.foldl_cons, ih _ hl.2, hput, List.append_assoc]
        · rfl
        · intro x hx y hy
          rw [hput] at hy
          rcases List.mem_append.mp hy with hy | hy
          · exact ht x (by simp [hx]) y hy
          · rw [List.mem_singleton.mp hy]
            intro heq
            exact hl.1 (heq ▸ List.mem_map_of_mem hx)
  rw [ofPairs, general l _ hl (by simp [children])]
  rfl

theorem get_ofPairs {l : List (K × D)} (hl : (l.map Prod.fst).Nodup) {m : K × D} (hm : m ∈ l) :
    (ofPairs l).get [m.1] = some m.2 := by
  obtain ⟨before, after, rfl⟩ := List.append_of_mem hm
  have hfirst : ∀ x ∈ before.map (fun m => ((m.1, .node m.2 []) : K × Tree K D)), x.1 ≠ m.1 := by
    intro x hx heq
    obtain ⟨y, hy, rfl⟩ := List.mem_map.mp hx
    rw [List.map_append, List.map_cons] at hl
    exact (List.nodup_append.mp hl).2.2 _ (List.mem_map_of_mem hy) _ List.mem_cons_self heq
  have hchildren := children_ofPairs hl
  rw [List.map_append, List.map_cons] at hchildren
  exact get_of_first (m := (m.1, .node m.2 [])) hchildren hfirst

end Put

end Tree

theorem segments_single {α : Type*} [DecidableEq α] {separator : α} {path : List α}
    (hne : path ≠ []) (hs : separator ∉ path) : segments separator path = [path] := by
  rw [segments, if_neg hne, List.splitOn_eq_singleton hs]

end PaperNode.PropertyTree
