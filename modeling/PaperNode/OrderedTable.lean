import Mathlib.Order.Lattice
import Mathlib.Data.List.Pairwise
import Mathlib.Data.List.Basic
import Mathlib.Data.List.Induction
import Mathlib.Data.Prod.Basic
import Mathlib.Tactic.Common

/-!
# Finite tables kept in key order

A table is a list of entries with strictly increasing keys. The order is a
field of the structure, so no operation below can build a table with a key
stored twice or out of place. `get`, `put` and `del` are the three primitives
of a sorted key-value database; `fold` combines one value for every entry.

A fold under a commutative and associative operation changes with `put` and
`del` only by the value of the entry touched. These two equations are all that
accounting arguments over a table need.
-/
namespace PaperNode.OrderedTable

structure Table (K V : Type*) [LinearOrder K] where
  entries : List (K × V)
  sorted : entries.Pairwise (fun a b => a.1 < b.1)

section Entries
variable {K V : Type*} [LinearOrder K]

def find (k : K) : List (K × V) → Option V
  | [] => none
  | e :: es => if k = e.1 then some e.2 else find k es

/-- Sorted insertion; an entry with the same key is replaced in place. -/
def insertEntry (k : K) (v : V) : List (K × V) → List (K × V)
  | [] => [(k, v)]
  | e :: es =>
      if k < e.1 then (k, v) :: e :: es
      else if k = e.1 then (k, v) :: es
      else e :: insertEntry k v es

def eraseEntry (k : K) : List (K × V) → List (K × V)
  | [] => []
  | e :: es => if k = e.1 then es else e :: eraseEntry k es

theorem find_eq_none_of_lt {k : K} {es : List (K × V)} (h : ∀ e ∈ es, k < e.1) :
    find k es = none := by
  induction es with
  | nil => rfl
  | cons e es ih =>
      have he : k ≠ e.1 := ne_of_lt (h e (by simp))
      simp only [find, if_neg he]
      exact ih (fun x hx => h x (by simp [hx]))

theorem find_mem {k : K} {v : V} {es : List (K × V)} (h : find k es = some v) :
    (k, v) ∈ es := by
  induction es with
  | nil => simp [find] at h
  | cons e es ih =>
      simp only [find] at h
      split_ifs at h with hk
      · subst hk
        cases h
        simp
      · exact List.mem_cons_of_mem _ (ih h)

theorem find_of_mem {k : K} {v : V} {es : List (K × V)}
    (hs : es.Pairwise (fun a b => a.1 < b.1)) (h : (k, v) ∈ es) : find k es = some v := by
  induction es with
  | nil => simp at h
  | cons e es ih =>
      rw [List.pairwise_cons] at hs
      simp only [find]
      rcases List.mem_cons.mp h with rfl | ht
      · simp
      · have hk : k ≠ e.1 := (ne_of_lt (hs.1 _ ht)).symm
        rw [if_neg hk]
        exact ih hs.2 ht

theorem mem_insertEntry {k : K} {v : V} {x : K × V} {es : List (K × V)}
    (h : x ∈ insertEntry k v es) : x = (k, v) ∨ x ∈ es := by
  induction es with
  | nil => simpa [insertEntry] using h
  | cons e es ih =>
      simp only [insertEntry] at h
      split_ifs at h with h₁ h₂
      · simpa using h
      · rcases List.mem_cons.mp h with h | h
        · exact Or.inl h
        · exact Or.inr (List.mem_cons_of_mem _ h)
      · rcases List.mem_cons.mp h with h | h
        · exact Or.inr (by simp [h])
        · exact (ih h).imp_right (List.mem_cons_of_mem _)

theorem insertEntry_sorted (k : K) (v : V) {es : List (K × V)}
    (hs : es.Pairwise (fun a b => a.1 < b.1)) :
    (insertEntry k v es).Pairwise (fun a b => a.1 < b.1) := by
  induction es with
  | nil => simp [insertEntry]
  | cons e es ih =>
      have ht := List.pairwise_cons.mp hs
      simp only [insertEntry]
      split_ifs with h₁ h₂
      · refine List.pairwise_cons.mpr ⟨?_, hs⟩
        intro x hx
        rcases List.mem_cons.mp hx with rfl | hx
        · exact h₁
        · exact h₁.trans (ht.1 x hx)
      · subst h₂
        exact List.pairwise_cons.mpr ⟨ht.1, ht.2⟩
      · refine List.pairwise_cons.mpr ⟨?_, ih ht.2⟩
        intro x hx
        rcases mem_insertEntry hx with rfl | hx
        · exact lt_of_le_of_ne (not_lt.mp h₁) (Ne.symm h₂)
        · exact ht.1 x hx

theorem eraseEntry_sublist (k : K) (es : List (K × V)) : (eraseEntry k es).Sublist es := by
  induction es with
  | nil => exact List.Sublist.refl _
  | cons e es ih =>
      simp only [eraseEntry]
      split_ifs
      · exact List.sublist_cons_self e es
      · exact ih.cons_cons e

theorem find_insertEntry (k j : K) (v : V) (es : List (K × V)) :
    find j (insertEntry k v es) = if j = k then some v else find j es := by
  induction es with
  | nil => simp [insertEntry, find]
  | cons e es ih =>
      by_cases hj : j = k
      · subst hj
        simp only [insertEntry]
        split_ifs with h₁ h₂
        · simp [find]
        · simp [find]
        · simp [find, h₂, ih]
      · simp only [insertEntry]
        split_ifs with h₁ h₂
        · simp [find, hj]
        · have : j ≠ e.1 := fun h => hj (h.trans h₂.symm)
          simp [find, hj, this]
        · simp [find, hj, ih]

theorem find_eraseEntry {es : List (K × V)} (hs : es.Pairwise (fun a b => a.1 < b.1))
    (k j : K) : find j (eraseEntry k es) = if j = k then none else find j es := by
  induction es with
  | nil => simp [eraseEntry, find]
  | cons e es ih =>
      have ht := List.pairwise_cons.mp hs
      simp only [eraseEntry]
      split_ifs with h₁ h₂ h₂
      · subst h₂
        exact find_eq_none_of_lt (fun x hx => by rw [h₁]; exact ht.1 x hx)
      · have : j ≠ e.1 := fun h => h₂ (h.trans h₁.symm)
        simp [find, this]
      · subst h₂
        simp [find, h₁, ih ht.2]
      · simp [find, ih ht.2, h₂]

theorem entries_eq_of_find {es fs : List (K × V)} (he : es.Pairwise (fun a b => a.1 < b.1))
    (hf : fs.Pairwise (fun a b => a.1 < b.1)) (h : ∀ k, find k es = find k fs) : es = fs := by
  have sub : ∀ {as bs : List (K × V)}, as.Pairwise (fun a b => a.1 < b.1) →
      bs.Pairwise (fun a b => a.1 < b.1) → (∀ k, find k as = find k bs) →
      ∀ x ∈ as, x ∈ bs := by
    intro as bs ha _ hk x hx
    exact find_mem ((hk x.1).symm.trans (find_of_mem ha hx))
  have nodup : ∀ {as : List (K × V)}, as.Pairwise (fun a b => a.1 < b.1) → as.Nodup :=
    fun ha => ha.imp (fun {a b} hab heq => absurd (heq ▸ hab) (lt_irrefl a.1))
  have perm : es.Perm fs := by
    refine (List.perm_ext_iff_of_nodup (nodup he) (nodup hf)).mpr ?_
    intro x
    exact ⟨sub he hf h x, sub hf he (fun k => (h k).symm) x⟩
  exact perm.eq_of_pairwise (fun a b _ _ hab hba => absurd (hab.trans hba) (lt_irrefl _)) he hf

theorem pairwise_iff_of_sorted {R : K × V → K × V → Prop} {es : List (K × V)}
    (hs : es.Pairwise (fun a b => a.1 < b.1)) :
    es.Pairwise R ↔ ∀ a ∈ es, ∀ b ∈ es, a.1 < b.1 → R a b := by
  constructor
  · intro hR a ha b hb hlt
    obtain ⟨before, after, rfl⟩ := List.append_of_mem ha
    obtain ⟨_, _, hbefore⟩ := List.pairwise_append.mp hs
    rcases List.mem_append.mp hb with hb | hb
    · exact absurd hlt (hbefore b hb a (by simp)).not_gt
    · rcases List.mem_cons.mp hb with rfl | hb
      · exact absurd hlt (lt_irrefl _)
      · exact (List.pairwise_cons.mp (List.pairwise_append.mp hR).2.1).1 b hb
  · intro h
    exact hs.imp_of_mem (fun ha hb hlt => h _ ha _ hb hlt)

end Entries

namespace Table
variable {K V M : Type*} [LinearOrder K]

instance emptyTable : EmptyCollection (Table K V) := ⟨⟨[], List.Pairwise.nil⟩⟩

def get (t : Table K V) (k : K) : Option V := find k t.entries

def put (t : Table K V) (k : K) (v : V) : Table K V :=
  ⟨insertEntry k v t.entries, insertEntry_sorted k v t.sorted⟩

def del (t : Table K V) (k : K) : Table K V :=
  ⟨eraseEntry k t.entries, t.sorted.sublist (eraseEntry_sublist k t.entries)⟩

@[simp] theorem get_empty (k : K) : (∅ : Table K V).get k = none := rfl

theorem eq_empty {t : Table K V} (h : t.entries = []) : t = ∅ := by
  cases t
  cases h
  rfl

theorem get_put (t : Table K V) (k j : K) (v : V) :
    (t.put k v).get j = if j = k then some v else t.get j :=
  find_insertEntry k j v t.entries

theorem get_del (t : Table K V) (k j : K) :
    (t.del k).get j = if j = k then none else t.get j :=
  find_eraseEntry t.sorted k j

@[simp] theorem get_put_self (t : Table K V) (k : K) (v : V) : (t.put k v).get k = some v := by
  rw [get_put, if_pos rfl]

@[simp] theorem get_del_self (t : Table K V) (k : K) : (t.del k).get k = none := by
  rw [get_del, if_pos rfl]

theorem get_put_ne (t : Table K V) {k j : K} (v : V) (h : j ≠ k) :
    (t.put k v).get j = t.get j := by
  rw [get_put, if_neg h]

theorem get_del_ne (t : Table K V) {k j : K} (h : j ≠ k) : (t.del k).get j = t.get j := by
  rw [get_del, if_neg h]

theorem ext_get {t u : Table K V} (h : ∀ k, t.get k = u.get k) : t = u := by
  have he := entries_eq_of_find t.sorted u.sorted h
  cases t
  cases u
  cases he
  rfl

section Map
variable {W : Type*} (g : V → W)

def mapValues (t : Table K V) : Table K W :=
  ⟨t.entries.map (fun e => (e.1, g e.2)), List.pairwise_map.mpr t.sorted⟩

theorem get_mapValues (t : Table K V) (k : K) : (t.mapValues g).get k = (t.get k).map g := by
  obtain ⟨es, hs⟩ := t
  change find k (es.map (fun e => (e.1, g e.2))) = (find k es).map g
  clear hs
  induction es with
  | nil => rfl
  | cons e es ih =>
      simp only [List.map_cons, find]
      split_ifs
      · rfl
      · exact ih

end Map

section Fold
variable (op : M → M → M) (e : M) (f : K → V → M)

def fold (t : Table K V) : M := t.entries.foldr (fun x acc => op (f x.1 x.2) acc) e

theorem fold_mapValues {W : Type*} (g : W → V) (t : Table K W) :
    (t.mapValues g).fold op e f = t.fold op e (fun k w => f k (g w)) := by
  unfold fold mapValues
  rw [List.foldr_map]

variable {op e f}

theorem fold_congr {g : K → V → M} {t : Table K V}
    (h : ∀ k v, t.get k = some v → f k v = g k v) : t.fold op e f = t.fold op e g := by
  have hm : ∀ x ∈ t.entries, f x.1 x.2 = g x.1 x.2 :=
    fun x hx => h x.1 x.2 (find_of_mem t.sorted hx)
  simp only [fold]
  generalize t.entries = es at hm
  induction es with
  | nil => rfl
  | cons x xs ih =>
      simp only [List.foldr_cons]
      rw [hm x (by simp), ih (fun y hy => hm y (by simp [hy]))]

theorem fold_congr_map {W : Type*} {f : V → M} {g : W → M} {t : Table K V} {u : Table K W}
    (h : ∀ k, (t.get k).map f = (u.get k).map g) :
    t.fold op e (fun _ v => f v) = u.fold op e (fun _ w => g w) := by
  have he : t.mapValues f = u.mapValues g := by
    apply ext_get
    intro k
    rw [get_mapValues, get_mapValues, h]
  have hfold := congrArg (fold op e (fun _ m => m)) he
  rwa [fold_mapValues, fold_mapValues] at hfold

theorem put_del (t : Table K V) (k : K) (v : V) : (t.put k v).del k = t.del k := by
  refine ext_get fun j => ?_
  by_cases h : j = k
  · subst h
    simp
  · rw [get_del_ne _ h, get_put_ne _ _ h, get_del_ne _ h]

variable (op e f)
variable [Std.Associative op] [Std.Commutative op] [Std.LawfulRightIdentity op e]

theorem fold_del (t : Table K V) (k : K) :
    op ((t.del k).fold op e f) ((t.get k).elim e (f k)) = t.fold op e f := by
  have assoc : ∀ a b c, op (op a b) c = op a (op b c) := Std.Associative.assoc
  obtain ⟨es, hs⟩ := t
  simp only [del, get, fold]
  clear hs
  induction es with
  | nil => exact Std.LawfulRightIdentity.right_id e
  | cons x xs ih =>
      simp only [eraseEntry, find, List.foldr_cons]
      split_ifs with hk
      · subst hk
        exact Std.Commutative.comm _ _
      · rw [List.foldr_cons, assoc, ih]

theorem fold_put (t : Table K V) (k : K) (v : V) :
    op ((t.put k v).fold op e f) ((t.get k).elim e (f k)) = op (t.fold op e f) (f k v) := by
  have assoc : ∀ a b c, op (op a b) c = op a (op b c) := Std.Associative.assoc
  have comm : ∀ a b, op a b = op b a := Std.Commutative.comm
  have hp := fold_del op e f (t.put k v) k
  rw [put_del, get_put_self, Option.elim_some] at hp
  rw [← hp, ← fold_del op e f t k, assoc, assoc, comm (f k v)]

end Fold

section Total
variable (f : K → V → ℕ)

def total (t : Table K V) : ℕ := t.fold (· + ·) 0 f

@[simp] theorem total_empty : (∅ : Table K V).total f = 0 := rfl

theorem total_del (t : Table K V) (k : K) :
    (t.del k).total f + (t.get k).elim 0 (f k) = t.total f :=
  fold_del (· + ·) 0 f t k

theorem total_put (t : Table K V) (k : K) (v : V) :
    (t.put k v).total f + (t.get k).elim 0 (f k) = t.total f + f k v :=
  fold_put (· + ·) 0 f t k v

theorem total_mono {g : K → V → ℕ} (t : Table K V) (h : ∀ k v, f k v ≤ g k v) :
    t.total f ≤ t.total g := by
  unfold total fold
  induction t.entries with
  | nil => exact Nat.le_refl 0
  | cons x xs ih => exact Nat.add_le_add (h x.1 x.2) ih

theorem le_total {t : Table K V} {k : K} {v : V} (h : t.get k = some v) :
    f k v ≤ t.total f := by
  have ht := total_del f t k
  rw [h, Option.elim_some] at ht
  omega

theorem sum_lookups_le (u : Table K V) {ks : List K} (hk : ks.Nodup) :
    ks.foldr (fun k acc => (u.get k).elim 0 (f k) + acc) 0 ≤ u.total f := by
  induction ks generalizing u with
  | nil => exact Nat.zero_le _
  | cons k ks ih =>
      rw [List.nodup_cons] at hk
      have hrest := ih (u.del k) hk.2
      have hsame : ks.foldr (fun j acc => ((u.del k).get j).elim 0 (f j) + acc) 0 =
          ks.foldr (fun j acc => (u.get j).elim 0 (f j) + acc) 0 := by
        apply List.foldr_ext
        intro j hj acc
        rw [get_del_ne]
        intro he
        exact hk.1 (he ▸ hj)
      have htotal := total_del f u k
      rw [hsame] at hrest
      rw [List.foldr_cons]
      omega

end Total

section Listing

theorem mem_entries {t : Table K V} {k : K} {v : V} : (k, v) ∈ t.entries ↔ t.get k = some v :=
  ⟨find_of_mem t.sorted, find_mem⟩

theorem nodup_keys (t : Table K V) : (t.entries.map Prod.fst).Nodup :=
  List.pairwise_map.mpr (t.sorted.imp (fun h => ne_of_lt h))

def keys (t : Table K V) : List K := t.entries.map Prod.fst

theorem mem_keys {t : Table K V} {k : K} : k ∈ t.keys ↔ t.get k ≠ none := by
  constructor
  · intro h
    obtain ⟨e, he, rfl⟩ := List.mem_map.mp h
    rw [mem_entries.mp he]
    exact Option.some_ne_none _
  · intro h
    obtain ⟨v, hv⟩ := Option.ne_none_iff_exists'.mp h
    exact List.mem_map.mpr ⟨(k, v), mem_entries.mpr hv, rfl⟩

theorem perm_keys_del {t : Table K V} {k : K} (h : t.get k ≠ none) :
    t.keys.Perm (k :: (t.del k).keys) := by
  obtain ⟨es, hs⟩ := t
  simp only [get] at h
  simp only [keys, del]
  clear hs
  induction es with
  | nil => exact absurd rfl h
  | cons e es ih =>
      simp only [find] at h
      simp only [eraseEntry]
      split_ifs at h ⊢ with hk
      · rw [hk]
        exact List.Perm.refl _
      · exact ((ih h).cons e.1).trans (List.Perm.swap _ _ _)

theorem length_keys_lt {W : Type*} {t : Table K V} {u : Table K W} {k : K}
    (hu : ∀ j, u.get j ≠ none → t.get j ≠ none) (hk : t.get k ≠ none) (gone : u.get k = none) :
    u.keys.length < t.keys.length := by
  have hnodup : (k :: u.keys).Nodup := List.nodup_cons.mpr
    ⟨fun hmem => mem_keys.mp hmem gone, u.nodup_keys⟩
  have hsub : k :: u.keys ⊆ t.keys := by
    intro j hj
    rcases List.mem_cons.mp hj with rfl | hj
    · exact mem_keys.mpr hk
    · exact mem_keys.mpr (hu j (mem_keys.mp hj))
  exact hnodup.length_le_of_subset hsub

theorem get_foldl_del (ks : List K) (t : Table K V) (j : K) :
    (ks.foldl del t).get j = if j ∈ ks then none else t.get j := by
  induction ks generalizing t with
  | nil => rfl
  | cons k ks ih =>
      rw [List.foldl_cons, ih, get_del]
      by_cases hj : j = k
      · simp [hj]
      · simp [hj]

def first (t : Table K V) : Option (K × V) := t.entries.head?

theorem first_eq_some {t : Table K V} {k : K} {v : V} :
    t.first = some (k, v) ↔ t.get k = some v ∧ ∀ j w, t.get j = some w → k ≤ j := by
  obtain ⟨es, hs⟩ := t
  unfold first
  constructor
  · intro h
    obtain ⟨rest, rfl⟩ := List.head?_eq_some_iff.mp h
    refine ⟨mem_entries.mp (by simp), ?_⟩
    intro j w hj
    rcases List.mem_cons.mp (mem_entries.mpr hj) with he | hm
    · cases he
      exact le_rfl
    · exact le_of_lt ((List.pairwise_cons.mp hs).1 _ hm)
  · intro h
    obtain ⟨hk, hmin⟩ := h
    cases es with
    | nil => cases hk
    | cons e rest =>
        rcases List.mem_cons.mp (mem_entries.mpr hk) with rfl | hm
        · rfl
        · -- The head would be smaller than the smallest key.
          have hlt := (List.pairwise_cons.mp hs).1 _ hm
          have hle := hmin e.1 e.2 (mem_entries.mp (by simp))
          exact absurd hlt (not_lt.mpr hle)

theorem exists_first {t : Table K V} {k : K} {v : V} (h : t.get k = some v) :
    ∃ e, t.first = some e := by
  have hm := mem_entries.mpr h
  unfold first
  cases he : t.entries with
  | nil =>
      rw [he] at hm
      cases hm
  | cons e rest => exact ⟨e, rfl⟩

theorem first_eq_none {t : Table K V} : t.first = none ↔ t = ∅ := by
  constructor
  · intro h
    exact eq_empty (List.head?_eq_none_iff.mp h)
  · intro h
    rw [h]
    rfl

theorem length_eq_one_iff {t : Table K V} {k : K} {v : V} (h : t.get k = some v) :
    t.entries.length = 1 ↔ ∀ j w, t.get j = some w → j = k := by
  have hm := mem_entries.mpr h
  constructor
  · intro hl j w hj
    obtain ⟨e, he⟩ := List.length_eq_one_iff.mp hl
    have hj := mem_entries.mpr hj
    rw [he, List.mem_singleton] at hm hj
    rw [← hm] at hj
    exact congrArg Prod.fst hj
  · intro hall
    have hkeys : t.entries.map Prod.fst ⊆ [k] := by
      intro x hx
      obtain ⟨e, he, rfl⟩ := List.mem_map.mp hx
      simp [hall e.1 e.2 (mem_entries.mp he)]
    have hle := t.nodup_keys.length_le_of_subset hkeys
    have hpos := List.length_pos_of_mem hm
    simp only [List.length_map, List.length_singleton] at hle
    omega

/-- The entries from the first whose key is not below `k` on. -/
def seek (t : Table K V) (k : K) : List (K × V) := t.entries.dropWhile (fun e => e.1 < k)

theorem sorted_seek (t : Table K V) (k : K) : (t.seek k).Pairwise (fun a b => a.1 < b.1) :=
  t.sorted.sublist (List.dropWhile_sublist _)

theorem seek_eq_filter (t : Table K V) (k : K) :
    t.seek k = t.entries.filter (fun e => k ≤ e.1) := by
  obtain ⟨es, hs⟩ := t
  unfold seek
  dsimp only
  induction es with
  | nil => rfl
  | cons x es ih =>
      obtain ⟨hx, hs⟩ := List.pairwise_cons.mp hs
      by_cases hk : x.1 < k
      · rw [List.dropWhile_cons_of_pos (by simpa using hk), ih hs,
          List.filter_cons_of_neg (by simpa using hk)]
      · -- from here on no key is below
        rw [List.dropWhile_cons_of_neg (by simpa using hk)]
        refine (List.filter_eq_self.mpr ?_).symm
        intro e he
        rcases List.mem_cons.mp he with rfl | he
        · simpa using hk
        · simpa using (not_lt.mp hk).trans (hx e he).le

theorem mem_seek {t : Table K V} {k : K} {e : K × V} :
    e ∈ t.seek k ↔ e ∈ t.entries ∧ k ≤ e.1 := by
  rw [seek_eq_filter, List.mem_filter, decide_eq_true_eq]

theorem seek_eq_tail {t : Table K V} {k k' : K} {e : K × V} {es : List (K × V)}
    (h : t.seek k = e :: es) (hk : ∀ j, e.1 < j ↔ k' ≤ j) : t.seek k' = es := by
  have hle : k ≤ e.1 := (mem_seek.mp (h ▸ List.mem_cons_self : e ∈ t.seek k)).2
  have hsorted : (e :: es).Pairwise (fun a b => a.1 < b.1) := h ▸ t.sorted_seek k
  calc
    t.seek k' = t.entries.filter (fun x => k' ≤ x.1) := seek_eq_filter t k'
    _ = (t.seek k).filter (fun x => k' ≤ x.1) := by
        rw [seek_eq_filter, List.filter_filter]
        refine List.filter_congr (fun x _ => ?_)
        rw [Bool.eq_iff_iff, Bool.and_eq_true]
        simp only [decide_eq_true_eq]
        exact ⟨fun hx => ⟨hx, hle.trans ((hk x.1).mpr hx).le⟩, fun hx => hx.1⟩
    _ = es.filter (fun x => k' ≤ x.1) := by
        rw [h, List.filter_cons_of_neg]
        simpa using mt (hk e.1).mpr (lt_irrefl e.1)
    _ = es := by
        refine List.filter_eq_self.mpr (fun x hx => ?_)
        simpa using (hk x.1).mp ((List.pairwise_cons.mp hsorted).1 x hx)

theorem nodup_seek (t : Table K V) (k : K) : ((t.seek k).map Prod.fst).Nodup :=
  t.nodup_keys.sublist ((List.dropWhile_sublist _).map Prod.fst)

/-- The search for a key ends at the entry with the smallest key not below it. -/
theorem head_seek_eq_some {t : Table K V} {k j : K} {v : V} :
    (t.seek k).head? = some (j, v) ↔ t.get j = some v ∧ k ≤ j ∧
      ∀ i w, t.get i = some w → k ≤ i → j ≤ i := by
  have hsorted := t.sorted_seek k
  constructor
  · intro h
    obtain ⟨rest, hl⟩ := List.head?_eq_some_iff.mp h
    have hj := mem_seek.mp (List.mem_of_mem_head? h)
    refine ⟨mem_entries.mp hj.1, hj.2, ?_⟩
    intro i w hi hk
    have hm : (i, w) ∈ t.seek k := mem_seek.mpr ⟨mem_entries.mpr hi, hk⟩
    rw [hl] at hm hsorted
    rcases List.mem_cons.mp hm with he | hm
    · exact le_of_eq (congrArg Prod.fst he).symm
    · exact ((List.pairwise_cons.mp hsorted).1 _ hm).le
  · intro h
    obtain ⟨hj, hkj, hmin⟩ := h
    have hm : (j, v) ∈ t.seek k := mem_seek.mpr ⟨mem_entries.mpr hj, hkj⟩
    cases hl : t.seek k with
    | nil =>
        rw [hl] at hm
        cases hm
    | cons e es =>
        have he := mem_seek.mp (hl ▸ List.mem_cons_self : e ∈ t.seek k)
        rw [hl] at hm hsorted
        rcases List.mem_cons.mp hm with heq | hm
        · rw [heq]
          rfl
        · -- The head would have a key below the smallest one.
          have hlt := (List.pairwise_cons.mp hsorted).1 _ hm
          exact absurd hlt (not_lt.mpr (hmin e.1 e.2 (mem_entries.mp he.1) he.2))

theorem head_seek {t : Table K V} {k : K} {v : V} :
    (t.seek k).head? = some (k, v) ↔ t.get k = some v := by
  rw [head_seek_eq_some]
  exact ⟨fun h => h.1, fun h => ⟨h, le_rfl, fun _ _ _ hk => hk⟩⟩

theorem head_seek_eq_none {t : Table K V} {k : K} :
    (t.seek k).head? = none ↔ ∀ j w, t.get j = some w → j < k := by
  rw [List.head?_eq_none_iff, List.eq_nil_iff_forall_not_mem]
  constructor
  · intro h j w hj
    by_contra hle
    exact h (j, w) (mem_seek.mpr ⟨mem_entries.mpr hj, not_lt.mp hle⟩)
  · intro h e he
    obtain ⟨hmem, hk⟩ := mem_seek.mp he
    exact absurd (h e.1 e.2 (mem_entries.mp hmem)) (not_lt.mpr hk)

/-- Entries written one after the other; the last one under a key stays. -/
def ofEntries (l : List (K × V)) : Table K V := l.foldl (fun t e => t.put e.1 e.2) ∅

theorem ofEntries_snoc (l : List (K × V)) (e : K × V) :
    ofEntries (l ++ [e]) = (ofEntries l).put e.1 e.2 := by
  simp [ofEntries]

theorem get_ofEntries_eq_some {l : List (K × V)} {k : K} {v : V} :
    (ofEntries l).get k = some v ↔ (l.filter (fun e => e.1 = k)).getLast? = some (k, v) := by
  induction l using List.reverseRecOn with
  | nil =>
      constructor
      · intro h
        cases h
      · intro h
        cases h
  | append_singleton l e ih =>
      rw [ofEntries_snoc, get_put, List.filter_append]
      by_cases hk : e.1 = k
      · rw [if_pos hk.symm, List.filter_singleton, decide_eq_true hk, cond_true,
          List.getLast?_concat, Option.some_inj, Option.some_inj, Prod.ext_iff]
        exact (and_iff_right hk).symm
      · rw [if_neg (fun h => hk h.symm), List.filter_singleton, decide_eq_false hk, cond_false,
          List.append_nil]
        exact ih

theorem mem_of_get_ofEntries {l : List (K × V)} {k : K} {v : V}
    (h : (ofEntries l).get k = some v) : (k, v) ∈ l :=
  (List.mem_filter.mp (List.mem_of_getLast? (get_ofEntries_eq_some.mp h))).1

theorem exists_get_ofEntries {l : List (K × V)} {k : K} {v : V} (h : (k, v) ∈ l) :
    ∃ w, (ofEntries l).get k = some w := by
  have hm : (k, v) ∈ l.filter (fun e => e.1 = k) := List.mem_filter.mpr ⟨h, by simp⟩
  obtain ⟨e, he⟩ := Option.isSome_iff_exists.mp (List.getLast?_isSome.mpr (List.ne_nil_of_mem hm))
  have hk : e.1 = k := by simpa using (List.mem_filter.mp (List.mem_of_getLast? he)).2
  exact ⟨e.2, get_ofEntries_eq_some.mpr (he.trans (by rw [← hk]))⟩

theorem ofEntries_entries (t : Table K V) : ofEntries t.entries = t := by
  refine ext_get fun k => Option.ext fun v => ?_
  constructor
  · intro h
    exact mem_entries.mp (mem_of_get_ofEntries h)
  · intro h
    obtain ⟨w, hw⟩ := exists_get_ofEntries (mem_entries.mpr h)
    have hsame : w = v := Option.some.inj ((mem_entries.mp (mem_of_get_ofEntries hw)).symm.trans h)
    rw [hw, hsame]

end Listing
end Table
end PaperNode.OrderedTable
