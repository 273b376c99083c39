import Mathlib.Logic.Relation
import Mathlib.Data.Set.Finite.Basic
import Mathlib.Data.Finite.Defs
import Mathlib.Data.Set.Finite.Lemmas
import Mathlib.Data.Set.Card

/-!
# Nodes that name earlier nodes

A partial map of keys to nodes, where a node names other keys. Nothing here says
what a node is. `Link` is one named key, `Reach` a chain of them, and `Nearest`
the first node with a given property on a chain of single parents.

The two changes of such a map that keep it well founded are adding a node under
a fresh key and removing a node that no other node names. The lemmas say what
each change does to links, chains and nearest nodes.
-/
namespace PaperNode.LinkedNodes

variable {K V : Type*}

/-- The node under `k` names `p`. -/
def Link (nodes : K → Option V) (links : V → K → Prop) (k p : K) : Prop :=
  ∃ v, nodes k = some v ∧ links v p

def Reach (nodes : K → Option V) (links : V → K → Prop) : K → K → Prop :=
  Relation.ReflTransGen (Link nodes links)

def Within (nodes nodes' : K → Option V) : Prop := ∀ k v, nodes k = some v → nodes' k = some v

def Ranked (nodes : K → Option V) (links : V → K → Prop) (rank : K → ℕ) : Prop :=
  ∀ k p, Link nodes links k p → rank p < rank k

variable {nodes nodes' : K → Option V} {links : V → K → Prop}

theorem Within.trans {third : K → Option V} (h : Within nodes nodes')
    (h' : Within nodes' third) : Within nodes third :=
  fun k v hk => h' k v (h k v hk)

theorem Within.link (h : Within nodes nodes') {k p : K} (hk : Link nodes links k p) :
    Link nodes' links k p := by
  obtain ⟨v, hv, hp⟩ := hk
  exact ⟨v, h k v hv, hp⟩

theorem Within.reach (h : Within nodes nodes') {k p : K} (hk : Reach nodes links k p) :
    Reach nodes' links k p :=
  Relation.ReflTransGen.mono (fun _ _ hl => h.link hl) _ _ hk

theorem Within.ranked {rank : K → ℕ} (h : Within nodes nodes') (hr : Ranked nodes' links rank) :
    Ranked nodes links rank :=
  fun k p hk => hr k p (h.link hk)

theorem Within.get_of_stored (h : Within nodes nodes') {k : K} {v : V} (hk : nodes k ≠ none)
    (hv : nodes' k = some v) : nodes k = some v := by
  obtain ⟨w, hw⟩ := Option.ne_none_iff_exists'.mp hk
  rw [hw, ← h k w hw, hv]

theorem Within.reach_back (h : Within nodes nodes')
    (closed : ∀ k p, Link nodes links k p → nodes p ≠ none) {k p : K} (hk : nodes k ≠ none)
    (hr : Reach nodes' links k p) : Reach nodes links k p ∧ nodes p ≠ none := by
  induction hr with
  | refl => exact ⟨.refl, hk⟩
  | tail _ hl ih =>
      obtain ⟨hreach, hc⟩ := ih
      obtain ⟨v, hv, hp⟩ := hl
      have hlink : Link nodes links _ _ := ⟨v, h.get_of_stored hc hv, hp⟩
      exact ⟨hreach.tail hlink, closed _ _ hlink⟩

theorem Within.stored_of_reach (h : Within nodes nodes')
    (closed : ∀ k p, Link nodes links k p → nodes' p ≠ none → nodes p ≠ none)
    {k p : K} (hk : nodes k ≠ none) (hp : nodes' p ≠ none) (hr : Reach nodes' links k p) :
    nodes p ≠ none := by
  induction hr using Relation.ReflTransGen.head_induction_on with
  | refl => exact hk
  | @head a c hac hcp ih =>
      obtain ⟨v, hv, hl⟩ := hac
      -- The next node is either the target or has a link of its own.
      have hc : nodes' c ≠ none := by
        rcases Relation.ReflTransGen.cases_head hcp with rfl | ⟨d, ⟨u, hu, _⟩, _⟩
        · exact hp
        · simp [hu]
      exact ih (closed a c ⟨v, h.get_of_stored hk hv, hl⟩ hc)

theorem Ranked.le_of_reach {rank : K → ℕ} (hr : Ranked nodes links rank) {k p : K}
    (h : Reach nodes links k p) : rank p ≤ rank k := by
  induction h with
  | refl => exact le_rfl
  | tail _ hl ih => exact (hr _ _ hl).le.trans ih

theorem Ranked.lt_of_reach {rank : K → ℕ} (hr : Ranked nodes links rank) {k p : K}
    (h : Reach nodes links k p) (hne : k ≠ p) : rank p < rank k := by
  rcases Relation.ReflTransGen.cases_head h with rfl | ⟨c, hl, hc⟩
  · exact absurd rfl hne
  · exact (hr.le_of_reach hc).trans_lt (hr _ _ hl)

theorem wellFounded_of_acyclic [Finite K] {R : K → K → Prop}
    (h : ∀ k, ¬ Relation.TransGen R k k) : WellFounded R := by
  have htrans : IsTrans K (Relation.TransGen R) := ⟨fun _ _ _ => Relation.TransGen.trans⟩
  have hirrefl : Std.Irrefl (Relation.TransGen R) := ⟨h⟩
  exact Subrelation.wf (fun hkp => Relation.TransGen.single hkp)
    (Finite.wellFounded_of_trans_of_irrefl (Relation.TransGen R))

theorem acyclic_of_rank {R : K → K → Prop} (rank : K → ℕ) (h : ∀ k p, R k p → rank p < rank k)
    (k : K) : ¬ Relation.TransGen R k k := by
  have hlt : ∀ {k p}, Relation.TransGen R k p → rank p < rank k := by
    intro k p hkp
    induction hkp with
    | single hkp => exact h _ _ hkp
    | tail _ hkp ih => exact (h _ _ hkp).trans ih
  exact fun hk => lt_irrefl _ (hlt hk)

theorem exists_ranked_iff [Finite K] : (∃ rank, Ranked nodes links rank) ↔
    ∀ k, ¬ Relation.TransGen (Link nodes links) k k := by
  constructor
  · intro h
    obtain ⟨rank, hr⟩ := h
    exact acyclic_of_rank rank hr
  · -- the number of nodes reached
    intro h
    refine ⟨fun k => {j | Reach nodes links k j}.ncard, ?_⟩
    intro k p hl
    refine Set.ncard_lt_ncard ⟨fun j hj => Relation.ReflTransGen.head hl hj, ?_⟩ (Set.toFinite _)
    intro hsub
    have hpk : Reach nodes links p k :=
      hsub (show Reach nodes links k k from Relation.ReflTransGen.refl)
    exact h k (Relation.TransGen.head'_iff.mpr ⟨p, hl, hpk⟩)

theorem Ranked.exists_unnamed [Finite K] {rank : K → ℕ} (hr : Ranked nodes links rank) (k : K) :
    ∃ t, Reach nodes links t k ∧ ∀ j, ¬ Link nodes links j t := by
  obtain ⟨t, ht, hmax⟩ := Set.exists_max_image {t | Reach nodes links t k} rank
    (Set.toFinite _) ⟨k, Relation.ReflTransGen.refl⟩
  refine ⟨t, ht, ?_⟩
  intro j hj
  have hjk : Reach nodes links j k := Relation.ReflTransGen.head hj ht
  exact absurd (hr j t hj) (not_lt.mpr (hmax j hjk))

theorem Ranked.not_blocked {rank : K → ℕ} (hr : Ranked nodes links rank) {blocked : K → Prop}
    (h : ∀ k, blocked k → ∃ p, blocked p ∧ Link nodes links k p) (k : K) : ¬ blocked k := by
  induction hn : rank k using Nat.strong_induction_on generalizing k with
  | _ n ih =>
      intro hk
      obtain ⟨p, hp, hl⟩ := h k hk
      exact ih (rank p) (hn ▸ hr k p hl) p rfl hp

/-- The stored nodes from which a node is reached. -/
def dependents (nodes : K → Option V) (links : V → K → Prop) (k : K) : Set K :=
  {j | nodes j ≠ none ∧ Reach nodes links j k}

theorem Ranked.dependents_lt [Finite K] {rank : K → ℕ} (hr : Ranked nodes links rank) {k p : K}
    (h : Reach nodes links k p) (hne : k ≠ p) (hp : nodes p ≠ none) :
    (dependents nodes links k).ncard < (dependents nodes links p).ncard := by
  refine Set.ncard_lt_ncard ⟨fun j hj => ⟨hj.1, hj.2.trans h⟩, ?_⟩ (Set.toFinite _)
  intro hsub
  have hpk : Reach nodes links p k := (hsub ⟨hp, Relation.ReflTransGen.refl⟩).2
  have hle := hr.le_of_reach hpk
  have hlt := hr.lt_of_reach h hne
  omega

theorem Within.dependents_lt [Finite K] (hw : Within nodes nodes') {k p : K}
    (hk : k ∈ dependents nodes' links p) (gone : nodes k = none) :
    (dependents nodes links p).ncard < (dependents nodes' links p).ncard := by
  refine Set.ncard_lt_ncard ⟨?_, fun hsub => (hsub hk).1 gone⟩ (Set.toFinite _)
  intro j hj
  obtain ⟨v, hv⟩ := Option.ne_none_iff_exists'.mp hj.1
  exact ⟨by simp [hw j v hv], hw.reach hj.2⟩

section Parents
variable {parent : V → Option K}

abbrev Parent (parent : V → Option K) : V → K → Prop := fun v p => parent v = some p

theorem Link.parent_unique {k p q : K} (hp : Link nodes (Parent parent) k p)
    (hq : Link nodes (Parent parent) k q) : p = q := by
  obtain ⟨v, hv, hvp⟩ := hp
  obtain ⟨w, hw, hwq⟩ := hq
  have hvw : v = w := Option.some.inj (hv.symm.trans hw)
  subst hvw
  exact Option.some.inj (hvp.symm.trans hwq)

theorem Reach.total {k p q : K} (hp : Reach nodes (Parent parent) k p)
    (hq : Reach nodes (Parent parent) k q) :
    Reach nodes (Parent parent) p q ∨ Reach nodes (Parent parent) q p :=
  Relation.ReflTransGen.total_of_right_unique (fun _ _ _ h h' => h.parent_unique h') hp hq

theorem Reach.parent_iff {k p q : K} (hl : Link nodes (Parent parent) k p) :
    Reach nodes (Parent parent) k q ↔ q = k ∨ Reach nodes (Parent parent) p q := by
  constructor
  · intro hr
    rcases Relation.ReflTransGen.cases_head hr with rfl | ⟨c, hc, hr⟩
    · exact Or.inl rfl
    · cases hc.parent_unique hl
      exact Or.inr hr
  · rintro (rfl | hr)
    · exact .refl
    · exact .head hl hr

theorem Reach.eq_of_orphan {k p : K} {v : V} (hv : nodes k = some v) (ho : parent v = none)
    (h : Reach nodes (Parent parent) k p) : k = p := by
  rcases Relation.ReflTransGen.cases_head h with rfl | ⟨c, ⟨w, hw, hc⟩, _⟩
  · rfl
  · have hvw : v = w := Option.some.inj (hv.symm.trans hw)
    subst hvw
    cases ho.symm.trans hc

/-- The first node with property `P` on the chain of parents from a node. -/
inductive Nearest (nodes : K → Option V) (parent : V → Option K) (P : V → Prop) : K → K → Prop
  | here {k : K} {v : V} : nodes k = some v → P v → Nearest nodes parent P k k
  | back {k p r : K} {v : V} : nodes k = some v → ¬ P v → parent v = some p →
      Nearest nodes parent P p r → Nearest nodes parent P k r

variable {P : V → Prop}

theorem Nearest.reach {k r : K} (h : Nearest nodes parent P k r) :
    Reach nodes (Parent parent) k r := by
  induction h with
  | here _ _ => exact Relation.ReflTransGen.refl
  | back hv _ hp _ ih => exact Relation.ReflTransGen.head ⟨_, hv, hp⟩ ih

theorem Nearest.target {k r : K} (h : Nearest nodes parent P k r) :
    ∃ v, nodes r = some v ∧ P v := by
  induction h with
  | here hv hP => exact ⟨_, hv, hP⟩
  | back _ _ _ _ ih => exact ih

theorem Nearest.unique {k r t : K} (h : Nearest nodes parent P k r)
    (h' : Nearest nodes parent P k t) : r = t := by
  induction h with
  | @here k v hv hP =>
      cases h' with
      | here _ _ => rfl
      | back hw hn _ _ =>
          cases hv.symm.trans hw
          exact absurd hP hn
  | @back k p r v hv hn hp _ ih =>
      cases h' with
      | here hw hP =>
          cases hv.symm.trans hw
          exact absurd hP hn
      | back hw _ hq hr =>
          cases hv.symm.trans hw
          cases hp.symm.trans hq
          exact ih hr

theorem Nearest.within (h : Within nodes nodes') {k r : K} (hn : Nearest nodes parent P k r) :
    Nearest nodes' parent P k r := by
  induction hn with
  | here hv hP => exact .here (h _ _ hv) hP
  | back hv hP hp _ ih => exact .back (h _ _ hv) hP hp ih

theorem Nearest.congr_on {S : K → Prop} (agree : ∀ k, S k → nodes' k = nodes k)
    (closed : ∀ k p, S k → Link nodes (Parent parent) k p → S p) {k r : K} (hk : S k)
    (h : Nearest nodes parent P k r) : Nearest nodes' parent P k r := by
  induction h with
  | here hv hP => exact .here ((agree _ hk).trans hv) hP
  | back hv hP hp _ ih =>
      exact .back ((agree _ hk).trans hv) hP hp (ih (closed _ _ hk ⟨_, hv, hp⟩))

end Parents

section Update
variable [DecidableEq K] {k₀ : K}

theorem within_insert {v₀ : V} (h : nodes k₀ = none) :
    Within nodes (Function.update nodes k₀ (some v₀)) := by
  intro k v hk
  have hne : k ≠ k₀ := by
    rintro rfl
    rw [h] at hk
    cases hk
  rw [Function.update_of_ne hne]
  exact hk

theorem erase_within : Within (Function.update nodes k₀ none) nodes := by
  intro k v hk
  by_cases hne : k = k₀
  · subst hne
    simp at hk
  · rwa [Function.update_of_ne hne] at hk

theorem link_insert {v₀ : V} (h : nodes k₀ = none) {k p : K} :
    Link (Function.update nodes k₀ (some v₀)) links k p ↔
      (k = k₀ ∧ links v₀ p) ∨ Link nodes links k p := by
  by_cases hk : k = k₀
  · subst hk
    simp [Link, h]
  · simp [Link, hk]

theorem link_erase {k p : K} :
    Link (Function.update nodes k₀ none) links k p ↔ k ≠ k₀ ∧ Link nodes links k p := by
  by_cases hk : k = k₀
  · subst hk
    simp [Link]
  · simp [Link, hk]

theorem Ranked.insert {rank : K → ℕ} {v₀ : V} (hr : Ranked nodes links rank)
    (fresh : nodes k₀ = none) (unnamed : ∀ k, ¬ Link nodes links k k₀)
    (bound : ℕ) (hb : ∀ p, links v₀ p → p ≠ k₀ ∧ rank p < bound) :
    Ranked (Function.update nodes k₀ (some v₀)) links (Function.update rank k₀ bound) := by
  intro k p hk
  rcases (link_insert fresh).mp hk with ⟨rfl, hl⟩ | hl
  · obtain ⟨hne, hlt⟩ := hb p hl
    rwa [Function.update_of_ne hne, Function.update_self]
  · have hp : p ≠ k₀ := by
      rintro rfl
      exact unnamed k hl
    have hk : k ≠ k₀ := by
      rintro rfl
      obtain ⟨v, hv, _⟩ := hl
      rw [fresh] at hv
      cases hv
    rw [Function.update_of_ne hp, Function.update_of_ne hk]
    exact hr k p hl

theorem Nearest.erase {parent : V → Option K} {P : V → Prop}
    (unnamed : ∀ k, ¬ Link nodes (Parent parent) k k₀) {k r : K} (hk : k ≠ k₀)
    (h : Nearest nodes parent P k r) :
    Nearest (Function.update nodes k₀ none) parent P k r :=
  h.congr_on (S := fun j => j ≠ k₀) (fun _ hj => Function.update_of_ne hj _ _)
    (fun j _ _ hl hp => unnamed j (hp ▸ hl)) hk

end Update
end PaperNode.LinkedNodes
