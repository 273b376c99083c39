import Mathlib.Data.List.TakeWhile
import PaperNode.FrontierExchange

/-!
# What a request for frontiers is answered with

A request names the number of the first account, an age and a count. The age is meant to keep
back accounts that have not changed for longer, and the count to bound the answer. The server
skips old accounts when it is built and never again, and it does not read the count. From the
first recent account on it sends all of them.
-/
namespace PaperNode.FrontierAnswer
open BoundedRecursion OrderedTable Blocks BlockStore LedgerQueries LedgerProcess FrontierExchange

/-- `frontier_req` with all its fields. -/
structure CountedReq extends FrontierReq where
  count : BitVec 32

/-- The constructor of `frontier_req_server` and the pairs that are sent from then on. -/
def answer (s : Store) (now : Word64) (fuel : ℕ) (request : CountedReq) :
    Check FrontierAssertion (List (Account × BlockHash)) := do
  let f ← frontierReqServer s now fuel request.toFrontierReq
  sendFrontiers s fuel f

/-- An account that changed within the age asked for. The largest age stands for no limit. -/
def recent (now : Word64) (age : BitVec 32) (i : AccountInfo) : Bool :=
  age = BitVec.allOnes 32 ∨ now.toNat - i.modified.toNat < age.toNat

def recentFrom (s : Store) (now : Word64) (request : FrontierReq) : List (Account × AccountInfo) :=
  s.accounts.entries.filter (fun e => request.start ≤ e.1 ∧ recent now request.age e.2)

/-- What the request asks for: the first `count` of the recent accounts, and the zero pair. -/
def asked (s : Store) (now : Word64) (request : CountedReq) : List (Account × BlockHash) :=
  ((recentFrom s now request.toFrontierReq).take request.count.toNat).map pairOf ++ [(0, 0)]

/-- No clock reading is before the last change of an account. -/
def Past (s : Store) (now : Word64) : Prop :=
  ∀ a i, s.accounts.get a = some i → i.modified.toNat ≤ now.toNat

variable {s : Store} {now : Word64} {age : BitVec 32} {f : Frontier} {k : Account}
  {l : List (Account × AccountInfo)} {e : Account × AccountInfo}

theorem not_recent_iff {a : Account} {i : AccountInfo} (hp : Past s now)
    (hi : s.accounts.get a = some i) (hage : age ≠ BitVec.allOnes 32) :
    recent now age i = false ↔ age.toNat ≤ (now - i.modified).toNat := by
  have hle := hp a i hi
  rw [BitVec.toNat_sub_of_le hle, recent, decide_eq_false_iff_not, not_or, not_lt]
  exact and_iff_right hage

/-- The loop of `skip_old` stops at the first entry that is recent. -/
theorem skipOld_settles (ho : Ordinary s) (hp : Past s now) (hage : age ≠ BitVec.allOnes 32)
    (hl : s.accounts.seek k = l) (hf : Stands f l) :
    ∃ f' k', Settles (fun n => skipOld s now age n f) f' ∧
      s.accounts.seek k' = l.dropWhile (fun e => !recent now age e.2) ∧
      Stands f' (s.accounts.seek k') := by
  induction l generalizing k f with
  | nil =>
      refine ⟨f, k, Settles.of_succ (fun n => ?_), hl, hl ▸ hf⟩
      rw [skipOld, if_neg (fun h => h.1 hf)]
      rfl
  | cons e l ih =>
      cases hf
      have hold := not_recent_iff hp (get_of_seek hl) hage
      cases hr : recent now age e.2 with
      | false =>
          have hrest := seek_succ ho hl
          obtain ⟨f', k', hset, hseek, hstands⟩ := ih hrest (hrest ▸ next_stands s ⟨e.1, e.2⟩)
          refine ⟨f', k', hset.succ (fun n => ?_), ?_, hstands⟩
          · rw [skipOld, if_pos ⟨(ho _ _ (get_of_seek hl)).1, hold.mp hr⟩]
          · rw [hseek, List.dropWhile_cons_of_pos (by simp [hr])]
      | true =>
          refine ⟨⟨e.1, e.2⟩, k, Settles.of_succ (fun n => ?_), ?_, ?_⟩
          · rw [skipOld, if_neg (fun h => absurd (hold.mpr h.2) (by simp [hr]))]
            rfl
          · rw [hl, List.dropWhile_cons_of_neg (by simp [hr])]
          · rw [hl]
            rfl

/-- The pairs sent: every account from the first recent one on. -/
theorem answer_settles (ho : Ordinary s) (hp : Past s now) (request : CountedReq) :
    Settles (fun n => answer s now n request)
      (((s.accounts.seek request.start).dropWhile
        (fun e => !recent now request.age e.2)).map pairOf ++ [(0, 0)]) := by
  -- the constructor stands one before the start, where `next` finds the start itself
  have hstart := next_stands s ⟨request.start - 1, {}⟩
  dsimp only at hstart
  rw [BitVec.sub_add_cancel] at hstart
  by_cases hage : request.age = BitVec.allOnes 32
  · have hall : ∀ e : Account × AccountInfo, recent now request.age e.2 = true := by
      intro e
      rw [recent, decide_eq_true_eq]
      exact Or.inl hage
    rw [List.dropWhile_eq_self_iff.mpr (by simp [hall])]
    refine Settles.bind (Settles.of_forall (fun n => ?_)) (sendFrontiers_stands ho rfl hstart)
    rw [frontierReqServer, if_neg (not_not.mpr hage)]
    rfl
  · obtain ⟨f, k, hskip, hseek, hstands⟩ := skipOld_settles ho hp hage rfl hstart
    rw [← hseek]
    refine Settles.bind (hskip.congr (fun n => ?_)) (sendFrontiers_stands ho rfl hstands)
    rw [frontierReqServer, if_pos hage]

/-- From the start on, no account that is not recent comes after a recent one. -/
def Unbroken (s : Store) (now : Word64) (request : FrontierReq) : Prop :=
  ∀ a i a' i', s.accounts.get a = some i → s.accounts.get a' = some i' → request.start ≤ a →
    a < a' → recent now request.age i = true → recent now request.age i' = true

section Skipped
variable {α : Type*} {p : α → Bool} {xs : List α}

theorem filter_dropWhile_not (p : α → Bool) (xs : List α) :
    (xs.dropWhile (fun x => !p x)).filter p = xs.filter p := by
  induction xs with
  | nil => rfl
  | cons x xs ih =>
      cases hx : p x with
      | false =>
          rw [List.dropWhile_cons_of_pos (by simp [hx]), ih,
            List.filter_cons_of_neg (by simp [hx])]
      | true => rw [List.dropWhile_cons_of_neg (by simp [hx])]

theorem forall_dropWhile_not_iff :
    (∀ x ∈ xs.dropWhile (fun x => !p x), p x = true) ↔
      xs.Pairwise (fun x y => p x = true → p y = true) := by
  induction xs with
  | nil => simp
  | cons x xs ih =>
      rw [List.pairwise_cons, ← ih]
      cases hx : p x with
      | false => simp [List.dropWhile_cons_of_pos, hx]
      | true =>
          rw [List.dropWhile_cons_of_neg (by simp [hx])]
          simp only [List.forall_mem_cons, hx, true_and, forall_const]
          refine (and_iff_left_of_imp (fun h y hy => h y ?_)).symm
          exact (List.dropWhile_sublist _).mem hy

/-- Skipping at the front does what filtering and taking `n` does if nothing was left to filter
or to cut off. -/
theorem map_dropWhile_eq_iff {β : Type*} {g : α → β} {n : ℕ} :
    (xs.dropWhile (fun x => !p x)).map g = ((xs.filter p).take n).map g ↔
      xs.Pairwise (fun x y => p x = true → p y = true) ∧ (xs.filter p).length ≤ n := by
  rw [← filter_dropWhile_not, ← forall_dropWhile_not_iff]
  generalize xs.dropWhile (fun x => !p x) = ys
  constructor
  · intro h
    have hlength := congrArg List.length h
    rw [List.length_map, List.length_map, List.length_take] at hlength
    have hle := List.length_filter_le p ys
    refine ⟨List.length_filter_eq_length_iff.mp (by omega), by omega⟩
  · intro h
    rw [List.take_of_length_le h.2, List.filter_eq_self.mpr h.1]

end Skipped

theorem recentFrom_eq (s : Store) (now : Word64) (request : FrontierReq) :
    recentFrom s now request =
      (s.accounts.seek request.start).filter (fun e => recent now request.age e.2) := by
  rw [Table.seek_eq_filter, List.filter_filter, recentFrom]
  refine List.filter_congr (fun e _ => ?_)
  rw [Bool.decide_and, Bool.and_comm, Bool.decide_eq_true]

theorem unbroken_iff (s : Store) (now : Word64) (request : FrontierReq) :
    Unbroken s now request ↔ (s.accounts.seek request.start).Pairwise
      (fun x y => recent now request.age x.2 = true → recent now request.age y.2 = true) := by
  rw [pairwise_iff_of_sorted (s.accounts.sorted_seek request.start)]
  constructor
  · intro h x hx y hy hlt
    obtain ⟨hx, hle⟩ := Table.mem_seek.mp hx
    exact h _ _ _ _ (Table.mem_entries.mp hx)
      (Table.mem_entries.mp (Table.mem_seek.mp hy).1) hle hlt
  · intro h a i a' i' ha ha' hle hlt
    exact h (a, i) (Table.mem_seek.mpr ⟨Table.mem_entries.mpr ha, hle⟩) (a', i')
      (Table.mem_seek.mpr ⟨Table.mem_entries.mpr ha', hle.trans hlt.le⟩) hlt

/-- A request is answered with what it asks for exactly if no account that is too old comes after
a recent one and the recent accounts are no more than the count. -/
theorem frontier_req_answered_iff (ho : Ordinary s) (hp : Past s now) (request : CountedReq) :
    Settles (fun n => answer s now n request) (asked s now request) ↔
      Unbroken s now request.toFrontierReq ∧
        (recentFrom s now request.toFrontierReq).length ≤ request.count.toNat := by
  have hsent := answer_settles ho hp request
  rw [unbroken_iff, recentFrom_eq, ← map_dropWhile_eq_iff (g := pairOf), ← recentFrom_eq]
  constructor
  · intro h
    exact List.append_cancel_right (hsent.unique h)
  · intro h
    rw [asked, ← h]
    exact hsent

section Sample

/-- Two accounts, of which the second has not changed since time zero. -/
def twoAccounts : Store where
  frontiers := ∅
  accounts := ((∅ : Table Account AccountInfo).put 1 { head := 11, modified := 95 }).put 2
    { head := 22, modified := 0 }
  sendBlocks := ∅
  receiveBlocks := ∅
  openBlocks := ∅
  changeBlocks := ∅
  pending := ∅
  representation := ∅
  checksum := ∅
  clock := 0

theorem twoAccounts_ordinary : Ordinary twoAccounts := ordinary_of_all (by decide)

theorem twoAccounts_past : Past twoAccounts 100 := by
  intro a i hi
  have hall : (twoAccounts.accounts.entries.all fun e =>
      decide (e.2.modified.toNat ≤ (100 : Word64).toNat)) = true := by decide
  exact of_decide_eq_true (List.all_eq_true.mp hall _ (Table.mem_entries.mpr hi))

/-- At time 100 the accounts changed in the last ten seconds are asked for, and the answer has
both. So it has if any account may be sent, but only one. -/
theorem frontier_req_answered_too_much : Ordinary twoAccounts ∧ Past twoAccounts 100 ∧
    (asked twoAccounts 100 ⟨⟨0, 10⟩, BitVec.allOnes 32⟩ = [(1, 11), (0, 0)] ∧
      Settles (fun n => answer twoAccounts 100 n ⟨⟨0, 10⟩, BitVec.allOnes 32⟩)
        [(1, 11), (2, 22), (0, 0)]) ∧
    asked twoAccounts 100 ⟨⟨0, BitVec.allOnes 32⟩, 1⟩ = [(1, 11), (0, 0)] ∧
      Settles (fun n => answer twoAccounts 100 n ⟨⟨0, BitVec.allOnes 32⟩, 1⟩)
        [(1, 11), (2, 22), (0, 0)] := by
  have hsent := answer_settles twoAccounts_ordinary twoAccounts_past
  exact ⟨twoAccounts_ordinary, twoAccounts_past, ⟨by decide, hsent _⟩, by decide, hsent _⟩

theorem frontier_req_answered_second : Ordinary twoAccounts ∧ Past twoAccounts 100 ∧
    (Settles (fun n => answer twoAccounts 100 n ⟨⟨2, 200⟩, 1⟩)
        (asked twoAccounts 100 ⟨⟨2, 200⟩, 1⟩) ↔
      Unbroken twoAccounts 100 ⟨2, 200⟩ ∧
        (recentFrom twoAccounts 100 ⟨2, 200⟩).length ≤ (1 : BitVec 32).toNat) ∧
    (recentFrom twoAccounts 100 ⟨2, 200⟩).length = 1 :=
  ⟨twoAccounts_ordinary, twoAccounts_past,
    frontier_req_answered_iff twoAccounts_ordinary twoAccounts_past ⟨⟨2, 200⟩, 1⟩, by decide⟩

end Sample

end PaperNode.FrontierAnswer
