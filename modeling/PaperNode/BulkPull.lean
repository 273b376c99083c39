import PaperNode.FrontierExchange

/-!
# Pulling account chains

A `bulk_pull` names an account and a hash. The server walks down the chain of the account
from its head and sends the blocks it meets before that hash, or all of them if it does
not have the hash. The client files what it receives in the table `unchecked`.

Two ledgers without conflicts hold initial pieces of the same chains. So where the client
does not have the head of the server, the server has the head of the client, and the
blocks sent for an account are those that the client does not have.
-/
namespace PaperNode.BulkPull
open BoundedRecursion OrderedTable LinkedNodes TransitionRuns Blocks BlockStore LedgerQueries
open LedgerProcess BlockLattice QueryCorrectness ChainInvariant IndexInvariant LedgerRuns
open BlockSetLedger PartialLedger FrontierExchange
open RollbackFuture hiding returns

inductive PullAssertion where
  | ledger (site : Assertion)
  | currentStored
  deriving DecidableEq, Repr

/-- `bulk_pull`. -/
structure Request where
  start : Account
  endHash : BlockHash

/-- `bulk_pull_server`. -/
structure Server where
  request : Request
  current : BlockHash

/-- `bulk_pull_server::set_current_end`. -/
def setCurrentEnd (s : Store) (fuel : ℕ) (request : Request) : Check PullAssertion Server := do
  let request := if s.blockExists request.endHash then request else { request with endHash := 0 }
  match s.accountGet request.start with
  | none => return ⟨request, request.endHash⟩
  | some info =>
      if request.endHash ≠ 0 then do
        let account ← relabel .ledger (account s.blockGet fuel request.endHash)
        if account = request.start then return ⟨request, info.head⟩
        else return ⟨request, request.endHash⟩
      else return ⟨request, info.head⟩

/-- `bulk_pull_server::get_next`. Behind an open block the end is moved to where the walk is. -/
def Server.getNext (s : Store) (p : Server) : Check PullAssertion (Option Block × Server) :=
  if p.current ≠ p.request.endHash then do
    let result ← demand (s.blockGet p.current) .currentStored
    if result.previous ≠ 0 then return (some result, { p with current := result.previous })
    else return (some result, { p with request := { p.request with endHash := p.current } })
  else return (none, p)

/-- `bulk_pull_server::send_next` until it is finished: the blocks sent. -/
def sendBlocks (s : Store) : ℕ → Server → Check PullAssertion (List Block)
  | 0, _ => exhaust
  | fuel + 1, p => do
      match ← p.getNext s with
      | (none, _) => return []
      | (some block, p) => do
          let rest ← sendBlocks s fuel p
          return block :: rest

def bulkPull (s : Store) (fuel : ℕ) (request : Request) : Check PullAssertion (List Block) := do
  let p ← setCurrentEnd s fuel request
  sendBlocks s fuel p

abbrev Unchecked := Table BlockHash Block

/-- `bulk_pull_client::received_block` for each block of a list. -/
def receiveBlocks (E : Env) (unchecked : Unchecked) (bs : List Block) : Unchecked :=
  bs.foldl (fun t b => t.put (E.hash b) b) unchecked

/-- `bulk_pull_client::request` until the end of `pulls`, answered from the ledger `s`. -/
def pullAll (E : Env) (s : Store) (fuel : ℕ) : Unchecked → List (Account × BlockHash) →
    Check PullAssertion Unchecked
  | unchecked, [] => return unchecked
  | unchecked, (account, endHash) :: rest => do
      let bs ← bulkPull s fuel ⟨account, endHash⟩
      pullAll E s fuel (receiveBlocks E unchecked bs) rest

variable {E : Env} {s u A B U : Store} {b : Block} {a : Account} {e h k : BlockHash}
  {i j : AccountInfo} {bs : List Block}

section Walk

theorem not_reach_head (hs : Chains E s.blockGet) (h₀ : s.blockGet 0 = none)
    (hh : s.blockGet h ≠ none) (he : e = 0 ∨ Reach s.blockGet Previous h e) (hne : h ≠ e) :
    ¬ Reach s.blockGet Previous e h := by
  intro hr
  rcases he with rfl | he
  · rw [eq_zero_of_reach h₀ hr] at hh
    exact hh h₀
  · obtain ⟨rank, _, hrank⟩ := Chains.ranked_previous hs
    have hlt := hrank.lt_of_reach he hne
    have hle := hrank.le_of_reach hr
    omega

theorem sendBlocks_end (s : Store) (a : Account) (e : BlockHash) :
    Settles (fun n => sendBlocks s n ⟨⟨a, e⟩, e⟩) [] := by
  refine Settles.of_succ (fun n => ?_)
  rw [sendBlocks, Server.getNext, if_neg (not_not.mpr rfl)]
  rfl

def Server.after (p : Server) (b : Block) : Server :=
  if b.previous ≠ 0 then { p with current := b.previous }
  else { p with request := { p.request with endHash := p.current } }

theorem getNext_end {p : Server} (hend : p.current = p.request.endHash) :
    p.getNext s = .ok (none, p) := by
  rw [Server.getNext, if_neg (not_not.mpr hend)]
  rfl

theorem getNext_block {p : Server} (hne : p.current ≠ p.request.endHash)
    (hb : s.blockGet p.current = some b) : p.getNext s = .ok (some b, p.after b) := by
  rw [Server.getNext, if_pos hne, hb]
  simp only [demand, ok_bind, Server.after]
  split_ifs <;> rfl

theorem sendBlocks_cons {p : Server} (hb : s.blockGet p.current = some b)
    (hne : p.current ≠ p.request.endHash)
    (hset : Settles (fun n => sendBlocks s n (p.after b)) bs) :
    Settles (fun n => sendBlocks s n p) (b :: bs) := by
  have hnext : Settles (fun n => sendBlocks s n (p.after b) >>= fun rest => pure (b :: rest))
      (b :: bs) := hset.bind (Settles.of_forall fun _ => rfl)
  refine hnext.succ (fun n => ?_)
  rw [sendBlocks, getNext_block hne hb]
  rfl

/-- The blocks sent are those from the current one down to the end. -/
theorem sendBlocks_settles (hs : Chains E s.blockGet) (h₀ : s.blockGet 0 = none)
    (hh : s.blockGet h ≠ none) (he : e = 0 ∨ Reach s.blockGet Previous h e) :
    ∃ bs, Settles (fun n => sendBlocks s n ⟨⟨a, e⟩, h⟩) bs ∧
      (∀ b ∈ bs, s.blockGet (E.hash b) = some b) ∧
      ∀ k, k ∈ bs.map E.hash ↔
        Reach s.blockGet Previous h k ∧ ¬ Reach s.blockGet Previous e k := by
  obtain ⟨rank, _, hrank⟩ := Chains.ranked_previous hs
  induction hn : rank h using Nat.strong_induction_on generalizing h with
  | _ n ih =>
      by_cases hstop : h = e
      · subst hstop
        exact ⟨[], sendBlocks_end s a h, by simp, by simp⟩
      obtain ⟨b, hb⟩ := Option.ne_none_iff_exists'.mp hh
      have hkey := hs.keyed h b hb
      have habove := not_reach_head hs h₀ hh he hstop
      cases hp : b.previousLink with
      | none =>
          have hprev : b.previous = 0 := by rw [Block.previous_eq, hp, Option.getD_none]
          refine ⟨[b], sendBlocks_cons hb hstop ?_, by simpa [hkey] using hb, ?_⟩
          · rw [Server.after, if_neg (not_not.mpr hprev)]
            exact sendBlocks_end s a h
          · intro k
            rw [List.map_singleton, List.mem_singleton, hkey]
            constructor
            · rintro rfl
              exact ⟨.refl, habove⟩
            · rintro ⟨hr, _⟩
              exact (hr.eq_of_orphan hb hp).symm
      | some p =>
          have hlink : Link s.blockGet Previous h p := ⟨b, hb, hp⟩
          have hstored := hs.previous h p hlink
          have hprev : b.previous = p := by rw [Block.previous_eq, hp, Option.getD_some]
          have hp₀ : b.previous ≠ 0 := fun heq => hstored (hprev ▸ heq ▸ h₀)
          have he' : e = 0 ∨ Reach s.blockGet Previous p e :=
            he.imp_right (fun hr => ((Reach.parent_iff hlink).mp hr).resolve_left
              (fun heq => hstop heq.symm))
          obtain ⟨rest, hset, hall, hmem⟩ :=
            ih (rank p) (hn ▸ hrank h p hlink) hstored he' rfl
          refine ⟨b :: rest, sendBlocks_cons hb hstop ?_, ?_, ?_⟩
          · rw [Server.after, if_pos hp₀, hprev]
            exact hset
          · intro c hc
            rcases List.mem_cons.mp hc with rfl | hc
            · rw [hkey]
              exact hb
            · exact hall c hc
          · intro k
            rw [List.map_cons, List.mem_cons, hkey, hmem k, Reach.parent_iff hlink]
            constructor
            · rintro (rfl | ⟨hr, hnot⟩)
              · exact ⟨Or.inl rfl, habove⟩
              · exact ⟨Or.inr hr, hnot⟩
            · rintro ⟨rfl | hr, hnot⟩
              · exact Or.inl rfl
              · exact Or.inr ⟨hr, hnot⟩

/-- An account that is sent whole, since the end is not stored: the walk starts at its head. -/
theorem setCurrentEnd_unstored (he : s.blockGet e = none) (hj : s.accounts.get a = some j) (n : ℕ) :
    setCurrentEnd s n ⟨a, e⟩ = .ok ⟨⟨a, 0⟩, j.head⟩ := by
  have hex : s.blockExists e = false := Store.blockExists_eq_false.mpr he
  simp only [setCurrentEnd, hex, Bool.false_eq_true, if_false, Store.accountGet, hj, ne_eq,
    not_true_eq_false]
  rfl

theorem setCurrentEnd_settles (hs : Chains E s.blockGet) (h₀ : s.blockGet 0 = none)
    (hj : s.accounts.get a = some j) (ha : a ≠ 0) (he : Owner s.blockGet e a) :
    Settles (fun n => setCurrentEnd s n ⟨a, e⟩) ⟨⟨a, e⟩, j.head⟩ := by
  have hstored := he.stored
  have hex : s.blockExists e = true :=
    Store.blockExists_iff.mpr (Option.ne_none_iff_exists'.mp hstored)
  have hne : e ≠ 0 := fun heq => hstored (heq ▸ h₀)
  filter_upwards [account_settles hs.addressed he ha] with n hn
  simp only [setCurrentEnd, hex, if_true, Store.accountGet, hj, ne_eq, hne, not_false_eq_true,
    relabel_eq_ok.mpr hn, ok_bind]
  rfl

end Walk

section Pieces
variable (hE : Proper E) (hA : Part E A U) (hB : Part E B U)

theorem stored_below (hA : Part E A U) (hB : Part E B U) (hh : A.blockGet h ≠ none)
    (hr : Reach B.blockGet Previous h k) : A.blockGet k ≠ none :=
  (hA.reach hh (hB.within.reach hr)).2

include hA hB

theorem reach_head (hi : A.accounts.get a = some i) (hj : B.accounts.get a = some j)
    (hnot : A.blockGet j.head = none) : Reach B.blockGet Previous j.head i.head := by
  have hU := hB.whole
  have hoi := hA.part.linked.heads a i hi
  have hoj := hB.part.linked.heads a j hj
  obtain ⟨t, ht, hti⟩ := exists_head hU.linked hU.indexed (hoi.1.within hA.within)
  obtain ⟨t', ht', htj⟩ := exists_head hU.linked hU.indexed (hoj.1.within hB.within)
  cases ht.symm.trans ht'
  rcases hti.total htj with hij | hji
  · exact absurd hnot (hA.reach hoi.1.stored hij).2
  · exact (hB.reach hoj.1.stored hji).1

theorem not_stored_of_unknown (hi : A.accounts.get a = none) (hk : Owner B.blockGet k a) :
    A.blockGet k = none := by
  by_contra hstored
  exact not_owner_of_unknown hA.part.linked hA.part.indexed hi
    (hA.owner hstored (hk.within hB.within))

theorem not_stored_iff (hi : A.accounts.get a = some i) (hhead : B.blockGet i.head ≠ none)
    (hk : Owner B.blockGet k a) :
    A.blockGet k = none ↔ ¬ Reach B.blockGet Previous i.head k := by
  constructor
  · intro hnot hr
    exact stored_below hA hB (hA.part.linked.heads a i hi).1.stored hr hnot
  · intro hnr
    by_contra hstored
    obtain ⟨i', hi', hr⟩ := exists_head hA.part.linked hA.part.indexed
      (hA.owner hstored (hk.within hB.within))
    cases hi.symm.trans hi'
    exact hnr (hB.reach hhead (hA.within.reach hr)).1

include hE

/-- Where the walk for an account starts, and what lies between there and its end. -/
theorem wanted_spec (ho : Ordinary B) (hj : B.accounts.get a = some j)
    (hw : wanted A a j.head = some e) :
    Settles (fun n => setCurrentEnd B n ⟨a, e⟩) ⟨⟨a, e⟩, j.head⟩ ∧
      (e = 0 ∨ Reach B.blockGet Previous j.head e) ∧
      ∀ k, Reach B.blockGet Previous j.head k ∧ ¬ Reach B.blockGet Previous e k ↔
        Owner B.blockGet k a ∧ A.blockGet k = none := by
  have hhB := hB.part
  have h₀ := (Linked.bottomed hE.hashed hhB.linked).zero
  have hlast := lastBlock_of_head hhB.linked hhB.indexed hj
  have below : ∀ k, Reach B.blockGet Previous j.head k ↔ Owner B.blockGet k a :=
    fun k => ⟨fun hr => (Owner.reach hr).mp hlast.owner, hlast.above k⟩
  unfold wanted at hw
  cases hi : A.accounts.get a with
  | none =>
      rw [hi] at hw
      cases hw
      refine ⟨Settles.of_forall (setCurrentEnd_unstored h₀ hj), Or.inl rfl, fun k => ?_⟩
      rw [below k]
      refine and_congr_right fun hk => iff_of_true (fun hr => ?_) ?_
      · rw [eq_zero_of_reach h₀ hr] at hk
        exact hk.stored h₀
      · exact not_stored_of_unknown hA hB hi hk
  | some i =>
      rw [hi] at hw
      simp only [Option.ite_none_left_eq_some, Option.some.injEq, not_or] at hw
      obtain ⟨⟨_, hnot⟩, rfl⟩ := hw
      have hnot := Store.blockExists_eq_false.mp (Bool.not_eq_true _ ▸ hnot)
      have hr := reach_head hA hB hi hj hnot
      have hown := (Owner.reach hr).mp hlast.owner
      refine ⟨setCurrentEnd_settles hhB.linked.chains h₀ hj (ho a j hj).1 hown, Or.inr hr,
        fun k => ?_⟩
      rw [below k]
      exact and_congr_right fun hk => (not_stored_iff hA hB hi hown.stored hk).symm

theorem bulkPull_settles (ho : Ordinary B) (hj : B.accounts.get a = some j)
    (hw : wanted A a j.head = some e) :
    ∃ bs, Settles (fun n => bulkPull B n ⟨a, e⟩) bs ∧
      (∀ b ∈ bs, B.blockGet (E.hash b) = some b) ∧
      ∀ k, k ∈ bs.map E.hash ↔ Owner B.blockGet k a ∧ A.blockGet k = none := by
  have hhB := hB.part
  obtain ⟨hstart, he, hbetween⟩ := wanted_spec hE hA hB ho hj hw
  obtain ⟨bs, hset, hall, hmem⟩ := sendBlocks_settles (a := a) hhB.linked.chains
    (Linked.bottomed hE.hashed hhB.linked).zero (hhB.linked.heads a j hj).1.stored he
  exact ⟨bs, hstart.bind hset, hall, fun k => (hmem k).trans (hbetween k)⟩

end Pieces

section Filed
variable {t : Unchecked} {π : List (Account × BlockHash)}

theorem get_put_of_stored (ht : ∀ h b, t.get h = some b → B.blockGet h = some b)
    (hc : B.blockGet k = some b) (h : BlockHash) (d : Block) :
    (t.put k b).get h = some d ↔ t.get h = some d ∨ B.blockGet h = some d ∧ h = k := by
  rw [Table.get_put]
  split_ifs with hk
  · subst hk
    constructor
    · intro heq
      cases heq
      exact Or.inr ⟨hc, rfl⟩
    · rintro (hd | ⟨hd, _⟩)
      · exact hc.symm.trans (ht _ d hd)
      · exact hc.symm.trans hd
  · simp [hk]

theorem get_receiveBlocks (ht : ∀ h b, t.get h = some b → B.blockGet h = some b)
    (hbs : ∀ b ∈ bs, B.blockGet (E.hash b) = some b) (h : BlockHash) (d : Block) :
    (receiveBlocks E t bs).get h = some d ↔
      t.get h = some d ∨ B.blockGet h = some d ∧ h ∈ bs.map E.hash := by
  induction bs generalizing t with
  | nil => simp [receiveBlocks]
  | cons c bs ih =>
      have hc := hbs c List.mem_cons_self
      have hput := get_put_of_stored ht hc
      have ht' : ∀ h b, (t.put (E.hash c) c).get h = some b → B.blockGet h = some b := by
        intro h b hb
        rcases (hput h b).mp hb with hb | ⟨hb, _⟩
        · exact ht h b hb
        · exact hb
      have hstep : receiveBlocks E t (c :: bs) = receiveBlocks E (t.put (E.hash c) c) bs := rfl
      rw [hstep, ih ht' (fun b hb => hbs b (List.mem_cons_of_mem _ hb)), hput, List.map_cons,
        List.mem_cons]
      tauto

/-- After the pulls the table holds the blocks of the requested accounts that the client does
not have. -/
theorem pullAll_settles (hE : Proper E) (hA : Part E A U) (hB : Part E B U) (ho : Ordinary B)
    (hπ : ∀ p ∈ π, ∃ j, B.accounts.get p.1 = some j ∧ wanted A p.1 j.head = some p.2)
    (ht : ∀ h b, t.get h = some b → B.blockGet h = some b) :
    ∃ t', Settles (fun n => pullAll E B n t π) t' ∧
      ∀ h d, t'.get h = some d ↔ t.get h = some d ∨
        B.blockGet h = some d ∧ A.blockGet h = none ∧ ∃ p ∈ π, Owner B.blockGet h p.1 := by
  induction π generalizing t with
  | nil => exact ⟨t, Settles.of_forall fun _ => rfl, by simp⟩
  | cons p π ih =>
      obtain ⟨j, hj, hw⟩ := hπ p List.mem_cons_self
      obtain ⟨bs, hset, hall, hmem⟩ := bulkPull_settles hE hA hB ho hj hw
      have hget := get_receiveBlocks ht hall
      have ht' : ∀ h b, (receiveBlocks E t bs).get h = some b → B.blockGet h = some b := by
        intro h b hb
        rcases (hget h b).mp hb with hb | ⟨hb, _⟩
        · exact ht h b hb
        · exact hb
      obtain ⟨t', hrest, hspec⟩ := ih (fun q hq => hπ q (List.mem_cons_of_mem _ hq)) ht'
      refine ⟨t', hset.bind hrest, ?_⟩
      intro h d
      rw [hspec, hget, hmem]
      simp only [List.mem_cons, exists_eq_or_imp]
      tauto

/-- Pulling what the exchange of frontiers asked for, in any order, the client receives the
blocks of the server that it does not have. -/
theorem pulled_iff (hE : Proper E) (hA : Part E A U) (hB : Part E B U) (ho : Ordinary B)
    {pulls : Table Account BlockHash}
    (hpulls : ∀ x, pulls.get x = (B.accounts.get x).bind (fun j => wanted A x j.head))
    (hπ : π.Perm pulls.entries) :
    ∃ t, Settles (fun n => pullAll E B n ∅ π) t ∧
      ∀ h d, t.get h = some d ↔ B.blockGet h = some d ∧ A.blockGet h = none := by
  have hhB := hB.part
  have mem : ∀ p, p ∈ π ↔ ∃ j, B.accounts.get p.1 = some j ∧ wanted A p.1 j.head = some p.2 := by
    intro p
    rw [hπ.mem_iff, Table.mem_entries, hpulls, Option.bind_eq_some_iff]
  obtain ⟨t, hset, hspec⟩ := pullAll_settles (t := ∅) hE hA hB ho
    (fun p hp => (mem p).mp hp) (by simp)
  refine ⟨t, hset, ?_⟩
  intro h d
  rw [hspec]
  constructor
  · rintro (hd | ⟨hd, hnot, _⟩)
    · cases hd
    · exact ⟨hd, hnot⟩
  · rintro ⟨hd, hnot⟩
    obtain ⟨a, ha⟩ := hhB.linked.chains.exists_owner hd
    obtain ⟨j, hj, hr⟩ := exists_head hhB.linked hhB.indexed ha
    refine Or.inr ⟨hd, hnot, ?_⟩
    -- a client with the head of the account would have the block
    have hhead : ¬ A.blockGet j.head ≠ none := fun hne => stored_below hA hB hne hr hnot
    cases hw : wanted A a j.head with
    | some e => exact ⟨(a, e), (mem (a, e)).mpr ⟨j, hj, hw⟩, ha⟩
    | none =>
        exfalso
        unfold wanted at hw
        cases hi : A.accounts.get a with
        | none =>
            rw [hi] at hw
            cases hw
        | some i =>
            rw [hi] at hw
            simp only [ite_eq_left_iff, not_or, reduceCtorEq, imp_false, not_and, not_not] at hw
            by_cases heq : j.head = i.head
            · have hi' := hA.part.linked.heads a i hi
              rw [heq] at hhead
              exact hhead hi'.1.stored
            · obtain ⟨c, hc⟩ := Store.blockExists_iff.mp (hw heq)
              rw [hc] at hhead
              exact hhead (nomatch ·)

end Filed

end PaperNode.BulkPull
