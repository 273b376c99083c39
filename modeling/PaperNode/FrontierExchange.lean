import PaperNode.PartialLedger

/-!
# The exchange of frontiers

A node that bootstraps asks another for its frontiers. The server sends every account with
its head, in the order of the account numbers, and a pair of zeros at the end. The client
walks through its own accounts beside them. It notes in `pulls` the accounts whose head it
does not have, with its own head or zero to say where the other may stop, and in the table
`unsynced` the blocks that the other does not have.

Both sides find the next account by searching from the number after the current one, and
both use zero for the end. An account with the number zero would end the list, and one with
the largest number would start it over.
-/
namespace PaperNode.FrontierExchange
open BoundedRecursion OrderedTable LinkedNodes TransitionRuns Blocks BlockStore LedgerQueries
open LedgerProcess BlockLattice ChainInvariant IndexInvariant LedgerRuns
open RollbackFuture hiding returns

inductive FrontierAssertion where
  | unsyncedBlock | accountBelow
  deriving DecidableEq, Repr

/-- A place in the accounts of a ledger: `current` and `info` of the server and of the client. -/
structure Frontier where
  current : Account := 0
  info : AccountInfo := {}

/-- `frontier_req_server::next` and `frontier_req_client::next`. -/
def Frontier.next (s : Store) (f : Frontier) : Frontier :=
  match (s.accounts.seek (f.current + 1)).head? with
  | some (account, info) => ⟨account, info⟩
  | none => { f with current := 0 }

/-- `frontier_req`. Its count is never looked at. -/
structure FrontierReq where
  start : Account
  age : BitVec 32

/-- The loop of `frontier_req_server::skip_old`. -/
def skipOld (s : Store) (now : Word64) (age : BitVec 32) : ℕ → Frontier →
    Check FrontierAssertion Frontier
  | 0, _ => exhaust
  | fuel + 1, f =>
      if f.current ≠ 0 ∧ age.toNat ≤ (now - f.info.modified).toNat then
        skipOld s now age fuel (f.next s)
      else return f

/-- The constructor of `frontier_req_server`. -/
def frontierReqServer (s : Store) (now : Word64) (fuel : ℕ) (request : FrontierReq) :
    Check FrontierAssertion Frontier :=
  let f := Frontier.next s ⟨request.start - 1, {}⟩
  if request.age ≠ BitVec.allOnes 32 then skipOld s now request.age fuel f else return f

def pairOf (e : Account × AccountInfo) : Account × BlockHash := (e.1, e.2.head)

/-- `frontier_req_server::send_next` and `send_finished`: the pairs sent. -/
def sendFrontiers (s : Store) : ℕ → Frontier →
    Check FrontierAssertion (List (Account × BlockHash))
  | 0, _ => exhaust
  | fuel + 1, f =>
      if f.current ≠ 0 then do
        let rest ← sendFrontiers s fuel (f.next s)
        return (f.current, f.info.head) :: rest
      else return [(0, 0)]

structure Client where
  frontier : Frontier
  pulls : Table Account BlockHash := ∅
  unsynced : List BlockHash := []

/-- The loop of `frontier_req_client::unsynced`: the hashes it puts into the table. A block that is
not stored would be dereferenced. -/
def unsynced (s : Store) (theirs : BlockHash) : ℕ → BlockHash →
    Check FrontierAssertion (List BlockHash)
  | 0, _ => exhaust
  | fuel + 1, current =>
      if current ≠ 0 ∧ current ≠ theirs then do
        let block ← demand (s.blockGet current) .unsyncedBlock
        let rest ← unsynced s theirs fuel block.previous
        return current :: rest
      else return []

/-- The blocks of the current account down to `theirs` are noted as unsynced. -/
def Client.note (s : Store) (fuel : ℕ) (theirs : BlockHash) (c : Client) :
    Check FrontierAssertion Client := do
  let hashes ← FrontierExchange.unsynced s theirs fuel c.frontier.info.head
  return { c with unsynced := c.unsynced ++ hashes }

def Client.next (s : Store) (c : Client) : Client := { c with frontier := c.frontier.next s }

/-- The accounts before a given one, or all that are left, are accounts the other does not know. -/
def Client.passOver (s : Store) (account : Option Account) : ℕ → Client →
    Check FrontierAssertion Client
  | 0, _ => exhaust
  | fuel + 1, c =>
      if c.frontier.current ≠ 0 ∧
          account.all (fun a => decide (c.frontier.current.toNat < a.toNat)) = true then do
        let c ← c.note s fuel 0
        passOver s account fuel (c.next s)
      else return c

/-- `frontier_req_client::request_account`. -/
def Client.requestAccount (c : Client) (account : Account) : Client :=
  { c with pulls := c.pulls.put account 0 }

/-- `frontier_req_client::received_frontier` for a pair that has arrived. -/
def Client.receivedFrontier (s : Store) (fuel : ℕ) (c : Client) (account : Account)
    (latest : BlockHash) : Check FrontierAssertion Client :=
  if account ≠ 0 then do
    let c ← c.passOver s (some account) fuel
    if c.frontier.current ≠ 0 then
      if account = c.frontier.current then
        if latest = c.frontier.info.head then return c.next s
        else if s.blockExists latest then do
          let c ← c.note s fuel latest
          return c.next s
        else
          return Client.next s { c with pulls := c.pulls.put account c.frontier.info.head }
      else do
        require (account.toNat < c.frontier.current.toNat) .accountBelow
        return c.requestAccount account
    else return c.requestAccount account
  else c.passOver s none fuel

/-- The constructor of `frontier_req_client`. -/
def frontierReqClient (s : Store) : Client := { frontier := Frontier.next s {} }

def receiveFrontiers (s : Store) (fuel : ℕ) : Client → List (Account × BlockHash) →
    Check FrontierAssertion Client
  | c, [] => return c
  | c, (account, latest) :: rest => do
      let c ← c.receivedFrontier s fuel account latest
      receiveFrontiers s fuel c rest

variable {E : Env} {s A B : Store} {f : Frontier} {c : Client} {k : ℕ} {a : Account}
  {i : AccountInfo}  {h latest : BlockHash} {pairs : List (Account × BlockHash)}

/-- No account has the number zero or the largest number. -/
def Ordinary (s : Store) : Prop :=
  ∀ a i, s.accounts.get a = some i → a ≠ 0 ∧ a ≠ BitVec.allOnes 256

theorem ordinary_of_all (h : (s.accounts.entries.all fun e =>
    decide (e.1 ≠ 0) && decide (e.1 ≠ BitVec.allOnes 256)) = true) : Ordinary s := by
  intro a i ha
  have hentry := List.all_eq_true.mp h (a, i) (Table.mem_entries.mpr ha)
  simpa only [Bool.and_eq_true, decide_eq_true_eq] using hentry

/-- The first account whose number is not below `k`, or the end. -/
inductive Points (s : Store) (k : ℕ) : Frontier → Prop
  | done {info : AccountInfo} : (∀ a i, s.accounts.get a = some i → a.toNat < k) →
      Points s k ⟨0, info⟩
  | found {a : Account} {i : AccountInfo} : s.accounts.get a = some i → k ≤ a.toNat →
      (∀ a' i', s.accounts.get a' = some i' → k ≤ a'.toNat → a.toNat ≤ a'.toNat) →
      Points s k ⟨a, i⟩

section Places

theorem next_points (s : Store) (f : Frontier) : Points s (f.current + 1).toNat (f.next s) := by
  unfold Frontier.next
  cases hseek : (s.accounts.seek (f.current + 1)).head? with
  | none => exact .done (Table.head_seek_eq_none.mp hseek)
  | some e =>
      obtain ⟨hget, hle, hmin⟩ := Table.head_seek_eq_some.mp hseek
      exact .found hget hle hmin

theorem succ_toNat (ha : a ≠ BitVec.allOnes 256) : (a + 1).toNat = a.toNat + 1 := by
  have hlt := a.isLt
  have hne : a.toNat ≠ 2 ^ 256 - 1 := by
    intro heq
    exact ha (BitVec.eq_of_toNat_eq (heq.trans (BitVec.toNat_allOnes ..).symm))
  have hone : (1 : Account).toNat = 1 := rfl
  rw [BitVec.toNat_add, hone]
  omega

theorem next_points_succ (ho : Ordinary s) (hf : s.accounts.get f.current = some i) :
    Points s (f.current.toNat + 1) (f.next s) := by
  rw [← succ_toNat (ho _ i hf).2]
  exact next_points s f

end Places

section Server
variable {k : Account} {e : Account × AccountInfo} {l : List (Account × AccountInfo)}

def Stands (f : Frontier) : List (Account × AccountInfo) → Prop
  | [] => f.current = 0
  | e :: _ => f = ⟨e.1, e.2⟩

theorem next_stands (s : Store) (f : Frontier) :
    Stands (f.next s) (s.accounts.seek (f.current + 1)) := by
  unfold Frontier.next
  cases s.accounts.seek (f.current + 1) with
  | nil => rfl
  | cons e l => rfl

theorem get_of_seek (h : s.accounts.seek k = e :: l) : s.accounts.get e.1 = some e.2 :=
  Table.mem_entries.mp (Table.mem_seek.mp (h ▸ List.mem_cons_self : e ∈ s.accounts.seek k)).1

theorem seek_succ (ho : Ordinary s) (h : s.accounts.seek k = e :: l) :
    s.accounts.seek (e.1 + 1) = l := by
  refine Table.seek_eq_tail h (fun j => ?_)
  rw [BitVec.lt_def, BitVec.le_def, succ_toNat (ho e.1 e.2 (get_of_seek h)).2]
  rfl

theorem sendFrontiers_stands (ho : Ordinary s) (hl : s.accounts.seek k = l) (hf : Stands f l) :
    Settles (fun n => sendFrontiers s n f) (l.map pairOf ++ [(0, 0)]) := by
  induction l generalizing k f with
  | nil =>
      refine Settles.of_succ (fun n => ?_)
      rw [sendFrontiers, if_neg (not_not.mpr (show f.current = 0 from hf))]
      rfl
  | cons e l ih =>
      cases hf
      have hrest := seek_succ ho hl
      have hset : Settles (fun n => (sendFrontiers s n (Frontier.next s ⟨e.1, e.2⟩)).bind
          (fun rest => .ok (pairOf e :: rest))) (pairOf e :: (l.map pairOf ++ [(0, 0)])) :=
        (ih hrest (hrest ▸ next_stands s ⟨e.1, e.2⟩)).bind (Settles.of_forall fun _ => rfl)
      refine hset.succ (fun n => ?_)
      rw [sendFrontiers, if_pos ((ho _ _ (get_of_seek hl)).1)]
      rfl

def frontiers (s : Store) : List (Account × BlockHash) := s.accounts.entries.map pairOf

theorem server_settles (ho : Ordinary s) (now : Word64) :
    ∃ f, (∀ n, frontierReqServer s now n ⟨0, BitVec.allOnes 32⟩ = .ok f) ∧
      Settles (fun n => sendFrontiers s n f) (frontiers s ++ [(0, 0)]) := by
  -- the number before zero is the largest, and the one after it is zero again
  have hall : s.accounts.seek ((0 - 1 : Account) + 1) = s.accounts.entries := by
    rw [Table.seek_eq_filter]
    exact List.filter_eq_self.mpr fun e _ => decide_eq_true (Nat.zero_le e.1.toNat)
  have hstart := next_stands s ⟨0 - 1, {}⟩
  dsimp only at hstart
  rw [hall] at hstart
  refine ⟨_, fun n => ?_, sendFrontiers_stands ho hall hstart⟩
  unfold frontierReqServer
  exact if_neg (not_not.mpr rfl)

theorem sorted_frontiers (s : Store) : (frontiers s).Pairwise (fun p q => p.1 < q.1) :=
  List.pairwise_map.mpr s.accounts.sorted

theorem mem_frontiers_ne_zero (ho : Ordinary s) {p : Account × BlockHash} (hp : p ∈ frontiers s) :
    p.1 ≠ 0 := by
  obtain ⟨e, he, rfl⟩ := List.mem_map.mp hp
  exact (ho e.1 e.2 (Table.mem_entries.mp he)).1

theorem find_frontiers (s : Store) (a : Account) :
    find a (frontiers s) = (s.accounts.get a).map AccountInfo.head := by
  unfold frontiers Table.get
  induction s.accounts.entries with
  | nil => rfl
  | cons e es ih =>
      rw [List.map_cons, find, find, ih]
      unfold pairOf
      split_ifs <;> rfl

end Server

/-- What an account is requested down to, given the head that the other has. -/
def wanted (s : Store) (a : Account) (latest : BlockHash) : Option BlockHash :=
  match s.accounts.get a with
  | none => some 0
  | some i => if latest = i.head ∨ s.blockExists latest = true then none else some i.head

def Above (s : Store) (head theirs h : BlockHash) : Prop :=
  Reach s.blockGet Previous head h ∧ ¬ Reach s.blockGet Previous theirs h ∧
    ¬ Reach s.blockGet Previous 0 h

/-- What is noted of an account, given the head that the other has, if it knows the account. -/
def Noted (s : Store) (i : AccountInfo) : Option BlockHash → BlockHash → Prop
  | none, h => Above s i.head 0 h
  | some latest, h => latest ≠ i.head ∧ s.blockExists latest = true ∧ Above s i.head latest h

/-- What is noted of the accounts from number `k` to before `k'`. -/
def NotedIn (s : Store) (pairs : List (Account × BlockHash)) (k k' : ℕ) (h : BlockHash) : Prop :=
  ∃ x i, s.accounts.get x = some i ∧ k ≤ x.toNat ∧ x.toNat < k' ∧ Noted s i (find x pairs) h

section Noted
variable {k' k'' : ℕ} {before after : List (Account × BlockHash)}

theorem notedIn_split (hk : k ≤ k') (hk' : k' ≤ k'')
    (hbefore : ∀ x : Account, x.toNat < k' → find x pairs = find x before)
    (hafter : ∀ x : Account, k' ≤ x.toNat → find x pairs = find x after) :
    NotedIn s pairs k k'' h ↔ NotedIn s before k k' h ∨ NotedIn s after k' k'' h := by
  constructor
  · intro hn
    obtain ⟨x, i, hx, hle, hlt, hn⟩ := hn
    by_cases hxk : x.toNat < k'
    · exact Or.inl ⟨x, i, hx, hle, hxk, hbefore x hxk ▸ hn⟩
    · exact Or.inr ⟨x, i, hx, by omega, hlt, hafter x (by omega) ▸ hn⟩
  · intro hn
    rcases hn with ⟨x, i, hx, hle, hlt, hn⟩ | ⟨x, i, hx, hle, hlt, hn⟩
    · exact ⟨x, i, hx, hle, by omega, (hbefore x hlt).symm ▸ hn⟩
    · exact ⟨x, i, hx, by omega, hlt, (hafter x hle).symm ▸ hn⟩

theorem not_notedIn (hnone : ∀ x i, s.accounts.get x = some i → k ≤ x.toNat → k' ≤ x.toNat) :
    ¬ NotedIn s pairs k k' h := by
  intro hn
  obtain ⟨x, i, hx, hle, hlt, _⟩ := hn
  have hge := hnone x i hx hle
  omega

theorem notedIn_all (hall : ∀ x i, s.accounts.get x = some i → x.toNat < k') :
    NotedIn s pairs k k' h ↔ NotedIn s pairs k (2 ^ 256) h := by
  constructor
  · intro hn
    obtain ⟨x, i, hx, hle, _, hn⟩ := hn
    exact ⟨x, i, hx, hle, x.isLt, hn⟩
  · intro hn
    obtain ⟨x, i, hx, hle, _, hn⟩ := hn
    exact ⟨x, i, hx, hle, hall x i hx, hn⟩

theorem notedIn_single (hi : s.accounts.get a = some i) (hk : k ≤ a.toNat)
    (hmin : ∀ x j, s.accounts.get x = some j → k ≤ x.toNat → a.toNat ≤ x.toNat) :
    NotedIn s pairs k (a.toNat + 1) h ↔ Noted s i (find a pairs) h := by
  constructor
  · intro hn
    obtain ⟨x, j, hx, hle, hlt, hn⟩ := hn
    have hge := hmin x j hx hle
    have heq : x = a := BitVec.eq_of_toNat_eq (by omega)
    subst heq
    cases hi.symm.trans hx
    exact hn
  · intro hn
    exact ⟨a, i, hi, hk, by omega, hn⟩

end Noted

section Client

theorem unsynced_zero (s : Store) (theirs : BlockHash) :
    Settles (fun n => unsynced s theirs n 0) [] := by
  refine Settles.of_succ (fun n => ?_)
  rw [unsynced, if_neg (fun hne => hne.1 rfl)]
  rfl

/-- A block above which a walk from `e` does not start, or where it starts. -/
def Level (s : Store) (e h : BlockHash) : Prop := h = e ∨ ¬ Reach s.blockGet Previous e h

/-- Only one block lies on top of another, so going down does not get below a place unseen. -/
theorem Level.previous {e p : BlockHash} (hs : Chains E s.blockGet) (he : Level s e h)
    (hne : h ≠ e) (hlink : Link s.blockGet Previous h p) : Level s e p := by
  refine or_iff_not_imp_left.mpr (fun hpe hr => ?_)
  rcases Relation.ReflTransGen.cases_tail hr with heq | ⟨c, hc, hcp⟩
  · exact hpe heq
  · cases hs.oneSuccessor c h p hcp hlink
    exact he.resolve_left hne hc

theorem level_head (hs : Linked E s) (hi : s.accounts.get a = some i) (e : BlockHash) :
    Level s e i.head := by
  refine or_iff_not_imp_left.mpr (fun hne hr => ?_)
  rcases Relation.ReflTransGen.cases_tail hr with heq | ⟨c, _, hc⟩
  · exact hne heq
  · exact (hs.heads a i hi).2 c hc

/-- The walk down a chain notes the blocks above the place where it stops. -/
theorem unsynced_settles (hs : Chains E s.blockGet) (theirs : BlockHash)
    (hh : s.blockGet h ≠ none) (htheirs : Level s theirs h) (hzero : Level s 0 h) :
    ∃ l, Settles (fun n => unsynced s theirs n h) l ∧ ∀ j, j ∈ l ↔ Above s h theirs j := by
  obtain ⟨rank, hrank⟩ := hs.ranked
  induction hn : rank h using Nat.strong_induction_on generalizing h with
  | _ n ih =>
      obtain ⟨b, hb⟩ := Option.ne_none_iff_exists'.mp hh
      by_cases hstop : h ≠ 0 ∧ h ≠ theirs
      · have habove : Above s h theirs h :=
          ⟨.refl, htheirs.resolve_left hstop.2, hzero.resolve_left hstop.1⟩
        have hrest : ∃ l, Settles (fun n => unsynced s theirs n b.previous) l ∧
            ∀ j, j ∈ h :: l ↔ Above s h theirs j := by
          rw [Block.previous_eq]
          cases hp : b.previousLink with
          | none =>
              refine ⟨[], unsynced_zero s theirs, fun j => ?_⟩
              rw [List.mem_singleton]
              constructor
              · intro hj
                exact hj ▸ habove
              · intro hj
                exact (hj.1.eq_of_orphan hb hp).symm
          | some p =>
              have hlink : Link s.blockGet Previous h p := ⟨b, hb, hp⟩
              obtain ⟨l, hl, hmem⟩ := ih (rank p) (hn ▸ hrank h p ⟨b, hb, Or.inl hp⟩)
                (hs.previous h p hlink) (htheirs.previous hs hstop.2 hlink)
                (hzero.previous hs hstop.1 hlink) rfl
              refine ⟨l, hl, fun j => ?_⟩
              rw [List.mem_cons, hmem j, Above, Above, Reach.parent_iff hlink, or_and_right]
              refine or_congr_left (and_iff_left_of_imp ?_).symm
              intro hj
              exact hj ▸ habove.2
        obtain ⟨l, hl, hmem⟩ := hrest
        have hset : Settles (fun n => (unsynced s theirs n b.previous).bind
            (fun rest => .ok (h :: rest))) (h :: l) := hl.bind (Settles.of_forall fun _ => rfl)
        refine ⟨h :: l, hset.succ (fun n => ?_), hmem⟩
        rw [unsynced, if_pos hstop, hb]
        rfl
      · refine ⟨[], Settles.of_succ (fun n => ?_), fun j => ?_⟩
        · rw [unsynced, if_neg hstop]
          rfl
        · rw [List.mem_nil_iff, false_iff]
          intro hj
          obtain ⟨hr, hnot, hnot₀⟩ := hj
          refine hstop ⟨fun heq => ?_, fun heq => ?_⟩
          · exact hnot₀ (heq ▸ hr)
          · exact hnot (heq ▸ hr)

theorem note_settles (hs : Linked E s) (theirs : BlockHash)
    (hc : s.accounts.get c.frontier.current = some c.frontier.info) :
    ∃ l, Settles (fun n => c.note s n theirs) { c with unsynced := c.unsynced ++ l } ∧
      ∀ j, j ∈ l ↔ Above s c.frontier.info.head theirs j := by
  obtain ⟨l, hl, hmem⟩ := unsynced_settles hs.chains theirs (hs.heads _ _ hc).1.stored
    (level_head hs hc theirs) (level_head hs hc 0)
  exact ⟨l, hl.bind (Settles.of_forall fun _ => rfl), hmem⟩

theorem Points.get_of_ne (hf : Points s k f) (hne : f.current ≠ 0) :
    s.accounts.get f.current = some f.info ∧ k ≤ f.current.toNat ∧
      ∀ x j, s.accounts.get x = some j → k ≤ x.toNat → f.current.toNat ≤ x.toNat := by
  cases hf with
  | done => exact absurd rfl hne
  | found hget hle hmin => exact ⟨hget, hle, hmin⟩

/-- The client stops passing accounts over at the first that is not below the given one, or at the
end. Of those it passes it notes all blocks. -/
theorem passOver_settles (hs : Linked E s) (ho : Ordinary s) (account : Option Account)
    (hc : Points s k c.frontier) (hk : ∀ a ∈ account, k ≤ a.toNat) :
    ∃ c' k', Settles (fun n => c.passOver s account n) c' ∧ c'.pulls = c.pulls ∧
      Points s k' c'.frontier ∧ k ≤ k' ∧
      (∀ h, h ∈ c'.unsynced ↔ h ∈ c.unsynced ∨ NotedIn s [] k k' h) ∧
      (c'.frontier.current = 0 ∨ ∃ a ∈ account, a.toNat ≤ c'.frontier.current.toNat) ∧
      ∀ a ∈ account, k' ≤ a.toNat := by
  induction hn : 2 ^ 256 - k using Nat.strong_induction_on generalizing k c with
  | _ n ih =>
      by_cases hpass : c.frontier.current ≠ 0 ∧
          account.all (fun a => decide (c.frontier.current.toNat < a.toNat)) = true
      · obtain ⟨hne, hall⟩ := hpass
        obtain ⟨hget, hle, hmin⟩ := hc.get_of_ne hne
        have hlt := c.frontier.current.isLt
        obtain ⟨l, hnote, hmem⟩ := note_settles hs 0 hget
        have hbelow : ∀ a ∈ account, c.frontier.current.toNat + 1 ≤ a.toNat := by
          intro a ha
          rw [ha] at hall
          simpa using hall
        obtain ⟨c', k', hset, hpulls, hpoints, hkk, hnoted, hend⟩ :=
          ih (2 ^ 256 - (c.frontier.current.toNat + 1)) (by omega)
            (c := Client.next s { c with unsynced := c.unsynced ++ l })
            (next_points_succ ho hget) hbelow rfl
        have hkk : c.frontier.current.toNat + 1 ≤ k' := hkk
        refine ⟨c', k', ?_, hpulls, hpoints, by omega, fun h => ?_, hend⟩
        · have hboth : Settles (fun n => c.note s n 0 >>=
              fun c => (c.next s).passOver s account n) c' := hnote.bind hset
          refine hboth.succ (fun n => ?_)
          rw [Client.passOver, if_pos ⟨hne, hall⟩]
        · have hsplit : NotedIn s [] k k' h ↔ _ :=
            notedIn_split (Nat.le_succ_of_le hle) hkk (fun _ _ => rfl) (fun _ _ => rfl)
          rw [hnoted h, hsplit, notedIn_single hget hle hmin, ← or_assoc]
          exact or_congr_left (List.mem_append.trans (or_congr_right (hmem h)))
      · refine ⟨c, k, Settles.of_succ (fun n => ?_), rfl, hc, le_rfl, fun h => ?_, ?_, hk⟩
        · rw [Client.passOver, if_neg hpass]
          rfl
        · exact (or_iff_left (not_notedIn (fun _ _ _ hle => hle))).symm
        · by_contra hcon
          rw [not_or] at hcon
          obtain ⟨hne, hnone⟩ := hcon
          refine hpass ⟨hne, ?_⟩
          rw [Option.all_eq_true]
          intro a ha
          by_contra hlt
          exact hnone ⟨a, ha, by simpa using hlt⟩

section Pair
variable {pulls : Table Account BlockHash} {noted : List BlockHash}

theorem receivedFrontier_unknown (ha : a ≠ 0)
    (hpass : Settles (fun n => c.passOver s (some a) n) ⟨f, pulls, noted⟩)
    (hf : f.current = 0 ∨ a.toNat < f.current.toNat) (latest : BlockHash) :
    Settles (fun n => c.receivedFrontier s n a latest) ⟨f, pulls.put a 0, noted⟩ := by
  filter_upwards [hpass] with n hn
  rw [Client.receivedFrontier, if_pos ha, hn, ok_bind]
  by_cases hend : f.current = 0
  · simp only [if_neg (not_not.mpr hend)]
    rfl
  · have hlt := hf.resolve_left hend
    have hne : a ≠ f.current := fun heq => absurd hlt (heq ▸ lt_irrefl _)
    simp only [if_pos hend, if_neg hne, require_of hlt]
    rfl

/-- An account that both know is requested if this side does not have the head. If it has, it
notes what it has above. -/
theorem receivedFrontier_known (hs : Linked E s) (ha : a ≠ 0)
    (hpass : Settles (fun n => c.passOver s (some a) n) ⟨⟨a, i⟩, pulls, noted⟩)
    (hget : s.accounts.get a = some i) (latest : BlockHash) :
    ∃ l, Settles (fun n => c.receivedFrontier s n a latest)
        ⟨Frontier.next s ⟨a, i⟩, (wanted s a latest).elim pulls (pulls.put a), noted ++ l⟩ ∧
      ∀ h, h ∈ l ↔ Noted s i (some latest) h := by
  have hcurrent : ¬ (⟨a, i⟩ : Frontier).current = 0 := ha
  by_cases hhead : latest = i.head
  · -- in sync
    have hw : wanted s a latest = none := by simp only [wanted, hget, if_pos (Or.inl hhead)]
    refine ⟨[], ?_, by simp [Noted, hhead]⟩
    filter_upwards [hpass] with n hn
    rw [Client.receivedFrontier, if_pos ha, hn, ok_bind, hw, List.append_nil]
    simp only [if_pos hcurrent, if_pos hhead, if_true]
    rfl
  · cases hexists : s.blockExists latest with
    | true =>
        -- the other is behind
        have hw : wanted s a latest = none := by
          simp only [wanted, hget, hexists, or_true, if_true]
        obtain ⟨l, hnote, hmem⟩ := note_settles (c := ⟨⟨a, i⟩, pulls, noted⟩) hs latest hget
        refine ⟨l, ?_, by simp [Noted, hhead, hexists, hmem]⟩
        filter_upwards [hpass, hnote] with n hn hl
        rw [Client.receivedFrontier, if_pos ha, hn, ok_bind, hw]
        simp only [if_pos hcurrent, if_neg hhead, hexists, if_true, hl]
        rfl
    | false =>
        -- this side is behind
        have hw : wanted s a latest = some i.head := by
          simp only [wanted, hget, hexists, hhead, or_self, Bool.false_eq_true, if_false]
        refine ⟨[], ?_, by simp [Noted, hexists]⟩
        filter_upwards [hpass] with n hn
        rw [Client.receivedFrontier, if_pos ha, hn, ok_bind, hw, List.append_nil]
        simp only [if_pos hcurrent, if_neg hhead, hexists, if_true, Bool.false_eq_true, if_false]
        rfl

end Pair

/-- One pair: the client goes on behind the account, requests what it wants of it, and notes what
the other does not have up to there. -/
theorem receivedFrontier_settles (hs : Linked E s) (ho : Ordinary s) (hc : Points s k c.frontier)
    (hk : k ≤ a.toNat) (ha : a ≠ 0) (latest : BlockHash) :
    ∃ c', Settles (fun n => c.receivedFrontier s n a latest) c' ∧
      Points s (a.toNat + 1) c'.frontier ∧
      c'.pulls = (wanted s a latest).elim c.pulls (c.pulls.put a) ∧
      ∀ h, h ∈ c'.unsynced ↔
        h ∈ c.unsynced ∨ NotedIn s [(a, latest)] k (a.toNat + 1) h := by
  obtain ⟨⟨f, pulls, noted⟩, k', hpass, rfl, hpoints, hkk, hnoted, hstop, hend⟩ :=
    passOver_settles hs ho (some a) hc (by simpa using hk)
  have hk' := hend a rfl
  -- the accounts passed over, and the rest up to the account of the pair
  have hsplit : ∀ h, NotedIn s [(a, latest)] k (a.toNat + 1) h ↔
      NotedIn s [] k k' h ∨ NotedIn s [(a, latest)] k' (a.toNat + 1) h := by
    intro h
    refine notedIn_split hkk (by omega) (fun x hx => if_neg ?_) (fun _ _ => rfl)
    intro heq
    subst heq
    omega
  have unknown : (∀ x j, s.accounts.get x = some j → k' ≤ x.toNat → a.toNat + 1 ≤ x.toNat) →
      wanted s a latest = some 0 ∧
      ∀ h, h ∈ noted ↔ h ∈ c.unsynced ∨ NotedIn s [(a, latest)] k (a.toNat + 1) h := by
    intro hnone
    constructor
    · have hget : s.accounts.get a = none := by
        rw [Option.eq_none_iff_forall_ne_some]
        intro j hj
        have hlt := hnone a j hj hk'
        omega
      simp only [wanted, hget]
    · intro h
      rw [hsplit h, or_iff_left (not_notedIn hnone)]
      exact hnoted h
  cases hpoints with
  | @done info hall =>
      obtain ⟨hw, hmem⟩ := unknown (fun x j hx hle => absurd (hall x j hx) (by omega))
      refine ⟨_, receivedFrontier_unknown ha hpass (Or.inl rfl) latest, .done ?_, ?_, hmem⟩
      · intro b i hb
        have hlt := hall b i hb
        omega
      · rw [hw, Option.elim_some]
  | @found b i hget hle hmin =>
      have hab : a.toNat ≤ b.toNat := by
        rcases hstop with hzero | ⟨_, ha', hle'⟩
        · exact absurd hzero (ho b i hget).1
        · cases ha'
          exact hle'
      by_cases heq : a = b
      · subst heq
        obtain ⟨l, hset, hmem⟩ := receivedFrontier_known hs ha hpass hget latest
        refine ⟨_, hset, next_points_succ (f := ⟨a, i⟩) ho hget, rfl, fun h => ?_⟩
        rw [hsplit h, notedIn_single hget hle hmin, find, if_pos rfl, ← or_assoc]
        exact List.mem_append.trans (or_congr (hnoted h) (hmem h))
      · have hlt : a.toNat < b.toNat :=
          lt_of_le_of_ne hab (fun h => heq (BitVec.eq_of_toNat_eq h))
        obtain ⟨hw, hmem⟩ := unknown (fun x j hx hle => hlt.trans_le (hmin x j hx hle))
        refine ⟨_, receivedFrontier_unknown ha hpass (Or.inr hlt) latest, .found hget hlt ?_, ?_,
          hmem⟩
        · intro b' i' hb' hle'
          exact hmin b' i' hb' (by omega)
        · rw [hw, Option.elim_some]

theorem get_requested (w : Option BlockHash) (pulls : Table Account BlockHash) (a x : Account) :
    (w.elim pulls (pulls.put a)).get x =
      if x = a then w.or (pulls.get a) else pulls.get x := by
  cases w with
  | none =>
      rw [Option.elim_none, Option.none_or]
      split_ifs with hx
      · rw [hx]
      · rfl
  | some e => rw [Option.elim_some, Table.get_put, Option.some_or]

/-- Pairs in the order of their accounts, none of which is zero, and an account zero at the end:
what the client requests and notes. -/
theorem receiveFrontiers_settles (hs : Linked E s) (ho : Ordinary s)
    (hsorted : pairs.Pairwise (fun p q => p.1 < q.1)) (hne : ∀ p ∈ pairs, p.1 ≠ 0)
    (hk : ∀ p ∈ pairs, k ≤ p.1.toNat) (hc : Points s k c.frontier) (last : BlockHash) :
    ∃ c', Settles (fun n => receiveFrontiers s n c (pairs ++ [(0, last)])) c' ∧
      (∀ x, c'.pulls.get x = ((find x pairs).bind (wanted s x)).or (c.pulls.get x)) ∧
      ∀ h, h ∈ c'.unsynced ↔ h ∈ c.unsynced ∨ NotedIn s pairs k (2 ^ 256) h := by
  induction pairs generalizing k c with
  | nil =>
      obtain ⟨c', k', hset, hpulls, hpoints, hkk, hnoted, hend, _⟩ :=
        passOver_settles hs ho none hc (by simp)
      have hzero : c'.frontier.current = 0 := by simpa using hend
      refine ⟨c', ?_, fun x => by rw [hpulls]; rfl, fun h => ?_⟩
      · filter_upwards [hset] with n hn
        rw [List.nil_append, receiveFrontiers, Client.receivedFrontier,
          if_neg (not_not.mpr rfl), hn]
        rfl
      · rw [hnoted h, notedIn_all]
        generalize c'.frontier = f at hpoints hzero
        cases hpoints with
        | done hall => exact hall
        | found hget => exact absurd hzero (ho _ _ hget).1
  | cons p rest ih =>
      obtain ⟨hlt, hsorted⟩ := List.pairwise_cons.mp hsorted
      have hle := hk p (by simp)
      obtain ⟨c₁, hstep, hpoints, hpulls, hnoted⟩ :=
        receivedFrontier_settles hs ho hc hle (hne p (by simp)) p.2
      obtain ⟨c', hset, hall, hmem⟩ := ih hsorted (fun q hq => hne q (by simp [hq]))
        (fun q hq => hlt q hq) hpoints
      refine ⟨c', hstep.bind hset, fun x => ?_, fun h => ?_⟩
      · rw [hall x, hpulls, get_requested, find]
        by_cases hx : x = p.1
        · subst hx
          rw [if_pos rfl, if_pos rfl, find_eq_none_of_lt hlt]
          rfl
        · rw [if_neg hx, if_neg hx]
      · rw [hmem h, hnoted h, or_assoc]
        refine or_congr_right (notedIn_split (by omega) p.1.isLt ?_ ?_).symm
        · -- the pairs that follow are for later accounts
          intro x hx
          have hlater : ∀ q ∈ rest, x < q.1 :=
            fun q hq => Nat.lt_of_le_of_lt (Nat.le_of_lt_succ hx) (hlt q hq)
          simp only [find, find_eq_none_of_lt hlater]
        · intro x hx
          rw [find, if_neg]
          intro heq
          subst heq
          omega

theorem frontierReqClient_points (ho : Ordinary s) : Points s 0 (frontierReqClient s).frontier := by
  have hnext : Points s 1 (frontierReqClient s).frontier := next_points s {}
  generalize (frontierReqClient s).frontier = f at hnext
  have hpos : ∀ a i, s.accounts.get a = some i → 1 ≤ a.toNat := by
    intro a i ha
    by_contra hlt
    exact (ho a i ha).1 (BitVec.eq_of_toNat_eq (show a.toNat = 0 by omega))
  cases hnext with
  | done hall =>
      refine .done (fun a i ha => ?_)
      have hlt := hall a i ha
      have hle := hpos a i ha
      omega
  | found hget hle hmin => exact .found hget (Nat.zero_le _) (fun a' i' ha' _ =>
      hmin a' i' ha' (hpos a' i' ha'))

end Client

/-- After the exchange of frontiers the client requests the accounts of the other whose head it
does not have, each down to its own head, and has noted what the other does not have. -/
theorem exchange_settles (hA : Linked E A) (hoA : Ordinary A) (hoB : Ordinary B) (now : Word64) :
    ∃ f pairs client, (∀ n, frontierReqServer B now n ⟨0, BitVec.allOnes 32⟩ = .ok f) ∧
      Settles (fun n => sendFrontiers B n f) pairs ∧
      Settles (fun n => receiveFrontiers A n (frontierReqClient A) pairs) client ∧
      (∀ x, client.pulls.get x = (B.accounts.get x).bind (fun j => wanted A x j.head)) ∧
      ∀ h, h ∈ client.unsynced ↔ ∃ x i, A.accounts.get x = some i ∧
        Noted A i ((B.accounts.get x).map AccountInfo.head) h := by
  obtain ⟨f, hserver, hsent⟩ := server_settles hoB now
  obtain ⟨client, hclient, hpulls, hnoted⟩ := receiveFrontiers_settles hA hoA (sorted_frontiers B)
    (fun p hp => mem_frontiers_ne_zero hoB hp) (fun p _ => Nat.zero_le _)
    (frontierReqClient_points hoA) 0
  refine ⟨f, _, client, hserver, hsent, hclient, fun x => ?_, fun h => ?_⟩
  · have hempty : (frontierReqClient A).pulls.get x = none := rfl
    rw [hpulls x, find_frontiers, hempty, Option.or_none, Option.bind_map]
    rfl
  · have hempty : h ∉ (frontierReqClient A).unsynced := List.not_mem_nil
    rw [hnoted h, or_iff_right hempty]
    simp only [NotedIn, find_frontiers, Nat.zero_le, BitVec.isLt, true_and]

section Merge

theorem eq_zero_of_reach (h₀ : s.blockGet 0 = none) (hr : Reach s.blockGet Previous 0 h) :
    h = 0 := by
  rcases Relation.ReflTransGen.cases_head hr with rfl | ⟨c, ⟨b, hb, _⟩, _⟩
  · rfl
  · cases h₀.symm.trans hb

theorem not_reach_zero (hs : Linked E s) (h₀ : s.blockGet 0 = none)
    (hi : s.accounts.get a = some i) (hr : Reach s.blockGet Previous i.head h) :
    ¬ Reach s.blockGet Previous 0 h := by
  intro hr₀
  have hstored := ((Owner.reach hr).mp (hs.heads a i hi).1).stored
  rw [eq_zero_of_reach h₀ hr₀] at hstored
  exact hstored h₀

theorem noted_iff (hs : Linked E s) (h₀ : s.blockGet 0 = none) (hi : s.accounts.get a = some i)
    (theirs : Option BlockHash) : Noted s i theirs h ↔ Reach s.blockGet Previous i.head h ∧
      ∀ latest ∈ theirs, latest ≠ i.head ∧ s.blockGet latest ≠ none ∧
        ¬ Reach s.blockGet Previous latest h := by
  have hzero := not_reach_zero (h := h) hs h₀ hi
  cases theirs with
  | none =>
      constructor
      · intro hn
        exact ⟨hn.1, by simp⟩
      · intro hn
        exact ⟨hn.1, hzero hn.1, hzero hn.1⟩
  | some latest =>
      have hexists : s.blockExists latest = true ↔ s.blockGet latest ≠ none :=
        Store.blockExists_iff.trans Option.ne_none_iff_exists'.symm
      constructor
      · intro hn
        obtain ⟨hhead, hstored, hr, hnot, _⟩ := hn
        refine ⟨hr, fun l hl => ?_⟩
        cases hl
        exact ⟨hhead, hexists.mp hstored, hnot⟩
      · intro hn
        obtain ⟨hr, hall⟩ := hn
        obtain ⟨hhead, hstored, hnot⟩ := hall latest rfl
        exact ⟨hhead, hexists.mpr hstored, hr, hnot, hzero hr⟩

theorem wanted_eq_some {e : BlockHash} : wanted s a latest = some e ↔
    s.accounts.get a = none ∧ e = 0 ∨
      ∃ i, s.accounts.get a = some i ∧ latest ≠ i.head ∧ s.blockGet latest = none ∧ e = i.head := by
  unfold wanted
  cases s.accounts.get a with
  | none =>
      simp only [Option.some.injEq, true_and, reduceCtorEq, false_and, exists_false, or_false]
      exact eq_comm
  | some i =>
      simp only [reduceCtorEq, false_and, false_or, Option.some.injEq, exists_eq_left',
        ← Store.blockExists_eq_false]
      split_ifs with hw
      · simp only [false_iff]
        intro h
        rcases hw with hhead | hexists
        · exact h.1 hhead
        · cases hexists.symm.trans h.2.1
      · rw [not_or, Bool.not_eq_true] at hw
        simp only [Option.some.injEq, ne_eq, hw, not_false_eq_true, true_and]
        exact eq_comm

/-- The client merges the pairs of the other with its own accounts. It pulls the accounts it does
not know, and those whose head it does not have, down to its own. It notes as unsynced the blocks
of the accounts that the other does not know, and those above the head of the other where it
has that head. -/
theorem frontier_merge_exact (hE : Hashed E) (hs : Reachable E s) (ho : Ordinary s)
    (pairs : List (Account × BlockHash)) (hsorted : pairs.Pairwise (fun p q => p.1 < q.1))
    (hne : ∀ p ∈ pairs, p.1 ≠ 0) (last : BlockHash) :
    ∃ c, Settles (fun n => receiveFrontiers s n (frontierReqClient s) (pairs ++ [(0, last)])) c ∧
      (∀ a e, c.pulls.get a = some e ↔ ∃ latest, (a, latest) ∈ pairs ∧
        (s.accounts.get a = none ∧ e = 0 ∨
          ∃ i, s.accounts.get a = some i ∧ latest ≠ i.head ∧ s.blockGet latest = none ∧
            e = i.head)) ∧
      ∀ h, h ∈ c.unsynced ↔ ∃ a i, s.accounts.get a = some i ∧
        Reach s.blockGet Previous i.head h ∧
        ((∀ latest, (a, latest) ∉ pairs) ∨
          ∃ latest, (a, latest) ∈ pairs ∧ latest ≠ i.head ∧ s.blockGet latest ≠ none ∧
            ¬ Reach s.blockGet Previous latest h) := by
  have hl := (reachable_sound hs).linked
  have h₀ := (Linked.bottomed hE hl).zero
  have hfind : ∀ {a latest}, find a pairs = some latest ↔ (a, latest) ∈ pairs :=
    fun {_ _} => ⟨find_mem, find_of_mem hsorted⟩
  obtain ⟨c, hset, hpulls, hnoted⟩ := receiveFrontiers_settles hl ho hsorted hne
    (fun p _ => Nat.zero_le _) (frontierReqClient_points ho) last
  refine ⟨c, hset, fun a e => ?_, fun h => ?_⟩
  · have hempty : (frontierReqClient s).pulls.get a = none := rfl
    rw [hpulls a, hempty, Option.or_none, Option.bind_eq_some_iff]
    simp only [hfind, wanted_eq_some]
  · have hempty : h ∉ (frontierReqClient s).unsynced := List.not_mem_nil
    rw [hnoted h, or_iff_right hempty]
    constructor
    · intro hn
      obtain ⟨a, i, hi, _, _, hn⟩ := hn
      obtain ⟨hr, hall⟩ := (noted_iff hl h₀ hi _).mp hn
      refine ⟨a, i, hi, hr, ?_⟩
      cases hp : find a pairs with
      | none => exact Or.inl (fun latest hmem => by simp [hfind.mpr hmem] at hp)
      | some latest => exact Or.inr ⟨latest, hfind.mp hp, hall latest hp⟩
    · intro hn
      obtain ⟨a, i, hi, hr, hn⟩ := hn
      refine ⟨a, i, hi, Nat.zero_le _, a.isLt, (noted_iff hl h₀ hi _).mpr ⟨hr, ?_⟩⟩
      intro latest hlatest
      rcases hn with hnone | ⟨latest', hmem, hn⟩
      · exact absurd (hfind.mp hlatest) (hnone latest)
      · cases hlatest.symm.trans (hfind.mpr hmem)
        exact hn

/-- The other knows an account that this side does not know, and none of the accounts that this
side knows. -/
theorem frontier_merge_exact_other : ∃ s c, Reachable smallNetwork s ∧
    Settles (fun n => receiveFrontiers s n (frontierReqClient s) ([(5, 7)] ++ [(0, 0)])) c ∧
    c.pulls.get 5 = some 0 ∧ open₁Hash ∈ c.unsynced := by
  have hrun : accepts smallNetwork 9 [send₁, open₁] (fun s =>
      (s.accounts.entries.all fun e => decide (e.1 ≠ 0) && decide (e.1 ≠ BitVec.allOnes 256)) &&
      decide (s.accounts.get 5 = none) &&
      decide ((s.accounts.get firstAccount).map AccountInfo.head = some open₁Hash)) = true := by
    decide +kernel
  obtain ⟨s₀, s, h₀, hs, htest⟩ := exists_of_accepts hrun
  simp only [Bool.and_eq_true, decide_eq_true_eq] at htest
  obtain ⟨⟨hall, hnone⟩, hhead⟩ := htest
  obtain ⟨i, hi, hhead⟩ := Option.map_eq_some_iff.mp hhead
  have hreach := reached_reachable (progressed_reached h₀ hs)
  obtain ⟨c, hset, hpulls, hnoted⟩ := frontier_merge_exact smallNetwork_proper.hashed hreach
    (ordinary_of_all hall) [(5, 7)] (List.pairwise_singleton _ _) (by simp) 0
  refine ⟨s, c, hreach, hset, ?_, ?_⟩
  · exact (hpulls 5 0).mpr ⟨7, by simp, Or.inl ⟨hnone, rfl⟩⟩
  · have hother : firstAccount ≠ 5 := by decide
    refine (hnoted open₁Hash).mpr ⟨firstAccount, i, hi, hhead ▸ .refl, Or.inl ?_⟩
    intro latest hmem
    exact hother (congrArg Prod.fst (List.mem_singleton.mp hmem))

end Merge

end PaperNode.FrontierExchange
