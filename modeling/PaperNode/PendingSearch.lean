import PaperNode.LedgerQueries
import PaperNode.WalletMove

/-!
# The search for pending blocks

When an account is confirmed, `search_action::receive_all` receives what is pending from it. Every
round goes through the whole pending table, keeps the last entry from the account and queues an
action that receives it, until a round finds no entry.

An entry whose destination the wallet has no key for is not received, and the round keeps its hash
nevertheless. Once it is the last entry from the account, no later round is different and the
search goes on forever.
-/
namespace PaperNode.PendingSearch
open OrderedTable BoundedRecursion Blocks BlockStore Wallet WalletMove

inductive SearchAssertion where
  | pendingSend
  deriving DecidableEq, Repr

def asSend : Option Block → Option SendBlock
  | some (.sendBlock b) => some b
  | _ => none

section Search
variable (E : WalletEnv) (w : WalletStore) (get : BlockHash → Option Block) (account : Account)

/-- What a round keeps of an entry: its hash, and its block if the wallet has the key. -/
def kept (e : BlockHash × Receivable) (b : SendBlock) : BlockHash × Option SendBlock :=
  (e.1, if (w.fetch E e.2.destination 0).1 then none else some b)

/-- The loop of a round over the entries of the pending table. -/
def scan : List (BlockHash × Receivable) → BlockHash × Option SendBlock →
    Check SearchAssertion (BlockHash × Option SendBlock)
  | [], found => .ok found
  | e :: es, found =>
      if e.2.source = account then do
        let block ← demand (asSend (get e.1)) .pendingSend
        scan es (kept E w e block)
      else scan es found

/-- The loop of `receive_all`. The action that a round queues has completed before the next one
and has taken its entry out of the table. -/
def receiveAll : ℕ → Table BlockHash Receivable → BlockHash →
    Check SearchAssertion (Table BlockHash Receivable)
  | 0, _, _ => exhaust
  | fuel + 1, pending, hash =>
      if hash = 0 then return pending
      else do
        let found ← scan E w get account (pending.seek 0) (0, none)
        match found.2 with
        | none => receiveAll fuel pending found.1
        | some _ => receiveAll fuel (pending.del found.1) found.1

def Backed (h : BlockHash) : Prop := ∃ b, get h = some (.sendBlock b)

/-- Every entry from the account is for a stored send, to an account that the wallet has the key
of unless the hash is zero. -/
def AllReceivable (pending : Table BlockHash Receivable) : Prop :=
  ∀ h r, pending.get h = some r → r.source = account →
    Backed get h ∧ (h ≠ 0 → (w.fetch E r.destination 0).1 = false)

end Search

variable {E : WalletEnv} {w : WalletStore} {get : BlockHash → Option Block} {account : Account}
  {pending : Table BlockHash Receivable} {es : List (BlockHash × Receivable)}
  {e : BlockHash × Receivable} {found found' : BlockHash × Option SendBlock} {h hash : BlockHash}

section Round

theorem asSend_eq_some {o : Option Block} {b : SendBlock} :
    asSend o = some b ↔ o = some (.sendBlock b) := by
  rcases o with _ | b'
  · simp [asSend]
  · cases b' <;> simp [asSend]

def fromAccount (account : Account) (es : List (BlockHash × Receivable)) :
    List (BlockHash × Receivable) :=
  es.filter (fun e => e.2.source = account)

/-- A round that returns has seen a send for every entry, and keeps the last one. -/
theorem scan_ok (hscan : scan E w get account es found = .ok found') :
    (∀ e ∈ fromAccount account es, Backed get e.1) ∧
      ((fromAccount account es = [] ∧ found' = found) ∨
        ∃ before e b, fromAccount account es = before ++ [e] ∧ found' = kept E w e b) := by
  induction es generalizing found with
  | nil =>
      cases hscan
      exact ⟨by simp [fromAccount], Or.inl ⟨rfl, rfl⟩⟩
  | cons e es ih =>
      rw [scan] at hscan
      by_cases he : e.2.source = account
      · have hcons : fromAccount account (e :: es) = e :: fromAccount account es :=
          List.filter_cons_of_pos (decide_eq_true he)
        rw [if_pos he] at hscan
        obtain ⟨b, hb, hscan⟩ := bind_eq_ok.mp hscan
        obtain ⟨hbacked, hlast⟩ := ih hscan
        rw [hcons]
        refine ⟨List.forall_mem_cons.mpr
          ⟨⟨b, asSend_eq_some.mp (demand_eq_ok.mp hb)⟩, hbacked⟩, Or.inr ?_⟩
        -- a later entry from the account takes the place of this one
        rcases hlast with ⟨hnil, hfound⟩ | ⟨before, e', b', hlast, hfound⟩
        · exact ⟨[], e, b, by rw [hnil, List.nil_append], hfound⟩
        · exact ⟨e :: before, e', b', by rw [hlast, List.cons_append], hfound⟩
      · have hcons : fromAccount account (e :: es) = fromAccount account es :=
          List.filter_cons_of_neg (by simpa using he)
        rw [if_neg he] at hscan
        rw [hcons]
        exact ih hscan

theorem exists_scan (hbacked : ∀ e ∈ es, e.2.source = account → Backed get e.1)
    (found : BlockHash × Option SendBlock) :
    ∃ found', scan E w get account es found = .ok found' := by
  induction es generalizing found with
  | nil => exact ⟨found, rfl⟩
  | cons e es ih =>
      have htail := ih (fun x hx => hbacked x (List.mem_cons_of_mem e hx))
      rw [scan]
      split_ifs with he
      · obtain ⟨b, hb⟩ := hbacked e List.mem_cons_self he
        rw [demand_eq_ok.mpr (asSend_eq_some.mpr hb), ok_bind]
        exact htail _
      · exact htail found

/-- The entry from the account with the greatest hash. -/
structure Last (account : Account) (pending : Table BlockHash Receivable)
    (e : BlockHash × Receivable) : Prop where
  entry : pending.get e.1 = some e.2
  source : e.2.source = account
  greatest : ∀ h r, pending.get h = some r → r.source = account → h ≤ e.1

theorem mem_fromAccount {r : Receivable} : (h, r) ∈ fromAccount account (pending.seek 0) ↔
    pending.get h = some r ∧ r.source = account := by
  unfold fromAccount
  have hle : 0 ≤ h := BitVec.le_def.mpr (Nat.zero_le _)
  rw [List.mem_filter, Table.mem_seek, Table.mem_entries, decide_eq_true_eq, and_iff_left hle]

/-- What a round over the whole table finds. -/
theorem round_ok (hscan : scan E w get account (pending.seek 0) (0, none) = .ok found) :
    (∀ h r, pending.get h = some r → r.source = account → Backed get h) ∧
      (((∀ h r, pending.get h = some r → r.source ≠ account) ∧ found = (0, none)) ∨
        ∃ e b, Last account pending e ∧ found = kept E w e b) := by
  obtain ⟨hbacked, hlast⟩ := scan_ok hscan
  refine ⟨fun h r hr hs => hbacked (h, r) (mem_fromAccount.mpr ⟨hr, hs⟩), ?_⟩
  rcases hlast with ⟨hnil, hfound⟩ | ⟨before, e, b, hlast, hfound⟩
  · refine Or.inl ⟨fun h r hr hs => ?_, hfound⟩
    have hmem := mem_fromAccount.mpr ⟨hr, hs⟩
    rw [hnil] at hmem
    cases hmem
  · have hmem : e ∈ fromAccount account (pending.seek 0) := by
      rw [hlast]
      exact List.mem_append_right before (List.mem_singleton_self e)
    obtain ⟨hentry, hsource⟩ := mem_fromAccount.mp hmem
    refine Or.inr ⟨e, b, ⟨hentry, hsource, fun h r hr hs => ?_⟩, hfound⟩
    have hsorted : (before ++ [e]).Pairwise (fun a b => a.1 < b.1) :=
      hlast ▸ (pending.sorted_seek 0).filter _
    have hr := mem_fromAccount.mpr ⟨hr, hs⟩
    rw [hlast, List.mem_append, List.mem_singleton] at hr
    rcases hr with hr | hr
    · exact le_of_lt ((List.pairwise_append.mp hsorted).2.2 (h, r) hr e (by simp))
    · rw [← hr]

end Round

section Loop

def left (account : Account) (pending : Table BlockHash Receivable) : ℕ :=
  pending.total (fun _ r => if r.source = account then 1 else 0)

theorem left_del (hlast : Last account pending e) :
    left account (pending.del e.1) < left account pending := by
  have htotal := Table.total_del (fun _ r => if r.source = account then 1 else 0) pending e.1
  rw [hlast.entry, Option.elim_some, if_pos hlast.source] at htotal
  unfold left
  omega

theorem receiveAll_zero (pending : Table BlockHash Receivable) :
    Settles (fun n => receiveAll E w get account n pending 0) pending :=
  Settles.of_succ (fun n => by rw [receiveAll, if_pos rfl]; rfl)

theorem receiveAll_unkept (hhash : hash ≠ 0)
    (hscan : scan E w get account (pending.seek 0) (0, none) = .ok (h, none)) (n : ℕ) :
    receiveAll E w get account (n + 1) pending hash = receiveAll E w get account n pending h := by
  rw [receiveAll, if_neg hhash, hscan, ok_bind]

theorem receiveAll_kept {b : SendBlock} (hhash : hash ≠ 0)
    (hscan : scan E w get account (pending.seek 0) (0, none) = .ok (h, some b)) (n : ℕ) :
    receiveAll E w get account (n + 1) pending hash =
      receiveAll E w get account n (pending.del h) h := by
  rw [receiveAll, if_neg hhash, hscan, ok_bind]

theorem kept_of_fetch {b : SendBlock} (hfetch : (w.fetch E e.2.destination 0).1 = false) :
    kept E w e b = (e.1, some b) := by
  rw [kept, hfetch]
  rfl

theorem kept_of_error {b : SendBlock} (hfetch : (w.fetch E e.2.destination 0).1 = true) :
    kept E w e b = (e.1, none) := by
  rw [kept, hfetch]
  rfl

theorem AllReceivable.del (hall : AllReceivable E w get account pending) (k : BlockHash) :
    AllReceivable E w get account (pending.del k) := by
  intro h r hr hs
  rw [Table.get_del] at hr
  split_ifs at hr
  exact hall h r hr hs

/-- The loop ends if the wallet can receive every entry. -/
theorem AllReceivable.completes (hall : AllReceivable E w get account pending) (hash : BlockHash) :
    Completes (fun n => receiveAll E w get account n pending hash) := by
  -- every round but the last takes an entry out
  induction hn : left account pending using Nat.strong_induction_on generalizing pending hash with
  | _ n ih =>
      by_cases hhash : hash = 0
      · rw [hhash]
        exact ⟨pending, receiveAll_zero pending⟩
      have hbacked : ∀ e ∈ pending.seek 0, e.2.source = account → Backed get e.1 := by
        intro e he hs
        exact (hall e.1 e.2 (Table.mem_entries.mp (Table.mem_seek.mp he).1) hs).1
      obtain ⟨found, hscan⟩ := exists_scan (E := E) (w := w) hbacked (0, none)
      rcases (round_ok hscan).2 with ⟨_, rfl⟩ | ⟨e, b, hlast, rfl⟩
      · exact ⟨_, (receiveAll_zero _).succ (receiveAll_unkept hhash hscan)⟩
      cases hfetch : (w.fetch E e.2.destination 0).1 with
      | false =>
          rw [kept_of_fetch hfetch] at hscan
          obtain ⟨r, hr⟩ := ih _ (hn ▸ left_del hlast) (hall.del e.1) e.1 rfl
          exact ⟨r, hr.succ (receiveAll_kept hhash hscan)⟩
      | true =>
          -- only an entry under hash zero is not received
          rw [kept_of_error hfetch] at hscan
          have hzero : e.1 = 0 := by
            by_contra hne
            have hfalse := (hall e.1 e.2 hlast.entry hlast.source).2 hne
            rw [hfetch] at hfalse
            cases hfalse
          rw [hzero] at hscan
          exact ⟨_, (receiveAll_zero _).succ (receiveAll_unkept hhash hscan)⟩

theorem allReceivable_of_completes (hhash : hash ≠ 0)
    (hc : Completes (fun n => receiveAll E w get account n pending hash)) :
    AllReceivable E w get account pending := by
  induction hn : left account pending using Nat.strong_induction_on generalizing pending hash with
  | _ n ih =>
      obtain ⟨r, hr⟩ := hc
      obtain ⟨k, hk⟩ := hr.exists_ok
      have hscan : ∃ found, scan E w get account (pending.seek 0) (0, none) = .ok found := by
        cases k with
        | zero => exact absurd hk (exhaust_ne_ok r)
        | succ k =>
            rw [receiveAll, if_neg hhash] at hk
            obtain ⟨found, hfound, _⟩ := bind_eq_ok.mp hk
            exact ⟨found, hfound⟩
      obtain ⟨found, hscan⟩ := hscan
      obtain ⟨hbacked, hfound⟩ := round_ok hscan
      rcases hfound with ⟨hnone, _⟩ | ⟨e, b, hlast, rfl⟩
      · exact fun h x hx hs => absurd hs (hnone h x hx)
      by_cases hzero : e.1 = 0
      · -- the hash of every entry from the account is zero
        intro h x hx hs
        refine ⟨hbacked h x hx hs, fun hne => absurd ?_ hne⟩
        have hle := hlast.greatest h x hx hs
        rw [hzero] at hle
        exact BitVec.le_zero_iff.mp hle
      cases hfetch : (w.fetch E e.2.destination 0).1 with
      | true =>
          rw [kept_of_error hfetch] at hscan
          have hagain : ∀ n, receiveAll E w get account (n + 1) pending e.1 =
              receiveAll E w get account n pending e.1 := receiveAll_unkept hzero hscan
          have hsame := hr.shift (receiveAll_unkept hhash hscan)
          exact absurd ⟨r, hsame⟩ (not_completes_of_same rfl hagain)
      | false =>
          rw [kept_of_fetch hfetch] at hscan
          have hnext := hr.shift (receiveAll_kept hhash hscan)
          have hrest := ih _ (hn ▸ left_del hlast) hzero ⟨r, hnext⟩ rfl
          intro h x hx hs
          refine ⟨hbacked h x hx hs, fun hne => ?_⟩
          by_cases hh : h = e.1
          · subst hh
            cases hx.symm.trans hlast.entry
            exact hfetch
          · exact (hrest h x (by rw [Table.get_del_ne _ hh, hx]) hs).2 hne

end Loop

/-- The loop of `receive_all` ends exactly if it has nothing to begin with or the wallet can
receive everything that is pending from the account. -/
theorem receive_all_ends_iff (E : WalletEnv) (w : WalletStore) (get : BlockHash → Option Block)
    (account : Account) (pending : Table BlockHash Receivable) (current : BlockHash) :
    Completes (fun n => receiveAll E w get account n pending current) ↔
      current = 0 ∨ AllReceivable E w get account pending := by
  constructor
  · intro hc
    by_cases hzero : current = 0
    · exact Or.inl hzero
    · exact Or.inr (allReceivable_of_completes hzero hc)
  · intro h
    rcases h with rfl | hall
    · exact ⟨pending, receiveAll_zero pending⟩
    · exact hall.completes current

/-- Account nine has sent to an account of the wallet and to one that is not in it. -/
def twoPending : Table BlockHash Receivable :=
  ((∅ : Table BlockHash Receivable).put 1 ⟨9, 100, movingWallet.publicKey 1⟩).put 2 ⟨9, 100, 5⟩

def twoSends (h : BlockHash) : Option Block :=
  if h = 1 then some (.sendBlock ⟨⟨3, movingWallet.publicKey 1, 200⟩, 0, 0⟩)
  else if h = 2 then some (.sendBlock ⟨⟨1, 5, 100⟩, 0, 0⟩)
  else none

/-- The wallet has no key for the second entry, and every round keeps its hash. -/
theorem receive_all_endless :
    (∀ e ∈ twoPending.entries, Backed twoSends e.1) ∧
      ¬ Completes (fun n => receiveAll movingWallet oneWallet twoSends 9 n twoPending 1) := by
  constructor
  · intro e he
    have hkeys : e.1 = 1 ∨ e.1 = 2 := by
      have hentries : twoPending.entries.map Prod.fst = [1, 2] := by decide +kernel
      have hmem := List.mem_map_of_mem (f := Prod.fst) he
      rw [hentries] at hmem
      simpa using hmem
    rcases hkeys with hkey | hkey
    · exact ⟨_, by rw [hkey]; rfl⟩
    · exact ⟨_, by rw [hkey]; rfl⟩
  · intro hc
    have hall := allReceivable_of_completes (by decide) hc
    have hfetch := (hall 2 ⟨9, 100, 5⟩ (by decide +kernel) rfl).2 (by decide)
    revert hfetch
    decide +kernel

end PaperNode.PendingSearch
