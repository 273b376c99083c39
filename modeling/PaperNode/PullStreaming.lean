import PaperNode.BulkPull

/-!
# What a pull request is served

The server of a `bulk_pull` answers one block at a time, in a transaction of its own
each time. In a ledger that does not change it serves the chain of the account from
the head down to the end that was asked for, and then nothing more.

Between two answers it keeps a bare hash. Other threads process blocks meanwhile,
which does no harm, and roll blocks back, which may take away the block the hash
names.
-/
namespace PaperNode.PullStreaming
open BoundedRecursion OrderedTable LinkedNodes TransitionRuns Blocks BlockStore LedgerQueries
open LedgerProcess LedgerRollback BlockLattice QueryCorrectness ProcessSteps ChainInvariant
open IndexInvariant RollbackRuns LedgerRuns BulkPull FrontierExchange
open RollbackFuture hiding returns

/-- What the next `n` calls of `get_next` return. -/
def answers (s : Store) : ℕ → Server → Check PullAssertion (List (Option Block))
  | 0, _ => return []
  | n + 1, p => do
      let (result, p) ← p.getNext s
      let rest ← answers s n p
      return result :: rest

variable {E : Env} {s s' : Store} {b : Block} {a : Account} {e h k : BlockHash}
  {j : AccountInfo} {bs : List Block} {p p' : Server} {r : Option Block} {request : Request}

theorem getNext_ok (hn : p.getNext s = .ok (r, p')) :
    (p.current = p.request.endHash ∧ r = none ∧ p' = p) ∨
      ∃ b, p.current ≠ p.request.endHash ∧ s.blockGet p.current = some b ∧ r = some b ∧
        p' = p.after b := by
  by_cases hend : p.current = p.request.endHash
  · rw [getNext_end hend] at hn
    cases hn
    exact Or.inl ⟨hend, rfl, rfl⟩
  · cases hb : s.blockGet p.current with
    | none =>
        rw [Server.getNext, if_pos hend, hb] at hn
        cases hn
    | some b =>
        rw [getNext_block hend hb] at hn
        cases hn
        exact Or.inr ⟨b, hend, rfl, rfl, rfl⟩

theorem answers_end (hend : p.current = p.request.endHash) (m : ℕ) :
    answers s m p = .ok (List.replicate m none) := by
  induction m with
  | zero => rfl
  | succ m ih =>
      rw [answers, getNext_end hend]
      simp only [ok_bind, ih, List.replicate_succ]
      rfl

theorem sendBlocks_succ {n : ℕ} (h : sendBlocks s (n + 1) p = .ok bs) :
    (p.current = p.request.endHash ∧ bs = []) ∨
      ∃ b rest, s.blockGet p.current = some b ∧ p.getNext s = .ok (some b, p.after b) ∧
        sendBlocks s n (p.after b) = .ok rest ∧ bs = b :: rest := by
  rw [sendBlocks] at h
  obtain ⟨⟨r, p'⟩, hnext, h⟩ := bind_eq_ok.mp h
  rcases getNext_ok hnext with ⟨hend, rfl, _⟩ | ⟨b, _, hb, rfl, rfl⟩
  · cases h
    exact Or.inl ⟨hend, rfl⟩
  · obtain ⟨rest, hrest, h⟩ := bind_eq_ok.mp h
    cases h
    exact Or.inr ⟨b, rest, hb, hnext, hrest, rfl⟩

theorem answers_of_sendBlocks {n : ℕ} (hsend : sendBlocks s n p = .ok bs) (m : ℕ) :
    answers s (bs.length + m) p = .ok (bs.map some ++ List.replicate m none) := by
  induction n generalizing p bs with
  | zero => exact absurd hsend (exhaust_ne_ok bs)
  | succ n ih =>
      rcases sendBlocks_succ hsend with ⟨hend, rfl⟩ | ⟨b, rest, _, hnext, hrest, rfl⟩
      · rw [List.length_nil, Nat.zero_add, List.map_nil, List.nil_append]
        exact answers_end hend m
      · rw [List.length_cons, Nat.add_right_comm, answers, hnext]
        simp only [ok_bind, ih hrest]
        rfl

/-- Each block that is sent is the predecessor of the one before it. -/
theorem sendBlocks_linked {n : ℕ} (hk : Keyed E s.blockGet) (hsend : sendBlocks s n p = .ok bs) :
    bs.IsChain (fun b c => b.previousLink = some (E.hash c)) ∧
      ∀ b, bs.head? = some b → E.hash b = p.current := by
  induction n generalizing p bs with
  | zero => exact absurd hsend (exhaust_ne_ok bs)
  | succ n ih =>
      rcases sendBlocks_succ hsend with ⟨_, rfl⟩ | ⟨b, rest, hb, _, hrest, rfl⟩
      · exact ⟨.nil, by simp⟩
      · obtain ⟨hchain, hhead⟩ := ih hrest
        refine ⟨List.isChain_cons.mpr ⟨?_, hchain⟩, ?_⟩
        · intro c hc
          have hcurrent := hhead c hc
          unfold Server.after at hcurrent hrest
          split_ifs at hcurrent hrest with hp
          · -- Only an open block has no predecessor, and it has hash zero there.
            cases hl : b.previousLink with
            | none => exact absurd (by rw [Block.previous_eq, hl]; rfl) hp
            | some q =>
                rw [hcurrent, Block.previous_eq, hl]
                rfl
          · have hstop := answers_of_sendBlocks hrest 0
            cases rest with
            | nil => cases hc
            | cons d rest =>
                rw [List.length_cons, Nat.add_zero, answers_end rfl] at hstop
                cases hstop
        · intro c hc
          cases hc
          exact hk _ b hb

theorem nodup_of_linked (hs : Chains E s.blockGet)
    (hall : ∀ b ∈ bs, s.blockGet (E.hash b) = some b)
    (hchain : bs.IsChain (fun b c => b.previousLink = some (E.hash c))) :
    (bs.map E.hash).Nodup := by
  obtain ⟨rank, _, hrank⟩ := Chains.ranked_previous hs
  have hless : bs.IsChain (fun b c => rank (E.hash c) < rank (E.hash b)) := by
    refine List.IsChain.imp_of_mem_imp ?_ hchain
    intro b c hb _ hl
    exact hrank _ _ ⟨b, hall b hb, hl⟩
  have htrans : IsTrans Block (fun b c => rank (E.hash c) < rank (E.hash b)) :=
    ⟨fun _ _ _ hbc hcd => lt_trans hcd hbc⟩
  have hpair := List.isChain_iff_pairwise.mp hless
  rw [List.Nodup, List.pairwise_map]
  refine hpair.imp ?_
  intro b c hlt he
  rw [he] at hlt
  exact lt_irrefl _ hlt

theorem setCurrentEnd_unknown (hn : s.accounts.get request.start = none) :
    ∃ p, (∀ n, setCurrentEnd s n request = .ok p) ∧ p.current = p.request.endHash := by
  unfold setCurrentEnd
  by_cases hex : s.blockExists request.endHash = true
  · simp only [if_pos hex, Store.accountGet, hn]
    exact ⟨_, fun _ => rfl, rfl⟩
  · simp only [if_neg hex, Store.accountGet, hn]
    exact ⟨_, fun _ => rfl, rfl⟩

theorem setCurrentEnd_foreign {x : Account} (hs : Chains E s.blockGet) (h₀ : s.blockGet 0 = none)
    (hj : s.accounts.get a = some j) (hx : x ≠ 0) (he : Owner s.blockGet e x) (hxa : x ≠ a) :
    Settles (fun n => setCurrentEnd s n ⟨a, e⟩) ⟨⟨a, e⟩, e⟩ := by
  have hstored := he.stored
  have hex : s.blockExists e = true :=
    Store.blockExists_iff.mpr (Option.ne_none_iff_exists'.mp hstored)
  have hne : e ≠ 0 := fun heq => hstored (heq ▸ h₀)
  filter_upwards [account_settles hs.addressed he hx] with n hn
  simp only [setCurrentEnd, hex, if_true, Store.accountGet, hj, ne_eq, hne, not_false_eq_true,
    relabel_eq_ok.mpr hn, ok_bind, if_neg hxa]
  rfl

theorem above_end_iff (hs : Linked E s) (hi : Indexed E s) (h₀ : s.blockGet 0 = none)
    (hj : s.accounts.get a = some j) (he : Reach s.blockGet Previous j.head e) :
    Reach s.blockGet Previous j.head k ∧ ¬ Reach s.blockGet Previous e k ↔
      Reach s.blockGet Previous k e ∧ k ≠ e := by
  constructor
  · intro hk
    obtain ⟨hk, hnot⟩ := hk
    refine ⟨(hk.total he).resolve_right hnot, ?_⟩
    intro hke
    rw [hke] at hnot
    exact hnot Relation.ReflTransGen.refl
  · intro hk
    obtain ⟨hke, hne⟩ := hk
    have ho : Owner s.blockGet k a :=
      (Owner.reach hke).mpr ((Owner.reach he).mp (hs.heads a j hj).1)
    obtain ⟨i, hi', hr⟩ := exists_head hs hi ho
    cases hj.symm.trans hi'
    exact ⟨hr, not_reach_head hs.chains h₀ ho.stored (Or.inr hke) hne⟩

theorem below_head_iff (hs : Linked E s) (hi : Indexed E s) (h₀ : s.blockGet 0 = none)
    (hj : s.accounts.get a = some j) :
    Reach s.blockGet Previous j.head k ∧ ¬ Reach s.blockGet Previous 0 k ↔
      Owner s.blockGet k a := by
  constructor
  · exact fun hk => (Owner.reach hk.1).mp (hs.heads a j hj).1
  · intro ho
    obtain ⟨i, hi', hr⟩ := exists_head hs hi ho
    cases hj.symm.trans hi'
    refine ⟨hr, fun hr₀ => ho.stored ?_⟩
    rw [eq_zero_of_reach h₀ hr₀]
    exact h₀

/-- The server answers with the blocks of the list, newest first and each once, and then
with nothing. -/
structure Stream (E : Env) (s : Store) (p : Server) (bs : List Block) : Prop where
  answered : ∀ m, answers s (bs.length + m) p = .ok (bs.map some ++ List.replicate m none)
  newestFirst : bs.IsChain (fun b c => b.previousLink = some (E.hash c))
  once : (bs.map E.hash).Nodup
  stored : ∀ b ∈ bs, s.blockGet (E.hash b) = some b

theorem stream_of_settles (hs : Chains E s.blockGet) (hset : Settles (fun n => sendBlocks s n p) bs)
    (hall : ∀ b ∈ bs, s.blockGet (E.hash b) = some b) : Stream E s p bs := by
  obtain ⟨n, hn⟩ := hset.exists_ok
  have hchain := (sendBlocks_linked hs.keyed hn).1
  exact ⟨answers_of_sendBlocks hn, hchain, nodup_of_linked hs hall hchain, hall⟩

theorem stream_of_end (hend : p.current = p.request.endHash) : Stream E s p [] where
  answered := by
    intro m
    rw [List.length_nil, Nat.zero_add]
    exact answers_end hend m
  newestFirst := .nil
  once := .nil
  stored := by simp

/-- The calls of `get_next` for a request return a list of blocks, newest first and each once,
and then nothing. The blocks are those of the account above the end, if the end is one of its
blocks; all of them if the end is not stored; none otherwise. -/
theorem pull_serves_segment (hE : Hashed E) (hs : Reachable E s) (hz : s.accountGet 0 = none)
    (request : Request) :
    ∃ p bs, Settles (fun n => setCurrentEnd s n request) p ∧ Stream E s p bs ∧
      (Owner s.blockGet request.endHash request.start → ∀ k, k ∈ bs.map E.hash ↔
        Reach s.blockGet Previous k request.endHash ∧ k ≠ request.endHash) ∧
      (s.blockGet request.endHash = none → ∀ k, k ∈ bs.map E.hash ↔
        Owner s.blockGet k request.start) ∧
      (s.accountGet request.start = none ∨ (s.blockGet request.endHash ≠ none ∧
        ¬ Owner s.blockGet request.endHash request.start) → bs = []) := by
  have hl := (reachable_sound hs).linked
  have hi := (reachable_sound hs).indexed hE
  have h₀ := (Linked.bottomed hE hl).zero
  obtain ⟨a, e⟩ := request
  cases hj : s.accounts.get a with
  | none =>
      have hstart : s.accounts.get (Request.mk a e).start = none := hj
      obtain ⟨p, hp, hend⟩ := setCurrentEnd_unknown hstart
      refine ⟨p, [], Settles.of_forall hp, stream_of_end hend, ?_, ?_, fun _ => rfl⟩
      · exact fun ho => absurd ho (not_owner_of_unknown hl hi hj)
      · intro _ k
        exact iff_of_false (by simp) (not_owner_of_unknown hl hi hj)
  | some j =>
      have hhead := (hl.heads a j hj).1
      cases hb : s.blockGet e with
      | none =>
          obtain ⟨bs, hset, hall, hmem⟩ :=
            sendBlocks_settles (a := a) hl.chains h₀ hhead.stored (Or.inl rfl)
          refine ⟨_, bs, Settles.of_forall (setCurrentEnd_unstored hb hj),
            stream_of_settles hl.chains hset hall, ?_, ?_, ?_⟩
          · exact fun ho => absurd hb ho.stored
          · intro _ k
            rw [hmem k]
            exact below_head_iff hl hi h₀ hj
          · intro hnone
            rcases hnone with hn | ⟨hne, _⟩
            · cases hj.symm.trans hn
            · exact absurd rfl hne
      | some b =>
          obtain ⟨x, hx⟩ := hl.chains.exists_owner hb
          have hx₀ : x ≠ 0 := fun h₁ => not_owner_of_unknown hl hi hz (h₁ ▸ hx)
          by_cases hxa : x = a
          · subst hxa
            obtain ⟨i, hij, hr⟩ := exists_head hl hi hx
            cases hj.symm.trans hij
            obtain ⟨bs, hset, hall, hmem⟩ :=
              sendBlocks_settles (a := x) hl.chains h₀ hhead.stored (Or.inr hr)
            refine ⟨_, bs, setCurrentEnd_settles hl.chains h₀ hj hx₀ hx,
              stream_of_settles hl.chains hset hall, ?_, ?_, ?_⟩
            · intro _ k
              rw [hmem k]
              exact above_end_iff hl hi h₀ hj hr
            · intro hn
              cases hn
            · intro hnone
              rcases hnone with hn | ⟨_, hno⟩
              · cases hj.symm.trans hn
              · exact absurd hx hno
          · refine ⟨_, [], setCurrentEnd_foreign hl.chains h₀ hj hx₀ hx hxa, stream_of_end rfl,
              ?_, ?_, fun _ => rfl⟩
            · exact fun ho => absurd (hx.unique ho) hxa
            · intro hn
              cases hn

/-- Asked for the genesis account down to its open block, the server sends the send. -/
theorem pull_serves_segment_send : ∃ s p bs, Reachable smallNetwork s ∧ s.accountGet 0 = none ∧
    Settles (fun n => setCurrentEnd s n ⟨paperTestAccount, testGenesisHash⟩) p ∧
    Stream smallNetwork s p bs ∧ send₁Hash ∈ bs.map smallNetwork.hash := by
  have hrun : executes smallNetwork 20 [.process send₁] (fun s =>
      decide (s.blockGet send₁Hash = some send₁) && decide (s.accountGet 0 = none) &&
        decide (s.blockGet testGenesisHash = some (genesisBlock smallNetwork))) = true := by
    decide +kernel
  obtain ⟨s, hx, ht⟩ := exists_of_executes hrun
  simp only [Bool.and_eq_true, decide_eq_true_eq] at ht
  obtain ⟨⟨hsend, hz⟩, hgen⟩ := ht
  have hs := execute_reachable hx
  obtain ⟨p, bs, hp, hstream, hmem, _⟩ := pull_serves_segment smallNetwork_proper.hashed hs hz
    ⟨paperTestAccount, testGenesisHash⟩
  refine ⟨s, p, bs, hs, hz, hp, hstream, (hmem ((owner_open hgen).mpr rfl) send₁Hash).mpr ?_⟩
  exact ⟨Relation.ReflTransGen.single ⟨send₁, hsend, rfl⟩, by decide⟩

/-- A call of `ledger.process` or `ledger.rollback`, or the next call of `get_next`. -/
inductive Event where
  | ledger (x : Action)
  | getNext
  deriving DecidableEq, Repr

inductive Streams (E : Env) : Store × Server → Event → Store × Server → Prop
  | ledger {s s' : Store} {p : Server} {x : Action} :
      Step E s x s' → Streams E (s, p) (.ledger x) (s', p)
  | getNext {s : Store} {p p' : Server} {r : Option Block} :
      p.getNext s = .ok (r, p') → Streams E (s, p) .getNext (s, p')

/-- The assertion of `get_next` holds. -/
def Answering (q : Store × Server) : Prop := ∃ r p', q.2.getNext q.1 = .ok (r, p')

def Spares (q : Store × Server) (x : Event) : Prop :=
  ∀ k, x = .ledger (.rollback k) → q.2.current ≠ q.2.request.endHash →
    ¬ RollbackFuture.DependsOn q.1 q.2.current k

theorem answering_iff : Answering (s, p) ↔
    (p.current ≠ p.request.endHash → s.blockGet p.current ≠ none) := by
  constructor
  · intro ha hne
    obtain ⟨r, p', hn⟩ := ha
    rcases getNext_ok hn with ⟨hend, _⟩ | ⟨b, _, hb, _⟩
    · exact absurd hend hne
    · exact Option.ne_none_iff_exists'.mpr ⟨b, hb⟩
  · intro hstored
    by_cases hend : p.current = p.request.endHash
    · exact ⟨_, _, getNext_end hend⟩
    · obtain ⟨b, hb⟩ := Option.ne_none_iff_exists'.mp (hstored hend)
      exact ⟨_, _, getNext_block hend hb⟩

/-- The walk starts at its end or at the head of an account. -/
theorem setCurrentEnd_ok {n : ℕ} (hp : setCurrentEnd s n request = .ok p) :
    p.current = p.request.endHash ∨
      ∃ a i, s.accounts.get a = some i ∧ p.current = i.head := by
  unfold setCurrentEnd at hp
  generalize (if s.blockExists request.endHash then request else { request with endHash := 0 }) =
    asked at hp
  dsimp only at hp
  cases hi : s.accountGet asked.start with
  | none =>
      rw [hi] at hp
      cases hp
      exact Or.inl rfl
  | some i =>
      rw [hi] at hp
      dsimp only at hp
      split_ifs at hp with he
      · obtain ⟨x, _, hp⟩ := bind_eq_ok.mp hp
        split_ifs at hp with hx
        · cases hp
          exact Or.inr ⟨_, i, hi, rfl⟩
        · cases hp
          exact Or.inl rfl
      · cases hp
        exact Or.inr ⟨_, i, hi, rfl⟩

/-- Below a stored block there is a stored block, unless the chain is at its end. -/
theorem answering_after (hs : Chains E s.blockGet) (hb : s.blockGet p.current = some b) :
    Answering (s, p.after b) := by
  unfold Server.after
  split_ifs with hprev
  · refine answering_iff.mpr (fun _ => ?_)
    cases hl : b.previousLink with
    | none => exact absurd (by rw [Block.previous_eq, hl]; rfl) hprev
    | some q =>
        have hq : b.previous = q := by rw [Block.previous_eq, hl, Option.getD_some]
        rw [hq]
        exact hs.previous p.current q ⟨b, hb, hl⟩
  · exact ⟨_, _, getNext_end rfl⟩

/-- Of all steps only a rollback can take away the block that the server is to send next,
and it does so exactly when that block depends on the one rolled back. -/
theorem answering_step_iff {q q' : Store × Server} {x : Event} (hE : Hashed E)
    (hs : Reachable E q.1) (ha : Answering q) (hstep : Streams E q x q') :
    Answering q' ↔ Spares q x := by
  have hsound := reachable_sound hs
  cases hstep with
  | @getNext s p p' r hn =>
      refine iff_of_true ?_ (fun k hk => nomatch hk)
      rcases getNext_ok hn with ⟨hend, _, rfl⟩ | ⟨b, _, hb, _, rfl⟩
      · exact ⟨_, _, getNext_end hend⟩
      · exact answering_after hsound.linked.chains hb
  | @ledger s s' p x hx =>
      rw [answering_iff] at ha ⊢
      cases hx with
      | process hp =>
          refine iff_of_true (fun hne => ?_) (fun k hk => nomatch hk)
          obtain ⟨b, hb⟩ := Option.ne_none_iff_exists'.mp (ha hne)
          rcases process_ok hp with ⟨_, rfl⟩ | ⟨_, a, info, hl, _⟩
          · exact ha hne
          · exact Option.ne_none_iff_exists'.mpr ⟨b, hl.within _ b hb⟩
      | @rollback h fuel s' hr =>
          have hkept := rollback_kept hE hsound hr p.current
          constructor
          · intro hleft k hk hne
            cases hk
            obtain ⟨b, hb⟩ := Option.ne_none_iff_exists'.mp (hleft hne)
            exact ((hkept b).mp hb).2
          · intro hspare hne
            obtain ⟨b, hb⟩ := Option.ne_none_iff_exists'.mp (ha hne)
            exact Option.ne_none_iff_exists'.mpr ⟨b, (hkept b).mpr ⟨hb, hspare h rfl hne⟩⟩

/-- Through any interleaving of calls, the assertion of `get_next` holds at every moment
exactly when every rollback spares the block that the server is to send next. -/
theorem streaming_survives_iff {n : ℕ} (hE : Hashed E) (hs : Reachable E s)
    (hp : setCurrentEnd s n request = .ok p) : Answering (s, p) ∧
      ∀ xs q, Run (Ensured Answering (Streams E)) (s, p) xs q ↔
        Run (Guarded Spares (Streams E)) (s, p) xs q := by
  have hstart : Answering (s, p) := by
    rcases setCurrentEnd_ok hp with hend | ⟨a, i, hi, hcurrent⟩
    · exact ⟨_, _, getNext_end hend⟩
    · refine answering_iff.mpr (fun _ => ?_)
      rw [hcurrent]
      exact ((reachable_sound hs).linked.heads a i hi).1.stored
  refine ⟨hstart, fun xs q => ?_⟩
  have hbase : Reachable E (s, p).1 ∧ Answering (s, p) := ⟨hs, hstart⟩
  refine Run.ensured_iff (J := fun q => Reachable E q.1 ∧ Answering q) hbase ?_ ?_
  · exact fun q x q' hq hstep => answering_step_iff hE hq.1 hq.2 hstep
  · intro q x q' hq hstep hspare
    refine ⟨?_, (answering_step_iff hE hq.1 hq.2 hstep).mpr hspare⟩
    cases hstep with
    | ledger hx => exact hq.1.next hx
    | getNext _ => exact hq.1

/-- The genesis account is streamed while the send is processed. -/
theorem streaming_survives_send : ∃ s p q, Reachable smallNetwork s ∧
    setCurrentEnd s 20 ⟨paperTestAccount, 0⟩ = .ok p ∧
    Run (Ensured Answering (Streams smallNetwork)) (s, p) [.ledger (.process send₁)] q ∧
    q.1.blockGet send₁Hash = some send₁ := by
  have hrun : returns (do
      let s₀ ← genesisInitialize smallNetwork newStore
      let result ← process smallNetwork 20 s₀ send₁
      return (s₀, result.2)) (fun x => decide (x.2.blockGet send₁Hash = some send₁) &&
        returns (setCurrentEnd x.1 20 ⟨paperTestAccount, 0⟩) (fun _ => true)) = true := by
    decide +kernel
  obtain ⟨⟨s, s'⟩, hx, ht⟩ := exists_of_returns hrun
  rw [Bool.and_eq_true, decide_eq_true_eq] at ht
  obtain ⟨s₀, h₀, hx⟩ := bind_eq_ok.mp hx
  obtain ⟨⟨ret, s₁⟩, h₁, hx⟩ := bind_eq_ok.mp hx
  cases hx
  obtain ⟨p, hp, _⟩ := exists_of_returns ht.2
  have hs : Reachable smallNetwork s := Reached.start h₀
  have hall := (streaming_survives_iff smallNetwork_proper.hashed hs hp).2
  have hspare : Spares (s, p) (.ledger (.process send₁)) := by
    intro k hk
    cases hk
  exact ⟨s, p, (s₁, p), hs, hp,
    (hall _ _).mpr (Run.nil.snoc ⟨hspare, .ledger (.process h₁)⟩), ht.1⟩

/-- The server of the genesis account stands at the send when the send is rolled back. -/
theorem rollback_breaks_streaming : ¬ ∀ E s n request p xs q, Proper E → Reachable E s →
    setCurrentEnd s n request = .ok p → Run (Streams E) (s, p) xs q → Answering q := by
  intro hall
  have hrun : returns (do
      let s ← execute smallNetwork 20 [.process send₁]
      let s' ← rollback smallNetwork 20 s send₁Hash
      return (s, s')) (fun x =>
        returns (setCurrentEnd x.1 20 ⟨paperTestAccount, 0⟩) (fun p =>
          !returns (p.getNext x.2) (fun _ => true))) = true := by
    decide +kernel
  obtain ⟨⟨s, s'⟩, hx, ht⟩ := exists_of_returns hrun
  obtain ⟨t, h₁, hx⟩ := bind_eq_ok.mp hx
  obtain ⟨t', h₂, hx⟩ := bind_eq_ok.mp hx
  cases hx
  obtain ⟨p, hp, hfail⟩ := exists_of_returns ht
  have hs := execute_reachable h₁
  obtain ⟨r, p', hn⟩ := hall smallNetwork s 20 ⟨paperTestAccount, 0⟩ p
    [.ledger (.rollback send₁Hash)] (s', p) smallNetwork_proper hs hp
    (Run.nil.snoc (.ledger (.rollback h₂)))
  rw [hn] at hfail
  cases hfail

end PaperNode.PullStreaming
