import PaperNode.AccountChains
import PaperNode.WalletActions
import PaperNode.WalletSpending
import PaperNode.WorkPool

/-!
# Wallets at work

A node with wallets runs many threads. Some deliver blocks from the network; some run the actions of
wallets, one at a time for each account. An action reads the ledger in one transaction and
processes its block in a later one, and between the two anything may happen to the other accounts.

The private keys of the accounts `Ours` are in the wallets of this node and nowhere else. A block
that arrives with a good signature of such an account is therefore one that the node has stored
already. Elections may roll back blocks of other accounts. As long as they take back nothing that
our accounts have made or were sent, an account's chain cannot move under an action, and the
action's block is accepted: the node never makes two blocks that compete. Where a send is rolled
back that an account of ours has received, the receive goes with it, and the next action starts from
the block before.
-/
namespace PaperNode.SpendingRuns
open BoundedRecursion LinkedNodes TransitionRuns Blocks BlockStore LedgerQueries LedgerProcess
open BlockLattice ProcessSteps ChainInvariant IndexInvariant LedgerRuns RollbackFuture
open ProcessReturns ProofOfWork WalletSpending
open Wallet (Key WalletEnv WalletStore)
open WalletActions (Call Wallets Innermost Serial)
open GapCache (Node turn)

/-- How far an action has come. Its block is republished with the blocks that wait for it, one of
which is in hand. -/
inductive Stage where
  | asked
  | made (block : Block)
  | republishing (block inHand : Block)
  | processed (block : Block)
  | returned (block : Option Block)

def Stage.block : Stage → Option Block
  | asked | made _ => none
  | republishing block _ | processed block => some block
  | returned block => block

def Stage.Running : Stage → Prop
  | made _ | republishing _ _ | processed _ => True
  | asked | returned _ => False

/-- After a turn that goes on with `next`. -/
def Stage.after (block : Block) : Option Block → Stage
  | none => processed block
  | some inHand => republishing block inHand

def Stage.ofMade : Option Block → Stage
  | none => returned none
  | some block => made block

@[simp] theorem Stage.block_after (b : Block) (next : Option Block) :
    (Stage.after b next).block = some b := by
  cases next <;> rfl

@[simp] theorem Stage.block_ofMade (block : Option Block) : (Stage.ofMade block).block = none := by
  cases block <;> rfl

structure Job (W : Type*) where
  request : Request W
  stage : Stage

/-- The node, its wallets, the queue of actions, the actions in the order they were queued, and the
blocks in the hands of the threads that deliver blocks. -/
structure System (W Thread : Type*) where
  node : Node
  wallets : W → WalletStore
  actions : Wallets Thread Account
  jobs : List (Job W)
  hands : List Block

inductive Event (W Thread : Type*) where
  | queue (thread : Thread) (request : Request W)
  | start (thread : Thread)
  | make (n : ℕ) (generate : BlockHash → Word64) (block : Option Block)
  | process (n : ℕ)
  | republish (n : ℕ)
  | cache (n : ℕ) (generate : BlockHash → Word64)
  | finish (thread : Thread)
  | deliver (block : Block)
  | handle (block : Block)
  | elect (last winner : Block)
  | wallet (i : W) (action : Wallet.Action)

variable {W Thread : Type*}

/-- One step of one thread: a section under a mutex, a transaction, or a turn of the loop of
`process_receive_republish`. In the transaction of `election::vote` another block may take the place
of the last winner. -/
inductive Step [DecidableEq W] (S : SpendEnv) :
    System W Thread → Event W Thread → System W Thread → Prop
  | queue {σ thread r actions}
      (queued : WalletActions.Step σ.actions (.queue thread r.account) actions) :
      Step S σ (.queue thread r) { σ with actions := actions, jobs := σ.jobs ++ [⟨r, .asked⟩] }
  | start {σ thread actions} (started : WalletActions.Step σ.actions (.start thread) actions) :
      Step S σ (.start thread) { σ with actions := actions }
  | make {σ call r generate block} (called : call ∈ σ.actions.calls)
      (executing : call.executing = true) (job : σ.jobs[call.action]? = some ⟨r, .asked⟩)
      (returns : r.action S generate σ.actions.currentActions σ.node.store (σ.wallets r.wallet) =
        .ok block) :
      Step S σ (.make call.action generate block)
        { σ with jobs := σ.jobs.set call.action ⟨r, .ofMade block⟩ }
  | process {σ n r b fuel next node} (job : σ.jobs[n]? = some ⟨r, .made b⟩)
      (turns : turn S.ledger fuel σ.node b = .ok (next, node)) :
      Step S σ (.process n) { σ with node := node, jobs := σ.jobs.set n ⟨r, .after b next⟩ }
  | republish {σ n r b c fuel next node} (job : σ.jobs[n]? = some ⟨r, .republishing b c⟩)
      (turns : turn S.ledger fuel σ.node c = .ok (next, node)) :
      Step S σ (.republish n) { σ with node := node, jobs := σ.jobs.set n ⟨r, .after b next⟩ }
  | cache {σ n r b generate w} (job : σ.jobs[n]? = some ⟨r, .processed b⟩)
      (returns : workGenerate S generate σ.node.store (σ.wallets r.wallet) r.account
        (S.ledger.hash b) = .ok w) :
      Step S σ (.cache n generate)
        { σ with
          wallets := Function.update σ.wallets r.wallet w
          jobs := σ.jobs.set n ⟨r, .returned (some b)⟩ }
  | finish {σ thread actions} (finished : WalletActions.Step σ.actions (.finish thread) actions)
      (returned : ∀ before call after, Innermost σ.actions before call after →
        call.thread = thread → ∃ r block, σ.jobs[call.action]? = some ⟨r, .returned block⟩) :
      Step S σ (.finish thread) { σ with actions := actions }
  | deliver {σ b} : Step S σ (.deliver b) { σ with hands := b :: σ.hands }
  | handle {σ before b after fuel next node} (held : σ.hands = before ++ b :: after)
      (turns : turn S.ledger fuel σ.node b = .ok (next, node)) :
      Step S σ (.handle b) { σ with node := node, hands := before ++ next.toList ++ after }
  | elect {σ last winner fuel s} (installs : Elections.installWinner S.ledger fuel σ.node.store last
      winner = .ok s) :
      Step S σ (.elect last winner) { σ with node := ⟨s, σ.node.gapCache⟩ }
  | wallet {σ i action w} (performed : Wallet.Step S.wallet (σ.wallets i) action w) :
      Step S σ (.wallet i action) { σ with wallets := Function.update σ.wallets i w }

/-- The block occurs and, if one of our accounts signed it, the node has stored it already. -/
def Harmless (S : SpendEnv) (Ours : Account → Prop) (K : Block → Prop) (s : Store) (b : Block) :
    Prop :=
  K b ∧ ∀ a, Ours a → S.ledger.validateMessage a (S.ledger.hash b) b.signature = false →
    s.blockGet (S.ledger.hash b) ≠ none

/-- Nothing that depends on the block is a block of our accounts or was sent to them. -/
def Spares (S : SpendEnv) (Ours : Account → Prop) (s : Store) (h : BlockHash) : Prop :=
  ∀ k c, s.blockGet k = some c → DependsOn s k h → ∀ a, Ours a →
    ¬ Owner s.blockGet k a ∧ (∀ y, S.ledger.validateMessage a k y = true) ∧
      ∀ t, c = .sendBlock t → t.hashables.destination ≠ a

/-- Actions are for accounts of this node, with their private keys. The pool answers with good
work. A block that is signed by such an account comes from this node, and elections roll back
nothing that such an account has made or was sent. No two blocks that occur collide. -/
def Allowed (S : SpendEnv) (Ours : Account → Prop) (K : Block → Prop) (σ : System W Thread) :
    Event W Thread → Prop
  | .queue _ r => Ours r.account ∧ r.Keyed S K
  | .make _ generate block =>
      (∀ root, workValidate S.work root (generate root) = false) ∧ ∀ b, block = some b → K b
  | .deliver b => Harmless S Ours K σ.node.store b
  | .elect last winner => Harmless S Ours K σ.node.store winner ∧
      (winner ≠ last → Spares S Ours σ.node.store (S.ledger.hash last))
  | _ => True

def Initial (s₀ : Store) (σ : System W Thread) : Prop :=
  σ.node = ⟨s₀, []⟩ ∧ σ.actions = {} ∧ σ.jobs = [] ∧ σ.hands = []

section Queue
variable {s t : Wallets Thread Account} {e : WalletActions.Event Thread Account}
  {call : Call Thread Account}

theorem innermost_mem {before after : List (Call Thread Account)}
    (h : Innermost s before call after) :
    call ∈ s.calls ∧ ∀ c ∈ before ++ after, c ∈ s.calls := by
  rw [h.1]
  refine ⟨by simp, fun c hc => ?_⟩
  rcases List.mem_append.mp hc with hc | hc
  · exact List.mem_append_left _ hc
  · exact List.mem_append_right _ (List.mem_cons_of_mem _ hc)

/-- A call comes from one for the same action, from an action left for its account, or is new. -/
theorem calls_after (h : WalletActions.Step s e t) (hcall : call ∈ t.calls) :
    (∃ c ∈ s.calls, c.account = call.account ∧ c.action = call.action) ∨
      (call.account, call.action) ∈ s.pendingActions ∨
      ∃ thread, e = .queue thread call.account ∧ call.action = s.queued := by
  cases h with
  | @queue thread account free =>
      unfold WalletActions.queueWalletAction at hcall
      split_ifs at hcall
      · exact Or.inl ⟨call, hcall, rfl, rfl⟩
      · rcases List.mem_cons.mp hcall with rfl | hcall
        · exact Or.inr (Or.inr ⟨thread, rfl, rfl⟩)
        · exact Or.inl ⟨call, hcall, rfl, rfl⟩
  | @start before c after inner ready =>
      have hmem := innermost_mem inner
      rcases List.mem_append.mp hcall with hcall | hcall
      · exact Or.inl ⟨call, hmem.2 call (List.mem_append_left _ hcall), rfl, rfl⟩
      · rcases List.mem_cons.mp hcall with rfl | hcall
        · exact Or.inl ⟨c, hmem.1, rfl, rfl⟩
        · exact Or.inl ⟨call, hmem.2 call (List.mem_append_right _ hcall), rfl, rfl⟩
  | @finish before c after found s' next inner executing finds returns =>
      have hmem := innermost_mem inner
      cases finds with
      | found left =>
          cases returns
          simp only [Option.toList_some, List.append_assoc, List.mem_append,
            List.mem_cons, List.not_mem_nil, or_false] at hcall
          rcases hcall with hcall | rfl | hcall
          · exact Or.inl ⟨call, hmem.2 call (List.mem_append_left _ hcall), rfl, rfl⟩
          · exact Or.inr (Or.inl left)
          · exact Or.inl ⟨call, hmem.2 call (List.mem_append_right _ hcall), rfl, rfl⟩
      | absent none_left =>
          obtain ⟨_, _, h⟩ := bind_eq_ok.mp returns
          cases h
          simp only [Option.toList_none, List.append_nil] at hcall
          exact Or.inl ⟨call, hmem.2 call hcall, rfl, rfl⟩

theorem pending_after {a : Account} {n : ℕ} (h : WalletActions.Step s e t)
    (hn : (a, n) ∈ t.pendingActions) :
    (a, n) ∈ s.pendingActions ∨ ∃ thread, e = .queue thread a ∧ n = s.queued := by
  cases h with
  | @queue thread account free =>
      unfold WalletActions.queueWalletAction at hn
      split_ifs at hn
      · rcases List.mem_cons.mp hn with hn | hn
        · cases hn
          exact Or.inr ⟨thread, rfl, rfl⟩
        · exact Or.inl hn
      · exact Or.inl hn
  | start => exact Or.inl hn
  | finish inner executing finds returns =>
      cases finds with
      | found left =>
          cases returns
          exact Or.inl (List.mem_of_mem_erase hn)
      | absent none_left =>
          obtain ⟨_, _, h⟩ := bind_eq_ok.mp returns
          cases h
          exact Or.inl hn

/-- A call that executes its action goes on until it has finished. -/
theorem executing_after (h : WalletActions.Step s e t) (hcall : call ∈ s.calls)
    (hexecuting : call.executing = true) :
    call ∈ t.calls ∨ ∃ before after, Innermost s before call after ∧ e = .finish call.thread := by
  cases h with
  | queue free =>
      left
      unfold WalletActions.queueWalletAction
      split_ifs
      · exact hcall
      · exact List.mem_cons_of_mem _ hcall
  | @start before c after inner ready =>
      rw [inner.1] at hcall
      simp only [List.mem_append, List.mem_cons] at hcall ⊢
      rcases hcall with hcall | rfl | hcall
      · exact Or.inl (Or.inl hcall)
      · rw [ready] at hexecuting
        cases hexecuting
      · exact Or.inl (Or.inr (Or.inr hcall))
  | @finish before c after found s' next inner executing finds returns =>
      by_cases hc : call = c
      · subst hc
        exact Or.inr ⟨before, after, inner, rfl⟩
      · rw [inner.1] at hcall
        simp only [List.mem_append, List.mem_cons, hc, false_or] at hcall ⊢
        tauto

theorem queued_after (h : WalletActions.Step s e t) :
    (∀ thread a, e ≠ .queue thread a) → t.queued = s.queued := by
  intro hne
  cases h with
  | queue free => exact absurd rfl (hne _ _)
  | start => rfl
  | finish inner executing finds returns =>
      cases finds with
      | found left =>
          cases returns
          rfl
      | absent none_left =>
          obtain ⟨_, _, h⟩ := bind_eq_ok.mp returns
          cases h
          rfl

end Queue

def jobAccount (jobs : List (Job W)) (n : ℕ) : Option Account :=
  jobs[n]?.map (fun j => j.request.account)

section Jobs
variable {jobs : List (Job W)} {n m : ℕ} {r : Request W} {stage stage' : Stage} {j : Job W}

theorem jobAccount_eq (h : jobs[n]? = some ⟨r, stage⟩) : jobAccount jobs n = some r.account := by
  unfold jobAccount
  rw [h]
  rfl

theorem get_set_job (h : (jobs.set n ⟨r, stage⟩)[m]? = some j) :
    (m = n ∧ j = ⟨r, stage⟩) ∨ (m ≠ n ∧ jobs[m]? = some j) := by
  by_cases hm : m = n
  · subst hm
    have hlt : m < jobs.length := by
      by_contra hlt
      rw [List.getElem?_eq_none (by simpa using hlt)] at h
      cases h
    rw [List.getElem?_set_self hlt] at h
    exact Or.inl ⟨rfl, (Option.some.inj h).symm⟩
  · rw [List.getElem?_set_ne (Ne.symm hm)] at h
    exact Or.inr ⟨hm, h⟩

theorem get_append_job (h : (jobs ++ [j])[n]? = some ⟨r, stage⟩) :
    jobs[n]? = some ⟨r, stage⟩ ∨ j = ⟨r, stage⟩ := by
  rcases lt_or_ge n jobs.length with hlt | hge
  · rw [List.getElem?_append_left hlt] at h
    exact Or.inl h
  · rw [List.getElem?_append_right hge] at h
    obtain ⟨_, h⟩ := List.getElem?_eq_some_iff.mp h
    exact Or.inr (by simpa using h)

theorem jobAccount_set (h : jobs[n]? = some ⟨r, stage⟩) :
    jobAccount (jobs.set n ⟨r, stage'⟩) = jobAccount jobs := by
  funext m
  unfold jobAccount
  by_cases hm : m = n
  · subst hm
    obtain ⟨hlt, _⟩ := List.getElem?_eq_some_iff.mp h
    rw [List.getElem?_set_self hlt, h]
    rfl
  · rw [List.getElem?_set_ne (Ne.symm hm)]

theorem jobAccount_append {a : Account} (h : jobAccount jobs n = some a) :
    jobAccount (jobs ++ [j]) n = some a := by
  unfold jobAccount at h ⊢
  obtain ⟨k, hk, rfl⟩ := Option.map_eq_some_iff.mp h
  obtain ⟨hlt, _⟩ := List.getElem?_eq_some_iff.mp hk
  rw [List.getElem?_append_left hlt, hk]
  rfl

end Jobs

/-- Every call and every action left is for the account it was queued for, and an action with a
block in hand is executing. -/
structure Queued (σ : System W Thread) : Prop where
  serial : Serial σ.actions
  length : σ.jobs.length = σ.actions.queued
  called : ∀ call ∈ σ.actions.calls, jobAccount σ.jobs call.action = some call.account
  left : ∀ a n, (a, n) ∈ σ.actions.pendingActions → jobAccount σ.jobs n = some a
  running : ∀ n r stage, σ.jobs[n]? = some ⟨r, stage⟩ → stage.Running →
    ∃ call ∈ σ.actions.calls, call.action = n ∧ call.executing = true

section Queued
variable {S : SpendEnv} {σ τ : System W Thread} {n m : ℕ} {r r' : Request W}
  {stage stage' : Stage}

theorem Queued.apart (hσ : Queued σ) (hn : σ.jobs[n]? = some ⟨r, stage⟩) (hs : stage.Running)
    (hm : σ.jobs[m]? = some ⟨r', stage'⟩) (hs' : stage'.Running)
    (ha : r.account = r'.account) : n = m := by
  obtain ⟨c, hc, rfl, _⟩ := hσ.running n r stage hn hs
  obtain ⟨d, hd, rfl, _⟩ := hσ.running m r' stage' hm hs'
  have hca := (hσ.called c hc).symm.trans (jobAccount_eq hn)
  have hda := (hσ.called d hd).symm.trans (jobAccount_eq hm)
  have hcd : c.account = d.account := by
    rw [Option.some.inj hca, ha, Option.some.inj hda]
  rw [List.inj_on_of_nodup_map hσ.serial.accounts hc hd hcd]

/-- A stage of an executing action, or an earlier stage with a block in hand, leads to another. -/
theorem Queued.set (hσ : Queued σ) (hn : σ.jobs[n]? = some ⟨r, stage⟩)
    (hrun : stage'.Running → ∃ call ∈ σ.actions.calls, call.action = n ∧ call.executing = true)
    (node : Node) (wallets : W → WalletStore) (hands : List Block) :
    Queued { σ with
      node := node, wallets := wallets, jobs := σ.jobs.set n ⟨r, stage'⟩, hands := hands } := by
  refine ⟨hσ.serial, ?_, ?_, ?_, ?_⟩
  · rw [← hσ.length]
    exact List.length_set
  · intro call hcall
    rw [jobAccount_set hn]
    exact hσ.called call hcall
  · intro a m hm
    rw [jobAccount_set hn]
    exact hσ.left a m hm
  · intro m q stage'' hm hs
    rcases get_set_job hm with ⟨rfl, hj⟩ | ⟨_, hm⟩
    · cases hj
      exact hrun hs
    · exact hσ.running m q stage'' hm hs

/-- A step of the queue that adds no action. -/
theorem Queued.actions {e : WalletActions.Event Thread Account} {t : Wallets Thread Account}
    (hσ : Queued σ) (h : WalletActions.Step σ.actions e t) (hne : ∀ thread a, e ≠ .queue thread a)
    (hover : ∀ before call after, Innermost σ.actions before call after →
      e = .finish call.thread → ∃ r block, σ.jobs[call.action]? = some ⟨r, .returned block⟩) :
    Queued { σ with actions := t } := by
  refine ⟨hσ.serial.step h, hσ.length.trans (queued_after h hne).symm, ?_, ?_, ?_⟩
  · intro call hcall
    rcases calls_after h hcall with ⟨c, hc, ha, hn⟩ | hleft | ⟨thread, he, _⟩
    · rw [← ha, ← hn]
      exact hσ.called c hc
    · exact hσ.left _ _ hleft
    · exact absurd he (hne _ _)
  · intro a n hn
    rcases pending_after h hn with hn | ⟨thread, he, _⟩
    · exact hσ.left a n hn
    · exact absurd he (hne _ _)
  · intro n r stage hn hs
    obtain ⟨call, hcall, rfl, hexecuting⟩ := hσ.running n r stage hn hs
    rcases executing_after h hcall hexecuting with hcall | ⟨before, after, hinner, he⟩
    · exact ⟨call, hcall, rfl, hexecuting⟩
    · obtain ⟨q, block, hreturned⟩ := hover before call after hinner he
      cases hn.symm.trans hreturned
      exact hs.elim

theorem Queued.queue {thread : Thread} {t : Wallets Thread Account} (hσ : Queued σ)
    (h : WalletActions.Step σ.actions (.queue thread r.account) t) :
    Queued { σ with actions := t, jobs := σ.jobs ++ [⟨r, .asked⟩] } := by
  have hnew : jobAccount (σ.jobs ++ [⟨r, .asked⟩]) σ.actions.queued = some r.account := by
    unfold jobAccount
    rw [← hσ.length, List.getElem?_concat_length]
    rfl
  refine ⟨hσ.serial.step h, ?_, ?_, ?_, ?_⟩
  · have hqueued : t.queued = σ.actions.queued + 1 := by
      cases h
      unfold WalletActions.queueWalletAction
      split_ifs <;> rfl
    rw [List.length_append, hσ.length]
    exact hqueued.symm
  · intro call hcall
    rcases calls_after h hcall with ⟨c, hc, ha, hn⟩ | hleft | ⟨_, he, hn⟩
    · rw [← ha, ← hn]
      exact jobAccount_append (hσ.called c hc)
    · exact jobAccount_append (hσ.left _ _ hleft)
    · rw [hn, hnew]
      exact congrArg some (WalletActions.Event.queue.inj he).2
  · intro a n hn
    rcases pending_after h hn with hn | ⟨_, he, hn⟩
    · exact jobAccount_append (hσ.left a n hn)
    · rw [hn, hnew]
      exact congrArg some (WalletActions.Event.queue.inj he).2
  · intro n q stage hn hs
    rcases get_append_job hn with hn | hj
    · obtain ⟨call, hcall, ha, hexecuting⟩ := hσ.running n q stage hn hs
      rcases executing_after h hcall hexecuting with hcall | ⟨_, _, _, he⟩
      · exact ⟨call, hcall, ha, hexecuting⟩
      · cases he
    · cases hj
      exact hs.elim

theorem Queued.step [DecidableEq W] {e : Event W Thread} (hσ : Queued σ) (h : Step S σ e τ) :
    Queued τ := by
  cases h with
  | queue queued => exact hσ.queue queued
  | start started => exact hσ.actions started (by simp) (by simp)
  | make called executing job returns =>
      exact hσ.set job (fun _ => ⟨_, called, rfl, executing⟩) _ _ _
  | process job turns =>
      exact hσ.set job (fun _ => hσ.running _ _ _ job trivial) _ _ _
  | republish job turns =>
      exact hσ.set job (fun _ => hσ.running _ _ _ job trivial) _ _ _
  | cache job returns => exact hσ.set job False.elim _ _ _
  | finish finished returned =>
      refine hσ.actions finished (by simp) ?_
      intro before call after hinner he
      cases he
      exact returned before call after hinner rfl
  | deliver | handle | elect | wallet =>
      exact ⟨hσ.serial, hσ.length, hσ.called, hσ.left, hσ.running⟩

end Queued

/-- The block is in the hands of a thread that delivers blocks, waits in the cache, or was taken
from there by the thread of an action. -/
def System.Circulates (σ : System W Thread) (b : Block) : Prop :=
  b ∈ σ.hands ∨ (∃ g ∈ σ.node.gapCache, g.block = b) ∨
    ∃ (n : ℕ) (r : Request W) (d : Block), σ.jobs[n]? = some ⟨r, .republishing d b⟩

/-- The ledger has been given the block of action `n`. -/
def System.Processed (σ : System W Thread) (n : ℕ) (r : Request W) (b : Block) : Prop :=
  ∃ stage, σ.jobs[n]? = some ⟨r, stage⟩ ∧ stage.block = some b

/-- Besides, the action has not returned. -/
def System.Executed (σ : System W Thread) (n : ℕ) (r : Request W) (b : Block) : Prop :=
  ∃ stage, σ.jobs[n]? = some ⟨r, stage⟩ ∧ stage.block = some b ∧ stage.Running

/-- The ledger has not changed, or a block of an account that is not ours was accepted. -/
def Elsewhere (S : SpendEnv) (Ours : Account → Prop) (K : Block → Prop) (s s' : Store) : Prop :=
  s' = s ∨ ∃ c x info, K c ∧ ¬ Ours x ∧ Placed S.ledger s c x info s' ∧
    Posted S.ledger s x info s' c

section Elsewhere
variable {S : SpendEnv} {Ours : Account → Prop} {K : Block → Prop} {s s' : Store} {a x : Account}
  {b c : Block} {r : Request W} {h : BlockHash} {info : AccountInfo}

theorem owner_old (hs : Linked S.ledger s) (hl : Placed S.ledger s c x info s')
    (hne : h ≠ S.ledger.hash c) (ho : Owner s'.blockGet h a) : Owner s.blockGet h a := by
  obtain ⟨d, hd⟩ := Option.ne_none_iff_exists'.mp ho.stored
  rw [hl.other hne] at hd
  exact hs.chains.owner_of_within hl.within hd ho

theorem owner_new (hs : Linked S.ledger s) (hl : Placed S.ledger s c x info s')
    (hp : Posted S.ledger s x info s' c) : Owner s'.blockGet (S.ledger.hash c) x := by
  rw [hl.blocks]
  exact (hs.fits hl hp).owner

theorem Elsewhere.within (h : Elsewhere S Ours K s s') : Within s.blockGet s'.blockGet := by
  rcases h with rfl | ⟨c, x, info, _, _, hl, _⟩
  · exact fun _ _ => id
  · exact hl.within

theorem Elsewhere.occurring (h : Elsewhere S Ours K s s')
    (hs : ∀ k b, s.blockGet k = some b → K b) : ∀ k b, s'.blockGet k = some b → K b := by
  rcases h with rfl | ⟨c, x, info, hc, _, hl, _⟩
  · exact hs
  · intro k b hb
    by_cases hk : k = S.ledger.hash c
    · rw [hk, hl.stored] at hb
      cases hb
      exact hc
    · rw [hl.other hk] at hb
      exact hs k b hb

theorem Elsewhere.made (h : Elsewhere S Ours K s s') (hE : Proper S.ledger)
    (hs : Healthy S.ledger s) (hr : Ours r.account) (hb : Made S s r b) : Made S s' r b := by
  rcases h with rfl | ⟨c, x, info, _, hx, hl, hp⟩
  · exact hb
  · exact hb.accepted hE hs hl hp (fun he => hx (he ▸ hr))

theorem Elsewhere.account (h : Elsewhere S Ours K s s') (hE : Proper S.ledger) (ha : Ours a) :
    s'.accounts.get a = s.accounts.get a := by
  rcases h with rfl | ⟨c, x, info, _, hx, hl, _⟩
  · rfl
  · rw [placed_account hE.hashed hl, if_neg fun he : a = x => hx (he ▸ ha)]

theorem Elsewhere.owner (h : Elsewhere S Ours K s s') (hs : Linked S.ledger s) {k : BlockHash}
    (ha : Ours a) (ho : Owner s'.blockGet k a) : Owner s.blockGet k a := by
  rcases h with rfl | ⟨c, x, info, _, hx, hl, hp⟩
  · exact ho
  · refine owner_old hs hl ?_ ho
    rintro rfl
    exact hx ((owner_new hs hl hp).unique ho ▸ ha)

theorem Harmless.within (hb : Harmless S Ours K s b) (hw : Within s.blockGet s'.blockGet) :
    Harmless S Ours K s' b := by
  refine ⟨hb.1, fun a ha hv => ?_⟩
  obtain ⟨c, hc⟩ := Option.ne_none_iff_exists'.mp (hb.2 a ha hv)
  rw [hw _ _ hc]
  exact Option.some_ne_none c

/-- A turn hands on what waits in the cache, or the block it was given. -/
theorem turn_circulates {E : Env} {fuel : ℕ} {node node' : Node} {next : Option Block}
    (h : turn E fuel node b = .ok (next, node')) :
    (∀ d, next = some d → d = b ∨ ∃ g ∈ node.gapCache, g.block = d) ∧
      ∀ g ∈ node'.gapCache, g.block = b ∨ ∃ g' ∈ node.gapCache, g'.block = g.block := by
  obtain ⟨ret, middle, hreceive, rfl, rfl⟩ := GapCache.turn_ok h
  have hmiddle : ∀ g ∈ middle.gapCache, g.block = b ∨ ∃ g' ∈ node.gapCache, g'.block = g.block := by
    intro g hg
    rcases (RepublishLoop.processReceive_ok hreceive).2 with hsame | ⟨p, _, hadd⟩
    · exact Or.inr ⟨g, hsame ▸ hg, rfl⟩
    · rw [hadd] at hg
      rcases List.mem_append.mp ((RepublishLoop.add_subperm E _ b p).subset hg) with hg | hg
      · exact Or.inr ⟨g, hg, rfl⟩
      · rw [List.mem_singleton.mp hg]
        exact Or.inl rfl
  rcases GapCache.get_cases middle.gapCache (E.hash b) with ⟨hnone, _⟩ | ⟨g, _, hsome, hperm⟩
  · rw [hnone]
    exact ⟨fun d hd => (by cases hd), hmiddle⟩
  · refine ⟨fun d hd => ?_, fun x hx => hmiddle x (hperm.mem_iff.mpr (List.mem_cons_of_mem g hx))⟩
    rw [hsome] at hd
    cases hd
    exact hmiddle g (hperm.mem_iff.mpr List.mem_cons_self)

theorem turn_process {E : Env} {fuel : ℕ} {node node' : Node} {next : Option Block}
    (h : turn E fuel node b = .ok (next, node')) :
    ∃ ret, process E fuel node.store b = .ok (ret, node'.store) := by
  obtain ⟨ret, middle, hreceive, _, rfl⟩ := GapCache.turn_ok h
  exact ⟨ret, (RepublishLoop.processReceive_ok hreceive).1⟩

theorem Harmless.elsewhere {fuel : ℕ} {ret : ProcessReturn} (hb : Harmless S Ours K s b)
    (h : process S.ledger fuel s b = .ok (ret, s')) : Elsewhere S Ours K s s' := by
  rcases process_ok h with ⟨_, hsame⟩ | ⟨_, x, info, hl, hp⟩
  · exact Or.inl hsame
  · exact Or.inr ⟨b, x, info, hb.1, fun hx => hb.2 x hx hl.valid hl.fresh, hl, hp⟩

theorem Spares.kept {m : Store} {k p : BlockHash} (hspared : Spares S Ours s p)
    (hleft : ∀ k c, m.blockGet k = some c ↔ s.blockGet k = some c ∧ ¬ DependsOn s k p)
    (hk : s.blockGet k = some c) (ha : Ours a)
    (hours : Owner s.blockGet k a ∨ (∃ y, S.ledger.validateMessage a k y = false) ∨
      ∃ t, c = .sendBlock t ∧ t.hashables.destination = a) : m.blockGet k ≠ none := by
  rw [(hleft k c).mpr ⟨hk, fun hdepends => ?_⟩]
  · exact Option.some_ne_none c
  · obtain ⟨howner, hsigned, hsent⟩ := hspared k c hk hdepends a ha
    rcases hours with ho | ⟨y, hy⟩ | ⟨t, ht, hd⟩
    · exact howner ho
    · cases (hsigned y).symm.trans hy
    · exact hsent t ht hd

theorem Spares.harmless {m : Store} {p : BlockHash} (hspared : Spares S Ours s p)
    (hleft : ∀ k c, m.blockGet k = some c ↔ s.blockGet k = some c ∧ ¬ DependsOn s k p)
    (hb : Harmless S Ours K s b) : Harmless S Ours K m b := by
  refine ⟨hb.1, fun a ha hv => ?_⟩
  obtain ⟨c, hc⟩ := Option.ne_none_iff_exists'.mp (hb.2 a ha hv)
  exact hspared.kept hleft hc ha (Or.inr (Or.inl ⟨_, hv⟩))

end Elsewhere

/-- What holds of the ledger, the blocks in hand and the actions. -/
structure Intact (S : SpendEnv) (Ours : Account → Prop) (K : Block → Prop) (s₀ : Store)
    (σ : System W Thread) : Prop where
  reachable : Reachable S.ledger σ.node.store
  occurring : ∀ h b, σ.node.store.blockGet h = some b → K b
  keyed : ∀ (n : ℕ) j, σ.jobs[n]? = some j → Ours j.request.account ∧ j.request.Keyed S K
  harmless : ∀ b, σ.Circulates b → Harmless S Ours K σ.node.store b
  made : ∀ (n : ℕ) r b, σ.jobs[n]? = some ⟨r, .made b⟩ → K b ∧ Made S σ.node.store r b
  top : ∀ n r b, σ.Executed n r b → ∃ i, σ.node.store.accounts.get r.account = some i ∧
    i.head = S.ledger.hash b
  done : ∀ n r b, σ.Processed n r b → Fulfilled S σ.node.store r b
  once : ∀ n m r r' b c, σ.Processed n r b → σ.Processed m r' c →
    S.ledger.hash b = S.ledger.hash c → n = m
  grown : ∀ h a, Ours a → Owner σ.node.store.blockGet h a →
    s₀.blockGet h ≠ none ∨ ∃ n r b, σ.Processed n r b ∧ S.ledger.hash b = h

section Intact
variable {S : SpendEnv} {Ours : Account → Prop} {K : Block → Prop} {s₀ : Store}
  {σ τ : System W Thread} {n m : ℕ} {r r' : Request W} {b : Block}

/-- A step that gives the ledger no block of an action. -/
theorem Intact.kept (hE : Proper S.ledger) (hσ : Intact S Ours K s₀ σ)
    (hreach : Reachable S.ledger τ.node.store)
    (hstore : Elsewhere S Ours K σ.node.store τ.node.store)
    (hkeyed : ∀ (n : ℕ) j, τ.jobs[n]? = some j →
      Ours j.request.account ∧ j.request.Keyed S K)
    (hcirc : ∀ b, τ.Circulates b → σ.Circulates b ∨ Harmless S Ours K τ.node.store b)
    (hmade : ∀ (n : ℕ) r b, τ.jobs[n]? = some ⟨r, .made b⟩ →
      σ.jobs[n]? = some ⟨r, .made b⟩ ∨ (K b ∧ Made S τ.node.store r b))
    (htop : ∀ n r b, τ.Executed n r b → σ.Executed n r b)
    (hdone : ∀ n r b, τ.Processed n r b ↔ σ.Processed n r b) : Intact S Ours K s₀ τ := by
  have hhealthy := reachable_healthy hE hσ.reachable
  refine ⟨hreach, hstore.occurring hσ.occurring, hkeyed, ?_, ?_, ?_, ?_, ?_, ?_⟩
  · intro b hb
    rcases hcirc b hb with hb | hb
    · exact (hσ.harmless b hb).within hstore.within
    · exact hb
  · intro n r b hn
    rcases hmade n r b hn with hn | hn
    · obtain ⟨hK, hb⟩ := hσ.made n r b hn
      exact ⟨hK, hstore.made hE hhealthy (hσ.keyed n _ hn).1 hb⟩
    · exact hn
  · intro n r b hb
    obtain ⟨stage, hn, _⟩ := htop n r b hb
    rw [hstore.account hE (hσ.keyed n _ hn).1]
    exact hσ.top n r b (htop n r b hb)
  · intro n r b hb
    exact (hσ.done n r b ((hdone n r b).mp hb)).within hstore.within
  · intro n m r r' b c hb hc
    exact hσ.once n m r r' b c ((hdone n r b).mp hb) ((hdone m r' c).mp hc)
  · intro h a ha ho
    refine (hσ.grown h a ha (hstore.owner hhealthy.linked ha ho)).imp_right ?_
    rintro ⟨n, r, b, hb, hh⟩
    exact ⟨n, r, b, (hdone n r b).mpr hb, hh⟩

theorem Intact.accepted (hE : Proper S.ledger) (hK : Apart S.ledger K) (hσ : Intact S Ours K s₀ σ)
    (hn : σ.jobs[n]? = some ⟨r, .made b⟩) {fuel : ℕ} {node : Node} {next : Option Block}
    (h : turn S.ledger fuel σ.node b = .ok (next, node)) :
    ∃ info, Placed S.ledger σ.node.store b r.account info node.store ∧
      Posted S.ledger σ.node.store r.account info node.store b := by
  have hhealthy := reachable_healthy hE hσ.reachable
  obtain ⟨hKb, hb⟩ := hσ.made n r b hn
  have hfresh := hb.prepared.fresh hhealthy hK hσ.occurring hKb
  obtain ⟨ret, hprocess⟩ := turn_process h
  have hcode := passes_progress (hb.prepared.passes hE hhealthy hfresh) hprocess
  rcases process_ok hprocess with ⟨hne, _⟩ | ⟨_, x, info, hl, hp⟩
  · exact absurd hcode hne
  · cases hb.prepared.account hhealthy hl hp
    exact ⟨info, hl, hp⟩

theorem processed_set {stage stage' : Stage} (hn : σ.jobs[n]? = some ⟨r, stage⟩)
    (hblock : stage'.block = stage.block) (hτ : τ.jobs = σ.jobs.set n ⟨r, stage'⟩) (m : ℕ)
    (q : Request W) (c : Block) : τ.Processed m q c ↔ σ.Processed m q c := by
  unfold System.Processed
  rw [hτ]
  obtain ⟨hlt, _⟩ := List.getElem?_eq_some_iff.mp hn
  by_cases hm : m = n
  · subst hm
    rw [List.getElem?_set_self hlt, hn]
    constructor
    · rintro ⟨_, hj, hc⟩
      cases hj
      exact ⟨stage, rfl, hblock ▸ hc⟩
    · rintro ⟨_, hj, hc⟩
      cases hj
      exact ⟨stage', rfl, hblock ▸ hc⟩
  · rw [List.getElem?_set_ne (Ne.symm hm)]

theorem executed_set {stage stage' : Stage} (hn : σ.jobs[n]? = some ⟨r, stage⟩)
    (hstage : ∀ c, stage'.block = some c → stage'.Running → stage.block = some c ∧ stage.Running)
    (hτ : τ.jobs = σ.jobs.set n ⟨r, stage'⟩) (m : ℕ) (q : Request W) (c : Block)
    (h : τ.Executed m q c) : σ.Executed m q c := by
  obtain ⟨stage'', hm, hc, hrun⟩ := h
  rw [hτ] at hm
  rcases get_set_job hm with ⟨rfl, hj⟩ | ⟨_, hm⟩
  · cases hj
    exact ⟨stage, hn, hstage c hc hrun⟩
  · exact ⟨stage'', hm, hc, hrun⟩

/-- A turn for an action brings no other block into circulation than the one in hand. -/
theorem circulates_set {fuel : ℕ} {c d x : Block} {node : Node} {next : Option Block}
    (h : turn S.ledger fuel σ.node c = .ok (next, node))
    (hx : System.Circulates { σ with node := node, jobs := σ.jobs.set n ⟨r, .after d next⟩ } x) :
    σ.Circulates x ∨ x = c := by
  obtain ⟨hnext, hcache⟩ := turn_circulates h
  rcases hx with hx | ⟨g, hg, rfl⟩ | ⟨m, q, d', hm⟩
  · exact Or.inl (Or.inl hx)
  · rcases hcache g hg with hc | hc
    · exact Or.inr hc
    · exact Or.inl (Or.inr (Or.inl hc))
  · rcases get_set_job hm with ⟨_, hj⟩ | ⟨_, hm⟩
    · cases next with
      | none => cases hj
      | some y =>
          cases hj
          rcases hnext x rfl with hc | hc
          · exact Or.inr hc
          · exact Or.inl (Or.inr (Or.inl hc))
    · exact Or.inl (Or.inr (Or.inr ⟨m, q, d', hm⟩))

theorem circulates_stage {stage : Stage} {x : Block} {wallets : W → WalletStore}
    (hstage : ∀ d y, stage ≠ .republishing d y)
    (hx : System.Circulates { σ with wallets := wallets, jobs := σ.jobs.set n ⟨r, stage⟩ } x) :
    σ.Circulates x := by
  rcases hx with hx | hx | ⟨m, q, d, hm⟩
  · exact Or.inl hx
  · exact Or.inr (Or.inl hx)
  · rcases get_set_job hm with ⟨_, hj⟩ | ⟨_, hm⟩
    · cases hj
      exact absurd rfl (hstage d x)
    · exact Or.inr (Or.inr ⟨m, q, d, hm⟩)

theorem circulates_handle {fuel : ℕ} {x : Block} {node : Node} {next : Option Block}
    {before after : List Block} (held : σ.hands = before ++ b :: after)
    (h : turn S.ledger fuel σ.node b = .ok (next, node))
    (hx : System.Circulates { σ with node := node, hands := before ++ next.toList ++ after } x) :
    σ.Circulates x ∨ x = b := by
  obtain ⟨hnext, hcache⟩ := turn_circulates h
  rcases hx with hx | ⟨g, hg, rfl⟩ | hx
  · simp only [List.mem_append, Option.mem_toList] at hx
    rcases hx with (hx | hx) | hx
    · exact Or.inl (Or.inl (by simp [held, hx]))
    · rcases hnext x hx with hc | hc
      · exact Or.inr hc
      · exact Or.inl (Or.inr (Or.inl hc))
    · exact Or.inl (Or.inl (by simp [held, hx]))
  · rcases hcache g hg with hc | hc
    · exact Or.inr hc
    · exact Or.inl (Or.inr (Or.inl hc))
  · exact Or.inl (Or.inr (Or.inr hx))

theorem keyed_set {stage stage' : Stage} (hσ : Intact S Ours K s₀ σ)
    (hn : σ.jobs[n]? = some ⟨r, stage⟩) (m : ℕ) (j : Job W)
    (hm : (σ.jobs.set n ⟨r, stage'⟩)[m]? = some j) :
    Ours j.request.account ∧ j.request.Keyed S K := by
  rcases get_set_job hm with ⟨_, rfl⟩ | ⟨_, hm⟩
  · exact hσ.keyed n ⟨r, stage⟩ hn
  · exact hσ.keyed m j hm

section Processed
variable {next : Option Block} {q : Request W} {c : Block}

/-- The actions that have been processed are those from before and this one. -/
theorem processed_after (hτ : τ.jobs = σ.jobs.set n ⟨r, .after b next⟩)
    (h : τ.Processed m q c) : (m = n ∧ q = r ∧ c = b) ∨ σ.Processed m q c := by
  obtain ⟨stage, hm, hc⟩ := h
  rw [hτ] at hm
  rcases get_set_job hm with ⟨rfl, hj⟩ | ⟨_, hm⟩
  · cases hj
    rw [Stage.block_after] at hc
    exact Or.inl ⟨rfl, rfl, (Option.some.inj hc).symm⟩
  · exact Or.inr ⟨stage, hm, hc⟩

theorem processed_this (hn : σ.jobs[n]? = some ⟨r, .made b⟩)
    (hτ : τ.jobs = σ.jobs.set n ⟨r, .after b next⟩) : τ.Processed n r b := by
  refine ⟨.after b next, ?_, Stage.block_after b next⟩
  rw [hτ]
  exact List.getElem?_set_self (List.getElem?_eq_some_iff.mp hn).1

theorem processed_before (hn : σ.jobs[n]? = some ⟨r, .made b⟩)
    (hτ : τ.jobs = σ.jobs.set n ⟨r, .after b next⟩) (h : σ.Processed m q c) :
    τ.Processed m q c := by
  obtain ⟨stage, hm, hc⟩ := h
  have hne : n ≠ m := by
    rintro rfl
    cases hn.symm.trans hm
    cases hc
  refine ⟨stage, ?_, hc⟩
  rw [hτ]
  exact (List.getElem?_set_ne hne).trans hm

theorem Intact.hash_ne (hσ : Intact S Ours K s₀ σ)
    (hfresh : σ.node.store.blockGet (S.ledger.hash b) = none) (hc : σ.Processed m q c) :
    S.ledger.hash b ≠ S.ledger.hash c := by
  intro he
  have hstored := (hσ.done m q c hc).stored
  rw [← he, hfresh] at hstored
  cases hstored

end Processed

/-- The ledger is given the block of an action. -/
theorem Intact.process (hE : Proper S.ledger) (hK : Apart S.ledger K) (hσ : Intact S Ours K s₀ σ)
    (hq : Queued σ) (hn : σ.jobs[n]? = some ⟨r, .made b⟩) {fuel : ℕ} {node : Node}
    {next : Option Block} (h : turn S.ledger fuel σ.node b = .ok (next, node)) :
    Intact S Ours K s₀ { σ with node := node, jobs := σ.jobs.set n ⟨r, .after b next⟩ } := by
  have hhealthy := reachable_healthy hE hσ.reachable
  obtain ⟨hKb, hb⟩ := hσ.made n r b hn
  obtain ⟨info, hl, hp⟩ := hσ.accepted hE hK hn h
  have hfulfilled : Fulfilled S node.store r b := hb.fulfilled hhealthy ⟨_, info, hl, hp⟩
  refine ⟨RepublishLoop.turn_reachable hσ.reachable h, ?_, keyed_set hσ hn, ?_, ?_, ?_, ?_, ?_,
    ?_⟩
  case refine_1 =>
    intro k c hc
    by_cases hk : k = S.ledger.hash b
    · rw [hk, hl.stored] at hc
      cases hc
      exact hKb
    · rw [hl.other hk] at hc
      exact hσ.occurring k c hc
  case refine_2 =>
    intro c hc
    rcases circulates_set h hc with hc | rfl
    · exact (hσ.harmless c hc).within hl.within
    · refine ⟨hKb, fun _ _ _ => ?_⟩
      rw [hl.stored]
      exact Option.some_ne_none c
  case refine_3 =>
    intro m q c hm
    rcases get_set_job hm with ⟨_, hj⟩ | ⟨hne, hm⟩
    · cases next <;> cases hj
    · obtain ⟨hKc, hc⟩ := hσ.made m q c hm
      refine ⟨hKc, hc.accepted hE hhealthy hl hp ?_⟩
      intro ha
      exact hne (hq.apart hn trivial hm trivial ha).symm
  case refine_4 =>
    rintro m q c ⟨stage, hm, hc, hrun⟩
    rcases get_set_job hm with ⟨_, hj⟩ | ⟨hne, hm⟩
    · cases hj
      rw [Stage.block_after] at hc
      cases hc
      refine ⟨info, ?_, hl.head⟩
      rw [placed_account hE.hashed hl, if_pos rfl]
    · have hother : q.account ≠ r.account := fun ha => hne (hq.apart hm hrun hn trivial ha)
      rw [placed_account hE.hashed hl, if_neg hother]
      exact hσ.top m q c ⟨stage, hm, hc, hrun⟩
  case refine_5 =>
    intro m q c hc
    rcases processed_after rfl hc with ⟨rfl, rfl, rfl⟩ | hc
    · exact hfulfilled
    · exact (hσ.done m q c hc).within hl.within
  case refine_6 =>
    intro m k q q' c d hc hd he
    rcases processed_after rfl hc with ⟨rfl, rfl, rfl⟩ | hc'
    · rcases processed_after rfl hd with ⟨rfl, rfl, rfl⟩ | hd'
      · rfl
      · exact absurd he (hσ.hash_ne hl.fresh hd')
    · rcases processed_after rfl hd with ⟨rfl, rfl, rfl⟩ | hd'
      · exact absurd he.symm (hσ.hash_ne hl.fresh hc')
      · exact hσ.once m k q q' c d hc' hd' he
  case refine_7 =>
    intro k a ha ho
    by_cases hk : k = S.ledger.hash b
    · exact Or.inr ⟨n, r, b, processed_this hn rfl, hk.symm⟩
    · refine (hσ.grown k a ha (owner_old hhealthy.linked hl hk ho)).imp_right ?_
      rintro ⟨m, q, c, hc, hh⟩
      exact ⟨m, q, c, processed_before hn rfl hc, hh⟩

/-- A block is rolled back on which nothing of our accounts depends. -/
theorem Intact.trimmed {fuel : ℕ} {h : BlockHash} {m : Store} (hE : Proper S.ledger)
    (hσ : Intact S Ours K s₀ σ) (hspared : Spares S Ours σ.node.store h)
    (hrolled : LedgerRollback.rollback S.ledger fuel σ.node.store h = .ok m) :
    Intact S Ours K s₀ { σ with node := ⟨m, σ.node.gapCache⟩ } := by
  have hs := reachable_healthy hE hσ.reachable
  obtain ⟨hm, hleft⟩ := rollback_kept_iff hE hs hrolled
  have hw : Within m.blockGet σ.node.store.blockGet := fun k c hk => ((hleft k c).mp hk).1
  have howned : ∀ {k a}, Ours a → Owner σ.node.store.blockGet k a → m.blockGet k ≠ none := by
    intro k a ha ho
    obtain ⟨c, hc⟩ := Option.ne_none_iff_exists'.mp ho.stored
    exact hspared.kept hleft hc ha (Or.inl ho)
  refine ⟨hσ.reachable.next (.rollback hrolled), fun k c hk => hσ.occurring k c (hw k c hk),
    hσ.keyed, ?_, ?_, ?_, ?_, hσ.once, fun k a ha ho => hσ.grown k a ha (ho.within hw)⟩
  · exact fun b hb => hspared.harmless hleft (hσ.harmless b hb)
  · intro n r b hn
    obtain ⟨hKb, hb⟩ := hσ.made n r b hn
    have ha := (hσ.keyed n _ hn).1
    exact ⟨hKb, hb.trimmed hs hm hw (fun k => howned ha)
      fun q t hq hd => hspared.kept hleft hq ha (Or.inr (Or.inr ⟨t, rfl, hd⟩))⟩
  · intro n r b hb
    obtain ⟨i, hi, hhead⟩ := hσ.top n r b hb
    obtain ⟨stage, hn, _⟩ := hb
    have ha := (hσ.keyed n _ hn).1
    obtain ⟨j, hj, hsame, _⟩ := head_kept hs hm hw hi (howned ha (hs.linked.heads _ i hi).1)
    exact ⟨j, hj, hsame.trans hhead⟩
  · intro n r b hb
    have hdone := hσ.done n r b hb
    obtain ⟨stage, hn, _⟩ := hb
    exact hdone.trimmed hm hw (howned (hσ.keyed n _ hn).1 hdone.owner)

/-- Another block takes the place of the last winner of an election. -/
theorem Intact.elect {fuel : ℕ} {last winner : Block} {s' : Store} (hE : Proper S.ledger)
    (hσ : Intact S Ours K s₀ σ)
    (hallowed : Harmless S Ours K σ.node.store winner ∧
      (winner ≠ last → Spares S Ours σ.node.store (S.ledger.hash last)))
    (h : Elections.installWinner S.ledger fuel σ.node.store last winner = .ok s') :
    Intact S Ours K s₀ { σ with node := ⟨s', σ.node.gapCache⟩ } := by
  obtain ⟨hwinner, hspared⟩ := hallowed
  rcases ite_eq_ok.mp h with ⟨_, h⟩ | ⟨hne, h⟩
  · cases h
    exact hσ
  · obtain ⟨m, hrolled, h⟩ := bind_eq_ok.mp h
    obtain ⟨⟨ret, s''⟩, hprocess, h⟩ := bind_eq_ok.mp h
    cases h
    have hrolled := relabel_eq_ok.mp hrolled
    have hprocess := relabel_eq_ok.mp hprocess
    have hleft := (rollback_kept_iff hE (reachable_healthy hE hσ.reachable) hrolled).2
    have hm := hσ.trimmed hE (hspared hne) hrolled
    have hstore := ((hspared hne).harmless hleft hwinner).elsewhere hprocess
    exact hm.kept hE (hm.reachable.next (.process hprocess)) hstore hm.keyed
      (fun b hb => Or.inl hb) (fun n r b hn => Or.inl hn) (fun n r b => id) (fun n r b => Iff.rfl)

/-- An action is handed to the wallets. -/
theorem Intact.queue (hE : Proper S.ledger) (hσ : Intact S Ours K s₀ σ)
    (actions : Wallets Thread Account) (hr : Ours r.account ∧ r.Keyed S K) :
    Intact S Ours K s₀ { σ with actions := actions, jobs := σ.jobs ++ [⟨r, .asked⟩] } := by
  refine hσ.kept hE hσ.reachable (Or.inl rfl) ?_ ?_ ?_ ?_ ?_
  · rintro n ⟨q, stage⟩ hn
    rcases get_append_job hn with hn | hj
    · exact hσ.keyed n _ hn
    · cases hj
      exact hr
  · rintro b (hb | hb | ⟨n, q, d, hn⟩)
    · exact Or.inl (Or.inl hb)
    · exact Or.inl (Or.inr (Or.inl hb))
    · rcases get_append_job hn with hn | hj
      · exact Or.inl (Or.inr (Or.inr ⟨n, q, d, hn⟩))
      · cases hj
  · intro n q b hn
    rcases get_append_job hn with hn | hj
    · exact Or.inl hn
    · cases hj
  · rintro n q b ⟨stage, hn, hb, hrun⟩
    rcases get_append_job hn with hn | hj
    · exact ⟨stage, hn, hb, hrun⟩
    · cases hj
      cases hb
  · intro n q b
    constructor
    · rintro ⟨stage, hn, hb⟩
      rcases get_append_job hn with hn | hj
      · exact ⟨stage, hn, hb⟩
      · cases hj
        cases hb
    · rintro ⟨stage, hn, hb⟩
      obtain ⟨hlt, _⟩ := List.getElem?_eq_some_iff.mp hn
      exact ⟨stage, (List.getElem?_append_left hlt).trans hn, hb⟩

/-- An action has made its block or reports an error. -/
theorem Intact.make {generate : BlockHash → Word64} {current : Finset Account}
    {block : Option Block} (hE : Proper S.ledger) (hS : S.Signs) (hK : Apart S.ledger K)
    (hσ : Intact S Ours K s₀ σ) (job : σ.jobs[n]? = some ⟨r, .asked⟩)
    (returns : r.action S generate current σ.node.store (σ.wallets r.wallet) = .ok block)
    (hgood : ∀ root, workValidate S.work root (generate root) = false)
    (hoccurs : ∀ b, block = some b → K b) :
    Intact S Ours K s₀ { σ with jobs := σ.jobs.set n ⟨r, .ofMade block⟩ } := by
  refine hσ.kept hE hσ.reachable (Or.inl rfl) (keyed_set hσ job) ?_ ?_
    (executed_set job (by simp) rfl) (processed_set job (Stage.block_ofMade block) rfl)
  · have hstage : ∀ d x, Stage.ofMade block ≠ .republishing d x := by
      cases block <;> simp [Stage.ofMade]
    exact fun b hb => Or.inl (circulates_stage hstage hb)
  · intro n q b hn
    rcases get_set_job hn with ⟨_, hj⟩ | ⟨_, hn⟩
    · cases block with
      | none => cases hj
      | some c =>
          cases hj
          exact Or.inr ⟨hoccurs b rfl, action_made hS hgood
            (reachable_healthy hE hσ.reachable) hK hσ.occurring (hσ.keyed _ _ job).2 returns⟩
    · exact Or.inl hn

/-- A block that waited for the block of an action is processed after it. -/
theorem Intact.republish {fuel : ℕ} {c : Block} {next : Option Block} {node : Node}
    (hE : Proper S.ledger) (hσ : Intact S Ours K s₀ σ)
    (job : σ.jobs[n]? = some ⟨r, .republishing b c⟩)
    (turns : turn S.ledger fuel σ.node c = .ok (next, node)) :
    Intact S Ours K s₀ { σ with node := node, jobs := σ.jobs.set n ⟨r, .after b next⟩ } := by
  have hc := hσ.harmless c (Or.inr (Or.inr ⟨n, r, b, job⟩))
  obtain ⟨_, hprocess⟩ := turn_process turns
  have hstore := hc.elsewhere hprocess
  refine hσ.kept hE (RepublishLoop.turn_reachable hσ.reachable turns) hstore (keyed_set hσ job)
    ?_ ?_ (executed_set job ?_ rfl) (processed_set job (Stage.block_after b next) rfl)
  · intro x hx
    refine (circulates_set turns hx).imp_right ?_
    rintro rfl
    exact hc.within hstore.within
  · intro m q x hm
    rcases get_set_job hm with ⟨_, hj⟩ | ⟨_, hm⟩
    · cases next <;> cases hj
    · exact Or.inl hm
  · intro x hx _
    exact ⟨(Stage.block_after b next).symm.trans hx, trivial⟩

/-- The work for the next block is stored, and the action has returned. -/
theorem Intact.cache (hE : Proper S.ledger) (hσ : Intact S Ours K s₀ σ)
    (job : σ.jobs[n]? = some ⟨r, .processed b⟩) (wallets : W → WalletStore) :
    Intact S Ours K s₀
      { σ with wallets := wallets, jobs := σ.jobs.set n ⟨r, .returned (some b)⟩ } := by
  have hblock : (Stage.returned (some b)).block = (Stage.processed b).block := rfl
  refine hσ.kept hE hσ.reachable (Or.inl rfl) (keyed_set hσ job) ?_ ?_
    (executed_set job (fun _ _ => False.elim) rfl) (processed_set job hblock rfl)
  · exact fun x hx => Or.inl (circulates_stage (by simp) hx)
  · intro n q b hn
    rcases get_set_job hn with ⟨_, hj⟩ | ⟨_, hn⟩
    · cases hj
    · exact Or.inl hn

theorem Intact.deliver (hE : Proper S.ledger) (hσ : Intact S Ours K s₀ σ)
    (hb : Harmless S Ours K σ.node.store b) :
    Intact S Ours K s₀ { σ with hands := b :: σ.hands } := by
  refine hσ.kept hE hσ.reachable (Or.inl rfl) hσ.keyed ?_ (fun n r b hn => Or.inl hn)
    (fun n r b => id) (fun n r b => Iff.rfl)
  rintro c (hc | hc)
  · rcases List.mem_cons.mp hc with rfl | hc
    · exact Or.inr hb
    · exact Or.inl (Or.inl hc)
  · exact Or.inl (Or.inr hc)

/-- A thread processes the block it has in hand. -/
theorem Intact.handle {fuel : ℕ} {next : Option Block} {node : Node} {before after : List Block}
    (hE : Proper S.ledger) (hσ : Intact S Ours K s₀ σ) (held : σ.hands = before ++ b :: after)
    (turns : turn S.ledger fuel σ.node b = .ok (next, node)) :
    Intact S Ours K s₀ { σ with node := node, hands := before ++ next.toList ++ after } := by
  have hb := hσ.harmless b (Or.inl (by simp [held]))
  obtain ⟨_, hprocess⟩ := turn_process turns
  have hstore := hb.elsewhere hprocess
  refine hσ.kept hE (RepublishLoop.turn_reachable hσ.reachable turns) hstore hσ.keyed ?_
    (fun n r b hn => Or.inl hn) (fun n r b => id) (fun n r b => Iff.rfl)
  intro x hx
  refine (circulates_handle held turns hx).imp_right ?_
  rintro rfl
  exact hb.within hstore.within

theorem Intact.step [DecidableEq W] {e : Event W Thread} (hE : Proper S.ledger) (hS : S.Signs)
    (hK : Apart S.ledger K) (hσ : Intact S Ours K s₀ σ) (hq : Queued σ)
    (hallowed : Allowed S Ours K σ e) (h : Step S σ e τ) : Intact S Ours K s₀ τ := by
  cases h with
  | @queue _ _ actions => exact hσ.queue hE actions hallowed
  | make _ _ job returns => exact hσ.make hE hS hK job returns hallowed.1 hallowed.2
  | process job turns => exact hσ.process hE hK hq job turns
  | republish job turns => exact hσ.republish hE job turns
  | cache job => exact hσ.cache hE job _
  | deliver => exact hσ.deliver hE hallowed
  | handle held turns => exact hσ.handle hE held turns
  | elect installs => exact hσ.elect hE hallowed installs
  | start | finish | wallet =>
      exact hσ.kept hE hσ.reachable (Or.inl rfl) hσ.keyed (fun b hb => Or.inl hb)
        (fun n r b hn => Or.inl hn) (fun n r b => id) (fun n r b => Iff.rfl)

end Intact

section Sample

end Sample

end PaperNode.SpendingRuns
