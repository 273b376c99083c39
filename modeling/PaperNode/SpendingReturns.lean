import PaperNode.SpendingRuns
import PaperNode.WalletAccounts

/-!
# No action is stopped

The actions of a wallet assert what they expect: that their account is theirs alone, that a key
in an open wallet can be read, that the account is still in the wallet when work is kept for it.
These hold as long as keys are inserted into open wallets only and no account is taken out of a
wallet while an action for it is under way. What is left is the assertion of
`move_representation`.
-/
namespace PaperNode.SpendingReturns
open BoundedRecursion LinkedNodes OrderedTable TransitionRuns Blocks BlockStore LedgerQueries
open LedgerProcess IndexInvariant RollbackFuture ProcessReturns ProofOfWork WalletSpending
open SpendingRuns
open LedgerRuns (Reachable paperTestAccount)
open Wallet (Key WalletEnv WalletStore Draws specials)
open WalletKeys (Regular Unlocked)
open GapCache (Node turn)

section Sound
variable {E : WalletEnv} {draws : Draws} {w w' : WalletStore} {a : Wallet.Action} {p c : Key}

/-- Every account in the table has its own private key under the wallet key. -/
structure Sound (E : WalletEnv) (draws : Draws) (w : WalletStore) : Prop where
  keyed : Wallet.Keyed E draws w
  readable : ∀ p c, p ∉ specials → w.stored p = some c → c ≠ 0 ∧
    ∃ prv, E.publicKey prv = p ∧ c = E.cipher prv draws.walletKey (Wallet.oword draws.salt)

theorem Sound.step (hw : Sound E draws w) (hreg : Regular E w a) (hlock : Unlocked E w a)
    (h : Wallet.Step E w a w') : Sound E draws w' := by
  refine ⟨hw.keyed.step hreg.1 h, ?_⟩
  intro p c hp hc
  by_cases hwritten : ∃ v, Wallet.written E w a = some (p, v)
  · obtain ⟨v, hv⟩ := hwritten
    rw [Wallet.step_stored hw.keyed.version_ne h, hv, Option.elim_some, Function.update_self] at hc
    subst hc
    rcases Wallet.written_eq_some hv with ⟨prv, rfl, rfl⟩ | rfl | rfl | rfl
    · cases hv
      refine ⟨hreg.2 prv rfl, prv, rfl, WalletKeys.cipher_valid hw.keyed hlock prv⟩
    · cases hv
    · exact absurd (by decide) hp
    · exact absurd (by decide) hp
  · rw [Wallet.step_unwritten hw.keyed.version_ne h (fun v hv => hwritten ⟨v, hv⟩)] at hc
    exact hw.readable p c hp hc

theorem Sound.fetch (hw : Sound E draws w) (hv : w.validPassword E = true) (hp : p ∉ specials)
    (hstored : w.stored p ≠ none) (out : Key) : (w.fetch E p out).1 = false := by
  obtain ⟨c, hc⟩ := Option.ne_none_iff_exists'.mp hstored
  obtain ⟨hne, prv, rfl, rfl⟩ := hw.readable p c hp hc
  have hentry := Wallet.entryGetRaw_key w (E.publicKey prv)
  rw [hc, Option.getD_some] at hentry
  unfold WalletStore.fetch
  dsimp only
  rw [hentry, if_pos hne, WalletKeys.cipher_valid hw.keyed hv, Wallet.cipher_cipher]
  simp

/-- Only `erase` takes an entry out of the table. -/
theorem written_none (h : Wallet.written E w a = some (p, none)) : a = .erase p := by
  cases a with
  | erase pub =>
      cases h
      rfl
  | rekey password =>
      unfold Wallet.written at h
      split_ifs at h
      cases h
  | insert | representativeSet | enterPassword | workPut | reopen => cases h

theorem stored_kept (hw : Sound E draws w) (h : Wallet.Step E w a w') (hne : a ≠ .erase p)
    (hstored : w.stored p ≠ none) : w'.stored p ≠ none := by
  by_cases hwritten : ∃ v, Wallet.written E w a = some (p, v)
  · obtain ⟨v, hv⟩ := hwritten
    rw [Wallet.step_stored hw.keyed.version_ne h, hv, Option.elim_some, Function.update_self]
    rintro rfl
    exact hne (written_none hv)
  · rw [Wallet.step_unwritten hw.keyed.version_ne h (fun v hv => hwritten ⟨v, hv⟩)]
    exact hstored

end Sound

/-- What a request needs to come with. The key of a send that is to be received was found in the
wallet, and the wallet names a representative. -/
def Request.Proper {W : Type*} (wallets : W → WalletStore) (r : Request W) : Prop :=
  r.account ∉ specials ∧ ∀ i block prv representative, r = .receive i block prv representative →
    representative ≠ 0 ∧ (wallets i).stored r.account ≠ none

variable {W Thread : Type*}

/-- Keys are inserted into open wallets, no account is taken out of a wallet while an action for it
is queued or running, and the pool answers with good work. -/
def Careful (S : SpendEnv) (σ : System W Thread) : Event W Thread → Prop
  | .queue _ r => Request.Proper σ.wallets r
  | .cache _ generate => ∀ root, workValidate S.work root (generate root) = false
  | .wallet i action => Regular S.wallet (σ.wallets i) action ∧
      Unlocked S.wallet (σ.wallets i) action ∧
      ∀ (n : ℕ) r stage, σ.jobs[n]? = some ⟨r, stage⟩ → r.wallet = i →
        action = .erase r.account → ∃ block, stage = .returned block
  | _ => True

def Ready (S : SpendEnv) (draws : W → Draws) (s₀ : Store) (σ : System W Thread) : Prop :=
  Initial s₀ σ ∧ ∀ i, Sound S.wallet (draws i) (σ.wallets i)

/-- The wallets can be read, and have the accounts of the actions. -/
structure Furnished (S : SpendEnv) (draws : W → Draws) (σ : System W Thread) : Prop where
  sound : ∀ i, Sound S.wallet (draws i) (σ.wallets i)
  ordinary : ∀ (n : ℕ) r stage, σ.jobs[n]? = some ⟨r, stage⟩ → r.account ∉ specials
  receiving : ∀ (n : ℕ) i block prv representative,
    σ.jobs[n]? = some ⟨.receive i block prv representative, .asked⟩ → representative ≠ 0 ∧
      (σ.wallets i).stored block.hashables.destination ≠ none
  present : ∀ (n : ℕ) r stage, σ.jobs[n]? = some ⟨r, stage⟩ → stage.Running →
    (σ.wallets r.wallet).stored r.account ≠ none

section Furnished
variable {S : SpendEnv} {draws : W → Draws} {σ τ : System W Thread} {n m : ℕ} {r r' : Request W}
  {s : Store} {w w' : WalletStore} {generate : BlockHash → Word64} {current : Finset Account}
  {b : Block}

theorem action_present (h : r.action S generate current s w = .ok (some b))
    (hreceive : ∀ i block prv representative, r = .receive i block prv representative →
      w.stored r.account ≠ none) : w.stored r.account ≠ none := by
  cases r with
  | receive i block prv representative => exact hreceive i block prv representative rfl
  | change i source representative =>
      obtain ⟨_, _, h⟩ := bind_eq_ok.mp h
      obtain ⟨_, h⟩ := of_made h
      obtain ⟨hexists, h⟩ := of_made h
      have hexists : w.existsKey source = true := by simpa using hexists
      exact WalletAccounts.existsKey_iff.mp hexists
  | send i source destination amount =>
      obtain ⟨_, _, h⟩ := bind_eq_ok.mp h
      obtain ⟨_, h⟩ := of_made h
      obtain ⟨hexists, h⟩ := of_made h
      have hexists : w.existsKey source = true := by simpa using hexists
      exact WalletAccounts.existsKey_iff.mp hexists

theorem workGenerate_step {account : Account} {root : BlockHash}
    (h : workGenerate S generate s w account root = .ok w') :
    w' = w ∨ Wallet.Step S.wallet w (.workPut account (generate root)) w' := by
  obtain ⟨_, _, h⟩ := bind_eq_ok.mp h
  obtain ⟨_, _, h⟩ := bind_eq_ok.mp h
  split_ifs at h
  · exact Or.inr (relabel_eq_ok.mp h)
  · cases h
    exact Or.inl rfl

/-- One action comes to another stage. -/
theorem Furnished.set {stage stage' : Stage} (hσ : Furnished S draws σ)
    (hn : σ.jobs[n]? = some ⟨r, stage⟩) (hasked : stage' ≠ .asked)
    (hrun : stage'.Running → (σ.wallets r.wallet).stored r.account ≠ none) (node : Node)
    (hands : List Block) :
    Furnished S draws
      { σ with node := node, jobs := σ.jobs.set n ⟨r, stage'⟩, hands := hands } := by
  refine ⟨hσ.sound, ?_, ?_, ?_⟩
  · intro m q stage'' hm
    rcases get_set_job hm with ⟨_, hj⟩ | ⟨_, hm⟩
    · cases hj
      exact hσ.ordinary n r stage hn
    · exact hσ.ordinary m q stage'' hm
  · intro m i block prv representative hm
    rcases get_set_job hm with ⟨_, hj⟩ | ⟨_, hm⟩
    · cases hj
      exact absurd rfl hasked
    · exact hσ.receiving m i block prv representative hm
  · intro m q stage'' hm hs
    rcases get_set_job hm with ⟨_, hj⟩ | ⟨_, hm⟩
    · cases hj
      exact hrun hs
    · exact hσ.present m q stage'' hm hs

/-- A wallet is written and keeps the accounts of the actions that have not returned. -/
theorem Furnished.update [DecidableEq W] {i : W} (hσ : Furnished S draws σ)
    (hsound : Sound S.wallet (draws i) w')
    (hkept : ∀ (n : ℕ) r stage, σ.jobs[n]? = some ⟨r, stage⟩ → r.wallet = i →
      (∀ block, stage ≠ .returned block) → (σ.wallets i).stored r.account ≠ none →
        w'.stored r.account ≠ none) :
    Furnished S draws { σ with wallets := Function.update σ.wallets i w' } := by
  have hstored : ∀ {n : ℕ} {r stage}, σ.jobs[n]? = some ⟨r, stage⟩ →
      (∀ block, stage ≠ .returned block) → (σ.wallets r.wallet).stored r.account ≠ none →
        (Function.update σ.wallets i w' r.wallet).stored r.account ≠ none := by
    intro n r stage hn hstage hs
    by_cases hi : r.wallet = i
    · rw [hi, Function.update_self]
      rw [hi] at hs
      exact hkept n r stage hn hi hstage hs
    · rw [Function.update_of_ne hi]
      exact hs
  refine ⟨?_, hσ.ordinary, ?_, ?_⟩
  · intro j
    dsimp only
    by_cases hj : j = i
    · subst hj
      rw [Function.update_self]
      exact hsound
    · rw [Function.update_of_ne hj]
      exact hσ.sound j
  · intro n j block prv representative hn
    obtain ⟨hrep, hs⟩ := hσ.receiving n j block prv representative hn
    exact ⟨hrep, hstored hn (fun _ => (by simp)) hs⟩
  · intro n r stage hn hs
    refine hstored hn ?_ (hσ.present n r stage hn hs)
    rintro block rfl
    exact hs

theorem Furnished.queue {r : Request W} (hσ : Furnished S draws σ)
    (actions : WalletActions.Wallets Thread Account) (hr : Request.Proper σ.wallets r) :
    Furnished S draws { σ with actions := actions, jobs := σ.jobs ++ [⟨r, .asked⟩] } := by
  obtain ⟨hordinary, hreceive⟩ := hr
  refine ⟨hσ.sound, ?_, ?_, ?_⟩
  · intro n q stage hn
    rcases get_append_job hn with hn | hj
    · exact hσ.ordinary n q stage hn
    · cases hj
      exact hordinary
  · intro n i block prv representative hn
    rcases get_append_job hn with hn | hj
    · exact hσ.receiving n i block prv representative hn
    · cases hj
      exact hreceive i block prv representative rfl
  · intro n q stage hn hs
    rcases get_append_job hn with hn | hj
    · exact hσ.present n q stage hn hs
    · cases hj
      exact hs.elim

theorem after_ne_asked (b : Block) (next : Option Block) : Stage.after b next ≠ .asked := by
  cases next <;> simp [Stage.after]

theorem Furnished.step [DecidableEq W] {e : Event W Thread} (hσ : Furnished S draws σ)
    (hcareful : Careful S σ e) (h : Step S σ e τ) : Furnished S draws τ := by
  cases h with
  | @queue _ _ actions => exact hσ.queue actions hcareful
  | @make call r generate block called executing job returns =>
      cases block with
      | none => exact hσ.set job (by simp [Stage.ofMade]) False.elim _ _
      | some b =>
          refine hσ.set job (by simp [Stage.ofMade]) (fun _ => action_present returns ?_) _ _
          rintro i block prv representative rfl
          exact (hσ.receiving _ i block prv representative job).2
  | process job | republish job =>
      exact hσ.set job (after_ne_asked _ _) (fun _ => hσ.present _ _ _ job trivial) _ _
  | @cache n r b generate w job returns =>
      have hset : Furnished S draws { σ with jobs := σ.jobs.set n ⟨r, .returned (some b)⟩ } :=
        hσ.set job (by simp) False.elim _ _
      rcases workGenerate_step returns with rfl | hput
      · rw [Function.update_eq_self]
        exact hset
      · have hregular : Regular S.wallet (σ.wallets r.wallet)
            (.workPut r.account (generate (S.ledger.hash b))) := ⟨trivial, by simp⟩
        refine hset.update ((hσ.sound r.wallet).step hregular trivial hput) ?_
        intro m q stage _ _ _ hs
        exact stored_kept (hσ.sound r.wallet) hput (by simp) hs
  | @wallet i action w performed =>
      obtain ⟨hregular, hunlocked, herase⟩ := hcareful
      refine hσ.update ((hσ.sound i).step hregular hunlocked performed) ?_
      intro n r stage hn hi hstage hs
      refine stored_kept (hσ.sound i) performed (fun he => ?_) hs
      obtain ⟨block, hreturned⟩ := herase n r stage hn hi he
      exact hstage block hreturned
  | start | finish | deliver | handle | elect =>
      exact ⟨hσ.sound, hσ.ordinary, hσ.receiving, hσ.present⟩

end Furnished

section Returns
variable {S : SpendEnv} {Ours : Account → Prop} {K : Block → Prop} {s₀ : Store}
  {σ : System W Thread} {n : ℕ} {r : Request W} {b : Block}

end Returns

end PaperNode.SpendingReturns
