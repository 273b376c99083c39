import PaperNode.WalletAccounts

/-!
# Moving accounts between wallets

`account_move` takes the private keys of some accounts out of one wallet and inserts them into
another, where they are encrypted under the other wallet key. The first account that cannot be
fetched stops the move, and the accounts behind it stay where they are.

The two wallets are two handles with tables of their own, or one handle used twice. In a
wallet that is moved into itself an account is inserted and then erased.
-/
namespace PaperNode.WalletMove
open OrderedTable BoundedRecursion Wallet WalletAccounts

/-- The wallet that receives and the wallet that gives, or one wallet for both. -/
inductive Handles where
  | apart (destination source : WalletStore)
  | same (wallet : WalletStore)

namespace Handles

def destination : Handles → WalletStore
  | .apart d _ => d
  | .same w => w

def source : Handles → WalletStore
  | .apart _ s => s
  | .same w => w

def setDestination (d : WalletStore) : Handles → Handles
  | .apart _ s => .apart d s
  | .same _ => .same d

def setSource (s : WalletStore) : Handles → Handles
  | .apart d _ => .apart d s
  | .same _ => .same s

end Handles

inductive MoveAssertion where
  | destinationLocked | sourceLocked
  | store (site : WalletAssertion)
  deriving DecidableEq, Repr

/-- The loop of `wallet_store::move`. Once an error was seen nothing more is moved. -/
def moveLoop (E : WalletEnv) : Bool → Handles → List Key → Check MoveAssertion (Bool × Handles)
  | result, h, [] => return (result, h)
  | result, h, key :: keys =>
      let fetched := h.source.fetch E key 0
      let result := result || fetched.1
      if result then moveLoop E result h keys
      else do
        let h := h.setDestination (h.destination.insert E fetched.2).2
        let source ← relabel .store (h.source.erase key)
        moveLoop E result (h.setSource source) keys

def move (E : WalletEnv) (h : Handles) (keys : List Key) :
    Check MoveAssertion (Bool × Handles) := do
  require (h.destination.validPassword E = true) .destinationLocked
  require (h.source.validPassword E = true) .sourceLocked
  moveLoop E false h keys

def Fetchable (E : WalletEnv) (w : WalletStore) (p prv : Key) : Prop := w.fetch E p 0 = (false, prv)

def Separate (E : WalletEnv) : Prop := ∀ prv, E.publicKey prv ∉ specials

variable {E : WalletEnv} {u w D S D' S' : WalletStore} {p q prv : Key} {keys moved : List Key}

section Fetching

theorem fetchable_iff : Fetchable E w p prv ↔ ∃ c, w.stored p = some c ∧ c ≠ 0 ∧
    E.cipher c (w.walletKey E) (oword w.salt) = prv ∧ E.publicKey prv = p := by
  unfold Fetchable WalletStore.fetch
  dsimp only
  rw [entryGetRaw_key]
  cases hc : w.stored p with
  | none => simp
  | some c =>
      simp only [Option.getD_some, Option.some.injEq, exists_eq_left']
      by_cases hzero : c = 0
      · simp [hzero]
      · rw [if_pos hzero, Prod.mk.injEq, decide_eq_false_iff_not, not_not]
        constructor
        · intro h
          obtain ⟨hp, hprv⟩ := h
          exact ⟨hzero, hprv, by rw [← hprv, ← hp]⟩
        · intro h
          obtain ⟨_, hprv, hp⟩ := h
          exact ⟨by rw [hprv, hp], hprv⟩

theorem Fetchable.unique {prv' : Key} (h : Fetchable E w p prv) (h' : Fetchable E w p prv') :
    prv = prv' := congrArg Prod.snd (h.symm.trans h')

theorem Fetchable.stored_ne (h : Fetchable E w p prv) : w.stored p ≠ none := by
  obtain ⟨c, hc, _⟩ := fetchable_iff.mp h
  rw [hc]
  exact Option.some_ne_none c

theorem Fetchable.not_special (hE : Separate E) (h : Fetchable E w p prv) : p ∉ specials := by
  obtain ⟨_, _, _, _, hp⟩ := fetchable_iff.mp h
  exact hp ▸ hE prv

theorem reads_same (hs : ∀ q ∈ specials, u.stored q = w.stored q)
    (hp : u.password.value = w.password.value) :
    u.walletKey E = w.walletKey E ∧ u.salt = w.salt := by
  have hsalt : u.salt = w.salt := by
    unfold WalletStore.salt
    rw [entryGetRaw_key, entryGetRaw_key, hs saltSpecial (by simp [specials])]
  refine ⟨?_, hsalt⟩
  unfold WalletStore.walletKey
  rw [entryGetRaw_key, entryGetRaw_key, hs walletKeySpecial (by simp [specials]), hp, hsalt]

theorem fetchable_congr (hs : ∀ q ∈ specials, u.stored q = w.stored q)
    (hp : u.password.value = w.password.value) (hq : u.stored q = w.stored q) :
    Fetchable E u q prv ↔ Fetchable E w q prv := by
  obtain ⟨hkey, hsalt⟩ := reads_same (E := E) hs hp
  rw [fetchable_iff, fetchable_iff, hkey, hsalt, hq]

end Fetching

/-- The accounts of a list have gone from the source to the destination, nothing else changed. -/
structure Transferred (E : WalletEnv) (D S : WalletStore) (moved : List Key) (D' S' : WalletStore) :
    Prop where
  destinationPassword : D'.password = D.password
  sourcePassword : S'.password = S.password
  sourceKept : ∀ q, q ∉ moved → S'.stored q = S.stored q
  destinationKept : ∀ q, q ∉ moved → D'.stored q = D.stored q
  taken : ∀ q ∈ moved, S'.stored q = none
  given : ∀ q ∈ moved, ∃ prv, Fetchable E S q prv ∧
    D'.stored q = some (E.cipher prv (D.walletKey E) (oword D.salt))

section Transfer

theorem Transferred.start (E : WalletEnv) (D S : WalletStore) : Transferred E D S [] D S where
  destinationPassword := rfl
  sourcePassword := rfl
  sourceKept := fun _ _ => rfl
  destinationKept := fun _ _ => rfl
  taken := by simp
  given := by simp

variable (hE : Separate E) (h : Transferred E D S moved D' S')
include hE h

theorem Transferred.not_special (hq : q ∈ moved) : q ∉ specials := by
  obtain ⟨_, hf, _⟩ := h.given q hq
  exact hf.not_special hE

theorem Transferred.source_iff : Fetchable E S' q prv ↔ q ∉ moved ∧ Fetchable E S q prv := by
  by_cases hq : q ∈ moved
  · constructor
    · intro hf
      exact absurd (h.taken q hq) hf.stored_ne
    · intro hf
      exact absurd hq hf.1
  · rw [fetchable_congr (fun r hr => h.sourceKept r (fun hm => h.not_special hE hm hr))
      (congrArg Fan.value h.sourcePassword) (h.sourceKept q hq)]
    exact (and_iff_right hq).symm

theorem Transferred.reads : D'.walletKey E = D.walletKey E ∧ D'.salt = D.salt :=
  reads_same (fun r hr => h.destinationKept r (fun hm => h.not_special hE hm hr))
    (congrArg Fan.value h.destinationPassword)

theorem Transferred.destination_iff (hq : q ∉ moved) :
    Fetchable E D' q prv ↔ Fetchable E D q prv :=
  fetchable_congr (fun r hr => h.destinationKept r (fun hm => h.not_special hE hm hr))
    (congrArg Fan.value h.destinationPassword) (h.destinationKept q hq)

theorem Transferred.moved_fetchable (hq : q ∈ moved) (hf : Fetchable E S q prv)
    (hzero : E.cipher prv (D.walletKey E) (oword D.salt) ≠ 0) : Fetchable E D' q prv := by
  obtain ⟨prv', hf', hstored⟩ := h.given q hq
  cases hf.unique hf'
  obtain ⟨hkey, hsalt⟩ := h.reads hE
  obtain ⟨_, _, _, _, hp⟩ := fetchable_iff.mp hf
  refine fetchable_iff.mpr ⟨_, hstored, hzero, ?_, hp⟩
  rw [hkey, hsalt, cipher_cipher]

/-- One account: it is inserted into the one wallet and erased from the other. -/
theorem Transferred.snoc (hf : Fetchable E S' q prv) :
    ∃ S'', S'.erase q = .ok S'' ∧ Transferred E D S (moved ++ [q]) (D'.insert E prv).2 S'' := by
  obtain ⟨hnot, hS⟩ := (h.source_iff hE).mp hf
  obtain ⟨_, _, _, _, hp⟩ := fetchable_iff.mp hf
  obtain ⟨hkey, hsalt⟩ := h.reads hE
  have hsource := stored_del S' q
  have hdest : (D'.insert E prv).2.stored =
      Function.update D'.stored q (some (E.cipher prv (D.walletKey E) (oword D.salt))) := by
    rw [← hp, ← hkey, ← hsalt]
    exact stored_entryPutRaw _ _ _
  refine ⟨{ S' with entries := S'.entries.del q }, ?_, ?_⟩
  · obtain ⟨v, hv⟩ := stored_ne_none_iff.mp hf.stored_ne
    have hsome : (S'.entries.get q).isSome = true := by rw [hv, Option.isSome_some]
    rw [WalletStore.erase, require_of hsome]
    rfl
  · constructor
    case destinationPassword => exact h.destinationPassword
    case sourcePassword => exact h.sourcePassword
    case sourceKept =>
      intro r hr
      simp only [List.mem_append, List.mem_singleton, not_or] at hr
      rw [hsource, Function.update_of_ne hr.2, h.sourceKept r hr.1]
    case destinationKept =>
      intro r hr
      simp only [List.mem_append, List.mem_singleton, not_or] at hr
      rw [hdest, Function.update_of_ne hr.2, h.destinationKept r hr.1]
    case taken =>
      intro r hr
      rw [hsource, Function.update_apply]
      split_ifs with hrq
      · rfl
      · exact h.taken r (by simpa [hrq] using hr)
    case given =>
      intro r hr
      by_cases hrq : r = q
      · subst hrq
        exact ⟨prv, hS, by rw [hdest, Function.update_self]⟩
      · rw [hdest, Function.update_of_ne hrq]
        exact h.given r (by simpa [hrq] using hr)

end Transfer

theorem moveLoop_stopped (E : WalletEnv) (h : Handles) (keys : List Key) :
    moveLoop E true h keys = .ok (true, h) := by
  induction keys with
  | nil => rfl
  | cons key keys ih => exact ih

/-- The loop moves the accounts of the list until one of them is not there. -/
theorem moveLoop_transfers (hE : Separate E) (h : Transferred E D S moved D' S') (keys : List Key) :
    ∃ result moved' D'' S'', moveLoop E false (.apart D' S') keys =
        .ok (result, .apart D'' S'') ∧ Transferred E D S moved' D'' S'' ∧
      (∀ q ∈ moved', q ∈ moved ∨ q ∈ keys) ∧ (∀ q ∈ moved, q ∈ moved') ∧
      (result = false → ∀ q ∈ keys, q ∈ moved') ∧
      (result = true → (moved ++ keys).Nodup → ∃ q ∈ keys, ∀ prv, ¬ Fetchable E S q prv) := by
  induction keys generalizing moved D' S' with
  | nil =>
      refine ⟨false, moved, D', S', rfl, h, fun q hq => Or.inl hq, fun q hq => hq, ?_, ?_⟩
      · simp
      · simp
  | cons key keys ih =>
      cases hfetch : (S'.fetch E key 0).1 with
      | true =>
          refine ⟨true, moved, D', S', ?_, h, fun q hq => Or.inl hq, fun q hq => hq, ?_, ?_⟩
          · simp only [moveLoop, Handles.source, hfetch, Bool.or_true, if_true]
            exact moveLoop_stopped E _ keys
          · simp
          · intro _ hnodup
            refine ⟨key, by simp, fun prv hf => ?_⟩
            -- had it been moved before, the list would have it twice
            have hnot : key ∉ moved := fun hm =>
              (List.disjoint_of_nodup_append hnodup) hm List.mem_cons_self
            have hf' : S'.fetch E key 0 = (false, prv) := (h.source_iff hE).mpr ⟨hnot, hf⟩
            rw [hf'] at hfetch
            cases hfetch
      | false =>
          have hf : Fetchable E S' key (S'.fetch E key 0).2 := Prod.ext hfetch rfl
          obtain ⟨S'', herase, hnext⟩ := h.snoc hE hf
          obtain ⟨result, moved', D₂, S₂, hloop, htrans, hsub, hsup, hdone, herror⟩ := ih hnext
          refine ⟨result, moved', D₂, S₂, ?_, htrans, ?_, ?_, ?_, ?_⟩
          · simp only [moveLoop, Handles.source, Handles.destination, Handles.setDestination,
              Handles.setSource, hfetch, Bool.or_false, Bool.false_eq_true, if_false, herase,
              relabel, ok_bind]
            exact hloop
          · intro q hq
            rcases hsub q hq with hm | hk
            · exact (List.mem_append.mp hm).imp_right (fun hm => by simp [List.mem_singleton.mp hm])
            · exact Or.inr (List.mem_cons_of_mem key hk)
          · intro q hq
            exact hsup q (by simp [hq])
          · intro hr q hq
            rcases List.mem_cons.mp hq with rfl | hq
            · exact hsup q (by simp)
            · exact hdone hr q hq
          · intro hr hnodup
            obtain ⟨q, hq, hnone⟩ := herror hr (by simpa using hnodup)
            exact ⟨q, by simp [hq], hnone⟩

/-- Accounts are moved between two open wallets. Every private key that could be fetched from the
source can be fetched from one of the two afterwards, and from both only if the destination had
it before. For a list without repetitions the result says whether all of it was moved. -/
theorem move_keeps_keys (hE : Separate E) (hD : D.validPassword E = true)
    (hS : S.validPassword E = true) (keys : List Key)
    (hzero : ∀ q ∈ keys, ∀ prv, Fetchable E S q prv →
      E.cipher prv (D.walletKey E) (oword D.salt) ≠ 0) :
    ∃ result D' S', move E (.apart D S) keys = .ok (result, .apart D' S') ∧
      (∀ q prv, Fetchable E S q prv →
        (Fetchable E D' q prv ∨ Fetchable E S' q prv) ∧
        (Fetchable E D' q prv → Fetchable E S' q prv → Fetchable E D q prv)) ∧
      (keys.Nodup → (result = false ↔
        ∀ q ∈ keys, (∃ prv, Fetchable E S q prv) ∧ D'.existsKey q = true)) := by
  obtain ⟨result, moved, D', S', hloop, htrans, hsub, _, hdone, herror⟩ :=
    moveLoop_transfers hE (.start E D S) keys
  refine ⟨result, D', S', ?_, ?_, ?_⟩
  · rw [move, require_of (show (Handles.apart D S).destination.validPassword E = true from hD),
      ok_bind, require_of (show (Handles.apart D S).source.validPassword E = true from hS), ok_bind]
    exact hloop
  · intro q prv hf
    by_cases hq : q ∈ moved
    · have hlisted : q ∈ keys := (hsub q hq).resolve_left List.not_mem_nil
      refine ⟨Or.inl (htrans.moved_fetchable hE hq hf (hzero q hlisted prv hf)), ?_⟩
      intro _ hf'
      exact absurd hq ((htrans.source_iff hE).mp hf').1
    · refine ⟨Or.inr ((htrans.source_iff hE).mpr ⟨hq, hf⟩), ?_⟩
      intro hf' _
      exact (htrans.destination_iff hE hq).mp hf'
  · intro hnodup
    constructor
    · intro hr q hq
      obtain ⟨prv, hf, hstored⟩ := htrans.given q (hdone hr q hq)
      refine ⟨⟨prv, hf⟩, existsKey_iff.mpr ?_⟩
      rw [hstored]
      exact Option.some_ne_none _
    · intro hall
      by_contra hr
      obtain ⟨q, hq, hnone⟩ := herror (Bool.eq_true_of_not_eq_false hr) hnodup
      obtain ⟨⟨prv, hf⟩, _⟩ := hall q hq
      exact hnone prv hf

section Sample

/-- The sample wallet with the public keys of the private keys one and eighteen only. -/
def movingWallet : WalletEnv :=
  { sampleWallet with publicKey := fun prv => sampleWallet.publicKey (if prv = 1 then 1 else 18) }

def emptyWallet : WalletStore := WalletStore.construct movingWallet ∅ sampleDraws

def oneWallet : WalletStore := (emptyWallet.insert movingWallet 1).2

theorem movingWallet_separate : Separate movingWallet := by
  intro prv
  unfold movingWallet
  dsimp only
  split_ifs
  · decide +kernel
  · decide +kernel

theorem oneWallet_fetchable : Fetchable movingWallet oneWallet (movingWallet.publicKey 1) 1 := by
  unfold Fetchable
  decide +kernel

/-- The account goes into a new wallet. -/
theorem move_keeps_keys_one : ∃ D' S',
    move movingWallet (.apart emptyWallet oneWallet) [movingWallet.publicKey 1] =
      .ok (false, .apart D' S') ∧
    (Fetchable movingWallet D' (movingWallet.publicKey 1) 1 ∨
      Fetchable movingWallet S' (movingWallet.publicKey 1) 1) := by
  have hzero : ∀ q ∈ [movingWallet.publicKey 1], ∀ prv,
      Fetchable movingWallet oneWallet q prv →
      movingWallet.cipher prv (emptyWallet.walletKey movingWallet)
        (oword emptyWallet.salt) ≠ 0 := by
    intro q hq prv hf
    cases List.mem_singleton.mp hq
    cases oneWallet_fetchable.unique hf
    decide +kernel
  obtain ⟨result, D', S', hmove, hkept, _⟩ := move_keeps_keys movingWallet_separate
    (by decide +kernel) (by decide +kernel) [movingWallet.publicKey 1] hzero
  have hrun : returns (move movingWallet (.apart emptyWallet oneWallet)
      [movingWallet.publicKey 1]) (fun r => !r.1) = true := by decide +kernel
  obtain ⟨r, hr, hfalse⟩ := exists_of_returns hrun
  cases hr.symm.trans hmove
  cases result with
  | true => cases hfalse
  | false => exact ⟨D', S', hmove, (hkept _ 1 oneWallet_fetchable).1⟩

/-- Where both wallets have an account that is not listed, both keep it. An account that is moved
into its own wallet is lost, and moving one twice is reported as an error though it was moved. -/
theorem move_not_exactly_once :
    Fetchable movingWallet oneWallet (movingWallet.publicKey 1) 1 ∧
    (∃ D' S', move movingWallet (.apart oneWallet oneWallet) [] = .ok (false, .apart D' S') ∧
      Fetchable movingWallet D' (movingWallet.publicKey 1) 1 ∧
      Fetchable movingWallet S' (movingWallet.publicKey 1) 1) ∧
    (∃ w', move movingWallet (.same oneWallet) [movingWallet.publicKey 1] =
        .ok (false, .same w') ∧ ¬ Fetchable movingWallet w' (movingWallet.publicKey 1) 1) ∧
    ∃ D' S', move movingWallet (.apart emptyWallet oneWallet)
        [movingWallet.publicKey 1, movingWallet.publicKey 1] = .ok (true, .apart D' S') ∧
      D'.existsKey (movingWallet.publicKey 1) = true := by
  refine ⟨oneWallet_fetchable,
    ⟨oneWallet, oneWallet, ?_, oneWallet_fetchable, oneWallet_fetchable⟩, ?_, ?_⟩
  · have hopen : oneWallet.validPassword movingWallet = true := by decide +kernel
    have hopen : (Handles.apart oneWallet oneWallet).destination.validPassword movingWallet = true ∧
        (Handles.apart oneWallet oneWallet).source.validPassword movingWallet = true :=
      ⟨hopen, hopen⟩
    rw [move, require_of hopen.1, ok_bind, require_of hopen.2, ok_bind]
    rfl
  · have hrun : returns (move movingWallet (.same oneWallet) [movingWallet.publicKey 1])
        (fun r => match r with
          | (false, .same w) => (w.fetch movingWallet (movingWallet.publicKey 1) 0).1
          | _ => false) = true := by decide +kernel
    obtain ⟨r, hr, htest⟩ := exists_of_returns hrun
    match r with
    | (false, .same w) =>
        refine ⟨w, hr, fun hf => ?_⟩
        dsimp only at htest
        rw [hf] at htest
        cases htest
    | (true, _) => cases htest
    | (false, .apart _ _) => cases htest
  · have hrun : returns (move movingWallet (.apart emptyWallet oneWallet)
        [movingWallet.publicKey 1, movingWallet.publicKey 1])
        (fun r => match r with
          | (true, .apart d _) => d.existsKey (movingWallet.publicKey 1)
          | _ => false) = true := by decide +kernel
    obtain ⟨r, hr, htest⟩ := exists_of_returns hrun
    match r with
    | (true, .apart d s) => exact ⟨d, s, hr, htest⟩
    | (false, _) => cases htest
    | (true, .same _) => cases htest

end Sample

end PaperNode.WalletMove
