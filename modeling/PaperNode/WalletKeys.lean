import PaperNode.Wallet

/-!
# The private keys of a wallet

All accounts of a wallet, and its check value, are encrypted with one keystream:
that of the wallet key and the first half of the salt. The check value is the
encryption of zero, so it is the keystream itself, and it stands in the table next
to the accounts. Whoever has the table has the private keys.

An account is inserted under the key that the password in memory decrypts, right
or wrong. Under a wrong password the account is stored with a keystream that
nobody will compute again. As long as every account is inserted under a valid
password, the wallet gives back what it was given.
-/
namespace PaperNode.WalletKeys
open OrderedTable BoundedRecursion TransitionRuns Wallet

variable {E : WalletEnv} {w w' u u' : WalletStore} {a : Action} {draws : Draws} {p prv : Key}
  {as before after : List Action}

section Passwords

theorem zero_xor_key (x : Key) : 0 ^^^ x = x := BitVec.zero_xor

theorem foldl_xor (x : Key) (ys : List Key) :
    ys.foldl (· ^^^ ·) x = x ^^^ ys.foldl (· ^^^ ·) 0 := by
  induction ys generalizing x with
  | nil => exact BitVec.xor_zero.symm
  | cons y ys ih =>
      rw [List.foldl_cons, List.foldl_cons, ih, ih (0 ^^^ y), zero_xor_key, BitVec.xor_assoc]

theorem fan_value_eq (f : Fan) : f.value = f.first ^^^ f.rest.foldl (· ^^^ ·) 0 := by
  unfold Fan.value
  rw [List.foldl_cons, foldl_xor, zero_xor_key]

theorem fan_value_valueSet (f : Fan) (x : Key) : (f.valueSet x).value = x := by
  rw [fan_value_eq]
  unfold Fan.valueSet
  rw [fan_value_eq]
  generalize f.rest.foldl (· ^^^ ·) 0 = r
  calc f.first ^^^ (f.first ^^^ r) ^^^ x ^^^ r
      = (f.first ^^^ f.first) ^^^ (r ^^^ r) ^^^ x := by ac_rfl
    _ = x := by simp

theorem construct_validPassword (E : WalletEnv) (draws : Draws) :
    (WalletStore.construct E ∅ draws).validPassword E = true := by
  have hw := construct_keyed E draws
  rw [hw.validPassword_iff]
  congr 1
  unfold WalletStore.walletKey
  rw [hw.salt_eq]
  have hzero : (WalletStore.construct E ∅ draws).password.value = 0 := fan_value_valueSet _ 0
  rw [hzero]
  exact cipher_cipher E draws.walletKey 0 (oword draws.salt)

theorem reads_rekeyed {x : Key} (he : u.entries = w.entries.put walletKeySpecial
    ⟨E.cipher (w.walletKey E) x (oword w.salt), 0⟩) (hx : u.password.value = x) :
    u.walletKey E = w.walletKey E ∧ u.salt = w.salt ∧ u.check = w.check := by
  have hother : ∀ q, q ≠ walletKeySpecial → u.entryGetRaw q = w.entryGetRaw q := by
    intro q hq
    unfold WalletStore.entryGetRaw
    rw [he, Table.get_put_ne _ _ hq]
  have hself : u.entryGetRaw walletKeySpecial =
      ⟨E.cipher (w.walletKey E) x (oword w.salt), 0⟩ := by
    unfold WalletStore.entryGetRaw
    rw [he, Table.get_put_self, Option.getD_some]
  have hsalt : u.salt = w.salt := congrArg WalletValue.key (hother saltSpecial (by decide))
  refine ⟨?_, hsalt, congrArg WalletValue.key (hother checkSpecial (by decide))⟩
  rw [WalletStore.walletKey, hself, hx, hsalt, cipher_cipher]

theorem validPassword_rekeyed {x : Key} (hv : w.validPassword E = true)
    (he : u.entries = w.entries.put walletKeySpecial
      ⟨E.cipher (w.walletKey E) x (oword w.salt), 0⟩) (hx : u.password.value = x) :
    u.validPassword E = true := by
  obtain ⟨hkey, hsalt, hcheck⟩ := reads_rekeyed he hx
  unfold WalletStore.validPassword
  rw [hkey, hsalt, hcheck]
  exact hv

section Rekey
variable {password : List UInt8} (hv : w.validPassword E = true)
include hv

theorem rekey_entries : (w.rekey E password).2.entries = w.entries.put walletKeySpecial
    ⟨E.cipher (w.walletKey E) (w.deriveKey E password) (oword w.salt), 0⟩ := by
  unfold WalletStore.rekey
  rw [if_pos hv]
  rfl

theorem rekey_value : (w.rekey E password).2.password.value = w.deriveKey E password := by
  unfold WalletStore.rekey
  rw [if_pos hv]
  exact fan_value_valueSet _ _

theorem rekey_validPassword : (w.rekey E password).2.validPassword E = true :=
  validPassword_rekeyed hv (rekey_entries hv) (rekey_value hv)

end Rekey

/-- A change of the password of an open wallet keeps its key, its accounts and what they are
fetched as. It is refused by a locked wallet. -/
theorem rekey_preserves (E : WalletEnv) (w : WalletStore) (password : List UInt8) :
    (w.validPassword E = true →
      (w.rekey E password).1 = false ∧
      (w.rekey E password).2.password.value = w.deriveKey E password ∧
      (w.rekey E password).2.walletKey E = w.walletKey E ∧
      (w.rekey E password).2.validPassword E = true ∧
      (∀ q, q ≠ walletKeySpecial → (w.rekey E password).2.entries.get q = w.entries.get q) ∧
      (∀ q out, q ≠ walletKeySpecial →
        (w.rekey E password).2.fetch E q out = w.fetch E q out) ∧
      ∀ fan, (WalletStore.enterPassword E ⟨(w.rekey E password).2.entries, fan⟩
        password).validPassword E = true) ∧
    (w.validPassword E = false → w.rekey E password = (true, w)) := by
  constructor
  · intro hv
    have hvalue : (w.rekey E password).2.password.value = w.deriveKey E password := rekey_value hv
    obtain ⟨hkey, hsalt, _⟩ := reads_rekeyed (rekey_entries hv) hvalue
    have hentries : ∀ q, q ≠ walletKeySpecial →
        (w.rekey E password).2.entries.get q = w.entries.get q := by
      intro q hq
      rw [rekey_entries hv, Table.get_put_ne _ _ hq]
    refine ⟨?_, hvalue, hkey, rekey_validPassword hv, hentries, ?_, ?_⟩
    · unfold WalletStore.rekey
      rw [if_pos hv]
    · intro q out hq
      unfold WalletStore.fetch WalletStore.entryGetRaw
      rw [hentries q hq, hkey, hsalt]
    · -- the salt of the table is the same, so the password gives the same value
      intro fan
      have hderive : WalletStore.deriveKey E ⟨(w.rekey E password).2.entries, fan⟩ password =
          w.deriveKey E password := congrArg (E.generate password) hsalt
      refine validPassword_rekeyed hv (rekey_entries hv) ?_
      unfold WalletStore.enterPassword
      rw [fan_value_valueSet, hderive]
  · intro hv
    unfold WalletStore.rekey
    rw [hv]
    rfl

theorem cipher_valid (hu : Keyed E draws u) (hv : u.validPassword E = true) (x : Key) :
    E.cipher x (u.walletKey E) (oword u.salt) =
      E.cipher x draws.walletKey (oword draws.salt) := by
  unfold WalletEnv.cipher
  rw [hu.salt_eq, hu.validPassword_iff.mp hv]

theorem insert_stored (hu : Keyed E draws u) (hv : u.validPassword E = true)
    (h : Step E u (.insert prv) u') :
    u'.stored (E.publicKey prv) = some (E.cipher prv draws.walletKey (oword draws.salt)) := by
  rw [step_stored hu.version_ne h]
  unfold written
  rw [Option.elim_some, Function.update_self, cipher_valid hu hv]

end Passwords

section Sample

/-- A new wallet that was given the password `a`. -/
def sampleOpen : WalletStore :=
  ((WalletStore.construct sampleWallet ∅ sampleDraws).rekey sampleWallet [97]).2

/-- The same wallet after password `b` was entered. -/
def sampleLocked : WalletStore := sampleOpen.enterPassword sampleWallet [98]

theorem opened_sampleOpen : Opened sampleWallet sampleDraws [.rekey [97]] sampleOpen :=
  .snoc .nil ⟨trivial, rfl⟩

theorem sample_ordinary : Ordinary sampleWallet (.insert 1) := by
  unfold Ordinary
  decide +kernel

/-- A new wallet is given the password `a`. -/
theorem rekey_preserves_sample :
    (WalletStore.construct sampleWallet ∅ sampleDraws).validPassword sampleWallet = true ∧
    sampleOpen.validPassword sampleWallet = true ∧
    sampleOpen.password.value = sampleWallet.generate [97] sampleDraws.salt := by
  have hrekey := (rekey_preserves sampleWallet (WalletStore.construct sampleWallet ∅ sampleDraws)
    [97]).1 (construct_validPassword sampleWallet sampleDraws)
  exact ⟨construct_validPassword sampleWallet sampleDraws, hrekey.2.2.2.1, hrekey.2.1⟩

/-- The wallet key is stored encrypted under the password, so the entry of the wallet key itself
is fetched as something else after the change. -/
theorem rekey_changes_fetch : ¬ ∀ (E : WalletEnv) (w : WalletStore) (password : List UInt8)
    (q out : Key), w.validPassword E = true →
      (w.rekey E password).2.fetch E q out = w.fetch E q out := by
  intro hall
  have hfetch := hall sampleWallet (WalletStore.construct sampleWallet ∅ sampleDraws) [97]
    walletKeySpecial 0 (construct_validPassword sampleWallet sampleDraws)
  revert hfetch
  decide +kernel

end Sample

section Reading

/-- The accounts of a table, each with its entry combined with the check value. -/
def recoverKeys (t : Table Key WalletValue) : List (Key × Key) :=
  (t.entries.filter (fun e => e.1 ∉ specials)).map
    (fun e => (e.1, e.2.key ^^^ ((t.get checkSpecial).getD ⟨0, 0⟩).key))

def Touches (E : WalletEnv) (p : Key) (a : Action) : Prop :=
  a = .erase p ∨ ∃ prv, a = .insert prv ∧ E.publicKey prv = p

theorem untouched_stored (hp : p ∉ specials) (hu : Keyed E draws u)
    (h : Run (Guarded (fun _ => Ordinary E) (Step E)) u after w)
    (hafter : ∀ b ∈ after, ¬ Touches E p b) : w.stored p = u.stored p ∧ Keyed E draws w := by
  revert hafter
  refine h.invariant (I := fun as t => (∀ b ∈ as, ¬ Touches E p b) →
    t.stored p = u.stored p ∧ Keyed E draws t) (fun _ => ⟨rfl, hu⟩) ?_
  intro as t a t' ih hstep hall
  obtain ⟨hsame, ht⟩ := ih (fun b hb => hall b (List.mem_append_left _ hb))
  have hlast : ¬ Touches E p a := hall a (by simp)
  refine ⟨?_, ht.step hstep.1 hstep.2⟩
  rw [← hsame]
  apply step_unwritten ht.version_ne hstep.2
  intro v
  apply not_written hp
  · intro prv ha hprv
    exact hlast (Or.inr ⟨prv, ha, hprv⟩)
  · intro ha
    exact hlast (Or.inl ha)

theorem mem_recoverKeys (hp : p ∉ specials) (hw : Keyed E draws w)
    (hc : w.stored p = some (E.cipher prv draws.walletKey (oword draws.salt))) :
    (p, prv) ∈ recoverKeys w.entries := by
  obtain ⟨e, he, hkey⟩ := Option.map_eq_some_iff.mp hc
  have hcheck : ((w.entries.get checkSpecial).getD ⟨0, 0⟩).key =
      E.keystream draws.walletKey (oword draws.salt) := hw.check_eq
  unfold recoverKeys
  rw [hcheck]
  refine List.mem_map.mpr ⟨(p, e), List.mem_filter.mpr ⟨Table.mem_entries.mpr he, ?_⟩, ?_⟩
  · exact decide_eq_true hp
  · dsimp only
    rw [hkey]
    exact congrArg _ (cipher_cipher E prv draws.walletKey (oword draws.salt))

/-- A private key that is inserted under a valid password can be read off the
table, then and as long as the account is neither erased nor inserted again. -/
theorem inserted_key_recoverable (hpub : E.publicKey prv ∉ specials)
    (h₁ : Opened E draws before u) (hv : u.validPassword E = true)
    (h₂ : Step E u (.insert prv) u')
    (h₃ : Run (Guarded (fun _ => Ordinary E) (Step E)) u' after w)
    (hafter : ∀ b ∈ after, ¬ Touches E (E.publicKey prv) b) :
    (E.publicKey prv, prv) ∈ recoverKeys w.entries := by
  have hu := opened_keyed h₁
  have hu' := hu.step (a := .insert prv) hpub h₂
  obtain ⟨hsame, hw⟩ := untouched_stored hpub hu' h₃ hafter
  apply mem_recoverKeys hpub hw
  rw [hsame]
  exact insert_stored hu hv h₂

/-- The private key one, read off a locked wallet. -/
theorem inserted_key_recoverable_sample : ∃ w : WalletStore,
    w.validPassword sampleWallet = false ∧
      (sampleWallet.publicKey 1, 1) ∈ recoverKeys w.entries := by
  have h₂ : Step sampleWallet sampleOpen (.insert 1) (sampleOpen.insert sampleWallet 1).2 := rfl
  have h₃ : Run (Guarded (fun _ => Ordinary sampleWallet) (Step sampleWallet))
      (sampleOpen.insert sampleWallet 1).2 [.enterPassword [98]]
      ((sampleOpen.insert sampleWallet 1).2.enterPassword sampleWallet [98]) :=
    .snoc .nil ⟨trivial, rfl⟩
  refine ⟨_, by decide +kernel, inserted_key_recoverable sample_ordinary opened_sampleOpen
    (by decide +kernel) h₂ h₃ ?_⟩
  intro b hb ht
  cases List.mem_singleton.mp hb
  rcases ht with ht | ⟨_, ht, _⟩
  · cases ht
  · cases ht

/-- There is a function of the table alone that returns the private keys. -/
theorem recovery_function_exists : ∃ recover : Table Key WalletValue → List (Key × Key),
    ∀ E draws before u prv u', E.publicKey prv ∉ specials → Opened E draws before u →
      u.validPassword E = true → Step E u (.insert prv) u' →
        (E.publicKey prv, prv) ∈ recover u'.entries := by
  refine ⟨recoverKeys, ?_⟩
  intro E draws before u prv u' hpub h₁ hv h₂
  have hu := opened_keyed h₁
  exact mem_recoverKeys hpub (hu.step (a := .insert prv) hpub h₂) (insert_stored hu hv h₂)

end Reading

section Keeping

/-- An account is not a fixed key, and its encrypted key is not zero. -/
def Regular (E : WalletEnv) (w : WalletStore) (a : Action) : Prop :=
  Ordinary E a ∧ ∀ x, a = .insert x → E.cipher x (w.walletKey E) (oword w.salt) ≠ 0

def Unlocked (E : WalletEnv) (w : WalletStore) : Action → Prop
  | .insert _ => w.validPassword E = true
  | _ => True

/-- The private key was inserted and its account has not been erased since. -/
def Given (E : WalletEnv) (as : List Action) (prv : Key) : Prop :=
  Since (· = .insert prv) (· = .erase (E.publicKey prv)) as

def Distinct (E : WalletEnv) (as : List Action) : Prop :=
  ∀ x y, .insert x ∈ as → .insert y ∈ as → E.publicKey x = E.publicKey y → x = y

def Writable (E : WalletEnv) (draws : Draws) (x : Key) : Prop :=
  E.publicKey x ∉ specials ∧ E.cipher x draws.walletKey (oword draws.salt) ≠ 0

/-- What the table holds of the actions performed. -/
structure Kept (E : WalletEnv) (draws : Draws) (as : List Action) (w : WalletStore) : Prop where
  keyed : Keyed E draws w
  writable : ∀ x, .insert x ∈ as → Writable E draws x
  given : Distinct E as → ∀ x, Given E as x →
    w.stored (E.publicKey x) = some (E.cipher x draws.walletKey (oword draws.salt))

theorem Kept.construct (E : WalletEnv) (draws : Draws) :
    Kept E draws [] (WalletStore.construct E ∅ draws) where
  keyed := construct_keyed E draws
  writable := fun x hx => by cases hx
  given := fun _ x hx => absurd hx not_since_nil

theorem insert_mem (h : Given E as prv) : .insert prv ∈ as := by
  obtain ⟨b, hb, rfl⟩ := h.exists_mem
  exact hb

theorem Kept.step (hw : Kept E draws as w) (hreg : Regular E w a) (hlock : Unlocked E w a)
    (h : Step E w a w') : Kept E draws (as ++ [a]) w' := by
  constructor
  case keyed => exact hw.keyed.step hreg.1 h
  case writable =>
    intro x hx
    rcases List.mem_append.mp hx with hx | hx
    · exact hw.writable x hx
    · cases List.mem_singleton.mp hx
      refine ⟨hreg.1, ?_⟩
      rw [← cipher_valid hw.keyed hlock]
      exact hreg.2 x rfl
  case given =>
    intro hdist x hx
    rcases since_snoc.mp hx with hnew | ⟨hold, hkept⟩
    · -- The key is inserted by this step.
      subst hnew
      exact insert_stored hw.keyed hlock h
    have hmem := insert_mem hold
    by_cases hover : ∃ y, a = .insert y ∧ E.publicKey y = E.publicKey x
    · -- The account is inserted again, which can only be with the same key.
      obtain ⟨y, rfl, hy⟩ := hover
      have hyx := hdist y x (by simp) (List.mem_append_left _ hmem) hy
      subst hyx
      exact insert_stored hw.keyed hlock h
    · have hprior : Distinct E as := fun y z hy hz =>
        hdist y z (List.mem_append_left _ hy) (List.mem_append_left _ hz)
      rw [← hw.given hprior x hold]
      apply step_unwritten hw.keyed.version_ne h
      intro v
      apply not_written (hw.writable x hmem).1 ?_ hkept
      exact fun y ha hy => hover ⟨y, ha, hy⟩

/-- A wallet whose accounts were all inserted under a valid password returns
every private key it was given, whenever the password is valid. -/
theorem fetch_given_key (hinj : ∀ iv, Function.Injective (fun key => E.keystream key iv))
    (h : Run (Guarded (fun t b => Regular E t b ∧ Unlocked E t b) (Step E))
      (WalletStore.construct E ∅ draws) as w) (hdist : Distinct E as)
    (hg : Given E as prv) (hv : w.validPassword E = true) (out : Key) :
    w.fetch E (E.publicKey prv) out = (false, prv) := by
  have hkept : Kept E draws as w := by
    refine h.invariant (I := Kept E draws) (Kept.construct E draws) ?_
    intro _ t b u ht hstep
    exact ht.step hstep.1.1 hstep.1.2 hstep.2
  have hkey : w.walletKey E = draws.walletKey := hinj _ (hkept.keyed.validPassword_iff.mp hv)
  have hentry : (w.entryGetRaw (E.publicKey prv)).key =
      E.cipher prv draws.walletKey (oword draws.salt) := by
    rw [entryGetRaw_key, hkept.given hdist prv hg]
    rfl
  unfold WalletStore.fetch
  dsimp only
  rw [hentry, if_pos (hkept.writable prv (insert_mem hg)).2, hkey, hkept.keyed.salt_eq,
    cipher_cipher]
  simp

theorem distinct_one {as : List Action} (h : ∀ x, .insert x ∈ as → x = 1) : Distinct E as :=
  fun x y hx hy _ => (h x hx).trans (h y hy).symm

theorem sample_regular
    (h : sampleWallet.cipher 1 (w.walletKey sampleWallet) (oword w.salt) ≠ 0) :
    Regular sampleWallet w (.insert 1) := by
  refine ⟨sample_ordinary, ?_⟩
  intro x hx
  cases hx
  exact h

/-- The private key one is inserted under password `a`, and password `b` is entered
in between. -/
theorem fetch_given_key_sample :
    (((sampleOpen.insert sampleWallet 1).2.enterPassword sampleWallet [98]).enterPassword
      sampleWallet [97]).fetch sampleWallet (sampleWallet.publicKey 1) 0 = (false, 1) := by
  have hrun : Run (Guarded (fun t b => Regular sampleWallet t b ∧ Unlocked sampleWallet t b)
      (Step sampleWallet)) (WalletStore.construct sampleWallet ∅ sampleDraws)
      [.rekey [97], .insert 1, .enterPassword [98], .enterPassword [97]]
      (((sampleOpen.insert sampleWallet 1).2.enterPassword sampleWallet [98]).enterPassword
        sampleWallet [97]) := by
    have hinsert : Regular sampleWallet sampleOpen (.insert 1) :=
      sample_regular (by decide +kernel)
    have hopen : Unlocked sampleWallet sampleOpen (.insert 1) := by
      unfold Unlocked
      decide +kernel
    exact .snoc (.snoc (.snoc (.snoc .nil ⟨⟨⟨trivial, fun _ => nofun⟩, trivial⟩, rfl⟩)
      ⟨⟨hinsert, hopen⟩, rfl⟩) ⟨⟨⟨trivial, fun _ => nofun⟩, trivial⟩, rfl⟩)
      ⟨⟨⟨trivial, fun _ => nofun⟩, trivial⟩, rfl⟩
  refine fetch_given_key sampleStream_injective hrun (distinct_one (by simp)) ?_
    (by decide +kernel) 0
  exact ⟨[.rekey [97]], .insert 1, [.enterPassword [98], .enterPassword [97]], rfl, rfl, by simp⟩

/-- The private key one is inserted while the wrong password is entered. With the
right password the entry is there and is no key. -/
theorem locked_insert_loses_key : ¬ ∀ (E : WalletEnv) (draws : Draws) (as : List Action)
    (w : WalletStore) (prv out : Key), (∀ iv, Function.Injective (fun key => E.keystream key iv)) →
    Run (Guarded (Regular E) (Step E)) (WalletStore.construct E ∅ draws) as w → Distinct E as →
    Given E as prv → w.validPassword E = true →
      w.fetch E (E.publicKey prv) out = (false, prv) := by
  intro hall
  have hrun : Run (Guarded (Regular sampleWallet) (Step sampleWallet))
      (WalletStore.construct sampleWallet ∅ sampleDraws)
      [.rekey [97], .enterPassword [98], .insert 1, .enterPassword [97]]
      ((sampleLocked.insert sampleWallet 1).2.enterPassword sampleWallet [97]) := by
    have hinsert : Regular sampleWallet sampleLocked (.insert 1) :=
      sample_regular (by decide +kernel)
    exact .snoc (.snoc (.snoc (.snoc .nil ⟨⟨trivial, fun _ => nofun⟩, rfl⟩)
      ⟨⟨trivial, fun _ => nofun⟩, rfl⟩) ⟨hinsert, rfl⟩) ⟨⟨trivial, fun _ => nofun⟩, rfl⟩
  have hfetch := hall sampleWallet sampleDraws _ _ 1 0 sampleStream_injective hrun
    (distinct_one (by simp))
    ⟨[.rekey [97], .enterPassword [98]], .insert 1, [.enterPassword [97]], rfl, rfl, by simp⟩
    (by decide +kernel)
  revert hfetch
  decide +kernel

end Keeping

end PaperNode.WalletKeys
