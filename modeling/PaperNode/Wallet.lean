import Mathlib.Logic.Equiv.Basic
import PaperNode.OrderedTable
import PaperNode.BoundedRecursion
import PaperNode.TransitionRuns
import PaperNode.Words

/-!
# The wallet store

A wallet is one database table. Five entries with fixed keys hold the version,
the salt, the encrypted wallet key, a check value and the representative; every
other entry is an account, with the private key encrypted under the wallet key.
The password is not stored. It lives in memory, spread over several shares.

Keys and values are 256-bit numbers, read from the most significant byte, so the
order of the table is the order of the database. The fixed keys are made from
small machine integers, whose bytes the machine stores in the other direction.

The stream cipher adds a keystream that depends on the key and an initial value.
The initial value is always the first half of the salt.
-/
namespace PaperNode.Wallet
open OrderedTable BoundedRecursion TransitionRuns Words

abbrev Key := BitVec 256

/-- What the wallet takes from outside: the keystream of the cipher in counter
mode, the public key of a private key, the key derived from a password and the
salt, and the network's genesis account. -/
structure WalletEnv where
  keystream : Key → BitVec 128 → Key
  publicKey : Key → Key
  generate : List UInt8 → Key → Key
  genesisAccount : Key

/-- `uint256_union (uint64_t)` on a little-endian machine. -/
def ofQword (x : BitVec 64) : Key :=
  x.extractLsb' 0 8 ++ x.extractLsb' 8 8 ++ x.extractLsb' 16 8 ++ x.extractLsb' 24 8 ++
    x.extractLsb' 32 8 ++ x.extractLsb' 40 8 ++ x.extractLsb' 48 8 ++ x.extractLsb' 56 8 ++
    (0 : BitVec 192)

def versionCurrent : Key := ofQword 1

def versionSpecial : Key := ofQword 0

def saltSpecial : Key := ofQword 1

def walletKeySpecial : Key := ofQword 2

def checkSpecial : Key := ofQword 3

def representativeSpecial : Key := ofQword 4

def specialCount : BitVec 64 := 5

def specials : List Key :=
  [versionSpecial, saltSpecial, walletKeySpecial, checkSpecial, representativeSpecial]

/-- The shares of a key; there is always a first one. -/
structure Fan where
  first : Key
  rest : List Key
  deriving DecidableEq, Repr

def Fan.new (key : Key) : List Key → Fan
  | [] => ⟨key, []⟩
  | share :: shares => ⟨share, shares ++ [(share :: shares).foldl (· ^^^ ·) key]⟩

def Fan.value (f : Fan) : Key := (f.first :: f.rest).foldl (· ^^^ ·) 0

def Fan.valueSet (f : Fan) (value : Key) : Fan :=
  { f with first := f.first ^^^ f.value ^^^ value }

structure WalletValue where
  key : Key
  work : BitVec 64 := 0
  deriving DecidableEq, Repr

structure WalletStore where
  entries : Table Key WalletValue
  password : Fan

/-- What one call of the constructor draws from the random pool. The salt and
the wallet key are drawn only for a new table. -/
structure Draws where
  shares : List Key
  salt : Key
  walletKey : Key

inductive WalletAssertion where
  | entryDeleted | workEntry
  deriving DecidableEq, Repr

/-- Encryption and decryption are one operation. -/
def WalletEnv.cipher (E : WalletEnv) (text key : Key) (iv : BitVec 128) : Key :=
  text ^^^ E.keystream key iv

/-- The first of the two halves in memory. -/
def oword (x : Key) : BitVec 128 := x.extractLsb' 128 128

namespace WalletStore

def entryGetRaw (w : WalletStore) (pub : Key) : WalletValue := (w.entries.get pub).getD ⟨0, 0⟩

def entryPutRaw (w : WalletStore) (pub : Key) (entry : WalletValue) : WalletStore :=
  { w with entries := w.entries.put pub entry }

def check (w : WalletStore) : Key := (w.entryGetRaw checkSpecial).key

def salt (w : WalletStore) : Key := (w.entryGetRaw saltSpecial).key

def walletKey (E : WalletEnv) (w : WalletStore) : Key :=
  E.cipher (w.entryGetRaw walletKeySpecial).key w.password.value (oword w.salt)

def validPassword (E : WalletEnv) (w : WalletStore) : Bool :=
  w.check == E.cipher 0 (walletKey E w) (oword w.salt)

def deriveKey (E : WalletEnv) (w : WalletStore) (password : List UInt8) : Key :=
  E.generate password w.salt

def enterPassword (E : WalletEnv) (w : WalletStore) (password : List UInt8) : WalletStore :=
  { w with password := w.password.valueSet (deriveKey E w password) }

/-- True is an error. -/
def rekey (E : WalletEnv) (w : WalletStore) (password : List UInt8) : Bool × WalletStore :=
  if validPassword E w then
    let passwordNew := deriveKey E w password
    let key := walletKey E w
    let fan := { w.password with first := w.password.first ^^^ w.password.value ^^^ passwordNew }
    let encrypted := E.cipher key passwordNew (oword w.salt)
    (false, { w with password := fan }.entryPutRaw walletKeySpecial ⟨encrypted, 0⟩)
  else (true, w)

/-- The constructor on a table: a table without a version is new. -/
def construct (E : WalletEnv) (entries : Table Key WalletValue) (draws : Draws) : WalletStore :=
  let w : WalletStore := ⟨entries, Fan.new 0 draws.shares⟩
  match entries.get versionSpecial with
  | none =>
      let w := w.entryPutRaw versionSpecial ⟨versionCurrent, 0⟩
      let w := w.entryPutRaw saltSpecial ⟨draws.salt, 0⟩
      let w := { w with password := w.password.valueSet 0 }
      let encrypted := E.cipher draws.walletKey 0 (oword draws.salt)
      let w := w.entryPutRaw walletKeySpecial ⟨encrypted, 0⟩
      let w := w.entryPutRaw checkSpecial ⟨E.cipher 0 draws.walletKey (oword draws.salt), 0⟩
      w.entryPutRaw representativeSpecial ⟨E.genesisAccount, 0⟩
  | some _ => enterPassword E w []

def insert (E : WalletEnv) (w : WalletStore) (prv : Key) : Key × WalletStore :=
  let pub := E.publicKey prv
  (pub, w.entryPutRaw pub ⟨E.cipher prv (walletKey E w) (oword w.salt), 0⟩)

def erase (w : WalletStore) (pub : Key) : Check WalletAssertion WalletStore := do
  require (w.entries.get pub).isSome .entryDeleted
  return { w with entries := w.entries.del pub }

/-- The error flag and the private key afterwards. -/
def fetch (E : WalletEnv) (w : WalletStore) (pub prv : Key) : Bool × Key :=
  let value := w.entryGetRaw pub
  if value.key ≠ 0 then
    let prv := E.cipher value.key (walletKey E w) (oword w.salt)
    (pub ≠ E.publicKey prv, prv)
  else (true, prv)

def representativeSet (w : WalletStore) (account : Key) : WalletStore :=
  w.entryPutRaw representativeSpecial ⟨account, 0⟩

def workPut (w : WalletStore) (pub : Key) (work : BitVec 64) :
    Check WalletAssertion WalletStore := do
  let entry := w.entryGetRaw pub
  require (entry.key ≠ 0) .workEntry
  return w.entryPutRaw pub { entry with work := work }

/-- An iterator is the list of the entries from its position on. -/
def begin (w : WalletStore) : List (Key × WalletValue) := w.entries.seek (ofQword specialCount)

def find (w : WalletStore) (key : Key) : List (Key × WalletValue) :=
  match w.entries.seek key with
  | [] => []
  | e :: es => if e.1 = key then e :: es else []

def existsKey (w : WalletStore) (pub : Key) : Bool := !(w.find pub).isEmpty

def accounts (w : WalletStore) : List Key := w.begin.map Prod.fst

end WalletStore

inductive Action where
  | insert (prv : Key)
  | erase (pub : Key)
  | enterPassword (password : List UInt8)
  | rekey (password : List UInt8)
  | representativeSet (account : Key)
  | workPut (pub : Key) (work : BitVec 64)
  | reopen (draws : Draws)

def perform (E : WalletEnv) (w : WalletStore) : Action → Check WalletAssertion WalletStore
  | .insert prv => .ok (w.insert E prv).2
  | .erase pub => w.erase pub
  | .enterPassword password => .ok (w.enterPassword E password)
  | .rekey password => .ok (w.rekey E password).2
  | .representativeSet account => .ok (w.representativeSet account)
  | .workPut pub work => w.workPut pub work
  | .reopen draws => .ok (WalletStore.construct E w.entries draws)

def Step (E : WalletEnv) (w : WalletStore) (a : Action) (w' : WalletStore) : Prop :=
  perform E w a = .ok w'

def Ordinary (E : WalletEnv) : Action → Prop
  | .insert prv => E.publicKey prv ∉ specials
  | .erase pub => pub ∉ specials
  | _ => True

def Opened (E : WalletEnv) (draws : Draws) : List Action → WalletStore → Prop :=
  Run (Guarded (fun _ => Ordinary E) (Step E)) (WalletStore.construct E ∅ draws)

variable {E : WalletEnv} {w w' : WalletStore} {a : Action} {draws : Draws} {p : Key}

section Writing

def WalletStore.stored (w : WalletStore) (p : Key) : Option Key :=
  (w.entries.get p).map WalletValue.key

theorem stored_entryPutRaw (w : WalletStore) (q : Key) (v : WalletValue) :
    (w.entryPutRaw q v).stored = Function.update w.stored q (some v.key) := by
  funext p
  unfold WalletStore.stored WalletStore.entryPutRaw
  rw [Table.get_put, Function.update_apply]
  split_ifs
  · rfl
  · rfl

theorem stored_del (w : WalletStore) (q : Key) :
    WalletStore.stored { w with entries := w.entries.del q } = Function.update w.stored q none := by
  funext p
  unfold WalletStore.stored
  rw [Table.get_del, Function.update_apply]
  split_ifs
  · rfl
  · rfl

theorem entryGetRaw_key (w : WalletStore) (p : Key) :
    (w.entryGetRaw p).key = (w.stored p).getD 0 := by
  unfold WalletStore.entryGetRaw WalletStore.stored
  cases w.entries.get p with
  | none => rfl
  | some v => rfl

/-- The key of the table an operation writes, with what it leaves there. The work
value is not part of it. -/
def written (E : WalletEnv) (w : WalletStore) : Action → Option (Key × Option Key)
  | .insert prv => some (E.publicKey prv, some (E.cipher prv (w.walletKey E) (oword w.salt)))
  | .erase pub => some (pub, none)
  | .rekey password =>
      if w.validPassword E then
        some (walletKeySpecial,
          some (E.cipher (w.walletKey E) (w.deriveKey E password) (oword w.salt)))
      else none
  | .representativeSet account => some (representativeSpecial, some account)
  | .enterPassword _ | .workPut _ _ | .reopen _ => none

theorem step_stored (hver : w.stored versionSpecial ≠ none) (h : Step E w a w') :
    w'.stored = (written E w a).elim w.stored (fun x => Function.update w.stored x.1 x.2) := by
  unfold Step at h
  cases a with
  | insert prv =>
      cases h
      exact stored_entryPutRaw _ _ _
  | erase pub =>
      obtain ⟨_, _, h⟩ := bind_eq_ok.mp h
      cases h
      exact stored_del w pub
  | enterPassword password =>
      cases h
      rfl
  | rekey password =>
      cases h
      unfold WalletStore.rekey written
      split_ifs
      · exact stored_entryPutRaw _ _ _
      · rfl
  | representativeSet account =>
      cases h
      exact stored_entryPutRaw _ _ _
  | workPut pub work =>
      obtain ⟨_, hkey, h⟩ := bind_eq_ok.mp h
      cases h
      rw [stored_entryPutRaw]
      have hkey := require_eq_ok.mp hkey
      rw [entryGetRaw_key] at hkey ⊢
      cases hp : w.stored pub with
      | none =>
          rw [hp] at hkey
          exact absurd rfl hkey
      | some c => exact Function.update_eq_self_iff.mpr hp.symm
  | reopen draws =>
      cases h
      unfold WalletStore.construct
      cases hv : w.entries.get versionSpecial with
      | none =>
          unfold WalletStore.stored at hver
          rw [hv] at hver
          exact absurd rfl hver
      | some v => rfl

theorem step_unwritten (hver : w.stored versionSpecial ≠ none) (h : Step E w a w')
    (hp : ∀ v, written E w a ≠ some (p, v)) : w'.stored p = w.stored p := by
  rw [step_stored hver h]
  cases hw : written E w a with
  | none => rfl
  | some x =>
      rw [Option.elim_some]
      apply Function.update_of_ne
      intro he
      apply hp x.2
      rw [hw, he]

theorem written_eq_some {v : Option Key} (h : written E w a = some (p, v)) :
    (∃ prv, a = .insert prv ∧ E.publicKey prv = p) ∨ a = .erase p ∨
      p = walletKeySpecial ∨ p = representativeSpecial := by
  cases a with
  | insert prv =>
      cases h
      exact Or.inl ⟨prv, rfl, rfl⟩
  | erase pub =>
      cases h
      exact Or.inr (Or.inl rfl)
  | rekey password =>
      unfold written at h
      split_ifs at h
      · cases h
        exact Or.inr (Or.inr (Or.inl rfl))
  | representativeSet account =>
      cases h
      exact Or.inr (Or.inr (Or.inr rfl))
  | enterPassword password => cases h
  | workPut pub work => cases h
  | reopen draws => cases h

theorem not_written {v : Option Key} (hp : p ∉ specials)
    (hins : ∀ prv, a = .insert prv → E.publicKey prv ≠ p) (hdel : a ≠ .erase p) :
    written E w a ≠ some (p, v) := by
  intro h
  rcases written_eq_some h with ⟨prv, ha, hprv⟩ | ha | rfl | rfl
  · exact hins prv ha hprv
  · exact hdel ha
  · exact hp (by decide)
  · exact hp (by decide)

theorem not_written_fixed {v : Option Key} (hord : Ordinary E a)
    (hp : p ∈ [versionSpecial, saltSpecial, checkSpecial]) : written E w a ≠ some (p, v) := by
  have hspecial : p ∈ specials := by
    revert hp
    simp only [specials, List.mem_cons]
    tauto
  intro h
  rcases written_eq_some h with ⟨prv, rfl, rfl⟩ | rfl | rfl | rfl
  · exact hord hspecial
  · exact hord hspecial
  · revert hp
    decide
  · revert hp
    decide

end Writing

section Fixed

structure Keyed (E : WalletEnv) (draws : Draws) (w : WalletStore) : Prop where
  version : w.stored versionSpecial = some versionCurrent
  salt : w.stored saltSpecial = some draws.salt
  check : w.stored checkSpecial = some (E.cipher 0 draws.walletKey (oword draws.salt))

theorem construct_keyed (E : WalletEnv) (draws : Draws) :
    Keyed E draws (WalletStore.construct E ∅ draws) := by
  constructor
  · rfl
  · rfl
  · rfl

theorem Keyed.version_ne (hw : Keyed E draws w) : w.stored versionSpecial ≠ none := by
  rw [hw.version]
  exact Option.some_ne_none _

theorem Keyed.step (hw : Keyed E draws w) (hord : Ordinary E a) (h : Step E w a w') :
    Keyed E draws w' := by
  have hsame : ∀ q ∈ [versionSpecial, saltSpecial, checkSpecial], w'.stored q = w.stored q :=
    fun q hq => step_unwritten hw.version_ne h (fun v => not_written_fixed hord hq)
  constructor
  · rw [hsame versionSpecial (by simp), hw.version]
  · rw [hsame saltSpecial (by simp), hw.salt]
  · rw [hsame checkSpecial (by simp), hw.check]

theorem opened_keyed {as : List Action} (h : Opened E draws as w) : Keyed E draws w := by
  refine h.invariant (I := fun _ u => Keyed E draws u) (construct_keyed E draws) ?_
  intro _ t a u ht hstep
  exact ht.step hstep.1 hstep.2

theorem cipher_zero (E : WalletEnv) (key : Key) (iv : BitVec 128) :
    E.cipher 0 key iv = E.keystream key iv := BitVec.zero_xor

theorem cipher_cipher (E : WalletEnv) (x key : Key) (iv : BitVec 128) :
    E.cipher (E.cipher x key iv) key iv = x := by
  unfold WalletEnv.cipher
  rw [BitVec.xor_assoc, BitVec.xor_self, BitVec.xor_zero]

theorem Keyed.salt_eq (hw : Keyed E draws w) : w.salt = draws.salt := by
  unfold WalletStore.salt
  rw [entryGetRaw_key, hw.salt]
  rfl

theorem Keyed.check_eq (hw : Keyed E draws w) :
    w.check = E.keystream draws.walletKey (oword draws.salt) := by
  unfold WalletStore.check
  rw [entryGetRaw_key, hw.check, Option.getD_some, cipher_zero]

theorem Keyed.validPassword_iff (hw : Keyed E draws w) : w.validPassword E = true ↔
    E.keystream (w.walletKey E) (oword draws.salt) =
      E.keystream draws.walletKey (oword draws.salt) := by
  unfold WalletStore.validPassword
  rw [beq_iff_eq, hw.check_eq, hw.salt_eq, cipher_zero]
  exact eq_comm

end Fixed

section Sample

/-- The keystreams of some keys: no password, the passwords `a` and `b`, the wallet
key, and what password `b` decrypts once password `a` has been set. Each pair is
exchanged, so different keys have different keystreams. -/
def sampleStream : Equiv.Perm Key :=
  [(0, 0x61006666010c43379ede85048213921f38011b7e3c575d423ae3072e24a8cd4a),
    (0xe35cbdbadb176c61cb14e5997c638bd19f22a8b7788ec00df320cc4d6e761769,
      0xad5a95da4b0ef7892ce4164671a8822ead7a5f7c780e2629b75c355b3e9bcce6),
    (0x403adc0b36d3830807da4dcacc9bfb1569fd9c25806edc4754f9d1d8b8e2fc34,
      0x10e9a71f78ca422f528d6f000bda32fceff004ac1ca450b355ab90238fb6ecfa),
    (0x404142434445464748494a4b4c4d4e4f505152535455565758595a5b5c5d5e5f,
      0x8c5b77dfa6593649d2620ad83c244a88f0382c9f03f3edd5dbb46f1cfbd02f90),
    (0xfdf270867781f3e13620330d363ffe9d12db098330ff20cdbaaeff23ed707e43,
      0x31734a5f1348a3cdfd54a246ccbd9634819898027306e61afdbd72e3a9baf085)].foldr
    (fun x f => (Equiv.swap x.1 x.2).trans f) (Equiv.refl Key)

/-- The public keys of the private keys one and eighteen, and of what the first is
taken for after it was inserted under password `b`. -/
def sampleWallet : WalletEnv where
  keystream := fun key _ => sampleStream key
  publicKey := fun prv =>
    if prv = 1 then 0xc969ec348895a49e21824e10e6b829edea50ccc26a83ce8986a3b95d12576058
    else if prv = 18 then 0x00fcaf1230e0be00b44ee9590f7998503fca540ca225ecd266e6bf52ace65686
    else if prv = 0xbd283d80b51195842f36a89ef099dcbc71a0b49d70f50bcf26091dff526adf14 then
      0x86a1e6bdd461adb8e8152bf06614599ea2ae1a863fda151ef621857a1afc710b
    else prv
  generate := fun password _ =>
    if password = [97] then 0xe35cbdbadb176c61cb14e5997c638bd19f22a8b7788ec00df320cc4d6e761769
    else 0x403adc0b36d3830807da4dcacc9bfb1569fd9c25806edc4754f9d1d8b8e2fc34
  genesisAccount := 0xb0311ea55708d6a53c75cdbf88300259c6d018522fe3d4d0a242e431f9e8b6d0

def sampleDraws : Draws where
  shares := []
  salt := 0x101112131415161718191a1b1c1d1e1f202122232425262728292a2b2c2d2e2f
  walletKey := 0x404142434445464748494a4b4c4d4e4f505152535455565758595a5b5c5d5e5f

theorem sampleStream_injective (iv : BitVec 128) :
    Function.Injective (fun key => sampleWallet.keystream key iv) := sampleStream.injective

end Sample

end PaperNode.Wallet
