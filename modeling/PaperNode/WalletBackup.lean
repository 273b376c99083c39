import PaperNode.TextFields
import PaperNode.WalletKeys
import PaperNode.WalletMove

/-!
# Wallet backups

`serialize_json` writes every entry of a wallet into a property tree, the key of the entry as the
name and its encrypted value as the text. The constructor that takes such a tree reads the
members one after the other into a new table and asks for the five fixed entries at the end. The
error flag is set anew by every member, so only the last one counts.

A member is looked up by its name once more before its value is read. The lookup takes the name
for a path and throws if there is nothing.
-/
namespace PaperNode.WalletBackup
open OrderedTable BoundedRecursion TransitionRuns Wallet WalletAccounts WalletKeys WalletMove
open Base58 TextFields TextFields.Codec

/-- How the constructor stops without an error flag: a table that is not new, a lookup that
throws. -/
inductive BackupFault where
  | newTable | badPath
  deriving DecidableEq, Repr

def entryTexts (e : Key × WalletValue) : Text × Text := (encodeHex256 e.1, encodeHex256 e.2.key)

def serializeJson (w : WalletStore) : Ptree := Ptree.ofTexts (w.entries.entries.map entryTexts)

/-- The loop over the members. The flag that it starts with is not read. -/
def readMembers (C : Codec) (tree : Ptree) :
    List (Text × Ptree) → Bool → WalletStore → Check BackupFault (Bool × WalletStore)
  | [], init, w => .ok (init, w)
  | m :: ms, _, w =>
      match C.decodeHex256 m.1 with
      | none => readMembers C tree ms true w
      | some key => do
          let text ← demand (tree.text m.1) .badPath
          match C.decodeHex256 text with
          | none => readMembers C tree ms true w
          | some value => readMembers C tree ms false (w.entryPutRaw key ⟨value, 0⟩)

def lacks (w : WalletStore) (q : Key) : Bool := (w.entries.get q).isNone

def incomplete (w : WalletStore) : Bool :=
  lacks w versionSpecial || lacks w walletKeySpecial || lacks w saltSpecial ||
    lacks w checkSpecial || lacks w representativeSpecial

/-- The constructor on a table, with the random shares it draws. True is an error. -/
def constructJson (C : Codec) (entries : Table Key WalletValue) (shares : List Key)
    (tree : Ptree) : Check BackupFault (Bool × WalletStore) := do
  require (entries.get versionSpecial = none) .newTable
  let read ← readMembers C tree tree.children false ⟨entries, Fan.new 0 shares⟩
  let w := read.2
  return (read.1 || incomplete w, { w with password := w.password.valueSet 0 })

variable {C : Codec} {tree : Ptree} {m : Text × Ptree} {ms : List (Text × Ptree)}
variable {E : WalletEnv} {u w w' : WalletStore}

section Members
variable (C tree)

/-- The entry of a member that can be read. -/
def entryOf (m : Text × Ptree) : Option (Key × WalletValue) := do
  let key ← C.decodeHex256 m.1
  let text ← tree.text m.1
  let value ← C.decodeHex256 text
  return (key, ⟨value, 0⟩)

/-- The name can be read and is not found as a path. -/
def Throws (m : Text × Ptree) : Prop := C.decodeHex256 m.1 ≠ none ∧ tree.text m.1 = none

def entriesOf : List (Key × WalletValue) := tree.children.filterMap (entryOf C tree)

end Members

theorem readMembers_cons (hm : ¬ Throws C tree m) (init : Bool) (w : WalletStore) :
    readMembers C tree (m :: ms) init w =
      readMembers C tree ms (entryOf C tree m).isNone
        ((entryOf C tree m).elim w (fun e => w.entryPutRaw e.1 e.2)) := by
  cases hkey : C.decodeHex256 m.1 with
  | none => simp [readMembers, entryOf, hkey]
  | some key =>
      cases htext : tree.text m.1 with
      | none => exact absurd ⟨by rw [hkey]; exact Option.some_ne_none key, htext⟩ hm
      | some text =>
          cases hvalue : C.decodeHex256 text with
          | none => simp [readMembers, entryOf, hkey, htext, hvalue, demand]
          | some value => simp [readMembers, entryOf, hkey, htext, hvalue, demand]

theorem readMembers_throws (hm : m ∈ ms) (ht : Throws C tree m) (init : Bool) (w : WalletStore)
    (r : Bool × WalletStore) : readMembers C tree ms init w ≠ .ok r := by
  induction ms generalizing init w with
  | nil => cases hm
  | cons x ms ih =>
      by_cases hx : Throws C tree x
      · obtain ⟨key, hkey⟩ := Option.ne_none_iff_exists'.mp hx.1
        rw [readMembers, hkey, hx.2]
        intro h
        cases h
      · rw [readMembers_cons hx]
        rcases List.mem_cons.mp hm with rfl | hm
        · exact absurd ht hx
        · exact ih hm _ _

/-- All the entries are written; the flag is the last member's. -/
theorem readMembers_eq (hms : ∀ m ∈ ms, ¬ Throws C tree m) (init : Bool) (w : WalletStore) :
    readMembers C tree ms init w =
      .ok (ms.getLast?.elim init (fun m => (entryOf C tree m).isNone),
        { w with entries :=
            (ms.filterMap (entryOf C tree)).foldl (fun t e => t.put e.1 e.2) w.entries }) := by
  induction ms generalizing init w with
  | nil => rfl
  | cons m ms ih =>
      rw [readMembers_cons (hms m List.mem_cons_self),
        ih (fun x hx => hms x (List.mem_cons_of_mem m hx)), List.getLast?_cons, Option.elim_some,
        List.filterMap_cons]
      -- the flag of this member stays only if no other follows
      cases hentry : entryOf C tree m with
      | none =>
          cases ms.getLast? with
          | none => simp [hentry]
          | some last => rfl
      | some e =>
          cases ms.getLast? with
          | none => simp [hentry, WalletStore.entryPutRaw]
          | some last => rfl

theorem lacks_eq_false {q : Key} : lacks w q = false ↔ w.stored q ≠ none := by
  unfold lacks WalletStore.stored
  rw [Option.isNone_eq_false_iff, Option.isSome_iff_ne_none, ne_eq, ne_eq, Option.map_eq_none_iff]

def Whole (w : WalletStore) : Prop := ∀ q ∈ specials, w.stored q ≠ none

theorem incomplete_eq_false : incomplete w = false ↔ Whole w := by
  simp only [incomplete, Bool.or_eq_false_iff, lacks_eq_false, Whole, specials,
    List.forall_mem_cons]
  tauto

theorem whole_ofEntries {l : List (Key × WalletValue)} {fan : Fan} :
    Whole ⟨Table.ofEntries l, fan⟩ ↔ ∀ q ∈ specials, ∃ v, (q, v) ∈ l := by
  refine forall₂_congr fun q _ => ?_
  rw [stored_ne_none_iff]
  constructor
  · intro h
    obtain ⟨v, hv⟩ := h
    exact ⟨v, Table.mem_of_get_ofEntries hv⟩
  · intro h
    obtain ⟨v, hv⟩ := h
    exact Table.exists_get_ofEntries hv

def lastFlag (C : Codec) (tree : Ptree) : Bool :=
  tree.children.getLast?.elim false (fun m => (entryOf C tree m).isNone)

theorem lastFlag_eq_false :
    lastFlag C tree = false ↔ ∀ m ∈ tree.children.getLast?, entryOf C tree m ≠ none := by
  unfold lastFlag
  cases tree.children.getLast? with
  | none => simp
  | some m => simp [Option.isSome_iff_ne_none]

/-- The trees that the constructor accepts into a new table: every name that can be read is found,
the last member can be read, and the fixed entries are among those read. -/
structure Accepted (C : Codec) (tree : Ptree) : Prop where
  found : ∀ m ∈ tree.children, ¬ Throws C tree m
  last : ∀ m ∈ tree.children.getLast?, entryOf C tree m ≠ none
  fixed : ∀ q ∈ specials, ∃ v, (q, v) ∈ entriesOf C tree

def walletOf (C : Codec) (shares : List Key) (tree : Ptree) : WalletStore :=
  ⟨Table.ofEntries (entriesOf C tree), (Fan.new 0 shares).valueSet 0⟩

theorem constructJson_of_found {shares : List Key}
    (hfound : ∀ m ∈ tree.children, ¬ Throws C tree m) :
    constructJson C ∅ shares tree =
      .ok (lastFlag C tree || incomplete (walletOf C shares tree), walletOf C shares tree) := by
  have hnew : require ((∅ : Table Key WalletValue).get versionSpecial = none) BackupFault.newTable =
      .ok ⟨⟩ := require_of rfl _
  rw [constructJson, hnew, ok_bind, readMembers_eq hfound, ok_bind]
  rfl

theorem constructJson_eq_ok {shares : List Key} :
    constructJson C ∅ shares tree = .ok (false, u) ↔
      Accepted C tree ∧ u = walletOf C shares tree := by
  by_cases hfound : ∀ m ∈ tree.children, ¬ Throws C tree m
  · rw [constructJson_of_found hfound, Except.ok.injEq, Prod.mk.injEq, Bool.or_eq_false_iff,
      lastFlag_eq_false, incomplete_eq_false, walletOf, whole_ofEntries]
    constructor
    · intro h
      exact ⟨⟨hfound, h.1.1, h.1.2⟩, h.2.symm⟩
    · intro h
      exact ⟨⟨h.1.last, h.1.fixed⟩, h.2.symm⟩
  · constructor
    · intro h
      refine absurd ?_ hfound
      intro m hm ht
      obtain ⟨_, _, h⟩ := bind_eq_ok.mp h
      obtain ⟨r, hr, _⟩ := bind_eq_ok.mp h
      exact readMembers_throws hm ht _ _ _ hr
    · intro h
      exact absurd h.1.found hfound

section Restore

theorem construct_whole (E : WalletEnv) (draws : Draws) :
    Whole (WalletStore.construct E ∅ draws) := by
  intro q hq
  simp only [specials, List.mem_cons, List.not_mem_nil, or_false] at hq
  rcases hq with rfl | rfl | rfl | rfl | rfl
  all_goals
    intro h
    cases h

theorem written_none {a : Action} {p : Key} (h : written E w a = some (p, none)) :
    a = .erase p := by
  cases a with
  | erase pub =>
      cases h
      rfl
  | rekey password =>
      unfold written at h
      split_ifs at h
      cases h
  | insert prv => cases h
  | representativeSet account => cases h
  | enterPassword password => cases h
  | workPut pub work => cases h
  | reopen draws => cases h

theorem Whole.step {a : Action} (hw : Whole w) (hord : Ordinary E a) (h : Step E w a w') :
    Whole w' := by
  have hversion : w.stored versionSpecial ≠ none := hw versionSpecial (by simp [specials])
  intro q hq
  rw [step_stored hversion h]
  cases hwritten : written E w a with
  | none => exact hw q hq
  | some x =>
      rw [Option.elim_some, Function.update_apply]
      split_ifs with hx
      · intro hnone
        have herase : a = .erase q := written_none (by rw [hwritten, hx, ← hnone])
        rw [herase] at hord
        exact hord hq
      · exact hw q hq

/-- The wallets in use are whole. -/
theorem opened_whole {draws : Draws} {as : List Action} (h : Opened E draws as w) : Whole w := by
  refine h.invariant (I := fun _ u => Whole u) (construct_whole E draws) ?_
  intro _ t a u ht hstep
  exact ht.step hstep.1 hstep.2

/-- The entry that a backup keeps of an entry: the work value is lost. -/
def withoutWork (v : WalletValue) : WalletValue := ⟨v.key, 0⟩

section Written
variable (hC : Hexadecimal C) (w : WalletStore)

theorem plain_texts : ∀ m ∈ w.entries.entries.map entryTexts, Ptree.Plain m.1 := by
  intro m hm
  obtain ⟨e, _, rfl⟩ := List.mem_map.mp hm
  exact plain_encodeHex 64 e.1

include hC

theorem encodeHex256_injective : Function.Injective encodeHex256 := by
  intro x y h
  have hx := decodeHex256_encodeHex hC x
  rw [h, decodeHex256_encodeHex hC y] at hx
  exact (Option.some.inj hx).symm

theorem nodup_texts : ((w.entries.entries.map entryTexts).map Prod.fst).Nodup := by
  have hkeys := w.entries.nodup_keys.map (encodeHex256_injective hC)
  rw [List.map_map] at hkeys ⊢
  exact hkeys

theorem children_serializeJson : (serializeJson w).children =
    (w.entries.entries.map entryTexts).map (fun m => (m.1, .node m.2 [])) := by
  rw [serializeJson, Ptree.ofTexts_eq (plain_texts w)]
  exact PropertyTree.Tree.children_ofPairs (nodup_texts hC w)

theorem entryOf_serializeJson {e : Key × WalletValue} (he : e ∈ w.entries.entries) (c : Ptree) :
    entryOf C (serializeJson w) ((entryTexts e).1, c) = some (e.1, withoutWork e.2) := by
  have htext : (serializeJson w).text (entryTexts e).1 = some (entryTexts e).2 :=
    Ptree.text_ofTexts (plain_texts w) (nodup_texts hC w) (List.mem_map_of_mem he)
  unfold entryOf
  rw [htext]
  simp only [entryTexts, decodeHex256_encodeHex hC, Option.bind_eq_bind, Option.bind_some,
    Option.pure_def, withoutWork]

theorem entriesOf_serializeJson :
    entriesOf C (serializeJson w) = (w.entries.mapValues withoutWork).entries := by
  unfold entriesOf
  rw [children_serializeJson hC, List.map_map, List.filterMap_map]
  show _ = w.entries.entries.map (fun e => (e.1, withoutWork e.2))
  rw [← List.filterMap_eq_map]
  refine List.filterMap_congr fun e he => ?_
  exact entryOf_serializeJson hC w he _

theorem accepted_serializeJson (hw : Whole w) : Accepted C (serializeJson w) := by
  have hread : ∀ m ∈ (serializeJson w).children, entryOf C (serializeJson w) m ≠ none := by
    intro m hm
    rw [children_serializeJson hC, List.map_map] at hm
    obtain ⟨e, he, rfl⟩ := List.mem_map.mp hm
    rw [Function.comp_apply, entryOf_serializeJson hC w he]
    exact Option.some_ne_none _
  refine ⟨?_, fun m hm => hread m (List.mem_of_getLast? hm), ?_⟩
  · intro m hm ht
    refine hread m hm ?_
    unfold entryOf
    cases C.decodeHex256 m.1 with
    | none => rfl
    | some key => simp [ht.2]
  · intro q hq
    obtain ⟨v, hv⟩ := stored_ne_none_iff.mp (hw q hq)
    refine ⟨withoutWork v, ?_⟩
    rw [entriesOf_serializeJson hC, Table.mem_entries, Table.get_mapValues, hv, Option.map_some]

end Written

theorem answers_same (hs : u.stored = w.stored) (hp : u.password.value = w.password.value) :
    u.validPassword E = w.validPassword E ∧
      ∀ q prv, u.fetch E q prv = w.fetch E q prv := by
  obtain ⟨hkey, hsalt⟩ := reads_same (E := E) (fun q _ => congrFun hs q) hp
  constructor
  · unfold WalletStore.validPassword WalletStore.check
    rw [hkey, hsalt, entryGetRaw_key, entryGetRaw_key, hs]
  · intro q prv
    unfold WalletStore.fetch
    dsimp only
    rw [hkey, hsalt, entryGetRaw_key, entryGetRaw_key, hs]

/-- A backup restores the wallet, without the work values. -/
theorem backup_restores (hC : Hexadecimal C) (w : WalletStore) (hw : Whole w)
    (shares : List Key) :
    ∃ u, constructJson C ∅ shares (serializeJson w) = .ok (false, u) ∧
      (∀ q, u.entries.get q = (w.entries.get q).map withoutWork) ∧
      ∀ E password,
        (u.enterPassword E password).validPassword E =
            (w.enterPassword E password).validPassword E ∧
          ∀ q prv, (u.enterPassword E password).fetch E q prv =
            (w.enterPassword E password).fetch E q prv := by
  refine ⟨walletOf C shares (serializeJson w),
    constructJson_eq_ok.mpr ⟨accepted_serializeJson hC w hw, rfl⟩, ?_⟩
  have hget : ∀ q, (walletOf C shares (serializeJson w)).entries.get q =
      (w.entries.get q).map withoutWork := by
    intro q
    rw [walletOf, entriesOf_serializeJson hC, Table.ofEntries_entries, Table.get_mapValues]
  refine ⟨hget, fun E password => ?_⟩
  have hstored : (walletOf C shares (serializeJson w)).stored = w.stored := by
    funext q
    unfold WalletStore.stored
    rw [hget, Option.map_map]
    rfl
  have hsalt : (walletOf C shares (serializeJson w)).salt = w.salt := by
    unfold WalletStore.salt
    rw [entryGetRaw_key, entryGetRaw_key, hstored]
  refine answers_same hstored ?_
  unfold WalletStore.enterPassword WalletStore.deriveKey
  rw [fan_value_valueSet, fan_value_valueSet, hsalt]

/-- A wallet with one account. -/
theorem backup_restores_one :
    ∃ u, constructJson numeralCodec ∅ [] (serializeJson oneWallet) = .ok (false, u) ∧
      ∀ q, u.entries.get q = (oneWallet.entries.get q).map withoutWork := by
  have hw : Whole oneWallet :=
    (construct_whole movingWallet sampleDraws).step (a := .insert 1)
      (movingWallet_separate 1) rfl
  obtain ⟨u, hu, hget, _⟩ := backup_restores numeralCodec_hexadecimal oneWallet hw []
  exact ⟨u, hu, hget⟩

end Restore

section Damaged

def Imported (C : Codec) (u : WalletStore) (m : Text × Ptree) : Prop :=
  ∃ key value, C.decodeHex256 m.1 = some key ∧ C.decodeHex256 m.2.data = some value ∧
    u.entries.get key = some ⟨value, 0⟩

/-- Success means that every member was imported. -/
def NeverSilent (C : Codec) (shares : List Key) (tree : Ptree) : Prop :=
  ∀ u, constructJson C ∅ shares tree = .ok (false, u) → ∀ m ∈ tree.children, Imported C u m

/-- Every member can be read, and its value is the one read last for its key. -/
def Clean (C : Codec) (tree : Ptree) : Prop :=
  ∀ m ∈ tree.children, ∃ key value, C.decodeHex256 m.1 = some key ∧
    C.decodeHex256 m.2.data = some value ∧
    ((entriesOf C tree).filter (fun e => e.1 = key)).getLast? = some (key, ⟨value, 0⟩)

theorem imported_iff (shares : List Key) :
    (∀ m ∈ tree.children, Imported C (walletOf C shares tree) m) ↔ Clean C tree := by
  unfold Imported Clean walletOf
  simp only [Table.get_ofEntries_eq_some]

/-- A damaged backup is imported silently whenever its last member and the fixed entries can be
read. -/
theorem never_silent_iff (C : Codec) (shares : List Key) (tree : Ptree) :
    NeverSilent C shares tree ↔ (Accepted C tree → Clean C tree) := by
  constructor
  · intro h haccepted
    exact (imported_iff shares).mp (h _ (constructJson_eq_ok.mpr ⟨haccepted, rfl⟩))
  · intro h u hu
    obtain ⟨haccepted, rfl⟩ := constructJson_eq_ok.mp hu
    exact (imported_iff shares).mpr (h haccepted)

def inFront (m : Text × Ptree) (tree : Ptree) : Ptree := .node tree.data (m :: tree.children)

theorem text_inFront {name : Text} (hname : Ptree.Plain name) (hm : m.1 ≠ name) :
    (inFront m tree).text name = tree.text name := by
  rw [Ptree.text_plain _ hname, Ptree.text_plain _ hname, PropertyTree.Tree.get_single,
    PropertyTree.Tree.get_single]
  show (List.find? _ (m :: tree.children)).map _ = _
  rw [List.find?_cons_of_neg (by simpa using hm)]

/-- A member that cannot be read, in front of a backup that is accepted, is passed over. -/
theorem accepted_inFront (h : Accepted C tree) (hplain : ∀ x ∈ tree.children, Ptree.Plain x.1)
    (hm : C.decodeHex256 m.1 = none) : Accepted C (inFront m tree) := by
  have htext : ∀ x ∈ tree.children, C.decodeHex256 x.1 ≠ none →
      (inFront m tree).text x.1 = tree.text x.1 := by
    intro x hx hread
    refine text_inFront (hplain x hx) (fun hname => hread ?_)
    rw [← hname]
    exact hm
  have hentry : ∀ x ∈ tree.children, entryOf C (inFront m tree) x = entryOf C tree x := by
    intro x hx
    unfold entryOf
    cases hkey : C.decodeHex256 x.1 with
    | none => rfl
    | some key => rw [htext x hx (by rw [hkey]; exact Option.some_ne_none key)]
  have hentries : entriesOf C (inFront m tree) = entriesOf C tree := by
    have hnone : entryOf C (inFront m tree) m = none := by simp [entryOf, hm]
    show List.filterMap _ (m :: tree.children) = _
    rw [List.filterMap_cons_none hnone]
    exact List.filterMap_congr hentry
  refine ⟨?_, ?_, hentries ▸ h.fixed⟩
  · intro x hx ht
    rcases List.mem_cons.mp hx with rfl | hx
    · exact ht.1 hm
    · exact h.found x hx ⟨ht.1, htext x hx ht.1 ▸ ht.2⟩
  · -- the tree has members, or the fixed entries were not found
    intro x hx
    cases hlast : tree.children.getLast? with
    | none =>
        obtain ⟨v, hv⟩ := h.fixed versionSpecial (by simp [specials])
        rw [entriesOf, List.getLast?_eq_none_iff.mp hlast] at hv
        cases hv
    | some y =>
        have hxy : x = y := by
          have hlast' : (inFront m tree).children.getLast? = some y := by
            show (m :: tree.children).getLast? = some y
            rw [List.getLast?_cons, hlast, Option.getD_some]
          exact Option.some.inj (hx.symm.trans hlast')
        rw [hxy, hentry y (List.mem_of_getLast? hlast)]
        exact h.last y hlast

def strayMember : Text × Ptree := (bytes "key", .node (bytes "value") [])

theorem strayMember_unread : numeralCodec.decodeHex256 strayMember.1 = none := by decide +kernel

/-- The backup of a new wallet is imported without an error though it has a member that is no
entry. -/
theorem damaged_imported_silently :
    ¬ NeverSilent numeralCodec [] (inFront strayMember (serializeJson emptyWallet)) := by
  have hplain : ∀ x ∈ (serializeJson emptyWallet).children, Ptree.Plain x.1 := by
    intro x hx
    rw [children_serializeJson numeralCodec_hexadecimal] at hx
    obtain ⟨y, hy, rfl⟩ := List.mem_map.mp hx
    exact plain_texts emptyWallet y hy
  have haccepted := accepted_inFront (accepted_serializeJson numeralCodec_hexadecimal emptyWallet
    (construct_whole movingWallet sampleDraws)) hplain strayMember_unread
  intro h
  obtain ⟨key, _, hkey, _⟩ := h _ (constructJson_eq_ok.mpr ⟨haccepted, rfl⟩) strayMember
    List.mem_cons_self
  rw [strayMember_unread] at hkey
  cases hkey

end Damaged

end PaperNode.WalletBackup
