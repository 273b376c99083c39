import PaperNode.Blocks
import PaperNode.BoundedRecursion
import PaperNode.TextFields

/-!
# Blocks as JSON

`serialize_json` writes the fields of a block into a property tree, hashes and amounts in
hexadecimal and accounts in base 58. There are two readers for each class of block: the
constructor that `deserialize_block_json` calls, and the member function `deserialize_json`,
which overwrites a block. A reader that fails gives no block; what it has written by then is
not kept.
-/
namespace PaperNode.BlockJson
open Base58 Blocks BoundedRecursion TextFields TextFields.Codec

variable (C : Codec)

def SendBlock.fields (b : SendBlock) : List (Text × Text) :=
  [(bytes "type", bytes "send"),
    (bytes "previous", encodeHex256 b.hashables.previous),
    (bytes "destination", C.toBase58check b.hashables.destination),
    (bytes "balance", encodeHex128 b.hashables.balance),
    (bytes "work", toStringHex b.work),
    (bytes "signature", encodeHex512 b.signature)]

def ReceiveBlock.fields (b : ReceiveBlock) : List (Text × Text) :=
  [(bytes "type", bytes "receive"),
    (bytes "previous", encodeHex256 b.hashables.previous),
    (bytes "source", encodeHex256 b.hashables.source),
    (bytes "work", toStringHex b.work),
    (bytes "signature", encodeHex512 b.signature)]

def OpenBlock.fields (b : OpenBlock) : List (Text × Text) :=
  [(bytes "type", bytes "open"),
    (bytes "source", encodeHex256 b.hashables.source),
    (bytes "representative", C.toBase58check b.hashables.representative),
    (bytes "account", C.toBase58check b.hashables.account),
    (bytes "work", toStringHex b.work),
    (bytes "signature", encodeHex512 b.signature)]

def ChangeBlock.fields (b : ChangeBlock) : List (Text × Text) :=
  [(bytes "type", bytes "change"),
    (bytes "previous", encodeHex256 b.hashables.previous),
    (bytes "representative", C.toBase58check b.hashables.representative),
    (bytes "work", toStringHex b.work),
    (bytes "signature", encodeHex512 b.signature)]

def fields : Block → List (Text × Text)
  | .sendBlock b => SendBlock.fields C b
  | .receiveBlock b => ReceiveBlock.fields b
  | .openBlock b => OpenBlock.fields C b
  | .changeBlock b => ChangeBlock.fields C b

def serializeJson (b : Block) : Ptree := Ptree.ofTexts (fields C b)

/-- The names are the same for every block of a type. -/
def names : BlockType → List Text
  | .sendBlock => [bytes "type", bytes "previous", bytes "destination", bytes "balance",
      bytes "work", bytes "signature"]
  | .receiveBlock => [bytes "type", bytes "previous", bytes "source", bytes "work",
      bytes "signature"]
  | .openBlock => [bytes "type", bytes "source", bytes "representative", bytes "account",
      bytes "work", bytes "signature"]
  | .changeBlock => [bytes "type", bytes "previous", bytes "representative", bytes "work",
      bytes "signature"]
  | .invalid => []
  | .notABlock => []

theorem map_fst_fields (b : Block) : (fields C b).map Prod.fst = names b.type := by
  cases b <;> rfl

theorem nodup_names (t : BlockType) : (names t).Nodup := by
  cases t <;> decide

theorem plain_names (t : BlockType) : ∀ n ∈ names t, n ≠ [] ∧ 46 ∉ n := by
  cases t <;> decide

theorem text_serializeJson (b : Block) :
    ∀ m ∈ fields C b, (serializeJson C b).text m.1 = some m.2 := by
  intro m hm
  have hplain : ∀ m ∈ fields C b, Ptree.Plain m.1 := by
    intro m hm
    exact plain_names b.type m.1 (map_fst_fields C b ▸ List.mem_map_of_mem hm)
  have hnodup : ((fields C b).map Prod.fst).Nodup := map_fst_fields C b ▸ nodup_names b.type
  exact Ptree.text_ofTexts hplain hnodup hm

def readSendHashables (tree : Ptree) : Option SendHashables := do
  let previousText ← tree.text (bytes "previous")
  let destinationText ← tree.text (bytes "destination")
  let balanceText ← tree.text (bytes "balance")
  let previous ← C.decodeHex256 previousText
  let destination ← C.fromBase58check destinationText
  let balance ← C.decodeHex128 balanceText
  return ⟨previous, destination, balance⟩

def readSendBlock (tree : Ptree) : Option SendBlock := do
  let hashables ← readSendHashables C tree
  let signatureText ← tree.text (bytes "signature")
  let workText ← tree.text (bytes "work")
  let signature ← C.decodeHex512 signatureText
  let work ← C.fromStringHex workText
  return ⟨hashables, signature, work⟩

def readReceiveHashables (tree : Ptree) : Option ReceiveHashables := do
  let previousText ← tree.text (bytes "previous")
  let sourceText ← tree.text (bytes "source")
  let previous ← C.decodeHex256 previousText
  let source ← C.decodeHex256 sourceText
  return ⟨previous, source⟩

def readReceiveBlock (tree : Ptree) : Option ReceiveBlock := do
  let hashables ← readReceiveHashables C tree
  let signatureText ← tree.text (bytes "signature")
  let workText ← tree.text (bytes "work")
  let signature ← C.decodeHex512 signatureText
  let work ← C.fromStringHex workText
  return ⟨hashables, signature, work⟩

def readOpenHashables (tree : Ptree) : Option OpenHashables := do
  let sourceText ← tree.text (bytes "source")
  let representativeText ← tree.text (bytes "representative")
  let accountText ← tree.text (bytes "account")
  let source ← C.decodeHex256 sourceText
  let representative ← C.fromBase58check representativeText
  let account ← C.fromBase58check accountText
  return ⟨source, representative, account⟩

/-- Opens and changes read the work before the signature. -/
def readOpenBlock (tree : Ptree) : Option OpenBlock := do
  let hashables ← readOpenHashables C tree
  let workText ← tree.text (bytes "work")
  let signatureText ← tree.text (bytes "signature")
  let work ← C.fromStringHex workText
  let signature ← C.decodeHex512 signatureText
  return ⟨hashables, signature, work⟩

def readChangeHashables (tree : Ptree) : Option ChangeHashables := do
  let previousText ← tree.text (bytes "previous")
  let representativeText ← tree.text (bytes "representative")
  let previous ← C.decodeHex256 previousText
  let representative ← C.fromBase58check representativeText
  return ⟨previous, representative⟩

def readChangeBlock (tree : Ptree) : Option ChangeBlock := do
  let hashables ← readChangeHashables C tree
  let workText ← tree.text (bytes "work")
  let signatureText ← tree.text (bytes "signature")
  let work ← C.fromStringHex workText
  let signature ← C.decodeHex512 signatureText
  return ⟨hashables, signature, work⟩

def deserializeBlockJson (tree : Ptree) : Option Block := do
  let type ← tree.text (bytes "type")
  if type = bytes "receive" then
    (readReceiveBlock C tree).map .receiveBlock
  else if type = bytes "send" then
    (readSendBlock C tree).map .sendBlock
  else if type = bytes "open" then
    (readOpenBlock C tree).map .openBlock
  else if type = bytes "change" then
    (readChangeBlock C tree).map .changeBlock
  else
    none

section RoundTrip
variable {C} (hC : Hexadecimal C)
include hC

theorem readSendBlock_serializeJson (b : SendBlock) :
    readSendBlock C (serializeJson C (.sendBlock b)) = some b := by
  have htexts := text_serializeJson C (.sendBlock b)
  simp only [fields, SendBlock.fields, List.forall_mem_cons] at htexts
  obtain ⟨_, hprevious, hdestination, hbalance, hwork, hsignature, _⟩ := htexts
  simp only [readSendBlock, readSendHashables, hprevious, hdestination, hbalance, hwork, hsignature,
    decodeHex256_encodeHex hC, decodeHex128_encodeHex hC, decodeHex512_encodeHex hC,
    fromStringHex_toStringHex hC, fromBase58check_toBase58check, Option.bind_eq_bind,
    Option.bind_some, Option.pure_def]

theorem readReceiveBlock_serializeJson (b : ReceiveBlock) :
    readReceiveBlock C (serializeJson C (.receiveBlock b)) = some b := by
  have htexts := text_serializeJson C (.receiveBlock b)
  simp only [fields, ReceiveBlock.fields, List.forall_mem_cons] at htexts
  obtain ⟨_, hprevious, hsource, hwork, hsignature, _⟩ := htexts
  simp only [readReceiveBlock, readReceiveHashables, hprevious, hsource, hwork, hsignature,
    decodeHex256_encodeHex hC, decodeHex512_encodeHex hC, fromStringHex_toStringHex hC,
    Option.bind_eq_bind, Option.bind_some, Option.pure_def]

theorem readOpenBlock_serializeJson (b : OpenBlock) :
    readOpenBlock C (serializeJson C (.openBlock b)) = some b := by
  have htexts := text_serializeJson C (.openBlock b)
  simp only [fields, OpenBlock.fields, List.forall_mem_cons] at htexts
  obtain ⟨_, hsource, hrepresentative, haccount, hwork, hsignature, _⟩ := htexts
  simp only [readOpenBlock, readOpenHashables, hsource, hrepresentative, haccount, hwork,
    hsignature, decodeHex256_encodeHex hC, decodeHex512_encodeHex hC, fromStringHex_toStringHex hC,
    fromBase58check_toBase58check, Option.bind_eq_bind, Option.bind_some, Option.pure_def]

theorem readChangeBlock_serializeJson (b : ChangeBlock) :
    readChangeBlock C (serializeJson C (.changeBlock b)) = some b := by
  have htexts := text_serializeJson C (.changeBlock b)
  simp only [fields, ChangeBlock.fields, List.forall_mem_cons] at htexts
  obtain ⟨_, hprevious, hrepresentative, hwork, hsignature, _⟩ := htexts
  simp only [readChangeBlock, readChangeHashables, hprevious, hrepresentative, hwork, hsignature,
    decodeHex256_encodeHex hC, decodeHex512_encodeHex hC, fromStringHex_toStringHex hC,
    fromBase58check_toBase58check, Option.bind_eq_bind, Option.bind_some, Option.pure_def]

/-- Reading the tree that a block was written to gives the block. -/
theorem deserializeBlockJson_serializeJson (b : Block) :
    deserializeBlockJson C (serializeJson C b) = some b := by
  have htexts := text_serializeJson C b
  cases b with
  | sendBlock b =>
      have htype := htexts (bytes "type", bytes "send") List.mem_cons_self
      rw [deserializeBlockJson, htype, Option.bind_eq_bind, Option.bind_some, if_neg (by decide),
        if_pos rfl, readSendBlock_serializeJson hC, Option.map_some]
  | receiveBlock b =>
      have htype := htexts (bytes "type", bytes "receive") List.mem_cons_self
      rw [deserializeBlockJson, htype, Option.bind_eq_bind, Option.bind_some, if_pos rfl,
        readReceiveBlock_serializeJson hC, Option.map_some]
  | openBlock b =>
      have htype := htexts (bytes "type", bytes "open") List.mem_cons_self
      rw [deserializeBlockJson, htype, Option.bind_eq_bind, Option.bind_some, if_neg (by decide),
        if_neg (by decide), if_pos rfl, readOpenBlock_serializeJson hC, Option.map_some]
  | changeBlock b =>
      have htype := htexts (bytes "type", bytes "change") List.mem_cons_self
      rw [deserializeBlockJson, htype, Option.bind_eq_bind, Option.bind_some, if_neg (by decide),
        if_neg (by decide), if_neg (by decide), if_pos rfl, readChangeBlock_serializeJson hC,
        Option.map_some]

end RoundTrip

/-- A change block with leading zeros in every field. -/
theorem deserializeBlockJson_serializeJson_change :
    deserializeBlockJson numeralCodec
        (serializeJson numeralCodec (.changeBlock ⟨⟨1, 2⟩, 3, 4⟩)) =
      some (.changeBlock ⟨⟨1, 2⟩, 3, 4⟩) :=
  deserializeBlockJson_serializeJson numeralCodec_hexadecimal _

/-- The member functions assert that the tree is of their type. -/
inductive JsonAssertion where
  | typeMatches
  deriving DecidableEq, Repr

/-- A tree without a type is an error like every other missing text. -/
def ofType {α : Type} (tree : Ptree) (name : Text) (read : Option α) :
    Check JsonAssertion (Option α) :=
  match tree.text (bytes "type") with
  | none => .ok none
  | some type => do
      require (type = name) .typeMatches
      return read

def SendBlock.deserializeJson (tree : Ptree) : Check JsonAssertion (Option SendBlock) :=
  ofType tree (bytes "send") do
    let previousText ← tree.text (bytes "previous")
    let destinationText ← tree.text (bytes "destination")
    let balanceText ← tree.text (bytes "balance")
    let workText ← tree.text (bytes "work")
    let signatureText ← tree.text (bytes "signature")
    let previous ← C.decodeHex256 previousText
    let destination ← C.fromBase58check destinationText
    let balance ← C.decodeHex128 balanceText
    let work ← C.fromStringHex workText
    let signature ← C.decodeHex512 signatureText
    return ⟨⟨previous, destination, balance⟩, signature, work⟩

def ReceiveBlock.deserializeJson (tree : Ptree) : Check JsonAssertion (Option ReceiveBlock) :=
  ofType tree (bytes "receive") do
    let previousText ← tree.text (bytes "previous")
    let sourceText ← tree.text (bytes "source")
    let workText ← tree.text (bytes "work")
    let signatureText ← tree.text (bytes "signature")
    let previous ← C.decodeHex256 previousText
    let source ← C.decodeHex256 sourceText
    let work ← C.fromStringHex workText
    let signature ← C.decodeHex512 signatureText
    return ⟨⟨previous, source⟩, signature, work⟩

/-- The accounts are read in hexadecimal. -/
def OpenBlock.deserializeJson (tree : Ptree) : Check JsonAssertion (Option OpenBlock) :=
  ofType tree (bytes "open") do
    let sourceText ← tree.text (bytes "source")
    let representativeText ← tree.text (bytes "representative")
    let accountText ← tree.text (bytes "account")
    let workText ← tree.text (bytes "work")
    let signatureText ← tree.text (bytes "signature")
    let source ← C.decodeHex256 sourceText
    let representative ← C.decodeHex256 representativeText
    let account ← C.decodeHex256 accountText
    let work ← C.fromStringHex workText
    let signature ← C.decodeHex512 signatureText
    return ⟨⟨source, representative, account⟩, signature, work⟩

/-- The representative is read in hexadecimal. -/
def ChangeBlock.deserializeJson (tree : Ptree) : Check JsonAssertion (Option ChangeBlock) :=
  ofType tree (bytes "change") do
    let previousText ← tree.text (bytes "previous")
    let representativeText ← tree.text (bytes "representative")
    let workText ← tree.text (bytes "work")
    let signatureText ← tree.text (bytes "signature")
    let previous ← C.decodeHex256 previousText
    let representative ← C.decodeHex256 representativeText
    let work ← C.fromStringHex workText
    let signature ← C.decodeHex512 signatureText
    return ⟨⟨previous, representative⟩, signature, work⟩

def field {α : Type} (tree : Ptree) (name : Text) (decode : Text → Option α) : Option α :=
  (tree.text name).bind decode

def accounts (tree : Ptree) (decode : Text → Option Account) : Option (Account × Account) := do
  let representative ← field tree (bytes "representative") decode
  let account ← field tree (bytes "account") decode
  return (representative, account)

/-- What every block has: a hash under some name, the work and the signature. -/
def Common (tree : Ptree) (name : Text) (hash : BlockHash) (work : Word64)
    (signature : Signature) : Prop :=
  field tree name C.decodeHex256 = some hash ∧
    field tree (bytes "work") C.fromStringHex = some work ∧
    field tree (bytes "signature") C.decodeHex512 = some signature

/-- A tree has the fields of a block. The accounts of opens and changes are under a reading of
accounts. -/
def SendBlock.In (tree : Ptree) (b : SendBlock) : Prop :=
  Common C tree (bytes "previous") b.hashables.previous b.work b.signature ∧
    field tree (bytes "destination") C.fromBase58check = some b.hashables.destination ∧
    field tree (bytes "balance") C.decodeHex128 = some b.hashables.balance

def ReceiveBlock.In (tree : Ptree) (b : ReceiveBlock) : Prop :=
  Common C tree (bytes "previous") b.hashables.previous b.work b.signature ∧
    field tree (bytes "source") C.decodeHex256 = some b.hashables.source

def OpenBlock.In (decode : Text → Option Account) (tree : Ptree) (b : OpenBlock) : Prop :=
  Common C tree (bytes "source") b.hashables.source b.work b.signature ∧
    accounts tree decode = some (b.hashables.representative, b.hashables.account)

def ChangeBlock.In (decode : Text → Option Account) (tree : Ptree) (b : ChangeBlock) : Prop :=
  Common C tree (bytes "previous") b.hashables.previous b.work b.signature ∧
    field tree (bytes "representative") decode = some b.hashables.representative

section Accepted
variable {C} {tree : Ptree}

theorem read_eq_some {α β : Type} {x : Option α} {f : α → Option β} {b : β} :
    (x >>= f) = some b ↔ ∃ a, x = some a ∧ f a = some b := Option.bind_eq_some_iff

theorem accounts_eq_some {decode : Text → Option Account} {r a : Account} :
    accounts tree decode = some (r, a) ↔
      field tree (bytes "representative") decode = some r ∧
        field tree (bytes "account") decode = some a := by
  unfold accounts
  simp only [read_eq_some, Option.pure_def, Option.some.injEq]
  constructor
  · rintro ⟨_, hr, _, ha, heq⟩
    cases heq
    exact ⟨hr, ha⟩
  · rintro ⟨hr, ha⟩
    exact ⟨r, hr, a, ha, rfl⟩

theorem readSendBlock_eq_some {b : SendBlock} :
    readSendBlock C tree = some b ↔ SendBlock.In C tree b := by
  rw [readSendBlock, readSendHashables]
  simp only [SendBlock.In, Common, field, Option.bind_eq_some_iff, ↓read_eq_some,
    Option.pure_def, Option.some.injEq]
  constructor
  · rintro ⟨_, ⟨p, hp, d, hd, b, hb, _, hp', _, hd', _, hb', rfl⟩,
      g, hg, w, hw, _, hg', _, hw', rfl⟩
    exact ⟨⟨⟨p, hp, hp'⟩, ⟨w, hw, hw'⟩, g, hg, hg'⟩, ⟨d, hd, hd'⟩, b, hb, hb'⟩
  · rintro ⟨⟨⟨p, hp, hp'⟩, ⟨w, hw, hw'⟩, g, hg, hg'⟩, ⟨d, hd, hd'⟩, b, hb, hb'⟩
    exact ⟨_, ⟨p, hp, d, hd, b, hb, _, hp', _, hd', _, hb', rfl⟩,
      g, hg, w, hw, _, hg', _, hw', rfl⟩

theorem readReceiveBlock_eq_some {b : ReceiveBlock} :
    readReceiveBlock C tree = some b ↔ ReceiveBlock.In C tree b := by
  rw [readReceiveBlock, readReceiveHashables]
  simp only [ReceiveBlock.In, Common, field, Option.bind_eq_some_iff, ↓read_eq_some,
    Option.pure_def, Option.some.injEq]
  constructor
  · rintro ⟨_, ⟨p, hp, s, hs, _, hp', _, hs', rfl⟩, g, hg, w, hw, _, hg', _, hw', rfl⟩
    exact ⟨⟨⟨p, hp, hp'⟩, ⟨w, hw, hw'⟩, g, hg, hg'⟩, s, hs, hs'⟩
  · rintro ⟨⟨⟨p, hp, hp'⟩, ⟨w, hw, hw'⟩, g, hg, hg'⟩, s, hs, hs'⟩
    exact ⟨_, ⟨p, hp, s, hs, _, hp', _, hs', rfl⟩, g, hg, w, hw, _, hg', _, hw', rfl⟩

theorem readOpenBlock_eq_some {b : OpenBlock} :
    readOpenBlock C tree = some b ↔ OpenBlock.In C C.fromBase58check tree b := by
  rw [readOpenBlock, readOpenHashables, OpenBlock.In, accounts_eq_some]
  simp only [Common, field, Option.bind_eq_some_iff, ↓read_eq_some,
    Option.pure_def, Option.some.injEq]
  constructor
  · rintro ⟨_, ⟨s, hs, r, hr, a, ha, _, hs', _, hr', _, ha', rfl⟩,
      w, hw, g, hg, _, hw', _, hg', rfl⟩
    exact ⟨⟨⟨s, hs, hs'⟩, ⟨w, hw, hw'⟩, g, hg, hg'⟩, ⟨r, hr, hr'⟩, a, ha, ha'⟩
  · rintro ⟨⟨⟨s, hs, hs'⟩, ⟨w, hw, hw'⟩, g, hg, hg'⟩, ⟨r, hr, hr'⟩, a, ha, ha'⟩
    exact ⟨_, ⟨s, hs, r, hr, a, ha, _, hs', _, hr', _, ha', rfl⟩,
      w, hw, g, hg, _, hw', _, hg', rfl⟩

theorem readChangeBlock_eq_some {b : ChangeBlock} :
    readChangeBlock C tree = some b ↔ ChangeBlock.In C C.fromBase58check tree b := by
  rw [readChangeBlock, readChangeHashables]
  simp only [ChangeBlock.In, Common, field, Option.bind_eq_some_iff, ↓read_eq_some,
    Option.pure_def, Option.some.injEq]
  constructor
  · rintro ⟨_, ⟨p, hp, r, hr, _, hp', _, hr', rfl⟩, w, hw, g, hg, _, hw', _, hg', rfl⟩
    exact ⟨⟨⟨p, hp, hp'⟩, ⟨w, hw, hw'⟩, g, hg, hg'⟩, r, hr, hr'⟩
  · rintro ⟨⟨⟨p, hp, hp'⟩, ⟨w, hw, hw'⟩, g, hg, hg'⟩, r, hr, hr'⟩
    exact ⟨_, ⟨p, hp, r, hr, _, hp', _, hr', rfl⟩, w, hw, g, hg, _, hw', _, hg', rfl⟩

end Accepted

def CommonReadable (tree : Ptree) (name : Text) : Prop :=
  ∃ hash work signature, Common C tree name hash work signature

section Agreement
variable {C} {tree : Ptree}

end Agreement

end PaperNode.BlockJson
