import PaperNode.BlockJson
import Mathlib.Data.List.TakeWhile

/-!
# Texts that are read as numbers

Which texts pass for the numbers of a block in JSON. Hashes are checked well. The readers of
balances and signatures let the empty text pass. The reader of the work refuses the texts of eight
characters and takes all others, because the extraction of a word reports a bad text in the state
of the stream, which is not looked at, and does not throw.
-/
namespace PaperNode.JsonNumerals
open Base58 Blocks HexNumerals TextFields TextFields.Codec BlockJson

/-- Boost throws on characters that are no digits. Where there is nothing to extract it does not
throw, and the number stays zero. -/
structure Strict (C : Codec) : Prop extends Hexadecimal C where
  throws : ∀ w t, t ≠ [] → ¬ IsNumeral t → C.extract w t = none
  empty : ∀ w, C.extract w [] = some 0

def Spells (t : Text) {w : ℕ} (x : BitVec w) : Prop := IsNumeral t ∧ value t = x.toNat

def FieldSpells (tree : Ptree) (name : Text) {w : ℕ} (x : BitVec w) : Prop :=
  ∃ t, tree.text name = some t ∧ Spells t x

/-- The numbers of a block are spelled in the tree. -/
def Spelled (tree : Ptree) : Block → Prop
  | .sendBlock b => FieldSpells tree (bytes "previous") b.hashables.previous ∧
      FieldSpells tree (bytes "work") b.work ∧ FieldSpells tree (bytes "signature") b.signature ∧
      FieldSpells tree (bytes "balance") b.hashables.balance
  | .receiveBlock b => FieldSpells tree (bytes "previous") b.hashables.previous ∧
      FieldSpells tree (bytes "work") b.work ∧ FieldSpells tree (bytes "signature") b.signature ∧
      FieldSpells tree (bytes "source") b.hashables.source
  | .openBlock b => FieldSpells tree (bytes "source") b.hashables.source ∧
      FieldSpells tree (bytes "work") b.work ∧ FieldSpells tree (bytes "signature") b.signature
  | .changeBlock b => FieldSpells tree (bytes "previous") b.hashables.previous ∧
      FieldSpells tree (bytes "work") b.work ∧ FieldSpells tree (bytes "signature") b.signature

/-- A block is accepted only with the numbers that its texts spell, and a work of up to sixteen
digits is read. -/
structure NoGarbage (C : Codec) (tree : Ptree) : Prop where
  fields : ∀ b, deserializeBlockJson C tree = some b → Spelled tree b
  work : ∀ t, tree.text (bytes "work") = some t → IsNumeral t → t.length ≤ 16 →
    C.fromStringHex t = some (BitVec.ofNat 64 (value t))

/-- The work is a numeral that a word holds, and there is a signature. -/
def Filled (tree : Ptree) : Prop :=
  (∃ t, tree.text (bytes "work") = some t ∧ IsNumeral t ∧ value t < 2 ^ 64) ∧
    tree.text (bytes "signature") ≠ some []

/-- The work does not have eight digits; and unless the block fails for another field, the work and
the signature are filled in, and so is the balance of a send. -/
structure Proper (C : Codec) (tree : Ptree) : Prop where
  work : ∀ t, tree.text (bytes "work") = some t → IsNumeral t → t.length ≠ 8
  ofSend : tree.text (bytes "type") = some (bytes "send") →
    CommonReadable C tree (bytes "previous") →
    (field tree (bytes "destination") C.fromBase58check).isSome →
    (field tree (bytes "balance") C.decodeHex128).isSome →
    Filled tree ∧ tree.text (bytes "balance") ≠ some []
  ofReceive : tree.text (bytes "type") = some (bytes "receive") →
    CommonReadable C tree (bytes "previous") →
    (field tree (bytes "source") C.decodeHex256).isSome → Filled tree
  ofOpen : tree.text (bytes "type") = some (bytes "open") →
    CommonReadable C tree (bytes "source") →
    (accounts tree C.fromBase58check).isSome → Filled tree
  ofChange : tree.text (bytes "type") = some (bytes "change") →
    CommonReadable C tree (bytes "previous") →
    (field tree (bytes "representative") C.fromBase58check).isSome → Filled tree

section Readers
variable {C : Codec} {tree : Ptree} {name t : Text} {w : ℕ} {x : BitVec w}

theorem fieldSpells_iff (h : tree.text name = some t) : FieldSpells tree name x ↔ Spells t x := by
  unfold FieldSpells
  simp only [h, Option.some.injEq, exists_eq_left']

theorem ofNat_value_eq_iff (hlt : value t < 2 ^ w) :
    BitVec.ofNat w (value t) = x ↔ value t = x.toNat := by
  constructor
  · intro h
    rw [← h, BitVec.toNat_ofNat, Nat.mod_eq_of_lt hlt]
  · intro h
    rw [h, BitVec.ofNat_toNat, BitVec.setWidth_eq]

theorem value_lt_of_length {limit : ℕ} (hbits : w = 4 * limit) (h : t.length ≤ limit) :
    value t < 2 ^ w := by
  calc value t < 16 ^ t.length := value_lt t
    _ ≤ 16 ^ limit := Nat.pow_le_pow_right (by decide) h
    _ = 2 ^ w := by rw [hbits, Nat.pow_mul]

theorem decodeHexUpTo_eq_some (hC : Strict C) {limit : ℕ} (hbits : w = 4 * limit) :
    C.decodeHexUpTo limit w t = some x ↔
      t.length ≤ limit ∧ (t = [] ∧ x = 0 ∨ Spells t x) := by
  unfold decodeHexUpTo Spells
  by_cases hlong : limit < t.length
  · simp [hlong, Nat.not_le.mpr hlong]
  · have hle : t.length ≤ limit := Nat.not_lt.mp hlong
    rw [if_neg hlong]
    by_cases hnil : t = []
    · rw [hnil, hC.empty, Option.some.injEq]
      constructor
      · intro h
        exact ⟨Nat.zero_le limit, .inl ⟨rfl, h.symm⟩⟩
      · intro h
        rcases h.2 with hempty | hspells
        · exact hempty.2.symm
        · exact absurd rfl hspells.1.1
    · by_cases hnum : IsNumeral t
      · have hlt : value t < 2 ^ w := value_lt_of_length hbits hle
        rw [hC.extract w t hnum hlt, Option.some.injEq, ofNat_value_eq_iff hlt]
        simp [hle, hnil, hnum]
      · simp [hC.throws w t hnil hnum, hnil, hnum]

theorem spells_of_decodeHex256 (hC : Strict C) {x : BitVec 256} (h : C.decodeHex256 t = some x) :
    Spells t x := by
  unfold decodeHex256 at h
  split_ifs at h with hnil
  rcases ((decodeHexUpTo_eq_some hC rfl).mp h).2 with hempty | hspells
  · exact absurd hempty.1 hnil
  · exact hspells

theorem spells_iff_of_decodeHexUpTo (hC : Strict C) {limit : ℕ} (hbits : w = 4 * limit)
    (h : C.decodeHexUpTo limit w t = some x) : Spells t x ↔ t ≠ [] := by
  constructor
  · intro hspells
    exact hspells.1.1
  · intro hnil
    rcases ((decodeHexUpTo_eq_some hC hbits).mp h).2 with hempty | hspells
    · exact absurd hempty.1 hnil
    · exact hspells

theorem spells_iff_of_fromStringHex (hC : Strict C) {x : BitVec 64}
    (h : C.fromStringHex t = some x) : Spells t x ↔ IsNumeral t ∧ value t < 2 ^ 64 := by
  constructor
  · intro hspells
    exact ⟨hspells.1, hspells.2 ▸ x.isLt⟩
  · intro hnum
    unfold fromStringHex at h
    split_ifs at h
    rw [hC.extractQword t hnum.1 hnum.2, Option.some.injEq, ofNat_value_eq_iff hnum.2] at h
    exact ⟨hnum.1, h⟩

theorem fromStringHex_iff (hC : Strict C) (hnum : IsNumeral t) (hle : t.length ≤ 16) :
    C.fromStringHex t = some (BitVec.ofNat 64 (value t)) ↔ t.length ≠ 8 := by
  unfold fromStringHex
  split_ifs with height
  · simp [height]
  · simp [height, hC.extractQword t hnum (value_lt_of_length rfl hle)]

theorem field_eq_some {α : Type} {decode : Text → Option α} {a : α} :
    field tree name decode = some a ↔ ∃ t, tree.text name = some t ∧ decode t = some a :=
  Option.bind_eq_some_iff

theorem fieldSpells_of_decodeHex256 (hC : Strict C) {x : BitVec 256}
    (h : field tree name C.decodeHex256 = some x) : FieldSpells tree name x := by
  obtain ⟨t, htext, hread⟩ := field_eq_some.mp h
  exact ⟨t, htext, spells_of_decodeHex256 hC hread⟩

theorem fieldSpells_iff_of_decodeHexUpTo (hC : Strict C) {limit : ℕ} (hbits : w = 4 * limit)
    (h : field tree name (C.decodeHexUpTo limit w) = some x) :
    FieldSpells tree name x ↔ tree.text name ≠ some [] := by
  obtain ⟨t, htext, hread⟩ := field_eq_some.mp h
  rw [fieldSpells_iff htext, spells_iff_of_decodeHexUpTo hC hbits hread, htext]
  simp

theorem common_spelled_iff (hC : Strict C) {hash : BlockHash} {work : Word64}
    {signature : Signature} (h : Common C tree name hash work signature) :
    FieldSpells tree (bytes "work") work ∧ FieldSpells tree (bytes "signature") signature ↔
      Filled tree := by
  obtain ⟨_, hwork, hsignature⟩ := h
  obtain ⟨t, htext, hread⟩ := field_eq_some.mp hwork
  rw [Filled, fieldSpells_iff htext, spells_iff_of_fromStringHex hC hread,
    fieldSpells_iff_of_decodeHexUpTo hC rfl hsignature]
  simp only [htext, Option.some.injEq, exists_eq_left']

end Readers

section Accepted
variable {C : Codec} {tree : Ptree}

theorem deserializeBlockJson_eq_some {b : Block} :
    deserializeBlockJson C tree = some b ↔
      (∃ s, tree.text (bytes "type") = some (bytes "send") ∧ SendBlock.In C tree s ∧
        b = .sendBlock s) ∨
      (∃ r, tree.text (bytes "type") = some (bytes "receive") ∧ ReceiveBlock.In C tree r ∧
        b = .receiveBlock r) ∨
      (∃ o, tree.text (bytes "type") = some (bytes "open") ∧
        OpenBlock.In C C.fromBase58check tree o ∧ b = .openBlock o) ∨
      ∃ c, tree.text (bytes "type") = some (bytes "change") ∧
        ChangeBlock.In C C.fromBase58check tree c ∧ b = .changeBlock c := by
  rw [deserializeBlockJson, read_eq_some]
  constructor
  · intro h
    obtain ⟨type, htype, h⟩ := h
    split_ifs at h with hreceive hsend hopen hchange
    · obtain ⟨r, hr, rfl⟩ := Option.map_eq_some_iff.mp h
      exact .inr (.inl ⟨r, hreceive ▸ htype, readReceiveBlock_eq_some.mp hr, rfl⟩)
    · obtain ⟨s, hs, rfl⟩ := Option.map_eq_some_iff.mp h
      exact .inl ⟨s, hsend ▸ htype, readSendBlock_eq_some.mp hs, rfl⟩
    · obtain ⟨o, ho, rfl⟩ := Option.map_eq_some_iff.mp h
      exact .inr (.inr (.inl ⟨o, hopen ▸ htype, readOpenBlock_eq_some.mp ho, rfl⟩))
    · obtain ⟨c, hc, rfl⟩ := Option.map_eq_some_iff.mp h
      exact .inr (.inr (.inr ⟨c, hchange ▸ htype, readChangeBlock_eq_some.mp hc, rfl⟩))
  · intro h
    rcases h with ⟨s, htype, hs, rfl⟩ | ⟨r, htype, hr, rfl⟩ | ⟨o, htype, ho, rfl⟩ |
      ⟨c, htype, hc, rfl⟩
    · refine ⟨_, htype, ?_⟩
      rw [if_neg (by decide), if_pos rfl, readSendBlock_eq_some.mpr hs, Option.map_some]
    · refine ⟨_, htype, ?_⟩
      rw [if_pos rfl, readReceiveBlock_eq_some.mpr hr, Option.map_some]
    · refine ⟨_, htype, ?_⟩
      rw [if_neg (by decide), if_neg (by decide), if_pos rfl, readOpenBlock_eq_some.mpr ho,
        Option.map_some]
    · refine ⟨_, htype, ?_⟩
      rw [if_neg (by decide), if_neg (by decide), if_neg (by decide), if_pos rfl,
        readChangeBlock_eq_some.mpr hc, Option.map_some]

section Strict
variable (hC : Strict C)
include hC

theorem send_spelled_iff {b : SendBlock} (h : SendBlock.In C tree b) :
    Spelled tree (.sendBlock b) ↔ Filled tree ∧ tree.text (bytes "balance") ≠ some [] := by
  obtain ⟨hcommon, _, hbalance⟩ := h
  have hprevious := fieldSpells_of_decodeHex256 hC hcommon.1
  rw [← common_spelled_iff hC hcommon, ← fieldSpells_iff_of_decodeHexUpTo hC rfl hbalance,
    and_assoc]
  exact and_iff_right hprevious

theorem receive_spelled_iff {b : ReceiveBlock} (h : ReceiveBlock.In C tree b) :
    Spelled tree (.receiveBlock b) ↔ Filled tree := by
  obtain ⟨hcommon, hsource⟩ := h
  have hprevious := fieldSpells_of_decodeHex256 hC hcommon.1
  have hspells := fieldSpells_of_decodeHex256 hC hsource
  rw [← common_spelled_iff hC hcommon, Spelled, and_iff_right hprevious, ← and_assoc]
  exact and_iff_left hspells

theorem open_spelled_iff {b : OpenBlock} (h : OpenBlock.In C C.fromBase58check tree b) :
    Spelled tree (.openBlock b) ↔ Filled tree := by
  rw [← common_spelled_iff hC h.1]
  exact and_iff_right (fieldSpells_of_decodeHex256 hC h.1.1)

theorem change_spelled_iff {b : ChangeBlock} (h : ChangeBlock.In C C.fromBase58check tree b) :
    Spelled tree (.changeBlock b) ↔ Filled tree := by
  rw [← common_spelled_iff hC h.1]
  exact and_iff_right (fieldSpells_of_decodeHex256 hC h.1.1)

theorem proper_of_noGarbage (h : NoGarbage C tree) : Proper C tree := by
  refine ⟨?_, ?_, ?_, ?_, ?_⟩
  · intro t htext hnum height
    exact (fromStringHex_iff hC hnum (height ▸ by decide)).mp
      (h.work t htext hnum (height ▸ by decide)) height
  · intro htype hcommon hdestination hbalance
    obtain ⟨hash, work, signature, hcommon⟩ := hcommon
    obtain ⟨destination, hdestination⟩ := Option.isSome_iff_exists.mp hdestination
    obtain ⟨balance, hbalance⟩ := Option.isSome_iff_exists.mp hbalance
    have hin : SendBlock.In C tree ⟨⟨hash, destination, balance⟩, signature, work⟩ :=
      ⟨hcommon, hdestination, hbalance⟩
    exact (send_spelled_iff hC hin).mp
      (h.fields _ (deserializeBlockJson_eq_some.mpr (.inl ⟨_, htype, hin, rfl⟩)))
  · intro htype hcommon hsource
    obtain ⟨hash, work, signature, hcommon⟩ := hcommon
    obtain ⟨source, hsource⟩ := Option.isSome_iff_exists.mp hsource
    have hin : ReceiveBlock.In C tree ⟨⟨hash, source⟩, signature, work⟩ := ⟨hcommon, hsource⟩
    exact (receive_spelled_iff hC hin).mp
      (h.fields _ (deserializeBlockJson_eq_some.mpr (.inr (.inl ⟨_, htype, hin, rfl⟩))))
  · intro htype hcommon haccounts
    obtain ⟨hash, work, signature, hcommon⟩ := hcommon
    obtain ⟨pair, haccounts⟩ := Option.isSome_iff_exists.mp haccounts
    have hin : OpenBlock.In C C.fromBase58check tree ⟨⟨hash, pair.1, pair.2⟩, signature, work⟩ :=
      ⟨hcommon, haccounts⟩
    exact (open_spelled_iff hC hin).mp
      (h.fields _ (deserializeBlockJson_eq_some.mpr (.inr (.inr (.inl ⟨_, htype, hin, rfl⟩)))))
  · intro htype hcommon hrepresentative
    obtain ⟨hash, work, signature, hcommon⟩ := hcommon
    obtain ⟨representative, hrepresentative⟩ := Option.isSome_iff_exists.mp hrepresentative
    have hin : ChangeBlock.In C C.fromBase58check tree ⟨⟨hash, representative⟩, signature, work⟩ :=
      ⟨hcommon, hrepresentative⟩
    exact (change_spelled_iff hC hin).mp
      (h.fields _ (deserializeBlockJson_eq_some.mpr (.inr (.inr (.inr ⟨_, htype, hin, rfl⟩)))))

theorem noGarbage_of_proper (h : Proper C tree) : NoGarbage C tree := by
  refine ⟨?_, ?_⟩
  · intro b hb
    rcases deserializeBlockJson_eq_some.mp hb with ⟨s, htype, hin, rfl⟩ | ⟨r, htype, hin, rfl⟩ |
      ⟨o, htype, hin, rfl⟩ | ⟨c, htype, hin, rfl⟩
    · exact (send_spelled_iff hC hin).mpr (h.ofSend htype ⟨_, _, _, hin.1⟩
        (Option.isSome_of_eq_some hin.2.1) (Option.isSome_of_eq_some hin.2.2))
    · exact (receive_spelled_iff hC hin).mpr (h.ofReceive htype ⟨_, _, _, hin.1⟩
        (Option.isSome_of_eq_some hin.2))
    · exact (open_spelled_iff hC hin).mpr (h.ofOpen htype ⟨_, _, _, hin.1⟩
        (Option.isSome_of_eq_some hin.2))
    · exact (change_spelled_iff hC hin).mpr (h.ofChange htype ⟨_, _, _, hin.1⟩
        (Option.isSome_of_eq_some hin.2))
  · intro t htext hnum hle
    exact (fromStringHex_iff hC hnum hle).mpr (h.work t htext hnum)

end Strict

end Accepted

/-- Garbage is kept out of exactly the proper trees. -/
theorem noGarbage_iff {C : Codec} (hC : Strict C) (tree : Ptree) :
    NoGarbage C tree ↔ Proper C tree :=
  ⟨proper_of_noGarbage hC, noGarbage_of_proper hC⟩

/-- Digits from the left, as far as they go; a number that is too large gives the largest. -/
def extractWord (t : Text) : BitVec 64 :=
  let n := value (t.takeWhile fun c => (digitValue c).isSome)
  if n < 2 ^ 64 then BitVec.ofNat 64 n else BitVec.allOnes 64

/-- Readers that reduce digits to the width and throw on other characters. -/
def streamCodec : Codec where
  extract := fun w t =>
    if t.all fun c => (digitValue c).isSome then some (BitVec.ofNat w (value t)) else none
  extractQword := extractWord
  checksum := genesisCheck
  beyond := fun _ => 0

theorem all_digits_iff {t : Text} :
    (t.all fun c => (digitValue c).isSome) = true ↔ ∀ c ∈ t, digitValue c ≠ none := by
  simp only [List.all_eq_true, Option.isSome_iff_ne_none]

theorem streamCodec_strict : Strict streamCodec where
  extract := fun _ _ ht _ => if_pos (all_digits_iff.mpr ht.2)
  extractQword := by
    intro t ht hlt
    have hall : (t.takeWhile fun c => (digitValue c).isSome) = t :=
      List.takeWhile_eq_self_iff.mpr fun c hc => Option.isSome_iff_ne_none.mpr (ht.2 c hc)
    show extractWord t = _
    unfold extractWord
    simp only [hall, hlt, if_true]
  throws := fun _ _ hnil hnum => if_neg fun hall => hnum ⟨hnil, all_digits_iff.mp hall⟩
  empty := fun _ => rfl

/-- The texts of a change block, with one of its own for the work. -/
def changeTexts (C : Codec) (b : ChangeBlock) (work : Text) : List (Text × Text) :=
  [(bytes "type", bytes "change"),
    (bytes "previous", encodeHex256 b.hashables.previous),
    (bytes "representative", C.toBase58check b.hashables.representative),
    (bytes "work", work),
    (bytes "signature", encodeHex512 b.signature)]

def changeTree (C : Codec) (b : ChangeBlock) (work : Text) : Ptree :=
  Ptree.ofTexts (changeTexts C b work)

theorem text_changeTree (C : Codec) (b : ChangeBlock) (work : Text) :
    ∀ m ∈ changeTexts C b work, (changeTree C b work).text m.1 = some m.2 := by
  have hnames : (changeTexts C b work).map Prod.fst = names .changeBlock := rfl
  intro m hm
  refine Ptree.text_ofTexts ?_ (hnames ▸ nodup_names .changeBlock) hm
  intro m hm
  exact plain_names .changeBlock m.1 (hnames ▸ List.mem_map_of_mem hm)

theorem deserializeBlockJson_changeTree {C : Codec} (hC : Hexadecimal C) (b : ChangeBlock)
    (work : Text) :
    deserializeBlockJson C (changeTree C b work) =
      (C.fromStringHex work).map fun x => .changeBlock { b with work := x } := by
  have htexts := text_changeTree C b work
  simp only [changeTexts, List.forall_mem_cons] at htexts
  obtain ⟨htype, hprevious, hrepresentative, hwork, hsignature, _⟩ := htexts
  rw [deserializeBlockJson, htype, Option.bind_eq_bind, Option.bind_some, if_neg (by decide),
    if_neg (by decide), if_neg (by decide), if_pos rfl]
  simp only [readChangeBlock, readChangeHashables, hprevious, hrepresentative, hwork, hsignature,
    decodeHex256_encodeHex hC, decodeHex512_encodeHex hC, fromBase58check_toBase58check,
    Option.bind_eq_bind, Option.bind_some, Option.pure_def]
  cases C.fromStringHex work <;> rfl

/-- A change block that is written well is read without garbage. -/
theorem noGarbage_iff_change :
    NoGarbage streamCodec (changeTree streamCodec ⟨⟨1, 2⟩, 3, 0⟩ (bytes "1f")) := by
  have htexts := text_changeTree streamCodec ⟨⟨1, 2⟩, 3, 0⟩ (bytes "1f")
  simp only [changeTexts, List.forall_mem_cons] at htexts
  obtain ⟨htype, _, _, hwork, hsignature, _⟩ := htexts
  refine (noGarbage_iff streamCodec_strict _).mpr ⟨?_, ?_, ?_, ?_, ?_⟩
  · intro t ht _
    rw [hwork] at ht
    cases ht
    decide +kernel
  · intro h
    exact absurd (htype.symm.trans h) (by decide +kernel)
  · intro h
    exact absurd (htype.symm.trans h) (by decide +kernel)
  · intro h
    exact absurd (htype.symm.trans h) (by decide +kernel)
  · intro _ _ _
    refine ⟨⟨_, hwork, by decide +kernel, by decide +kernel⟩, ?_⟩
    rw [hsignature]
    intro h
    exact padded_ne_nil _ _ (Option.some.inj h)

/-- A work that is no number is read as zero, and a good one of eight digits is refused. -/
theorem garbage_work_accepted :
    deserializeBlockJson streamCodec (changeTree streamCodec ⟨⟨1, 2⟩, 3, 4⟩ (bytes "zz")) =
      some (.changeBlock ⟨⟨1, 2⟩, 3, 0⟩) ∧
    ¬ NoGarbage streamCodec (changeTree streamCodec ⟨⟨1, 2⟩, 3, 4⟩ (bytes "zz")) ∧
    deserializeBlockJson streamCodec
      (changeTree streamCodec ⟨⟨1, 2⟩, 3, 4⟩ (bytes "0000001f")) = none ∧
    ¬ NoGarbage streamCodec (changeTree streamCodec ⟨⟨1, 2⟩, 3, 4⟩ (bytes "0000001f")) := by
  have hwork : ∀ t, (changeTree streamCodec ⟨⟨1, 2⟩, 3, 4⟩ t).text (bytes "work") = some t := by
    intro t
    exact text_changeTree streamCodec _ t (bytes "work", t) (by simp [changeTexts])
  have hzz : deserializeBlockJson streamCodec
      (changeTree streamCodec ⟨⟨1, 2⟩, 3, 4⟩ (bytes "zz")) =
        some (.changeBlock ⟨⟨1, 2⟩, 3, 0⟩) := by
    have hread : streamCodec.fromStringHex (bytes "zz") = some 0 := by decide +kernel
    rw [deserializeBlockJson_changeTree streamCodec_strict.toHexadecimal, hread]
    rfl
  have height : streamCodec.fromStringHex (bytes "0000001f") = none := by decide +kernel
  refine ⟨hzz, ?_, ?_, ?_⟩
  · intro h
    have hspells := (h.fields _ hzz).2.1
    exact absurd ((fieldSpells_iff (hwork _)).mp hspells).1 (by decide +kernel)
  · rw [deserializeBlockJson_changeTree streamCodec_strict.toHexadecimal, height]
    rfl
  · intro h
    have hread := h.work _ (hwork _) (by decide +kernel) (by decide +kernel)
    rw [height] at hread
    cases hread

end PaperNode.JsonNumerals
