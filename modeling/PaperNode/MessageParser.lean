import PaperNode.ProofOfWork
import PaperNode.BlockFormat
import PaperNode.BoundedRecursion
import PaperNode.VoteRecords

/-!
# The datagram parser

A datagram is a header and a body. The header names the kind of message and, in a
few bits of its extensions, the type of the block in the body. The parser looks at
the header for the kind, reads the whole datagram as a message of that kind, and
hands it to a visitor if nothing is left over and the block has enough work.

Every read of a publish, confirm request or confirm message is checked. Those of
the peers in a keepalive are not: a keepalive that is cut off anywhere behind its
header is handed on, the missing bytes being whatever was on the stack.
-/
namespace PaperNode.MessageParser
open BoundedRecursion Words FieldReaders Blocks BlockFormat ProofOfWork VoteRecords

/-- The assertions of the `deserialize` functions of the messages. -/
inductive ParserAssertion where
  | headerRead | headerType
  deriving DecidableEq, Repr

abbrev ParserChecked := Check ParserAssertion

inductive MessageType where
  | invalid | notAType | keepalive | publish | confirmReq | confirmAck | bulkPull | bulkPush
  | frontierReq
  deriving DecidableEq, Repr

/-- The number of the enumerator. -/
def MessageType.code : MessageType → UInt8
  | .invalid => 0
  | .notAType => 1
  | .keepalive => 2
  | .publish => 3
  | .confirmReq => 4
  | .confirmAck => 5
  | .bulkPull => 6
  | .bulkPush => 7
  | .frontierReq => 8

/-- The fields of `message`; any byte can be read as its type. -/
structure Header where
  versionMax : UInt8
  versionUsing : UInt8
  versionMin : UInt8
  type : UInt8
  extensions : BitVec 16
  deriving DecidableEq, Repr

/-- `message::block_type`, from the bits of `block_type_mask`. -/
def Header.blockType (h : Header) : Option BlockType :=
  BlockType.ofCode (UInt8.ofNat ((h.extensions &&& 0x0f00) >>> 8).toNat)

structure Endpoint where
  address : BitVec 128
  port : BitVec 16
  deriving DecidableEq, Repr

inductive Message where
  | keepalive (header : Header) (peers : List Endpoint)
  | publish (header : Header) (block : Block)
  | confirmReq (header : Header) (block : Block)
  | confirmAck (header : Header) (vote : Vote)
  deriving DecidableEq, Repr

/-- The bytes `RA`, `RB` or `RC`. -/
def magicNumber (W : WorkEnv) : List UInt8 :=
  match W.network with
  | .testNetwork => [82, 65]
  | .betaNetwork => [82, 66]
  | .liveNetwork => [82, 67]

def writeHeader (W : WorkEnv) (h : Header) : List UInt8 :=
  magicNumber W ++ ([h.versionMax] ++ ([h.versionUsing] ++ ([h.versionMin] ++
    ([h.type] ++ littleEndian 2 h.extensions))))

def writeEndpoint (e : Endpoint) : List UInt8 := bytes 16 e.address ++ littleEndian 2 e.port

def writePeers : List Endpoint → List UInt8
  | [] => []
  | e :: es => writeEndpoint e ++ writePeers es

def writeVote (v : Vote) : List UInt8 :=
  bytes 32 v.account ++ (bytes 64 v.signature ++ (littleEndian 8 v.sequence ++ serialize v.block))

namespace Message

def header : Message → Header
  | keepalive h _ => h
  | publish h _ => h
  | confirmReq h _ => h
  | confirmAck h _ => h

def type : Message → MessageType
  | keepalive _ _ => .keepalive
  | publish _ _ => .publish
  | confirmReq _ _ => .confirmReq
  | confirmAck _ _ => .confirmAck

/-- What is written behind the header. -/
def body : Message → List UInt8
  | keepalive _ peers => writePeers peers
  | publish _ b => BlockFormat.serialize b
  | confirmReq _ b => BlockFormat.serialize b
  | confirmAck _ v => writeVote v

/-- `serialize` of each kind of message. -/
def serialize (W : WorkEnv) (m : Message) : List UInt8 := writeHeader W m.header ++ m.body

/-- The constructors of a message put its own type into the header and the type of its block
into the extensions. The peers of a keepalive are an array of eight. -/
def WellFormed : Message → Prop
  | keepalive h peers => h.type = MessageType.code .keepalive ∧ peers.length = 8
  | publish h b => h.type = MessageType.code .publish ∧ h.blockType = some b.type
  | confirmReq h b => h.type = MessageType.code .confirmReq ∧ h.blockType = some b.type
  | confirmAck h v => h.type = MessageType.code .confirmAck ∧ h.blockType = some v.block.type

/-- The block carried, if any, has enough work. -/
def WorkValid (W : WorkEnv) : Message → Prop
  | keepalive _ _ => True
  | publish _ b => workValidateBlock W b = false
  | confirmReq _ b => workValidateBlock W b = false
  | confirmAck _ v => workValidateBlock W v.block = false

end Message

def readMagic (W : WorkEnv) : Reader Unit := do
  let magic ← readBytes 2
  if magic = magicNumber W then return () else failure

def readHeader (W : WorkEnv) : Reader Header := do
  let _ ← readMagic W
  let versionMax ← readByte
  let versionUsing ← readByte
  let versionMin ← readByte
  let type ← readByte
  let extensions ← readLittle 2
  return ⟨versionMax, versionUsing, versionMin, type, extensions⟩

/-- `deserialize_block` with the type in the header. -/
def readBlock (h : Header) : Reader Block :=
  match h.blockType with
  | some t => deserializeTyped t
  | none => failure

def readVote (h : Header) : Reader Vote := do
  let account ← readWord 32
  let signature ← readWord 64
  let sequence ← readLittle 8
  let block ← readBlock h
  return ⟨sequence, block, account, signature⟩

/-- An unchecked read into memory that holds `old`: as many bytes as there are. -/
def readInto (old s : List UInt8) : List UInt8 × List UInt8 :=
  (s.take old.length ++ old.drop s.length, s.drop old.length)

def readEndpoint (old : Endpoint) (s : List UInt8) : Endpoint × List UInt8 :=
  let (address, s) := readInto (bytes 16 old.address) s
  let (port, s) := readInto (littleEndian 2 old.port) s
  (⟨ofBytes 16 address, ofBytes 2 port.reverse⟩, s)

/-- The loop over the peers; `stack` is what the local variables hold in each turn. -/
def readPeers (stack : ℕ → Endpoint) : ℕ → List UInt8 → List Endpoint × List UInt8
  | 0, s => ([], s)
  | n + 1, s =>
      let (e, s) := readEndpoint (stack n) s
      let (es, s) := readPeers stack n s
      (e :: es, s)

/-- The flags of the parser and what it handed to the visitor, latest first. -/
structure Parser where
  error : Bool := false
  insufficientWork : Bool := false
  visited : List Message := []
  deriving DecidableEq, Repr

/-- The header is read again in front of the body. -/
def readAgain (W : WorkEnv) (kind : MessageType) (buffer : List UInt8) :
    ParserChecked (Header × List UInt8) := do
  let (header, s) ← demand (readHeader W buffer) .headerRead
  require (header.type = MessageType.code kind) .headerType
  return (header, s)

/-- The message is handed on if nothing is left of the buffer and the work of its block is
enough. -/
def finish (p : Parser) (m : Message) (insufficient : Bool) (left : List UInt8) : Parser :=
  if left.isEmpty then
    if !insufficient then { p with visited := m :: p.visited }
    else { p with insufficientWork := true }
  else { p with error := true }

def deserializeKeepalive (W : WorkEnv) (stack : ℕ → Endpoint) (p : Parser)
    (buffer : List UInt8) : ParserChecked Parser := do
  let (header, s) ← readAgain W .keepalive buffer
  let (peers, left) := readPeers stack 8 s
  return finish p (.keepalive header peers) false left

/-- The messages that carry a block alone. -/
def deserializeBlockMessage (W : WorkEnv) (kind : MessageType) (make : Header → Block → Message)
    (p : Parser) (buffer : List UInt8) : ParserChecked Parser := do
  let (header, s) ← readAgain W kind buffer
  match readBlock header s with
  | some (block, left) => return finish p (make header block) (workValidateBlock W block) left
  | none => return { p with error := true }

def deserializePublish (W : WorkEnv) : Parser → List UInt8 → ParserChecked Parser :=
  deserializeBlockMessage W .publish .publish

def deserializeConfirmReq (W : WorkEnv) : Parser → List UInt8 → ParserChecked Parser :=
  deserializeBlockMessage W .confirmReq .confirmReq

/-- The constructor of a confirm message checks its reads instead of asserting. -/
def deserializeConfirmAck (W : WorkEnv) (p : Parser) (buffer : List UInt8) : Parser :=
  match readHeader W buffer with
  | none => { p with error := true }
  | some (header, s) =>
      match readVote header s with
      | some (vote, left) =>
          finish p (.confirmAck header vote) (workValidateBlock W vote.block) left
      | none => { p with error := true }

def deserializeBuffer (W : WorkEnv) (stack : ℕ → Endpoint) (p : Parser) (buffer : List UInt8) :
    ParserChecked Parser :=
  let p := { p with error := false }
  match readHeader W buffer with
  | none => .ok { p with error := true }
  | some (header, _) =>
      if header.type = MessageType.code .keepalive then deserializeKeepalive W stack p buffer
      else if header.type = MessageType.code .publish then deserializePublish W p buffer
      else if header.type = MessageType.code .confirmReq then deserializeConfirmReq W p buffer
      else if header.type = MessageType.code .confirmAck then
        .ok (deserializeConfirmAck W p buffer)
      else .ok { p with error := true }

variable {W : WorkEnv} {stack : ℕ → Endpoint} {buffer s : List UInt8} {h : Header}

theorem reads_magic (W : WorkEnv) : Reads (readMagic W) (fun _ => magicNumber W) := by
  intro s u rest
  have hlength : (magicNumber W).length = 2 := by
    unfold magicNumber
    cases W.network <;> rfl
  simp only [readMagic, bind_eq_some, readBytes_eq_some]
  constructor
  · rintro ⟨l, t, ⟨hs, _⟩, h⟩
    split_ifs at h with hl
    · obtain ⟨_, rfl⟩ := pure_eq_some.mp h
      rw [hs, hl]
    · cases h
  · intro hs
    exact ⟨magicNumber W, rest, ⟨hs, hlength⟩, by rw [if_pos rfl]; rfl⟩

theorem reads_header (W : WorkEnv) : Reads (readHeader W) (writeHeader W) := by
  apply ReadsWhen.reads
  apply ReadsWhen.field (fun _ : Header => ()) (reads_magic W)
  intro _
  apply ReadsWhen.field (fun h : Header => h.versionMax) reads_byte
  intro versionMax
  apply ReadsWhen.field (fun h : Header => h.versionUsing) reads_byte
  intro versionUsing
  apply ReadsWhen.field (fun h : Header => h.versionMin) reads_byte
  intro versionMin
  apply ReadsWhen.field (fun h : Header => h.type) reads_byte
  intro type
  apply ReadsWhen.last (fun h : Header => h.extensions) (reads_little 2)
  intro extensions h
  obtain ⟨a, b, c, d, e⟩ := h
  simp [eq_comm, and_assoc]

theorem reads_blockOf (h : Header) :
    ReadsWhen (fun b => h.blockType = some b.type) (readBlock h) serialize := by
  intro s b rest
  unfold readBlock
  beta_reduce
  cases h.blockType with
  | none => exact iff_of_false (nomatch ·) (fun h => nomatch h.1)
  | some t => exact (reads_typed t s b rest).trans (and_congr_left' (by simp [eq_comm]))

theorem reads_vote (h : Header) :
    ReadsWhen (fun v => h.blockType = some v.block.type) (readVote h) writeVote := by
  apply ReadsWhen.field (fun v : Vote => v.account) (reads_word 32)
  intro account
  apply ReadsWhen.field (fun v : Vote => v.signature) (reads_word 64)
  intro signature
  apply ReadsWhen.field (fun v : Vote => v.sequence) (reads_little 8)
  intro sequence
  apply ReadsWhen.lastWhen (fun v : Vote => v.block) (reads_blockOf h)
  intro block v
  constructor
  · rintro ⟨hb, rfl⟩
    exact ⟨⟨⟨⟨hb, rfl⟩, rfl⟩, rfl⟩, rfl⟩
  · rintro ⟨⟨⟨⟨hb, rfl⟩, rfl⟩, rfl⟩, rfl⟩
    exact ⟨hb, rfl⟩

theorem readInto_of_le {old s : List UInt8} (h : old.length ≤ s.length) :
    (readInto old s).1 = s.take old.length := by
  simp [readInto, List.drop_eq_nil_of_le h]

theorem readEndpoint_left (old : Endpoint) (s : List UInt8) :
    (readEndpoint old s).2 = s.drop 18 := by
  simp [readEndpoint, readInto]

theorem writeEndpoint_read (old : Endpoint) (h : 18 ≤ s.length) :
    writeEndpoint (readEndpoint old s).1 = s.take 18 := by
  have haddress : (readInto (bytes 16 old.address) s).1 = s.take 16 := by
    rw [readInto_of_le (by simp; omega), length_bytes]
  have hport : (readInto (littleEndian 2 old.port) (s.drop 16)).1 = (s.drop 16).take 2 := by
    rw [readInto_of_le (by simp; omega), length_littleEndian]
  have hrest : (readInto (bytes 16 old.address) s).2 = s.drop 16 := by simp [readInto]
  simp only [writeEndpoint, readEndpoint, haddress, hrest, hport]
  rw [littleEndian, bytes_ofBytes (by simp; omega), bytes_ofBytes (by simp; omega),
    List.reverse_reverse, ← List.take_add]

theorem length_writeEndpoint (e : Endpoint) : (writeEndpoint e).length = 18 := by
  simp [writeEndpoint]

theorem writeEndpoint_inj {e e' : Endpoint} : writeEndpoint e = writeEndpoint e' → e = e' := by
  intro h
  obtain ⟨haddress, hport⟩ := bytes_append_inj.mp h
  have hport := bytes_inj.mp (List.reverse_injective hport)
  cases e
  cases e'
  cases haddress
  cases hport
  rfl

theorem length_writePeers (es : List Endpoint) : (writePeers es).length = 18 * es.length := by
  induction es with
  | nil => rfl
  | cons e es ih =>
      rw [writePeers, List.length_append, length_writeEndpoint, ih, List.length_cons]
      omega

theorem length_readPeers (stack : ℕ → Endpoint) (n : ℕ) (s : List UInt8) :
    (readPeers stack n s).1.length = n := by
  induction n generalizing s with
  | zero => rfl
  | succ n ih => simp [readPeers, ih]

theorem readPeers_left (stack : ℕ → Endpoint) (n : ℕ) (s : List UInt8) :
    (readPeers stack n s).2 = s.drop (18 * n) := by
  induction n generalizing s with
  | zero => simp [readPeers]
  | succ n ih =>
      simp only [readPeers, ih, readEndpoint_left, List.drop_drop]
      congr 1
      omega

theorem writePeers_read (stack : ℕ → Endpoint) (n : ℕ) (h : 18 * n ≤ s.length) :
    writePeers (readPeers stack n s).1 = s.take (18 * n) := by
  induction n generalizing s with
  | zero => simp [readPeers, writePeers]
  | succ n ih =>
      have hrest : 18 * n ≤ (s.drop 18).length := by simp; omega
      have hlength : 18 * (n + 1) = 18 + 18 * n := by omega
      simp only [readPeers, writePeers, readEndpoint_left]
      rw [writeEndpoint_read _ (by omega), ih hrest, hlength, List.take_add]

theorem writePeers_inj {es es' : List Endpoint} (hlength : es.length = es'.length)
    (h : writePeers es = writePeers es') : es = es' := by
  induction es generalizing es' with
  | nil => exact (List.length_eq_zero_iff.mp hlength.symm).symm
  | cons e es ih =>
      cases es' with
      | nil => cases hlength
      | cons e' es' =>
          obtain ⟨he, hes⟩ := List.append_inj h
            ((length_writeEndpoint e).trans (length_writeEndpoint e').symm)
          rw [writeEndpoint_inj he, ih (Nat.succ.inj hlength) hes]

theorem readPeers_writePeers (stack : ℕ → Endpoint) (es : List Endpoint) :
    (readPeers stack es.length (writePeers es)).1 = es := by
  have hlength := length_writePeers es
  have hwritten := writePeers_read stack es.length hlength.ge
  rw [← hlength, List.take_length] at hwritten
  exact writePeers_inj (length_readPeers stack es.length _) hwritten

/-- A fresh parser hands on exactly the message that the buffer spells, if the work of its block
is enough, and sets one of its flags if it hands on none. -/
def Exact (W : WorkEnv) (stack : ℕ → Endpoint) (buffer : List UInt8) : Prop :=
  ∃ p, deserializeBuffer W stack {} buffer = .ok p ∧
    (∀ m, m ∈ p.visited ↔ m.WellFormed ∧ buffer = m.serialize W ∧ m.WorkValid W) ∧
    (p.visited = [] → p.error = true ∨ p.insufficientWork = true)

/-- The buffer starts with the header of a keepalive and ends before its eighth peer does. -/
def Truncated (W : WorkEnv) (buffer : List UInt8) : Prop :=
  ∃ h s, readHeader W buffer = some (h, s) ∧ h.type = MessageType.code .keepalive ∧
    s.length < 144

theorem serialize_iff (hread : readHeader W buffer = some (h, s)) (m : Message) :
    buffer = m.serialize W ↔ m.header = h ∧ m.body = s := by
  rw [Message.serialize, ← reads_header W buffer m.header m.body, hread]
  simp [eq_comm]

theorem exact_of_error (hp : deserializeBuffer W stack {} buffer = .ok { error := true })
    (hnone : ∀ m : Message, m.WellFormed → buffer ≠ m.serialize W) : Exact W stack buffer := by
  refine ⟨_, hp, ?_, fun _ => Or.inl rfl⟩
  intro m
  exact iff_of_false (nomatch ·) (fun hm => hnone m hm.1 hm.2.1)

theorem mem_finish {m m' : Message} {insufficient : Bool} {left : List UInt8} :
    m' ∈ (finish {} m insufficient left).visited ↔ m' = m ∧ insufficient = false ∧ left = [] := by
  cases left with
  | nil => cases insufficient <;> simp [finish]
  | cons c left => simp [finish]

theorem finish_flags {m : Message} {insufficient : Bool} {left : List UInt8}
    (h : (finish {} m insufficient left).visited = []) :
    (finish {} m insufficient left).error = true ∨
      (finish {} m insufficient left).insufficientWork = true := by
  cases left with
  | nil =>
      cases insufficient with
      | false => simp [finish] at h
      | true => exact Or.inr rfl
  | cons c left => exact Or.inl rfl

section Kinds
variable {β : Type} {C : Header → β → Prop} {enc : β → List UInt8} {work : WorkEnv → β → Bool}
  {kind : MessageType} {make : Header → β → Message} {r : Reader β}

theorem code_injective : Function.Injective MessageType.code := by
  intro a b h
  cases a <;> cases b <;> first | rfl | exact absurd h (by decide)

/-- The messages of a kind are made of a header and a body. -/
structure Makes (kind : MessageType) (C : Header → β → Prop) (enc : β → List UInt8)
    (work : WorkEnv → β → Bool) (make : Header → β → Message) : Prop where
  made : ∀ m : Message, m.type = kind → ∃ x, m = make m.header x
  header : ∀ h x, (make h x).header = h
  wellFormed : ∀ h x, (make h x).WellFormed ↔ h.type = kind.code ∧ C h x
  body : ∀ h x, (make h x).body = enc x
  work : ∀ W h x, (make h x).WorkValid W ↔ work W x = false

theorem makes_keepalive :
    Makes .keepalive (fun _ es => es.length = 8) writePeers (fun _ _ => false) .keepalive := by
  refine ⟨?_, fun _ _ => rfl, fun _ _ => Iff.rfl, fun _ _ => rfl,
    fun _ _ _ => iff_of_true trivial rfl⟩
  rintro (⟨h, es⟩ | _ | _ | _) hm
  · exact ⟨es, rfl⟩
  all_goals cases hm

theorem makes_publish : Makes .publish (fun h b => h.blockType = some b.type) serialize
    workValidateBlock .publish := by
  refine ⟨?_, fun _ _ => rfl, fun _ _ => Iff.rfl, fun _ _ => rfl, fun _ _ _ => Iff.rfl⟩
  rintro (_ | ⟨h, b⟩ | _ | _) hm
  case publish => exact ⟨b, rfl⟩
  all_goals cases hm

theorem makes_confirmReq : Makes .confirmReq (fun h b => h.blockType = some b.type) serialize
    workValidateBlock .confirmReq := by
  refine ⟨?_, fun _ _ => rfl, fun _ _ => Iff.rfl, fun _ _ => rfl, fun _ _ _ => Iff.rfl⟩
  rintro (_ | _ | ⟨h, b⟩ | _) hm
  case confirmReq => exact ⟨b, rfl⟩
  all_goals cases hm

theorem makes_confirmAck : Makes .confirmAck (fun h v => h.blockType = some v.block.type) writeVote
    (fun W v => workValidateBlock W v.block) .confirmAck := by
  refine ⟨?_, fun _ _ => rfl, fun _ _ => Iff.rfl, fun _ _ => rfl, fun _ _ _ => Iff.rfl⟩
  rintro (_ | _ | _ | ⟨h, v⟩) hm
  case confirmAck => exact ⟨v, rfl⟩
  all_goals cases hm

theorem Makes.wellFormed_iff (hmake : Makes kind C enc work make) (hh : h.type = kind.code)
    (m : Message) : m.WellFormed ∧ m.header = h ↔ ∃ x, C h x ∧ m = make h x := by
  constructor
  · rintro ⟨hm, rfl⟩
    have hcode : m.header.type = m.type.code := by
      cases m <;> exact hm.1
    obtain ⟨x, hx⟩ := hmake.made m (code_injective (hcode.symm.trans hh))
    exact ⟨x, ((hmake.wellFormed m.header x).mp (hx ▸ hm)).2, hx⟩
  · rintro ⟨x, hx, rfl⟩
    exact ⟨(hmake.wellFormed h x).mpr ⟨hh, hx⟩, hmake.header h x⟩

/-- A kind of message whose body is read by a checked reader. -/
theorem exact_of_reads (hmake : Makes kind C enc work make) (hr : ReadsWhen (C h) r enc)
    (hread : readHeader W buffer = some (h, s)) (hh : h.type = kind.code)
    (hp : deserializeBuffer W stack {} buffer = .ok (match r s with
      | some (x, left) => finish {} (make h x) (work W x) left
      | none => { error := true })) : Exact W stack buffer := by
  -- a message is spelled by the buffer if its body is what the reader reads, to the end
  have hspelled : ∀ m : Message, m.WellFormed ∧ buffer = m.serialize W ↔
      ∃ x, r s = some (x, []) ∧ m = make h x := by
    intro m
    rw [serialize_iff hread, ← and_assoc, hmake.wellFormed_iff hh]
    constructor
    · rintro ⟨⟨x, hC, rfl⟩, hs⟩
      exact ⟨x, (hr s x []).mpr ⟨hC, by rw [List.append_nil, ← hs, hmake.body]⟩, rfl⟩
    · rintro ⟨x, hx, rfl⟩
      obtain ⟨hC, hs⟩ := (hr s x []).mp hx
      exact ⟨⟨x, hC, rfl⟩, by rw [hs, List.append_nil, hmake.body]⟩
  refine ⟨_, hp, ?_, ?_⟩
  · intro m
    rw [← and_assoc, hspelled]
    cases r s with
    | none => simp
    | some y =>
        obtain ⟨x, left⟩ := y
        rw [mem_finish]
        constructor
        · rintro ⟨rfl, hx, rfl⟩
          exact ⟨⟨x, rfl, rfl⟩, (hmake.work W h x).mpr hx⟩
        · rintro ⟨⟨x', hx', rfl⟩, hvalid⟩
          cases hx'
          exact ⟨rfl, (hmake.work W h x).mp hvalid, rfl⟩
  · cases r s with
    | none => exact fun _ => Or.inl rfl
    | some y => exact finish_flags

end Kinds

theorem readAgain_ok {kind : MessageType} (hread : readHeader W buffer = some (h, s))
    (hh : h.type = MessageType.code kind) : readAgain W kind buffer = .ok (h, s) := by
  simp only [readAgain, hread, demand, ok_bind, require_of hh]
  rfl

section Bodies
variable (hread : readHeader W buffer = some (h, s))
include hread

theorem exact_blockMessage {kind : MessageType} {make : Header → Block → Message}
    (hmake : Makes kind (fun h b => h.blockType = some b.type) serialize workValidateBlock make)
    (hh : h.type = kind.code) (hp : deserializeBuffer W stack {} buffer =
      deserializeBlockMessage W kind make {} buffer) : Exact W stack buffer := by
  refine exact_of_reads hmake (reads_blockOf h) hread hh (hp.trans ?_)
  simp only [deserializeBlockMessage, readAgain_ok hread hh, ok_bind]
  cases readBlock h s <;> rfl

theorem exact_confirmAck (hh : h.type = MessageType.code .confirmAck) : Exact W stack buffer := by
  refine exact_of_reads makes_confirmAck (reads_vote h) hread hh ?_
  simp only [deserializeBuffer, hread, hh]
  rw [if_neg (by decide), if_neg (by decide), if_neg (by decide), if_pos trivial]
  simp only [deserializeConfirmAck, hread]
  cases readVote h s <;> rfl

theorem deserializeBuffer_keepalive (stack : ℕ → Endpoint)
    (hh : h.type = MessageType.code .keepalive) :
    deserializeBuffer W stack {} buffer =
      .ok (finish {} (.keepalive h (readPeers stack 8 s).1) false (s.drop 144)) := by
  simp only [deserializeBuffer, hread, hh]
  rw [if_pos trivial]
  simp only [deserializeKeepalive, readAgain_ok hread hh, ok_bind, readPeers_left]
  rfl

/-- A keepalive is read right unless it is cut off. -/
theorem exact_keepalive_iff (hh : h.type = MessageType.code .keepalive) :
    Exact W stack buffer ↔ 144 ≤ s.length := by
  have hp := deserializeBuffer_keepalive hread stack hh
  have hspelled : ∀ m : Message, m.WellFormed ∧ buffer = m.serialize W ↔
      ∃ es, es.length = 8 ∧ writePeers es = s ∧ m = .keepalive h es := by
    intro m
    rw [serialize_iff hread, ← and_assoc, makes_keepalive.wellFormed_iff hh]
    constructor
    · rintro ⟨⟨es, hes, rfl⟩, hs⟩
      exact ⟨es, hes, hs, rfl⟩
    · rintro ⟨es, hes, hs, rfl⟩
      exact ⟨⟨es, hes, rfl⟩, hs⟩
  constructor
  · rintro ⟨p, hp', hiff, _⟩
    cases hp.symm.trans hp'
    by_contra hshort
    have hleft : s.drop 144 = [] := List.drop_eq_nil_of_le (by omega)
    have hm := (hiff _).mp (mem_finish.mpr ⟨rfl, rfl, hleft⟩)
    obtain ⟨es, hes, hs, _⟩ := (hspelled _).mp ⟨hm.1, hm.2.1⟩
    have hlength := length_writePeers es
    rw [hs, hes] at hlength
    omega
  · intro hlong
    have hwritten := writePeers_read stack 8 hlong
    refine ⟨_, hp, ?_, finish_flags⟩
    intro m
    rw [mem_finish, ← and_assoc, ← and_assoc, hspelled]
    constructor
    · rintro ⟨⟨rfl, _⟩, hleft⟩
      have hs : s.take (18 * 8) = s := List.take_of_length_le (List.drop_eq_nil_iff.mp hleft)
      exact ⟨⟨_, length_readPeers stack 8 s, hwritten.trans hs, rfl⟩, trivial⟩
    · rintro ⟨⟨es, hes, rfl, rfl⟩, _⟩
      have hlength := length_writePeers es
      refine ⟨⟨?_, rfl⟩, List.drop_eq_nil_of_le (by omega)⟩
      rw [← hes, readPeers_writePeers]

theorem exact_unknown (h₁ : h.type ≠ MessageType.code .keepalive)
    (h₂ : h.type ≠ MessageType.code .publish) (h₃ : h.type ≠ MessageType.code .confirmReq)
    (h₄ : h.type ≠ MessageType.code .confirmAck) : Exact W stack buffer := by
  refine exact_of_error ?_ ?_
  · simp only [deserializeBuffer, hread, if_neg h₁, if_neg h₂, if_neg h₃, if_neg h₄]
  · intro m hm hs
    obtain ⟨rfl, _⟩ := (serialize_iff hread m).mp hs
    cases m with
    | keepalive _ _ => exact h₁ hm.1
    | publish _ _ => exact h₂ hm.1
    | confirmReq _ _ => exact h₃ hm.1
    | confirmAck _ _ => exact h₄ hm.1

end Bodies

theorem deserializeBuffer_serialize (stack : ℕ → Endpoint)
    (hh : h.type = MessageType.code .keepalive) {es : List Endpoint} (hes : es.length = 8) :
    deserializeBuffer W stack {} ((Message.keepalive h es).serialize W) =
      .ok { visited := [.keepalive h es] } := by
  have hread : readHeader W ((Message.keepalive h es).serialize W) = some (h, writePeers es) :=
    (reads_header W _ h _).mpr rfl
  have hlength := length_writePeers es
  rw [deserializeBuffer_keepalive hread stack hh, List.drop_eq_nil_of_le (by omega), ← hes,
    readPeers_writePeers]
  rfl

/-- The parser accepts exactly the bytes of the messages, except on keepalives that are cut off
behind their header, which it accepts. -/
theorem parser_exact_iff (W : WorkEnv) (stack : ℕ → Endpoint) (buffer : List UInt8) :
    Exact W stack buffer ↔ ¬ Truncated W buffer := by
  cases hread : readHeader W buffer with
  | none =>
      refine iff_of_true (exact_of_error ?_ ?_) ?_
      · simp only [deserializeBuffer, hread]
      · intro m _ hs
        have hspelled := (reads_header W buffer m.header m.body).mpr hs
        rw [hread] at hspelled
        cases hspelled
      · rintro ⟨h, s, hsome, _⟩
        rw [hread] at hsome
        cases hsome
  | some y =>
      obtain ⟨h, s⟩ := y
      have htruncated : Truncated W buffer ↔
          h.type = MessageType.code .keepalive ∧ s.length < 144 := by
        constructor
        · rintro ⟨h', s', hsome, ht⟩
          rw [hread] at hsome
          cases hsome
          exact ht
        · exact fun ht => ⟨h, s, hread, ht⟩
      rw [htruncated]
      by_cases h₁ : h.type = MessageType.code .keepalive
      · rw [exact_keepalive_iff hread h₁]
        simp [h₁]
      · refine iff_of_true ?_ (fun ht => h₁ ht.1)
        by_cases h₂ : h.type = MessageType.code .publish
        · refine exact_blockMessage hread makes_publish h₂ ?_
          simp only [deserializeBuffer, hread, if_neg h₁, if_pos h₂, deserializePublish]
        · by_cases h₃ : h.type = MessageType.code .confirmReq
          · refine exact_blockMessage hread makes_confirmReq h₃ ?_
            simp only [deserializeBuffer, hread, if_neg h₁, if_neg h₂, if_pos h₃,
              deserializeConfirmReq]
          · by_cases h₄ : h.type = MessageType.code .confirmAck
            · exact exact_confirmAck hread h₄
            · exact exact_unknown hread h₁ h₂ h₃ h₄

/-- The header of a keepalive and nothing else is handed on with the peers that were on the
stack. -/
theorem keepalive_header_accepted :
    let W : WorkEnv := ⟨.testNetwork, fun _ => 0, true⟩
    let m : Message := .keepalive ⟨1, 1, 1, 2, 0⟩ (List.replicate 8 ⟨0, 0⟩)
    deserializeBuffer W (fun _ => ⟨0, 0⟩) {} [82, 65, 1, 1, 1, 2, 0, 0] =
        .ok { visited := [m] } ∧ (m.serialize W).length = 152 := by
  decide +kernel

end PaperNode.MessageParser
