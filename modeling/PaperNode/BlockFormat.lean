import PaperNode.Blocks
import PaperNode.FieldReaders

/-!
# Blocks on the wire

A block is written field by field: its hashables in the order of the structure, the
signature and the work. Hashes, accounts, amounts and signatures are byte arrays;
the work is written as it lies in memory. In front of a block on its own stands a
byte with its type.
-/
namespace PaperNode.BlockFormat
open Words FieldReaders Blocks

/-- The number of the enumerator. -/
def BlockType.code : BlockType → UInt8
  | .invalid => 0
  | .notABlock => 1
  | .sendBlock => 2
  | .receiveBlock => 3
  | .openBlock => 4
  | .changeBlock => 5

/-- The enumerator a byte is cast to, if it is one. -/
def BlockType.ofCode (c : UInt8) : Option BlockType :=
  if c = 0 then some .invalid
  else if c = 1 then some .notABlock
  else if c = 2 then some .sendBlock
  else if c = 3 then some .receiveBlock
  else if c = 4 then some .openBlock
  else if c = 5 then some .changeBlock
  else none

theorem ofCode_eq_some {c : UInt8} {t : BlockType} :
    BlockType.ofCode c = some t ↔ c = BlockType.code t := by
  constructor
  · intro h
    unfold BlockType.ofCode at h
    split_ifs at h with h₀ h₁ h₂ h₃ h₄ h₅ <;> cases h <;> assumption
  · rintro rfl
    cases t <;> rfl

def SendBlock.serialize (b : SendBlock) : List UInt8 :=
  bytes 32 b.hashables.previous ++ (bytes 32 b.hashables.destination ++
    (bytes 16 b.hashables.balance ++ (bytes 64 b.signature ++ littleEndian 8 b.work)))

def ReceiveBlock.serialize (b : ReceiveBlock) : List UInt8 :=
  bytes 32 b.hashables.previous ++ (bytes 32 b.hashables.source ++
    (bytes 64 b.signature ++ littleEndian 8 b.work))

def OpenBlock.serialize (b : OpenBlock) : List UInt8 :=
  bytes 32 b.hashables.source ++ (bytes 32 b.hashables.representative ++
    (bytes 32 b.hashables.account ++ (bytes 64 b.signature ++ littleEndian 8 b.work)))

def ChangeBlock.serialize (b : ChangeBlock) : List UInt8 :=
  bytes 32 b.hashables.previous ++ (bytes 32 b.hashables.representative ++
    (bytes 64 b.signature ++ littleEndian 8 b.work))

def serialize : Block → List UInt8
  | .sendBlock b => SendBlock.serialize b
  | .receiveBlock b => ReceiveBlock.serialize b
  | .openBlock b => OpenBlock.serialize b
  | .changeBlock b => ChangeBlock.serialize b

def serializeBlock (b : Block) : List UInt8 := BlockType.code b.type :: serialize b

def sendBlockSize : ℕ := 32 + 32 + 16 + 64 + 8

def receiveBlockSize : ℕ := 32 + 32 + 64 + 8

def openBlockSize : ℕ := 32 + 32 + 32 + 64 + 8

def changeBlockSize : ℕ := 32 + 32 + 64 + 8

def readSendBlock : Reader SendBlock := do
  let previous ← readWord 32
  let destination ← readWord 32
  let balance ← readWord 16
  let signature ← readWord 64
  let work ← readLittle 8
  return ⟨⟨previous, destination, balance⟩, signature, work⟩

def readReceiveBlock : Reader ReceiveBlock := do
  let previous ← readWord 32
  let source ← readWord 32
  let signature ← readWord 64
  let work ← readLittle 8
  return ⟨⟨previous, source⟩, signature, work⟩

def readOpenBlock : Reader OpenBlock := do
  let source ← readWord 32
  let representative ← readWord 32
  let account ← readWord 32
  let signature ← readWord 64
  let work ← readLittle 8
  return ⟨⟨source, representative, account⟩, signature, work⟩

def readChangeBlock : Reader ChangeBlock := do
  let previous ← readWord 32
  let representative ← readWord 32
  let signature ← readWord 64
  let work ← readLittle 8
  return ⟨⟨previous, representative⟩, signature, work⟩

/-- `deserialize_block` with the type known. Other types give no block. -/
def deserializeTyped : BlockType → Reader Block
  | .sendBlock => do
      let b ← readSendBlock
      return .sendBlock b
  | .receiveBlock => do
      let b ← readReceiveBlock
      return .receiveBlock b
  | .openBlock => do
      let b ← readOpenBlock
      return .openBlock b
  | .changeBlock => do
      let b ← readChangeBlock
      return .changeBlock b
  | _ => failure

/-- `deserialize_block`, with the type in front. -/
def deserializeBlock : Reader Block := do
  let c ← readByte
  match BlockType.ofCode c with
  | some t => deserializeTyped t
  | none => failure

theorem reads_sendBlock : Reads readSendBlock SendBlock.serialize := by
  apply ReadsWhen.reads
  apply ReadsWhen.field (fun b : SendBlock => b.hashables.previous) (reads_word 32)
  intro previous
  apply ReadsWhen.field (fun b : SendBlock => b.hashables.destination) (reads_word 32)
  intro destination
  apply ReadsWhen.field (fun b : SendBlock => b.hashables.balance) (reads_word 16)
  intro balance
  apply ReadsWhen.field (fun b : SendBlock => b.signature) (reads_word 64)
  intro signature
  apply ReadsWhen.last (fun b : SendBlock => b.work) (reads_little 8)
  intro work b
  obtain ⟨⟨p, d, v⟩, g, w⟩ := b
  simp [eq_comm, and_assoc]

theorem reads_receiveBlock : Reads readReceiveBlock ReceiveBlock.serialize := by
  apply ReadsWhen.reads
  apply ReadsWhen.field (fun b : ReceiveBlock => b.hashables.previous) (reads_word 32)
  intro previous
  apply ReadsWhen.field (fun b : ReceiveBlock => b.hashables.source) (reads_word 32)
  intro source
  apply ReadsWhen.field (fun b : ReceiveBlock => b.signature) (reads_word 64)
  intro signature
  apply ReadsWhen.last (fun b : ReceiveBlock => b.work) (reads_little 8)
  intro work b
  obtain ⟨⟨p, q⟩, g, w⟩ := b
  simp [eq_comm, and_assoc]

theorem reads_openBlock : Reads readOpenBlock OpenBlock.serialize := by
  apply ReadsWhen.reads
  apply ReadsWhen.field (fun b : OpenBlock => b.hashables.source) (reads_word 32)
  intro source
  apply ReadsWhen.field (fun b : OpenBlock => b.hashables.representative) (reads_word 32)
  intro representative
  apply ReadsWhen.field (fun b : OpenBlock => b.hashables.account) (reads_word 32)
  intro account
  apply ReadsWhen.field (fun b : OpenBlock => b.signature) (reads_word 64)
  intro signature
  apply ReadsWhen.last (fun b : OpenBlock => b.work) (reads_little 8)
  intro work b
  obtain ⟨⟨q, r, a⟩, g, w⟩ := b
  simp [eq_comm, and_assoc]

theorem reads_changeBlock : Reads readChangeBlock ChangeBlock.serialize := by
  apply ReadsWhen.reads
  apply ReadsWhen.field (fun b : ChangeBlock => b.hashables.previous) (reads_word 32)
  intro previous
  apply ReadsWhen.field (fun b : ChangeBlock => b.hashables.representative) (reads_word 32)
  intro representative
  apply ReadsWhen.field (fun b : ChangeBlock => b.signature) (reads_word 64)
  intro signature
  apply ReadsWhen.last (fun b : ChangeBlock => b.work) (reads_little 8)
  intro work b
  obtain ⟨⟨p, r⟩, g, w⟩ := b
  simp [eq_comm, and_assoc]

theorem reads_typed (t : BlockType) :
    ReadsWhen (fun b => b.type = t) (deserializeTyped t) serialize := by
  cases t with
  | sendBlock =>
      refine ReadsWhen.map reads_sendBlock ?_ (fun _ => rfl)
      intro b
      cases b <;> simp [Block.type]
  | receiveBlock =>
      refine ReadsWhen.map reads_receiveBlock ?_ (fun _ => rfl)
      intro b
      cases b <;> simp [Block.type]
  | openBlock =>
      refine ReadsWhen.map reads_openBlock ?_ (fun _ => rfl)
      intro b
      cases b <;> simp [Block.type]
  | changeBlock =>
      refine ReadsWhen.map reads_changeBlock ?_ (fun _ => rfl)
      intro b
      cases b <;> simp [Block.type]
  | invalid | notABlock =>
      intro s b rest
      refine iff_of_false (nomatch ·) ?_
      cases b <;> simp [Block.type]

/-- A block is read off its own bytes, and off nothing else. -/
theorem reads_block : Reads deserializeBlock serializeBlock := by
  intro s b rest
  cases s with
  | nil => exact iff_of_false (nomatch ·) (nomatch ·)
  | cons c s =>
      have hstart : c :: s = serializeBlock b ++ rest ↔
          BlockType.ofCode c = some b.type ∧ s = serialize b ++ rest := by
        rw [serializeBlock, List.cons_append, List.cons.injEq, ofCode_eq_some]
      rw [hstart]
      change (match BlockType.ofCode c with
        | some t => deserializeTyped t
        | none => failure) s = some (b, rest) ↔ _
      cases BlockType.ofCode c with
      | none => exact iff_of_false (nomatch ·) (fun h => nomatch h.1)
      | some t =>
          rw [Option.some_inj]
          refine (reads_typed t s b rest).trans (and_congr_left' eq_comm)

/-- The bytes of a block, by its type. -/
def blockSize : BlockType → Option ℕ
  | .sendBlock => some sendBlockSize
  | .receiveBlock => some receiveBlockSize
  | .openBlock => some openBlockSize
  | .changeBlock => some changeBlockSize
  | _ => none

theorem blockSize_eq (b : Block) : blockSize b.type = some (serialize b).length := by
  cases b with
  | sendBlock b => simp [blockSize, Block.type, serialize, SendBlock.serialize, sendBlockSize]
  | receiveBlock b =>
      simp [blockSize, Block.type, serialize, ReceiveBlock.serialize, receiveBlockSize]
  | openBlock b => simp [blockSize, Block.type, serialize, OpenBlock.serialize, openBlockSize]
  | changeBlock b =>
      simp [blockSize, Block.type, serialize, ChangeBlock.serialize, changeBlockSize]

end PaperNode.BlockFormat
