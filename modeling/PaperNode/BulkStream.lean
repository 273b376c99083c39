import PaperNode.BlockFormat

/-!
# Streams of blocks

Bulk transfers send blocks one after the other, each prefixed with its type, and end
with a byte that is the type of no block. The receiver reads one byte, looks up how
many more belong to a block of that type, reads those behind the first into a buffer
of fixed size and deserializes the buffer. The same loop stands in the client that
pulls blocks and in the server that blocks are pushed to; they differ in the size of
the buffer and in what they do with a block and after the last one.
-/
namespace PaperNode.BulkStream
open FieldReaders Blocks BlockFormat

inductive Ending where
  | terminator
  | typeMissing
  | typeUnknown
  | bufferExceeded
  | blockMissing
  | blockInvalid
  deriving DecidableEq, Repr

/-- The blocks received, why no more are, and the bytes that are left in the socket. -/
structure Received where
  blocks : List Block
  ending : Ending
  unread : List UInt8

def sendStream : List Block → List UInt8
  | [] => [BlockType.code .notABlock]
  | b :: bs => serializeBlock b ++ sendStream bs

/-- The loop of `receive_block`, `received_type` and `received_block`, with a buffer of the
given size. A read from the socket gets all the bytes asked for or fails. -/
def receiveLoop (bufferSize : ℕ) (socket : List UInt8) : Received :=
  match socket with
  | [] => ⟨[], .typeMissing, []⟩
  | c :: socket =>
      if BlockType.ofCode c = some .notABlock then ⟨[], .terminator, socket⟩
      else
        match (BlockType.ofCode c).bind blockSize with
        | none => ⟨[], .typeUnknown, socket⟩
        | some size =>
            -- nothing checks this: a longer block would be written past the buffer
            if bufferSize < 1 + size then ⟨[], .bufferExceeded, socket⟩
            else if socket.length < size then ⟨[], .blockMissing, []⟩
            else
              match deserializeBlock (c :: socket.take size) with
              | none => ⟨[], .blockInvalid, socket.drop size⟩
              | some (b, _) =>
                  let r := receiveLoop bufferSize (socket.drop size)
                  { r with blocks := b :: r.blocks }
termination_by socket.length
decreasing_by
  rw [List.length_drop, List.length_cons]
  exact Nat.lt_succ_of_le (Nat.sub_le _ _)

/-- `bulk_pull_client`, whose `receive_buffer` has 200 bytes. -/
def pullClientReceive : List UInt8 → Received := receiveLoop 200

/-- `bulk_push_server`, whose `receive_buffer` has 256 bytes. -/
def pushServerReceive : List UInt8 → Received := receiveLoop 256

theorem serializeBlock_length_le (b : Block) : (serializeBlock b).length ≤ 169 := by
  have hsize := blockSize_eq b
  rw [serializeBlock, List.length_cons]
  cases b with
  | sendBlock b | receiveBlock b | openBlock b | changeBlock b =>
      rw [← Option.some.inj hsize]
      decide

variable {bufferSize : ℕ}

theorem receiveLoop_terminator (unread : List UInt8) :
    receiveLoop bufferSize (BlockType.code .notABlock :: unread) = ⟨[], .terminator, unread⟩ := by
  unfold receiveLoop
  rw [if_pos (by decide)]

theorem receiveLoop_block (hbuffer : 169 ≤ bufferSize) (b : Block) (unread : List UInt8) :
    receiveLoop bufferSize (serializeBlock b ++ unread) =
      { receiveLoop bufferSize unread with
        blocks := b :: (receiveLoop bufferSize unread).blocks } := by
  have htype : BlockType.ofCode (BlockType.code b.type) = some b.type := ofCode_eq_some.mpr rfl
  have hframe := serializeBlock_length_le b
  rw [serializeBlock, List.length_cons] at hframe
  have hread : deserializeBlock (BlockType.code b.type :: serialize b) = some (b, []) := by
    have h := reads_block (serializeBlock b) b []
    rw [List.append_nil] at h
    exact h.mpr rfl
  rw [serializeBlock, List.cons_append]
  conv_lhs => unfold receiveLoop
  have hnot : b.type ≠ .notABlock := by cases b <;> simp [Block.type]
  simp only [htype, Option.some_inj, if_neg hnot, Option.bind_some, blockSize_eq]
  rw [if_neg (by omega), if_neg (by simp), List.take_left, List.drop_left, hread]

theorem receiveLoop_stream (hbuffer : 169 ≤ bufferSize) (bs : List Block)
    (unread : List UInt8) :
    receiveLoop bufferSize (sendStream bs ++ unread) = ⟨bs, .terminator, unread⟩ := by
  induction bs with
  | nil => exact receiveLoop_terminator unread
  | cons b bs ih =>
      rw [sendStream, List.append_assoc, receiveLoop_block hbuffer, ih]

/-- Blocks sent in bulk are received as they were sent, and the receiver stops right behind the
terminator; no block with its type exceeds the buffer of either receiver. -/
theorem bulk_stream_received (bs : List Block) (unread : List UInt8) :
    pullClientReceive (sendStream bs ++ unread) = ⟨bs, .terminator, unread⟩ ∧
      pushServerReceive (sendStream bs ++ unread) = ⟨bs, .terminator, unread⟩ ∧
      ∀ b ∈ bs, (serializeBlock b).length ≤ 200 ∧ (serializeBlock b).length ≤ 256 := by
  refine ⟨receiveLoop_stream (by decide) bs unread, receiveLoop_stream (by decide) bs unread, ?_⟩
  intro b _
  have hlength := serializeBlock_length_le b
  exact ⟨by omega, by omega⟩

end PaperNode.BulkStream
