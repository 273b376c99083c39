import PaperNode.Words

/-!
# The four block types

Field by field as in `secure.hpp`. A block carries its hashables, a signature
and a proof-of-work word; only the hashables are digested. The digest function
is a parameter, of any result type: the ledger uses 256-bit digests, while a
digest without collisions needs a larger type.

The block accessors return zero where a block type has no such field.
`previousLink` and `sourceLink` tell an absent link from a link to hash zero.
-/
namespace PaperNode.Blocks
open Words

abbrev BlockHash := BitVec 256
abbrev Account := BitVec 256
abbrev Amount := BitVec 128
abbrev Signature := BitVec 512
abbrev Word64 := BitVec 64

inductive BlockType where
  | invalid | notABlock | sendBlock | receiveBlock | openBlock | changeBlock
  deriving DecidableEq, Repr

structure SendHashables where
  previous : BlockHash
  destination : Account
  balance : Amount
  deriving DecidableEq, Repr

structure ReceiveHashables where
  previous : BlockHash
  source : BlockHash
  deriving DecidableEq, Repr

structure OpenHashables where
  source : BlockHash
  representative : Account
  account : Account
  deriving DecidableEq, Repr

structure ChangeHashables where
  previous : BlockHash
  representative : Account
  deriving DecidableEq, Repr

structure SendBlock where
  hashables : SendHashables
  signature : Signature
  work : Word64
  deriving DecidableEq, Repr

structure ReceiveBlock where
  hashables : ReceiveHashables
  signature : Signature
  work : Word64
  deriving DecidableEq, Repr

structure OpenBlock where
  hashables : OpenHashables
  signature : Signature
  work : Word64
  deriving DecidableEq, Repr

structure ChangeBlock where
  hashables : ChangeHashables
  signature : Signature
  work : Word64
  deriving DecidableEq, Repr

inductive Block where
  | sendBlock (b : SendBlock)
  | receiveBlock (b : ReceiveBlock)
  | openBlock (b : OpenBlock)
  | changeBlock (b : ChangeBlock)
  deriving DecidableEq, Repr

namespace Block

def type : Block → BlockType
  | sendBlock _ => .sendBlock
  | receiveBlock _ => .receiveBlock
  | openBlock _ => .openBlock
  | changeBlock _ => .changeBlock

def signature : Block → Signature
  | sendBlock b => b.signature
  | receiveBlock b => b.signature
  | openBlock b => b.signature
  | changeBlock b => b.signature

/-- Previous block in the account's chain, zero for an open block. -/
def previous : Block → BlockHash
  | sendBlock b => b.hashables.previous
  | receiveBlock b => b.hashables.previous
  | openBlock _ => 0
  | changeBlock b => b.hashables.previous

/-- Source block of a receive or open block, zero otherwise. -/
def source : Block → BlockHash
  | sendBlock _ => 0
  | receiveBlock b => b.hashables.source
  | openBlock b => b.hashables.source
  | changeBlock _ => 0

/-- Previous block, or the account number for an open block. -/
def root : Block → BlockHash
  | sendBlock b => b.hashables.previous
  | receiveBlock b => b.hashables.previous
  | openBlock b => b.hashables.account
  | changeBlock b => b.hashables.previous

def representative : Block → Account
  | sendBlock _ => 0
  | receiveBlock _ => 0
  | openBlock b => b.hashables.representative
  | changeBlock b => b.hashables.representative

def previousLink : Block → Option BlockHash
  | sendBlock b => some b.hashables.previous
  | receiveBlock b => some b.hashables.previous
  | openBlock _ => none
  | changeBlock b => some b.hashables.previous

def sourceLink : Block → Option BlockHash
  | sendBlock _ => none
  | receiveBlock b => some b.hashables.source
  | openBlock b => some b.hashables.source
  | changeBlock _ => none

theorem previous_eq (b : Block) : b.previous = b.previousLink.getD 0 := by
  cases b <;> rfl

theorem source_eq (b : Block) : b.source = b.sourceLink.getD 0 := by
  cases b <;> rfl

end Block

/-- The bytes the hashables feed to the digest, in the order of the updates. -/
def SendHashables.hashed (h : SendHashables) : List UInt8 :=
  bytes 32 h.previous ++ (bytes 32 h.destination ++ bytes 16 h.balance)

def ReceiveHashables.hashed (h : ReceiveHashables) : List UInt8 :=
  bytes 32 h.previous ++ bytes 32 h.source

def OpenHashables.hashed (h : OpenHashables) : List UInt8 :=
  bytes 32 h.source ++ (bytes 32 h.representative ++ bytes 32 h.account)

def ChangeHashables.hashed (h : ChangeHashables) : List UInt8 :=
  bytes 32 h.previous ++ bytes 32 h.representative

namespace Block

def hashed : Block → List UInt8
  | sendBlock b => b.hashables.hashed
  | receiveBlock b => b.hashables.hashed
  | openBlock b => b.hashables.hashed
  | changeBlock b => b.hashables.hashed

/-- One initialisation, the updates of the hashables, one finalisation. -/
def hash {D : Type*} (blake2b : List UInt8 → D) (b : Block) : D := blake2b b.hashed

end Block
end PaperNode.Blocks
