import PaperNode.Blocks

/-!
# Proof of work

A block carries a word that, digested together with the block's root, must give a
number above a threshold. The threshold is lower on the test network.
-/
namespace PaperNode.ProofOfWork
open Words Blocks

inductive PaperNetwork where
  | testNetwork | betaNetwork | liveNetwork
  deriving DecidableEq, Repr

/-- The network and the eight byte digest; `asserting` says whether assertions on the work found
are compiled in. -/
structure WorkEnv where
  network : PaperNetwork
  blake2b : List UInt8 → Word64
  asserting : Bool

def publishTestThreshold : Word64 := 0xff00000000000000

def publishFullThreshold : Word64 := 0xfffffe0000000000

def publishThreshold (E : WorkEnv) : Word64 :=
  if E.network = .testNetwork then publishTestThreshold else publishFullThreshold

def workValue (E : WorkEnv) (root : BlockHash) (work : Word64) : Word64 :=
  E.blake2b (littleEndian 8 work ++ bytes 32 root)

/-- True is an error: the work is below the threshold. -/
def workValidate (E : WorkEnv) (root : BlockHash) (work : Word64) : Bool :=
  workValue E root work < publishThreshold E

def blockWork : Block → Word64
  | .sendBlock b => b.work
  | .receiveBlock b => b.work
  | .openBlock b => b.work
  | .changeBlock b => b.work

/-- `work_validate` of a block, against its root. -/
def workValidateBlock (E : WorkEnv) (b : Block) : Bool := workValidate E b.root (blockWork b)

theorem workValidate_eq_false {E : WorkEnv} {root : BlockHash} {work : Word64} :
    workValidate E root work = false ↔ publishThreshold E ≤ workValue E root work := by
  simp [workValidate]

end PaperNode.ProofOfWork
