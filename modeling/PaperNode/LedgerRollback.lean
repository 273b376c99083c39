import PaperNode.LedgerProcess

/-!
# Rolling blocks back

`ledger.rollback` removes the head of an account until the named block has been
removed. Removing a send block that has been received first rolls back the
destination account, head by head, until the pending entry reappears, and those
rollbacks may recurse into further accounts. The four procedures below are the
function, its loop, the visitor and the visitor's loop, on one shared budget.
-/
namespace PaperNode.LedgerRollback
open BoundedRecursion Blocks BlockStore LedgerQueries LedgerProcess

/-- The tail of `rollback_visitor::send_block`, once the send is pending. An
account missing at this point reads as an empty record. -/
def undoSend (E : Env) (fuel : ℕ) (s : Store) (b : SendBlock) (receivable : Receivable) :
    Checked Store := do
  let hash := E.hash (.sendBlock b)
  let info := (s.accountGet receivable.source).getD {}
  let s ← s.pendingDel hash
  let restored ← balance E s.blockGet fuel b.hashables.previous
  let s ← changeLatest E s receivable.source b.hashables.previous info.repBlock restored
  let s ← s.blockDel hash
  let s ← s.frontierDel hash
  return s.frontierPut b.hashables.previous receivable.source

def undoReceive (E : Env) (fuel : ℕ) (s : Store) (b : ReceiveBlock) : Checked Store := do
  let hash := E.hash (.receiveBlock b)
  let sourceRep ← representative E s fuel b.hashables.source
  let moved ← amount E s.blockGet fuel b.hashables.source
  let destinationAccount ← account s.blockGet fuel hash
  let s ← moveRepresentation E s (← representative E s fuel hash) sourceRep moved
  let restored ← balance E s.blockGet fuel b.hashables.previous
  let s ← changeLatest E s destinationAccount b.hashables.previous sourceRep restored
  let s ← s.blockDel hash
  let sourceAccount ← account s.blockGet fuel b.hashables.source
  let s := s.pendingPut b.hashables.source ⟨sourceAccount, moved, destinationAccount⟩
  let s ← s.frontierDel hash
  return s.frontierPut b.hashables.previous destinationAccount

def undoOpen (E : Env) (fuel : ℕ) (s : Store) (b : OpenBlock) : Checked Store := do
  let hash := E.hash (.openBlock b)
  let sourceRep ← representative E s fuel b.hashables.source
  let moved ← amount E s.blockGet fuel b.hashables.source
  let destinationAccount ← account s.blockGet fuel hash
  let s ← moveRepresentation E s (← representative E s fuel hash) sourceRep moved
  let s ← changeLatest E s destinationAccount 0 sourceRep 0
  let s ← s.blockDel hash
  let sourceAccount ← account s.blockGet fuel b.hashables.source
  let s := s.pendingPut b.hashables.source ⟨sourceAccount, moved, destinationAccount⟩
  s.frontierDel hash

def undoChange (E : Env) (fuel : ℕ) (s : Store) (b : ChangeBlock) : Checked Store := do
  let hash := E.hash (.changeBlock b)
  let rep ← representative E s fuel b.hashables.previous
  let owner ← account s.blockGet fuel b.hashables.previous
  let info := (s.accountGet owner).getD {}
  let s ← moveRepresentation E s hash rep (← balance E s.blockGet fuel b.hashables.previous)
  let s ← s.blockDel hash
  let s ← changeLatest E s owner b.hashables.previous rep info.balance
  let s ← s.frontierDel hash
  return s.frontierPut b.hashables.previous owner

mutual

/-- `ledger::rollback`. -/
def rollback (E : Env) : ℕ → Store → BlockHash → Checked Store
  | 0, _, _ => exhaust
  | fuel + 1, s, frontier => do
      let owner ← account s.blockGet fuel frontier
      rollbackLoop E fuel s owner frontier

/-- The do-while loop: the test is on the head read before the removal. -/
def rollbackLoop (E : Env) : ℕ → Store → Account → BlockHash → Checked Store
  | 0, _, _, _ => exhaust
  | fuel + 1, s, owner, frontier => do
      let info ← demand (s.accountGet owner) .rollbackAccount
      let block ← demand (s.blockGet info.head) .headStored
      let s ← rollbackVisit E fuel s block
      if info.head ≠ frontier then rollbackLoop E fuel s owner frontier
      else return s

/-- `rollback_visitor` on the head block of an account. -/
def rollbackVisit (E : Env) : ℕ → Store → Block → Checked Store
  | 0, _, _ => exhaust
  | fuel + 1, s, .sendBlock b => do
      let (s, receivable) ← rollbackReceivers E fuel s (E.hash (.sendBlock b))
        b.hashables.destination
      undoSend E fuel s b receivable
  | fuel + 1, s, .receiveBlock b => undoReceive E fuel s b
  | fuel + 1, s, .openBlock b => undoOpen E fuel s b
  | fuel + 1, s, .changeBlock b => undoChange E fuel s b

/-- The while loop of `rollback_visitor::send_block`. -/
def rollbackReceivers (E : Env) : ℕ → Store → BlockHash → Account →
    Checked (Store × Receivable)
  | 0, _, _, _ => exhaust
  | fuel + 1, s, hash, destination =>
      match s.pendingGet hash with
      | some receivable => return (s, receivable)
      | none => do
          let s ← rollback E fuel s (latest s destination)
          rollbackReceivers E fuel s hash destination

end

end PaperNode.LedgerRollback
