import PaperNode.BlockStore

/-!
# Reading the ledger

The visitors that walk stored blocks: the account of a block, the balance as of
a block, the amount a block moves, and the block that names the representative
in force. Each follows links with no bound of its own, so each takes a budget.

The balance of a receive block asks for the amount of its source, and the
amount of a send block asks for the balance of its predecessor: the two visitors
call each other. All of them see the store through `block_get` alone, which is
the parameter `get` below.
-/
namespace PaperNode.LedgerQueries
open BoundedRecursion Blocks BlockStore

def genesisAmount : Amount := BitVec.allOnes 128

/-- `account_visitor::compute`. The loop runs until the result is non-zero; a
receive or open block that yields account zero leaves `current` unchanged. -/
def account (get : BlockHash → Option Block) : ℕ → BlockHash → Checked Account
  | 0, _ => exhaust
  | fuel + 1, current => do
      match ← demand (get current) .accountBlock with
      | .sendBlock b => account get fuel b.hashables.previous
      | .receiveBlock b =>
          match get b.hashables.source with
          | some (.sendBlock t) =>
              if t.hashables.destination = 0 then account get fuel current
              else return t.hashables.destination
          | _ => fail .accountSource
      | .openBlock b =>
          if b.hashables.account = 0 then account get fuel current
          else return b.hashables.account
      | .changeBlock b => account get fuel b.hashables.previous

mutual

/-- The loop of `balance_visitor::compute`, which ends at hash zero. -/
def balanceCompute (E : Env) (get : BlockHash → Option Block) :
    ℕ → BlockHash → Amount → Checked Amount
  | 0, _, _ => exhaust
  | fuel + 1, current, result =>
      if current = 0 then return result
      else do
        match ← demand (get current) .balanceBlock with
        | .sendBlock b => balanceCompute E get fuel 0 (result + b.hashables.balance)
        | .receiveBlock b =>
            let source ← amount E get fuel b.hashables.source
            balanceCompute E get fuel b.hashables.previous (result + source)
        | .openBlock b =>
            let source ← amount E get fuel b.hashables.source
            balanceCompute E get fuel 0 (result + source)
        | .changeBlock b => balanceCompute E get fuel b.hashables.previous result

/-- `amount_visitor::compute`: what a block moved. -/
def amount (E : Env) (get : BlockHash → Option Block) : ℕ → BlockHash → Checked Amount
  | 0, _ => exhaust
  | fuel + 1, h =>
      match get h with
      | some (.sendBlock b) => do
          let prev ← balanceCompute E get fuel b.hashables.previous 0
          return prev - b.hashables.balance
      | some (.receiveBlock b) => fromSend E get fuel b.hashables.source
      | some (.openBlock b) => fromSend E get fuel b.hashables.source
      | some (.changeBlock _) => fail .amountOfChange
      | none => if h = E.genesisAccount then return genesisAmount else fail .amountUnknown

/-- `amount_visitor::from_send` computes both balances and assigns neither, so
the visitor keeps its default-constructed zero. -/
def fromSend (E : Env) (get : BlockHash → Option Block) : ℕ → BlockHash → Checked Amount
  | 0, _ => exhaust
  | fuel + 1, h => do
      let _ ← balanceCompute E get fuel h 0
      let sourceBlock ← demand (get h) .amountSource
      let _ ← balanceCompute E get fuel sourceBlock.previous 0
      return 0

end

/-- Balance of the account containing a block, as of that block. -/
def balance (E : Env) (get : BlockHash → Option Block) (fuel : ℕ) (h : BlockHash) :
    Checked Amount :=
  balanceCompute E get fuel h 0

/-- `representative_visitor::compute`: the block naming the representative. -/
def representativeCalculated (E : Env) (get : BlockHash → Option Block) :
    ℕ → BlockHash → Checked BlockHash
  | 0, _ => exhaust
  | fuel + 1, h => do
      match ← demand (get h) .representativeBlock with
      | .sendBlock b => representativeCalculated E get fuel b.hashables.previous
      | .receiveBlock b => representativeCalculated E get fuel b.hashables.previous
      | .openBlock b => return E.hash (.openBlock b)
      | .changeBlock b => return E.hash (.changeBlock b)

def representative (E : Env) (s : Store) (fuel : ℕ) (h : BlockHash) : Checked BlockHash := do
  let result ← representativeCalculated E s.blockGet fuel h
  require (result = 0 ∨ s.blockExists result) .representativeStored
  return result

def weight (s : Store) (a : Account) : Amount := s.representationGet a

def latest (s : Store) (a : Account) : BlockHash :=
  match s.accountGet a with
  | none => 0
  | some info => info.head

end PaperNode.LedgerQueries
