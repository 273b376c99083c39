import PaperNode.BulkStream
import PaperNode.FrontierAnswer
import PaperNode.MessageParser
import PaperNode.PullStreaming

/-!
# The server of a bootstrap connection

`bootstrap_server` reads requests off its socket and queues them. The first in the queue is
answered by a `bulk_pull_server` or a `frontier_req_server`, which writes to the same socket one
buffer at a time, or by a `bulk_push_server`, which reads from it. Reading goes on while an answer
is written, so reads and writes complete in any order.

A client may send its requests without waiting. The queue keeps the answers apart: at any time at
most one read and one write are outstanding, and what has been written is the beginning of the
answers to the requests in the order they were sent. Behind a `bulk_push` no more requests are
read, so the blocks that follow it are left for the `bulk_push_server` even if it has to wait.
-/
namespace PaperNode.BootstrapServer
open BoundedRecursion OrderedTable LinkedNodes TransitionRuns Words FieldReaders Blocks BlockStore
open LedgerQueries LedgerProcess BlockLattice ChainInvariant IndexInvariant LedgerRuns
open BlockFormat BulkStream ProofOfWork MessageParser FrontierExchange FrontierAnswer BulkPull
open PullStreaming
open RollbackFuture hiding returns

/-- The messages that a bootstrap connection accepts. -/
inductive Request where
  | bulkPull (request : BulkPull.Request)
  | bulkPush
  | frontierReq (request : CountedReq)

def Request.type : Request → MessageType
  | .bulkPull _ => .bulkPull
  | .bulkPush => .bulkPush
  | .frontierReq _ => .frontierReq

def Request.body : Request → List UInt8
  | .bulkPull r => bytes 32 r.start ++ bytes 32 r.endHash
  | .bulkPush => []
  | .frontierReq r => bytes 32 r.start ++ (littleEndian 4 r.age ++ littleEndian 4 r.count)

/-- The header that the constructor of `message` makes. -/
def requestHeader (type : MessageType) : Header := ⟨1, 1, 1, type.code, 0⟩

/-- `bulk_pull::serialize`, `bulk_push::serialize` and `frontier_req::serialize`. -/
def Request.serialize (W : WorkEnv) (r : Request) : List UInt8 :=
  writeHeader W (requestHeader r.type) ++ r.body

def readBulkPull : Reader BulkPull.Request := do
  let start ← readWord 32
  let endHash ← readWord 32
  return ⟨start, endHash⟩

def readFrontierReq : Reader CountedReq := do
  let start ← readWord 32
  let age ← readLittle 4
  let count ← readLittle 4
  return ⟨⟨start, age⟩, count⟩

inductive ServerAssertion where
  | headerRead | headerType | requestsEmpty | requestMoved
  | pull (site : PullAssertion)
  | frontier (site : FrontierAssertion)
  deriving DecidableEq, Repr

/-- `bulk_pull::deserialize` and `frontier_req::deserialize`, over the whole buffer. -/
def deserializeRequest {α : Type} (W : WorkEnv) (kind : MessageType) (read : Reader α)
    (buffer : List UInt8) : Check ServerAssertion (Option α) :=
  match readHeader W buffer with
  | none => fail .headerRead
  | some (h, rest) => do
      require (h.type = kind.code) .headerType
      return (read rest).map Prod.fst

/-- A read that is outstanding: of `bootstrap_server`, for the body of a request with the header in
the buffer, or of `bulk_push_server`. -/
inductive Reading where
  | header
  | pullBody (buffer : List UInt8)
  | frontierBody (buffer : List UInt8)
  | blockType
  | block (type : UInt8)

/-- The bytes asked for. -/
def Reading.size : Reading → ℕ
  | .header => 8
  | .pullBody _ => 64
  | .frontierBody _ => 40
  | .blockType => 1
  | .block type => ((BlockType.ofCode type).bind blockSize).getD 0

/-- A response with the buffer it has handed to the socket, and where it goes on. -/
inductive Response where
  | pull (buffer : List UInt8) (server : BulkPull.Server)
  | frontier (buffer : List UInt8) (f : Frontier)
  | finished (buffer : List UInt8)

/-- A request is moved out of the queue when its response is made, and leaves an empty pointer. -/
structure Connection where
  socket : List UInt8
  sent : List UInt8 := []
  reads : List Reading := [.header]
  requests : List (Option Request) := []
  responses : List Response := []
  delivered : List Block := []

def Connection.read (c : Connection) (r : Reading) : Connection :=
  { c with reads := c.reads ++ [r] }

def writePair (p : Account × BlockHash) : List UInt8 := bytes 32 p.1 ++ bytes 32 p.2

/-- `bulk_pull_server::send_next`. -/
def pullNext (s : Store) (p : BulkPull.Server) : Check ServerAssertion Response := do
  match ← relabel .pull (p.getNext s) with
  | (some block, p) => return .pull (serializeBlock block) p
  | (none, _) => return .finished [BlockType.code .notABlock]

/-- `frontier_req_server::send_next`. -/
def frontierNext (s : Store) (f : Frontier) : Response :=
  if f.current ≠ 0 then .frontier (writePair (f.current, f.info.head)) (f.next s)
  else .finished (writePair (0, 0))

/-- `bootstrap_server::run_next`. -/
def runNext (s : Store) (now : Word64) (fuel : ℕ) (c : Connection) :
    Check ServerAssertion Connection :=
  match c.requests with
  | [] => fail .requestsEmpty
  | none :: _ => fail .requestMoved
  | some (.bulkPull request) :: rest => do
      let p ← relabel .pull (setCurrentEnd s fuel request)
      let response ← pullNext s p
      return { c with requests := none :: rest, responses := c.responses ++ [response] }
  | some .bulkPush :: _ => return c.read .blockType
  | some (.frontierReq request) :: rest => do
      let f ← relabel .frontier (frontierReqServer s now fuel request.toFrontierReq)
      return { c with
        requests := none :: rest, responses := c.responses ++ [frontierNext s f] }

/-- `bootstrap_server::add_request`. -/
def addRequest (s : Store) (now : Word64) (fuel : ℕ) (c : Connection) (r : Request) :
    Check ServerAssertion Connection :=
  let start := c.requests.isEmpty
  let c := { c with requests := c.requests ++ [some r] }
  if start then runNext s now fuel c else return c

/-- `bootstrap_server::finish_request`. -/
def finishRequest (s : Store) (now : Word64) (fuel : ℕ) (c : Connection) :
    Check ServerAssertion Connection :=
  match c.requests with
  | [] => fail .requestsEmpty
  | _ :: rest =>
      let c := { c with requests := rest }
      if rest.isEmpty then return c else runNext s now fuel c

/-- The handlers of the reads: `receive_header_action`, `receive_bulk_pull_action` and
`receive_frontier_req_action`, and `received_type` and `received_block` of `bulk_push_server`. -/
def received (W : WorkEnv) (s : Store) (now : Word64) (fuel : ℕ) (c : Connection)
    (buffer : List UInt8) : Reading → Check ServerAssertion Connection
  | .header =>
      match readHeader W buffer with
      | some (h, _) =>
          if h.type = MessageType.code .bulkPull then return c.read (.pullBody buffer)
          else if h.type = MessageType.code .frontierReq then return c.read (.frontierBody buffer)
          else if h.type = MessageType.code .bulkPush then addRequest s now fuel c .bulkPush
          else return c
      | none => return c
  | .pullBody header => do
      match ← deserializeRequest W .bulkPull readBulkPull (header ++ buffer) with
      | some request => do
          let c ← addRequest s now fuel c (.bulkPull request)
          return c.read .header
      | none => return c
  | .frontierBody header => do
      match ← deserializeRequest W .frontierReq readFrontierReq (header ++ buffer) with
      | some request => do
          let c ← addRequest s now fuel c (.frontierReq request)
          return c.read .header
      | none => return c
  | .blockType =>
      match buffer with
      | [] => return c
      | type :: _ =>
          if BlockType.ofCode type = some .notABlock then finishRequest s now fuel c
          else
            match (BlockType.ofCode type).bind blockSize with
            | none => return c
            | some _ => return c.read (.block type)
  | .block type =>
      match deserializeBlock (type :: buffer) with
      | some (b, _) =>
          return Connection.read { c with delivered := c.delivered ++ [b] } .blockType
      | none => return c

/-- The handlers of the writes. -/
def written (s : Store) (now : Word64) (fuel : ℕ) (c : Connection) :
    Response → Check ServerAssertion Connection
  | .pull buffer p => do
      let response ← pullNext s p
      return { c with sent := c.sent ++ buffer, responses := c.responses ++ [response] }
  | .frontier buffer f =>
      return { c with sent := c.sent ++ buffer, responses := c.responses ++ [frontierNext s f] }
  | .finished buffer => finishRequest s now fuel { c with sent := c.sent ++ buffer }

inductive Event where
  | read (i : ℕ)
  | written (i : ℕ)

/-- A read with all its bytes there, or a write, completes. One that fails is only logged, so it
is like one that never completes. -/
inductive Step (W : WorkEnv) (s : Store) (now : Word64) : Connection → Event → Connection → Prop
  | read {c c' : Connection} {i : ℕ} {r : Reading} : c.reads[i]? = some r →
      r.size ≤ c.socket.length →
      Settles (fun n => received W s now n
        { c with reads := c.reads.eraseIdx i, socket := c.socket.drop r.size }
        (c.socket.take r.size) r) c' → Step W s now c (.read i) c'
  | written {c c' : Connection} {i : ℕ} {w : Response} : c.responses[i]? = some w →
      Settles (fun n => written s now n { c with responses := c.responses.eraseIdx i } w) c' →
      Step W s now c (.written i) c'

def Enabled (c : Connection) : Event → Prop
  | .read i => ∃ r, c.reads[i]? = some r ∧ r.size ≤ c.socket.length
  | .written i => ∃ w, c.responses[i]? = some w

/-- The request behind a header with the given type. -/
def readBody (type : UInt8) : Reader Request :=
  if type = MessageType.code .bulkPull then do
    let r ← readBulkPull
    return .bulkPull r
  else if type = MessageType.code .frontierReq then do
    let r ← readFrontierReq
    return .frontierReq r
  else if type = MessageType.code .bulkPush then return .bulkPush
  else failure

def readRequest (W : WorkEnv) : Reader Request := do
  let h ← readHeader W
  readBody h.type

/-- The bytes a client sends: its requests, and the blocks behind a `bulk_push`. -/
structure Asked where
  requests : List Request
  blocks : List Block

def Asked.cons (r : Request) (a : Asked) : Asked := ⟨r :: a.requests, a.blocks⟩

section Requests
variable {W : WorkEnv} {socket rest : List UInt8} {h : Header} {r : Request}

theorem length_writeHeader (W : WorkEnv) (h : Header) : (writeHeader W h).length = 8 := by
  have hmagic : (magicNumber W).length = 2 := by
    unfold magicNumber
    cases W.network <;> rfl
  simp [writeHeader, hmagic, length_littleEndian]

theorem reads_bulkPull :
    Reads readBulkPull (fun r => bytes 32 r.start ++ bytes 32 r.endHash) := by
  apply ReadsWhen.reads
  apply ReadsWhen.field (fun r : BulkPull.Request => r.start) (reads_word 32)
  intro start
  apply ReadsWhen.last (fun r : BulkPull.Request => r.endHash) (reads_word 32)
  intro endHash r
  obtain ⟨a, e⟩ := r
  simp [eq_comm]

theorem reads_frontierReq : Reads readFrontierReq
    (fun r => bytes 32 r.start ++ (littleEndian 4 r.age ++ littleEndian 4 r.count)) := by
  apply ReadsWhen.reads
  apply ReadsWhen.field (fun r : CountedReq => r.start) (reads_word 32)
  intro start
  apply ReadsWhen.field (fun r : CountedReq => r.age) (reads_little 4)
  intro age
  apply ReadsWhen.last (fun r : CountedReq => r.count) (reads_little 4)
  intro count r
  obtain ⟨⟨a, b⟩, c⟩ := r
  simp [eq_comm]

theorem length_pullBody (r : BulkPull.Request) :
    (bytes 32 r.start ++ bytes 32 r.endHash).length = 64 := by
  simp [length_bytes]

theorem length_frontierBody (r : CountedReq) :
    (bytes 32 r.start ++ (littleEndian 4 r.age ++ littleEndian 4 r.count)).length = 40 := by
  simp [length_bytes, length_littleEndian]

theorem readBody_pull : readBody (MessageType.code .bulkPull) socket =
    (readBulkPull socket).map (fun x => (.bulkPull x.1, x.2)) := by
  rw [readBody, if_pos rfl]
  change (readBulkPull socket).bind _ = _
  cases readBulkPull socket <;> rfl

theorem readBody_frontier : readBody (MessageType.code .frontierReq) socket =
    (readFrontierReq socket).map (fun x => (.frontierReq x.1, x.2)) := by
  rw [readBody, if_neg (by decide), if_pos rfl]
  change (readFrontierReq socket).bind _ = _
  cases readFrontierReq socket <;> rfl

theorem readBody_push :
    readBody (MessageType.code .bulkPush) socket = some (.bulkPush, socket) := by
  rw [readBody, if_neg (by decide), if_neg (by decide), if_pos rfl]
  rfl

theorem readBody_body (r : Request) (rest : List UInt8) :
    readBody r.type.code (r.body ++ rest) = some (r, rest) := by
  cases r with
  | bulkPull q =>
      have hq : readBulkPull ((Request.bulkPull q).body ++ rest) = some (q, rest) :=
        (reads_bulkPull _ q rest).mpr rfl
      exact readBody_pull.trans (by rw [hq]; rfl)
  | frontierReq q =>
      have hq : readFrontierReq ((Request.frontierReq q).body ++ rest) = some (q, rest) :=
        (reads_frontierReq _ q rest).mpr rfl
      exact readBody_frontier.trans (by rw [hq]; rfl)
  | bulkPush => exact readBody_push

theorem readBody_length {type : UInt8} (hr : readBody type socket = some (r, rest)) :
    rest.length ≤ socket.length := by
  unfold readBody at hr
  split_ifs at hr
  · obtain ⟨q, t, hq, hr⟩ := bind_eq_some.mp hr
    obtain ⟨_, rfl⟩ := pure_eq_some.mp hr
    rw [(reads_bulkPull _ _ _).mp hq, List.length_append]
    exact Nat.le_add_left _ _
  · obtain ⟨q, t, hq, hr⟩ := bind_eq_some.mp hr
    obtain ⟨_, rfl⟩ := pure_eq_some.mp hr
    rw [(reads_frontierReq _ _ _).mp hq, List.length_append]
    exact Nat.le_add_left _ _
  · obtain ⟨_, rfl⟩ := pure_eq_some.mp hr
    exact le_rfl
  · cases hr

theorem readRequest_header (hr : readHeader W socket = some (h, rest)) :
    readRequest W socket = readBody h.type rest := by
  change (readHeader W socket).bind _ = _
  rw [hr]
  rfl

theorem readRequest_serialize (W : WorkEnv) (r : Request) (rest : List UInt8) :
    readRequest W (r.serialize W ++ rest) = some (r, rest) := by
  rw [Request.serialize, List.append_assoc, readRequest_header ((reads_header W _ _ _).mpr rfl)]
  exact readBody_body r rest

theorem readRequest_length (hr : readRequest W socket = some (r, rest)) :
    rest.length < socket.length := by
  obtain ⟨h, t, hh, hbody⟩ := bind_eq_some.mp hr
  have hle := readBody_length hbody
  rw [(reads_header W _ _ _).mp hh, List.length_append, length_writeHeader]
  omega

end Requests

/-- What the bytes ask for, read without regard to the answers. -/
def asked (W : WorkEnv) (socket : List UInt8) : Asked :=
  match _hr : readRequest W socket with
  | none => ⟨[], []⟩
  | some (.bulkPush, rest) => ⟨[.bulkPush], (pushServerReceive rest).blocks⟩
  | some (.bulkPull r, rest) => (asked W rest).cons (.bulkPull r)
  | some (.frontierReq r, rest) => (asked W rest).cons (.frontierReq r)
termination_by socket.length
decreasing_by
  · exact readRequest_length _hr
  · exact readRequest_length _hr

section Asked
variable {W : WorkEnv} {socket rest : List UInt8} {h : Header} {r : Request}

theorem asked_none (hr : readRequest W socket = none) : asked W socket = ⟨[], []⟩ := by
  rw [asked]
  split <;> simp_all

theorem asked_push (hr : readRequest W socket = some (.bulkPush, rest)) :
    asked W socket = ⟨[.bulkPush], (pushServerReceive rest).blocks⟩ := by
  rw [asked]
  split <;> simp_all

theorem asked_cons (hr : readRequest W socket = some (r, rest)) (hne : r ≠ .bulkPush) :
    asked W socket = (asked W rest).cons r := by
  rw [asked]
  split <;> simp_all

/-- What is still asked for when a read is outstanding. -/
def Reading.asked (W : WorkEnv) (socket : List UInt8) : Reading → Asked
  | .header => BootstrapServer.asked W socket
  | .pullBody _ =>
      match readBulkPull socket with
      | some (r, rest) => (BootstrapServer.asked W rest).cons (.bulkPull r)
      | none => ⟨[], []⟩
  | .frontierBody _ =>
      match readFrontierReq socket with
      | some (r, rest) => (BootstrapServer.asked W rest).cons (.frontierReq r)
      | none => ⟨[], []⟩
  | .blockType => ⟨[], (pushServerReceive socket).blocks⟩
  | .block type =>
      if socket.length < (Reading.block type).size then ⟨[], []⟩
      else
        match deserializeBlock (type :: socket.take (Reading.block type).size) with
        | none => ⟨[], []⟩
        | some (b, _) =>
            ⟨[], b :: (pushServerReceive (socket.drop (Reading.block type).size)).blocks⟩

/-- Behind a header, what is asked for is decided by its type. -/
theorem asked_header (buffer : List UInt8) (hr : readHeader W socket = some (h, rest)) :
    asked W socket =
      if h.type = MessageType.code .bulkPull then (Reading.pullBody buffer).asked W rest
      else if h.type = MessageType.code .frontierReq then
        (Reading.frontierBody buffer).asked W rest
      else if h.type = MessageType.code .bulkPush then
        ⟨[.bulkPush], (pushServerReceive rest).blocks⟩
      else ⟨[], []⟩ := by
  have hread := readRequest_header hr
  split_ifs with hpull hfrontier hpush
  · rw [hpull, readBody_pull] at hread
    rw [Reading.asked]
    cases hq : readBulkPull rest with
    | none => exact asked_none (by rw [hread, hq]; rfl)
    | some x => exact asked_cons (r := .bulkPull x.1) (by rw [hread, hq]; rfl) (nomatch ·)
  · rw [hfrontier, readBody_frontier] at hread
    rw [Reading.asked]
    cases hq : readFrontierReq rest with
    | none => exact asked_none (by rw [hread, hq]; rfl)
    | some x => exact asked_cons (r := .frontierReq x.1) (by rw [hread, hq]; rfl) (nomatch ·)
  · rw [hpush, readBody_push] at hread
    exact asked_push hread
  · refine asked_none (hread.trans ?_)
    rw [readBody, if_neg hpull, if_neg hfrontier, if_neg hpush]
    rfl

theorem asked_headerless (hr : readHeader W socket = none) : asked W socket = ⟨[], []⟩ := by
  refine asked_none ?_
  change (readHeader W socket).bind _ = none
  rw [hr]
  rfl

theorem asked_nil (W : WorkEnv) : asked W [] = ⟨[], []⟩ :=
  asked_headerless ((reads_header W).eq_none (length_writeHeader W) (by simp))

theorem asked_short {ρ : Reading} (hshort : socket.length < ρ.size) :
    ρ.asked W socket = ⟨[], []⟩ := by
  cases ρ with
  | header =>
      exact asked_headerless ((reads_header W).eq_none (length_writeHeader W) hshort)
  | pullBody buffer => rw [Reading.asked, reads_bulkPull.eq_none length_pullBody hshort]
  | frontierBody buffer =>
      rw [Reading.asked, reads_frontierReq.eq_none length_frontierBody hshort]
  | blockType =>
      have hempty : socket = [] := List.eq_nil_of_length_eq_zero (Nat.lt_one_iff.mp hshort)
      rw [hempty, Reading.asked, pushServerReceive, receiveLoop]
  | block type => rw [Reading.asked, if_pos hshort]

end Asked

/-- The answer to a request: what is sent for it. -/
def Answers (s : Store) (now : Word64) : Request → List UInt8 → Prop
  | .bulkPull r, out => ∃ p bs, Settles (fun n => setCurrentEnd s n r) p ∧
      (∃ n, sendBlocks s n p = .ok bs) ∧ out = sendStream bs
  | .bulkPush, out => out = []
  | .frontierReq r, out => ∃ f pairs,
      Settles (fun n => frontierReqServer s now n r.toFrontierReq) f ∧
      (∃ n, sendFrontiers s n f = .ok pairs) ∧ out = pairs.flatMap writePair

/-- What is still sent of a response, from the buffer that is being written on. -/
def Rest (s : Store) : Response → List UInt8 → Prop
  | .pull buffer p, out => ∃ n bs, sendBlocks s n p = .ok bs ∧ out = buffer ++ sendStream bs
  | .frontier buffer f, out => ∃ n pairs, sendFrontiers s n f = .ok pairs ∧
      out = buffer ++ pairs.flatMap writePair
  | .finished buffer, out => out = buffer

section Responses
variable {s : Store} {p : BulkPull.Server} {f : Frontier} {bs : List Block} {n : ℕ}
  {pairs : List (Account × BlockHash)}

theorem pullNext_rest (hsend : sendBlocks s n p = .ok bs) :
    ∃ w, pullNext s p = .ok w ∧ Rest s w (sendStream bs) := by
  cases n with
  | zero => exact absurd hsend (exhaust_ne_ok bs)
  | succ n =>
      rcases sendBlocks_succ hsend with ⟨hend, rfl⟩ | ⟨b, rest, _, hnext, hrest, rfl⟩
      · refine ⟨.finished [BlockType.code .notABlock], ?_, rfl⟩
        rw [pullNext, relabel_eq_ok.mpr (getNext_end hend)]
        rfl
      · refine ⟨.pull (serializeBlock b) (p.after b), ?_, n, rest, hrest, rfl⟩
        rw [pullNext, relabel_eq_ok.mpr hnext]
        rfl

theorem frontierNext_rest (hsend : sendFrontiers s n f = .ok pairs) :
    Rest s (frontierNext s f) (pairs.flatMap writePair) := by
  cases n with
  | zero => exact absurd hsend (exhaust_ne_ok pairs)
  | succ n =>
      rw [sendFrontiers] at hsend
      rcases ite_eq_ok.mp hsend with ⟨hne, hsend⟩ | ⟨hend, hsend⟩
      · obtain ⟨rest, hrest, hsend⟩ := bind_eq_ok.mp hsend
        cases hsend
        rw [frontierNext, if_pos hne]
        exact ⟨n, rest, hrest, by rw [List.flatMap_cons]⟩
      · cases hsend
        rw [frontierNext, if_neg hend]
        simp [Rest]

end Responses

/-- The header of a request in the buffer has the type of the request. -/
def Reading.Valid (W : WorkEnv) : Reading → Prop
  | .header => True
  | .pullBody buffer => ∃ h, readHeader W buffer = some (h, []) ∧
      h.type = MessageType.code .bulkPull
  | .frontierBody buffer => ∃ h, readHeader W buffer = some (h, []) ∧
      h.type = MessageType.code .frontierReq
  | .blockType | .block _ => False

/-- The reads of `bulk_push_server`. -/
def Reading.OfPush : Reading → Prop
  | .blockType => True
  | .block type => ∃ size, (BlockType.ofCode type).bind blockSize = some size
  | _ => False

def owed (W : WorkEnv) (socket : List UInt8) (ρ : Option Reading) : Asked :=
  ρ.elim ⟨[], []⟩ (Reading.asked W socket)

/-- The queue is empty, or the first in it is being answered and has left an empty pointer. What is
still to be sent for it is `out`. -/
inductive Queued (s : Store) (ans : Request → List UInt8) :
    List (Option Request) → List Response → List Request → List UInt8 → Prop
  | idle : Queued s ans [] [] [] []
  | busy {w : Response} {out : List UInt8} {rs : List Request} : Rest s w out →
      Queued s ans (none :: rs.map some) [w] rs (out ++ rs.flatMap ans)

/-- Where the connection stands, when `a` is what is asked for in all. -/
inductive Serving (W : WorkEnv) (s : Store) (ans : Request → List UInt8) (a : Asked) :
    Connection → Prop
  | asking {c : Connection} {ρ : Option Reading} {rs : List Request} {out : List UInt8} :
      c.reads = ρ.toList → (∀ r ∈ ρ, r.Valid W) → Queued s ans c.requests c.responses rs out →
      .bulkPush ∉ rs → c.sent ++ (out ++ (owed W c.socket ρ).requests.flatMap ans) =
        a.requests.flatMap ans →
      c.delivered ++ (owed W c.socket ρ).blocks = a.blocks → Serving W s ans a c
  | waiting {c : Connection} {rs : List Request} {out : List UInt8} :
      c.reads = [] → c.responses ≠ [] →
      Queued s ans c.requests c.responses (rs ++ [.bulkPush]) out → .bulkPush ∉ rs →
      c.sent ++ out = a.requests.flatMap ans →
      c.delivered ++ (pushServerReceive c.socket).blocks = a.blocks → Serving W s ans a c
  | pushing {c : Connection} {ρ : Option Reading} :
      c.reads = ρ.toList → (∀ r ∈ ρ, r.OfPush) → c.requests = [some .bulkPush] →
      c.responses = [] → c.sent = a.requests.flatMap ans →
      c.delivered ++ (owed W c.socket ρ).blocks = a.blocks → Serving W s ans a c

section Serving
variable {W : WorkEnv} {s : Store} {now : Word64} {ans : Request → List UInt8} {a : Asked}
  {c c' : Connection} {q : Request} {rs : List Request} {out : List UInt8} {ρ : Reading}
  (hans : ∀ q, Answers s now q (ans q))

include hans

/-- The response to the first request in the queue. -/
theorem runNext_settles (hne : q ≠ .bulkPush) {rest : List (Option Request)}
    (hr : c.requests = some q :: rest) (hw : c.responses = []) :
    ∃ w, Settles (fun n => runNext s now n c)
        { c with requests := none :: rest, responses := [w] } ∧
      Rest s w (ans q) := by
  have hq := hans q
  cases q with
  | bulkPush => exact absurd rfl hne
  | bulkPull r =>
      obtain ⟨p, bs, hstart, ⟨n, hsend⟩, hout⟩ := hq
      obtain ⟨w, hnext, hrest⟩ := pullNext_rest hsend
      refine ⟨w, ?_, hout ▸ hrest⟩
      filter_upwards [hstart] with n hn
      simp only [runNext, hr, relabel_eq_ok.mpr hn, ok_bind, hnext, hw]
      rfl
  | frontierReq r =>
      obtain ⟨f, pairs, hstart, ⟨n, hsend⟩, hout⟩ := hq
      refine ⟨frontierNext s f, ?_, hout ▸ frontierNext_rest hsend⟩
      filter_upwards [hstart] with n hn
      simp only [runNext, hr, relabel_eq_ok.mpr hn, ok_bind, hw]
      rfl

theorem addRequest_settles (hne : q ≠ .bulkPush) (hq : Queued s ans c.requests c.responses rs out)
    (hrs : .bulkPush ∉ rs) :
    ∃ requests responses rs', Settles (fun n => addRequest s now n c q)
        { c with requests := requests, responses := responses } ∧
      Queued s ans requests responses rs' (out ++ ans q) ∧ .bulkPush ∉ rs' := by
  obtain ⟨socket, sent, reads, requests, responses, delivered⟩ := c
  cases hq with
  | idle =>
      obtain ⟨w, hset, hrest⟩ := runNext_settles hans hne
        (c := ⟨socket, sent, reads, [some q], [], delivered⟩) rfl rfl
      refine ⟨none :: [].map some, [w], [], hset, ?_, by simp⟩
      have hqueued : Queued s ans (none :: [].map some) [w] [] (ans q ++ [].flatMap ans) :=
        .busy hrest
      simpa using hqueued
  | @busy w out rs hrest =>
      refine ⟨none :: (rs ++ [q]).map some, [w], rs ++ [q], Settles.of_forall fun n => ?_, ?_, ?_⟩
      · rw [List.map_append]
        rfl
      · have hqueued : Queued s ans _ [w] (rs ++ [q]) (out ++ (rs ++ [q]).flatMap ans) :=
          .busy hrest
        rw [List.append_assoc]
        simpa using hqueued
      · simpa [hrs] using Ne.symm hne

/-- Behind a `bulk_push` nothing is read until it is its turn. -/
theorem addRequest_push (hreads : c.reads = [])
    (hq : Queued s ans c.requests c.responses rs out) (hrs : .bulkPush ∉ rs)
    (hsent : c.sent ++ out = a.requests.flatMap ans)
    (hblocks : c.delivered ++ (pushServerReceive c.socket).blocks = a.blocks) :
    ∃ c', Settles (fun n => addRequest s now n c .bulkPush) c' ∧ Serving W s ans a c' := by
  have ha : ans .bulkPush = [] := hans .bulkPush
  obtain ⟨socket, sent, reads, requests, responses, delivered⟩ := c
  cases hreads
  cases hq with
  | idle =>
      refine ⟨⟨socket, sent, [.blockType], [some .bulkPush], [], delivered⟩,
        Settles.of_forall fun n => rfl, ?_⟩
      exact .pushing (ρ := some .blockType) rfl (by simp [Reading.OfPush]) rfl rfl
        (by simpa using hsent) hblocks
  | @busy w out rs hrest =>
      refine ⟨⟨socket, sent, [], none :: (rs ++ [Request.bulkPush]).map some, [w],
          delivered⟩,
        Settles.of_forall fun n => ?_, ?_⟩
      · rw [List.map_append]
        rfl
      · have hbusy : Queued s ans (none :: (rs ++ [Request.bulkPush]).map some) [w]
            (rs ++ [.bulkPush]) _ := .busy hrest
        refine .waiting rfl (List.cons_ne_nil w []) hbusy hrs ?_ hblocks
        simpa [ha] using hsent

omit hans in
/-- The response goes on with its next buffer. -/
theorem written_next (now : Word64) {requests : List (Option Request)} {w : Response}
    (hw : ∀ buffer, w ≠ .finished buffer) (hq : Queued s ans requests [w] rs out)
    (hc : c.responses = []) :
    ∃ buffer w' out', out = buffer ++ out' ∧ Queued s ans requests [w'] rs out' ∧
      ∀ n, written s now n c w =
        .ok { c with sent := c.sent ++ buffer, responses := [w'] } := by
  obtain ⟨socket, sent, reads, _, responses, delivered⟩ := c
  cases hc
  cases hq with
  | @busy w out rs hrest =>
      cases w with
      | finished buffer => exact absurd rfl (hw buffer)
      | pull buffer p =>
          obtain ⟨n, bs, hsend, rfl⟩ := hrest
          obtain ⟨w', hnext, hrest'⟩ := pullNext_rest hsend
          refine ⟨buffer, w', _, List.append_assoc .., .busy hrest', fun n => ?_⟩
          rw [written, hnext]
          rfl
      | frontier buffer f =>
          obtain ⟨n, pairs, hsend, rfl⟩ := hrest
          exact ⟨buffer, _, _, List.append_assoc .., .busy (frontierNext_rest hsend),
            fun n => rfl⟩

theorem finish_settles (hr : c.requests = none :: rs.map some) (hw : c.responses = [])
    (hrs : .bulkPush ∉ rs) :
    ∃ requests responses rs', Settles (fun n => finishRequest s now n c)
        { c with requests := requests, responses := responses } ∧
      Queued s ans requests responses rs' (rs.flatMap ans) ∧ .bulkPush ∉ rs' := by
  obtain ⟨socket, sent, reads, requests, responses, delivered⟩ := c
  cases hr
  cases hw
  cases rs with
  | nil => exact ⟨[], [], [], Settles.of_forall fun n => rfl, .idle, by simp⟩
  | cons q rs =>
      have hne : q ≠ .bulkPush := fun heq => hrs (heq ▸ List.mem_cons_self)
      obtain ⟨w, hset, hrest⟩ := runNext_settles hans hne
        (c := ⟨socket, sent, reads, (q :: rs).map some, [], delivered⟩) rfl rfl
      refine ⟨none :: rs.map some, [w], rs, hset, ?_, fun hmem => hrs (List.mem_cons_of_mem _ hmem)⟩
      rw [List.flatMap_cons]
      exact .busy hrest

omit hans in
theorem Queued.single (hq : Queued s ans c.requests c.responses rs out) {i : ℕ} {w : Response}
    (hi : c.responses[i]? = some w) :
    c.responses.eraseIdx i = [] ∧ ∃ out', Rest s w out' ∧ c.requests = none :: rs.map some ∧
      out = out' ++ rs.flatMap ans := by
  generalize c.requests = requests at hq
  generalize c.responses = responses at hq hi
  cases hq with
  | idle => simp at hi
  | @busy w' out rs hrest =>
      cases i with
      | zero =>
          cases hi
          exact ⟨rfl, out, hrest, rfl, rfl⟩
      | succ i => simp at hi

/-- A write completes. -/
theorem Serving.written (hc : Serving W s ans a c) {i : ℕ} {w : Response}
    (hi : c.responses[i]? = some w) :
    ∃ c', Settles (fun n => BootstrapServer.written s now n
      { c with responses := c.responses.eraseIdx i } w) c' ∧ Serving W s ans a c' := by
  cases hc with
  | @asking ρ rs out hreads hvalid hq hrs hsent hblocks =>
      obtain ⟨herase, out', hrest, hrequests, rfl⟩ := hq.single hi
      rw [herase]
      by_cases hw : ∃ buffer, w = .finished buffer
      · obtain ⟨buffer, rfl⟩ := hw
        cases hrest
        obtain ⟨requests, responses, rs', hset, hq', hrs'⟩ := finish_settles hans
          (c := { c with responses := [], sent := c.sent ++ out' }) hrequests rfl hrs
        exact ⟨_, hset, .asking hreads hvalid hq' hrs' (by simpa using hsent) hblocks⟩
      · have hq' : Queued s ans c.requests [w] rs (out' ++ rs.flatMap ans) :=
          hrequests ▸ .busy hrest
        obtain ⟨buffer, w', out₂, heq, hq', hset⟩ := written_next now
          (c := { c with responses := [] }) (fun b hb => hw ⟨b, hb⟩) hq' rfl
        rw [heq] at hsent
        exact ⟨_, Settles.of_forall hset,
          .asking hreads hvalid hq' hrs (by simpa using hsent) hblocks⟩
  | @waiting rs out hreads hresponses hq hrs hsent hblocks =>
      obtain ⟨herase, out', hrest, hrequests, rfl⟩ := hq.single hi
      rw [herase]
      by_cases hw : ∃ buffer, w = .finished buffer
      · obtain ⟨buffer, rfl⟩ := hw
        cases hrest
        have ha : ans .bulkPush = [] := hans .bulkPush
        cases rs with
        | nil =>
            refine ⟨{ c with
              responses := [], sent := c.sent ++ out', requests := [some .bulkPush],
              reads := [.blockType] }, Settles.of_forall fun n => ?_, ?_⟩
            · rw [BootstrapServer.written, finishRequest, hrequests]
              simp only [hreads]
              rfl
            · exact .pushing (ρ := some .blockType) rfl (by simp [Reading.OfPush]) rfl rfl
                (by simpa [ha] using hsent) hblocks
        | cons q rs =>
            have hne : q ≠ .bulkPush := fun heq => hrs (heq ▸ List.mem_cons_self)
            obtain ⟨w', hset, hrest'⟩ := runNext_settles hans hne
              (c := { c with
                responses := [], sent := c.sent ++ out',
                requests := some q :: (rs ++ [Request.bulkPush]).map some }) rfl rfl
            have hbusy : Queued s ans (none :: (rs ++ [Request.bulkPush]).map some) [w']
                (rs ++ [.bulkPush]) _ := .busy hrest'
            refine ⟨_, hset.congr (fun n => ?_), .waiting hreads (List.cons_ne_nil w' [])
              hbusy (fun hmem => hrs (List.mem_cons_of_mem _ hmem)) ?_ hblocks⟩
            · rw [BootstrapServer.written, finishRequest, hrequests]
              rfl
            · simpa using hsent
      · have hq' : Queued s ans c.requests [w] (rs ++ [.bulkPush])
            (out' ++ (rs ++ [Request.bulkPush]).flatMap ans) := hrequests ▸ .busy hrest
        obtain ⟨buffer, w', out₂, heq, hq', hset⟩ := written_next now
          (c := { c with responses := [] }) (fun b hb => hw ⟨b, hb⟩) hq' rfl
        rw [heq] at hsent
        exact ⟨_, Settles.of_forall hset, .waiting hreads (List.cons_ne_nil w' []) hq' hrs
          (by simpa using hsent) hblocks⟩
  | pushing hreads hpush hrequests hresponses hsent hblocks =>
      rw [hresponses] at hi
      simp at hi

theorem Serving.request (hne : q ≠ .bulkPush) (hreads : c.reads = [])
    (hq : Queued s ans c.requests c.responses rs out) (hrs : .bulkPush ∉ rs)
    (hsent : c.sent ++ (out ++ ((asked W c.socket).cons q).requests.flatMap ans) =
      a.requests.flatMap ans)
    (hblocks : c.delivered ++ ((asked W c.socket).cons q).blocks = a.blocks) :
    ∃ c', Settles (fun n => addRequest s now n c q >>= fun c => pure (c.read .header)) c' ∧
      Serving W s ans a c' := by
  obtain ⟨requests, responses, rs', hset, hq', hrs'⟩ := addRequest_settles hans hne hq hrs
  refine ⟨_, hset.bind (Settles.of_forall fun _ => rfl), ?_⟩
  refine .asking (ρ := some .header) ?_ (by simp [Reading.Valid]) hq' hrs' ?_ hblocks
  · simp [Connection.read, hreads]
  · simpa [Asked.cons, Connection.read, owed, Reading.asked] using hsent

omit hans in
/-- What `deserialize` makes of the header and the body, once both have been read. -/
theorem deserialize_body {α : Type} {kind : MessageType} {read : Reader α}
    {enc : α → List UInt8} {n : ℕ} {header socket : List UInt8} (hread : Reads read enc)
    (hn : ∀ x, (enc x).length = n) (hsize : n ≤ socket.length)
    (hheader : ∃ h, readHeader W header = some (h, []) ∧ h.type = kind.code) :
    deserializeRequest W kind read (header ++ socket.take n) =
        .ok ((read socket).map Prod.fst) ∧
      ∀ x rest, read socket = some (x, rest) → rest = socket.drop n := by
  obtain ⟨h, hh, htype⟩ := hheader
  have hh : readHeader W (header ++ socket.take n) = some (h, socket.take n) := by
    rw [reads_header W] at hh ⊢
    rw [hh, List.append_nil]
  have htake := hread.take hn hsize
  constructor
  · rw [deserializeRequest, hh]
    simp only [require_of htype, ok_bind, htake, Option.map_map]
    rfl
  · intro x rest hx
    rw [htake, Option.map_eq_some_iff] at hx
    obtain ⟨y, _, hy⟩ := hx
    exact (congrArg Prod.snd hy).symm

omit hans in
theorem single_read {ρ' : Option Reading} {i : ℕ} (hreads : c.reads = ρ'.toList)
    (hi : c.reads[i]? = some ρ) : c.reads.eraseIdx i = [] ∧ ρ' = some ρ := by
  cases ρ' with
  | none =>
      rw [hreads] at hi
      simp at hi
  | some r =>
      rw [hreads, Option.toList_some] at hi ⊢
      cases i with
      | zero =>
          cases hi
          exact ⟨rfl, rfl⟩
      | succ i => simp at hi

omit hans in
theorem Serving.stop (socket : List UInt8) (hnone : ρ.asked W c.socket = ⟨[], []⟩)
    (hq : Queued s ans c.requests c.responses rs out) (hrs : .bulkPush ∉ rs)
    (hsent : c.sent ++ (out ++ (ρ.asked W c.socket).requests.flatMap ans) =
      a.requests.flatMap ans)
    (hblocks : c.delivered ++ (ρ.asked W c.socket).blocks = a.blocks) :
    Serving W s ans a { c with reads := [], socket := socket } := by
  rw [hnone] at hsent hblocks
  exact .asking (ρ := none) rfl (by simp) hq hrs hsent hblocks

/-- The header of a request has been read. -/
theorem Serving.header (hsize : 8 ≤ c.socket.length)
    (hq : Queued s ans c.requests c.responses rs out) (hrs : .bulkPush ∉ rs)
    (hsent : c.sent ++ (out ++ (asked W c.socket).requests.flatMap ans) = a.requests.flatMap ans)
    (hblocks : c.delivered ++ (asked W c.socket).blocks = a.blocks) :
    ∃ c', Settles (fun n => received W s now n
      { c with reads := [], socket := c.socket.drop 8 } (c.socket.take 8) .header) c' ∧
      Serving W s ans a c' := by
  have htake := (reads_header W).take (length_writeHeader W) hsize
  cases hh : readHeader W (c.socket.take 8) with
  | none =>
      rw [hh] at htake
      refine ⟨_, Settles.of_forall fun n => ?_,
        Serving.stop (ρ := .header) (c.socket.drop 8) (asked_headerless htake) hq hrs hsent hblocks⟩
      simp only [received, hh]
      rfl
  | some x =>
      obtain ⟨h, t⟩ := x
      have hnil : t = [] := by
        have hlength := congrArg List.length ((reads_header W _ _ _).mp hh)
        rw [List.length_append, length_writeHeader, List.length_take_of_le hsize] at hlength
        exact List.eq_nil_of_length_eq_zero (by omega)
      subst hnil
      rw [hh] at htake
      have hasked := asked_header (c.socket.take 8) htake
      rw [hasked] at hsent hblocks
      simp only [received, hh]
      split_ifs at hsent hblocks ⊢ with hpull hfrontier hpush
      · refine ⟨_, Settles.of_forall fun n => rfl, ?_⟩
        exact .asking (ρ := some (.pullBody (c.socket.take 8))) rfl
          (by simp [Reading.Valid, hh, hpull]) hq hrs hsent hblocks
      · refine ⟨_, Settles.of_forall fun n => rfl, ?_⟩
        exact .asking (ρ := some (.frontierBody (c.socket.take 8))) rfl
          (by simp [Reading.Valid, hh, hfrontier]) hq hrs hsent hblocks
      · have ha : ans .bulkPush = [] := hans .bulkPush
        exact addRequest_push hans (c := { c with reads := [], socket := c.socket.drop 8 }) rfl hq
          hrs (by simpa [ha] using hsent) hblocks
      · refine ⟨_, Settles.of_forall fun n => rfl, ?_⟩
        exact .asking (ρ := none) rfl (by simp) hq hrs hsent hblocks

/-- The body of a request has been read. -/
theorem Serving.body {α : Type} {kind : MessageType} {read : Reader α} {enc : α → List UInt8}
    {header : List UInt8} (make : α → Request) (hmake : ∀ x, make x ≠ .bulkPush)
    (hread : Reads read enc) (hn : ∀ x, (enc x).length = ρ.size)
    (hsize : ρ.size ≤ c.socket.length)
    (hheader : ∃ h, readHeader W header = some (h, []) ∧ h.type = kind.code)
    (hnone : read c.socket = none → ρ.asked W c.socket = ⟨[], []⟩)
    (hsome : ∀ x rest, read c.socket = some (x, rest) →
      ρ.asked W c.socket = (asked W rest).cons (make x))
    (hreceived : ∀ n c buffer, received W s now n c buffer ρ =
      deserializeRequest W kind read (header ++ buffer) >>= fun request =>
        request.elim (pure c) fun x =>
          addRequest s now n c (make x) >>= fun c => pure (c.read .header))
    (hq : Queued s ans c.requests c.responses rs out) (hrs : .bulkPush ∉ rs)
    (hsent : c.sent ++ (out ++ (ρ.asked W c.socket).requests.flatMap ans) =
      a.requests.flatMap ans)
    (hblocks : c.delivered ++ (ρ.asked W c.socket).blocks = a.blocks) :
    ∃ c', Settles (fun n => received W s now n
      { c with reads := [], socket := c.socket.drop ρ.size } (c.socket.take ρ.size) ρ) c' ∧
      Serving W s ans a c' := by
  obtain ⟨hdeserialize, hrest⟩ := deserialize_body hread hn hsize hheader
  simp only [hreceived, hdeserialize, ok_bind]
  cases hx : read c.socket with
  | none =>
      exact ⟨_, Settles.of_forall fun m => rfl, Serving.stop _ (hnone hx) hq hrs hsent hblocks⟩
  | some y =>
      obtain ⟨x, rest⟩ := y
      cases hrest x rest hx
      rw [hsome x _ hx] at hsent hblocks
      exact Serving.request hans (hmake x)
        (c := { c with reads := [], socket := c.socket.drop ρ.size }) rfl hq hrs hsent hblocks

omit hans in
theorem blockSize_le {type : UInt8} {size : ℕ}
    (h : (BlockType.ofCode type).bind blockSize = some size) : 1 + size ≤ 256 := by
  obtain ⟨t, _, ht⟩ := Option.bind_eq_some_iff.mp h
  cases t with
  | invalid | notABlock => cases ht
  | sendBlock | receiveBlock | openBlock | changeBlock =>
      cases ht
      decide

omit hans in
theorem asked_block {type : UInt8} {size : ℕ} {socket : List UInt8}
    (hnot : BlockType.ofCode type ≠ some .notABlock)
    (hblock : (BlockType.ofCode type).bind blockSize = some size) :
    (pushServerReceive (type :: socket)).blocks =
      ((Reading.block type).asked W socket).blocks := by
  have hsize : (Reading.block type).size = size := by rw [Reading.size, hblock]; rfl
  rw [pushServerReceive, receiveLoop, if_neg hnot, hblock]
  simp only [Nat.not_lt_of_le (blockSize_le hblock), if_false, Reading.asked, hsize]
  split_ifs with hshort
  · rfl
  · cases deserializeBlock (type :: socket.take size) <;> rfl

omit hans in
/-- A read of `bulk_push_server` completes. -/
theorem Serving.push (hpush : ρ.OfPush) (hsize : ρ.size ≤ c.socket.length)
    (hrequests : c.requests = [some .bulkPush]) (hresponses : c.responses = [])
    (hsent : c.sent = a.requests.flatMap ans)
    (hblocks : c.delivered ++ (ρ.asked W c.socket).blocks = a.blocks) :
    ∃ c', Settles (fun n => received W s now n
      { c with reads := [], socket := c.socket.drop ρ.size } (c.socket.take ρ.size) ρ) c' ∧
      Serving W s ans a c' := by
  obtain ⟨socket, sent, reads, requests, responses, delivered⟩ := c
  cases hrequests
  cases hresponses
  cases ρ with
  | header | pullBody buffer | frontierBody buffer => exact absurd hpush id
  | blockType =>
      cases socket with
      | nil => exact absurd hsize (Nat.not_succ_le_zero 0)
      | cons type socket =>
          by_cases hnot : BlockType.ofCode type = some .notABlock
          · refine ⟨⟨socket, sent, [], [], [], delivered⟩, Settles.of_forall fun n => ?_, ?_⟩
            · simp [received, Reading.size, hnot, finishRequest]
              rfl
            · refine .asking (ρ := none) rfl (by simp) .idle (by simp) (by simpa [owed] using hsent)
                ?_
              rw [Reading.asked, pushServerReceive, receiveLoop, if_pos hnot] at hblocks
              exact hblocks
          · cases hblock : (BlockType.ofCode type).bind blockSize with
            | none =>
                refine ⟨⟨socket, sent, [], [some .bulkPush], [], delivered⟩,
                  Settles.of_forall fun n => ?_, ?_⟩
                · simp only [received, Reading.size, List.take_succ_cons, if_neg hnot, hblock]
                  rfl
                · refine .pushing (ρ := none) rfl (by simp) rfl rfl hsent ?_
                  rw [Reading.asked, pushServerReceive, receiveLoop, if_neg hnot, hblock] at hblocks
                  exact hblocks
            | some size =>
                refine ⟨⟨socket, sent, [.block type], [some .bulkPush], [], delivered⟩,
                  Settles.of_forall fun n => ?_, ?_⟩
                · simp only [received, Reading.size, List.take_succ_cons, if_neg hnot, hblock]
                  rfl
                · refine .pushing (ρ := some (.block type)) rfl ?_ rfl rfl hsent ?_
                  · simp [Reading.OfPush, hblock]
                  · rw [Reading.asked, asked_block (W := W) hnot hblock] at hblocks
                    exact hblocks
  | block type =>
      rw [Reading.asked, if_neg (Nat.not_lt_of_le hsize)] at hblocks
      cases hb : deserializeBlock (type :: socket.take (Reading.block type).size) with
      | none =>
          rw [hb] at hblocks
          refine ⟨⟨socket.drop (Reading.block type).size, sent, [], [some .bulkPush], [],
              delivered⟩,
            Settles.of_forall fun n => ?_, .pushing (ρ := none) rfl (by simp) rfl rfl hsent hblocks⟩
          simp only [received, hb]
          rfl
      | some x =>
          rw [hb] at hblocks
          refine ⟨⟨socket.drop (Reading.block type).size, sent, [.blockType], [some .bulkPush], [],
            delivered ++ [x.1]⟩, Settles.of_forall fun n => ?_, .pushing (ρ := some .blockType) rfl
              (by simp [Reading.OfPush]) rfl rfl hsent ?_⟩
          · simp only [received, hb]
            rfl
          · simpa [owed, Reading.asked] using hblocks

/-- A read completes. -/
theorem Serving.read (hc : Serving W s ans a c) {i : ℕ} (hi : c.reads[i]? = some ρ)
    (hsize : ρ.size ≤ c.socket.length) :
    ∃ c', Settles (fun n => received W s now n
      { c with reads := c.reads.eraseIdx i, socket := c.socket.drop ρ.size }
      (c.socket.take ρ.size) ρ) c' ∧ Serving W s ans a c' := by
  cases hc with
  | asking hreads hvalid hq hrs hsent hblocks =>
      obtain ⟨herase, rfl⟩ := single_read hreads hi
      have hvalid := hvalid ρ rfl
      rw [herase]
      cases ρ with
      | header => exact Serving.header hans hsize hq hrs hsent hblocks
      | pullBody header =>
          refine Serving.body hans (ρ := .pullBody header) .bulkPull (fun _ => by simp)
            reads_bulkPull length_pullBody hsize hvalid (fun h => by rw [Reading.asked, h])
            (fun x rest h => by rw [Reading.asked, h]) (fun n c buffer => ?_) hq hrs hsent hblocks
          rw [received]
          congr 1
          funext request
          cases request <;> rfl
      | frontierBody header =>
          refine Serving.body hans (ρ := .frontierBody header) .frontierReq (fun _ => by simp)
            reads_frontierReq length_frontierBody hsize hvalid
            (fun h => by rw [Reading.asked, h]) (fun x rest h => by rw [Reading.asked, h])
            (fun n c buffer => ?_) hq hrs hsent hblocks
          rw [received]
          congr 1
          funext request
          cases request <;> rfl
      | blockType => exact absurd hvalid id
      | block type => exact absurd hvalid id
  | waiting hreads =>
      rw [hreads] at hi
      simp at hi
  | pushing hreads hpush hrequests hresponses hsent hblocks =>
      obtain ⟨herase, rfl⟩ := single_read hreads hi
      rw [herase]
      exact Serving.push (hpush ρ rfl) hsize hrequests hresponses hsent hblocks

theorem Serving.next {e : Event} (hc : Serving W s ans a c) (he : Enabled c e) :
    ∃ c', Step W s now c e c' ∧ Serving W s ans a c' := by
  cases e with
  | read i =>
      obtain ⟨r, hr, hsize⟩ := he
      obtain ⟨c', hset, hc'⟩ := hc.read hans hr hsize
      exact ⟨c', .read hr hsize hset, hc'⟩
  | written i =>
      obtain ⟨w, hw⟩ := he
      obtain ⟨c', hset, hc'⟩ := hc.written hans hw
      exact ⟨c', .written hw hset, hc'⟩

end Serving

section Answers
variable {E : Env} {s : Store} {now : Word64}

end Answers

section Connections
variable {W : WorkEnv} {E : Env} {s : Store} {now : Word64} {ans : Request → List UInt8}
  {a : Asked} {c : Connection}

theorem Serving.bounded (hc : Serving W s ans a c) : c.reads.length ≤ 1 ∧
    c.responses.length ≤ 1 ∧ c.sent <+: a.requests.flatMap ans ∧ c.delivered <+: a.blocks := by
  have hqueue : ∀ {requests responses rs out}, Queued s ans requests responses rs out →
      responses.length ≤ 1 := by
    intro requests responses rs out hq
    cases hq with
    | idle => exact Nat.zero_le 1
    | busy => exact le_rfl
  have hread : ∀ ρ : Option Reading, ρ.toList.length ≤ 1 := by
    intro ρ
    cases ρ <;> simp
  cases hc with
  | @asking ρ rs out hreads _ hq _ hsent hblocks =>
      exact ⟨hreads ▸ hread ρ, hqueue hq, ⟨_, hsent⟩, ⟨_, hblocks⟩⟩
  | waiting hreads _ hq _ hsent hblocks =>
      exact ⟨by simp [hreads], hqueue hq, ⟨_, hsent⟩, ⟨_, hblocks⟩⟩
  | @pushing ρ hreads _ _ hresponses hsent hblocks =>
      exact ⟨hreads ▸ hread ρ, by simp [hresponses], hsent ▸ List.prefix_refl _, ⟨_, hblocks⟩⟩

/-- When nothing can complete any more, everything has been sent. -/
theorem Serving.complete (hc : Serving W s ans a c) (hdone : ∀ e, ¬ Enabled c e) :
    c.sent = a.requests.flatMap ans ∧ c.delivered = a.blocks := by
  have hwritten : c.responses = [] := by
    cases hr : c.responses with
    | nil => rfl
    | cons w ws => exact absurd ⟨w, by rw [hr]; rfl⟩ (hdone (.written 0))
  have hshort : ∀ ρ : Option Reading, c.reads = ρ.toList → owed W c.socket ρ = ⟨[], []⟩ := by
    intro ρ hreads
    cases ρ with
    | none => rfl
    | some r =>
        refine asked_short (not_le.mp fun hle => hdone (.read 0) ⟨r, ?_, hle⟩)
        rw [hreads]
        rfl
  cases hc with
  | @asking ρ rs out hreads _ hq _ hsent hblocks =>
      rw [hshort ρ hreads] at hsent hblocks
      rw [hwritten] at hq
      generalize c.requests = requests at hq
      cases hq
      exact ⟨by simpa using hsent, by simpa using hblocks⟩
  | waiting _ hresponses => exact absurd hwritten hresponses
  | @pushing ρ hreads _ _ _ hsent hblocks =>
      rw [hshort ρ hreads] at hblocks
      exact ⟨hsent, by simpa using hblocks⟩

end Connections

/-- Requests written one behind the other, and blocks behind a `bulk_push`, are read back as they
were written. -/
theorem asked_of_written (W : WorkEnv) (rs : List Request) (hrs : .bulkPush ∉ rs)
    (pushes : Option (List Block)) :
    asked W (rs.flatMap (Request.serialize W) ++ pushes.elim [] fun bs =>
        Request.bulkPush.serialize W ++ sendStream bs) =
      ⟨rs ++ pushes.elim [] fun _ => [.bulkPush], pushes.getD []⟩ := by
  induction rs with
  | nil =>
      rw [List.flatMap_nil, List.nil_append, List.nil_append]
      cases pushes with
      | none => exact asked_nil W
      | some bs =>
          have hstream : receiveLoop 256 (sendStream bs ++ []) = ⟨bs, .terminator, []⟩ :=
            receiveLoop_stream (by decide) bs []
          rw [List.append_nil] at hstream
          refine (asked_push (readRequest_serialize W .bulkPush (sendStream bs))).trans ?_
          rw [pushServerReceive, hstream]
          rfl
  | cons r rs ih =>
      rw [List.mem_cons, not_or] at hrs
      rw [List.flatMap_cons, List.append_assoc,
        asked_cons (readRequest_serialize W r _) (Ne.symm hrs.1), ih hrs.2]
      rfl

theorem asked_of_written_push : asked ⟨.testNetwork, fun _ => 0, true⟩
    ([Request.bulkPull ⟨5, 0⟩, .frontierReq ⟨⟨0, 10⟩, 7⟩].flatMap
        (Request.serialize ⟨.testNetwork, fun _ => 0, true⟩) ++
      (Request.bulkPush.serialize ⟨.testNetwork, fun _ => 0, true⟩ ++ sendStream [send₁])) =
    ⟨[.bulkPull ⟨5, 0⟩, .frontierReq ⟨⟨0, 10⟩, 7⟩, .bulkPush], [send₁]⟩ :=
  asked_of_written ⟨.testNetwork, fun _ => 0, true⟩ [.bulkPull ⟨5, 0⟩, .frontierReq ⟨⟨0, 10⟩, 7⟩]
    (by simp) (some [send₁])

end PaperNode.BootstrapServer
