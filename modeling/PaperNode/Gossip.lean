import PaperNode.PeerExchange
import PaperNode.WalletSpending

/-!
# How blocks spread

A node that accepts a block hands it on to its peers: as a vote if it holds keys of representatives,
and as a plain block otherwise. It leaves out the peers that sent it this very block last. A peer
that gets a block notes the sender, processes the block and hands it on in turn.

The threads of a node take turns at its ledger, its gap cache and its container of peers. The loop
of `process_receive_republish` is cut where it lets go of one of them, so that between a gap and
the note of it in the cache, or between the acceptance of a block and its publication, other
threads may do anything. A datagram is in flight until it is received, and may be received twice.
-/
namespace PaperNode.Gossip
open BoundedRecursion TransitionRuns Blocks BlockStore LedgerQueries LedgerProcess BlockFormat
open MessageParser Peers ProofOfWork VoteRecords
open GapCache (Cache)
open PeerExchange (FirstIndex PeerEvent)
open Wallet (Key WalletEnv WalletStore)
open WalletSpending (SpendEnv)

/-- What the nodes share, and the clock that each of them reads. -/
structure GossipEnv extends SpendEnv where
  clock : Endpoint → ℕ → Word64

def GossipEnv.node (N : GossipEnv) (n : Endpoint) : Env := { N.ledger with now := N.clock n }

/-- `message::block_type_set`. -/
def blockTypeSet (extensions : BitVec 16) (type : BlockType) : BitVec 16 :=
  extensions &&& ~~~(0x0f00 : BitVec 16) ||| BitVec.ofNat 16 ((BlockType.code type).toNat <<< 8)

def blockHeader (type : MessageType) (b : Block) : Header :=
  ⟨1, 1, 1, type.code, blockTypeSet 0 b.type⟩

theorem blockType_blockHeader (type : MessageType) (b : Block) :
    (blockHeader type b).blockType = some b.type := by
  have hset : ∀ t : BlockType,
      BlockType.ofCode (UInt8.ofNat ((blockTypeSet 0 t &&& 0x0f00) >>> 8).toNat) = some t := by
    intro t
    cases t <;> decide
  exact hset b.type

structure Packet where
  source : Endpoint
  destination : Endpoint
  message : Message
  deriving DecidableEq, Repr

/-- The block that a message is about. -/
def about : Message → Option Block
  | .keepalive _ _ => none
  | .publish _ b => some b
  | .confirmReq _ b => some b
  | .confirmAck _ v => some v.block

def newVote (S : SpendEnv) (account prv : Key) (sequence : Word64) (b : Block) : Vote :=
  let vote : Vote := ⟨sequence, b, account, 0⟩
  { vote with signature := S.signMessage prv account (vote.hash S.ledger) }

section Send
variable (S : SpendEnv) (c : PeerContainer)

def publish (b : Block) (e : Endpoint) : Packet :=
  ⟨c.self, e, .publish (blockHeader .publish b) b⟩

def sendConfirmReq (e : Endpoint) (b : Block) : Packet :=
  ⟨c.self, e, .confirmReq (blockHeader .confirmReq b) b⟩

def confirmBlock (prv pub : Key) (b : Block) (sequence : Word64) (e : Endpoint) : Packet :=
  ⟨c.self, e, .confirmAck (blockHeader .confirmAck b) (newVote S pub prv sequence b)⟩

def knowsAbout (e : Endpoint) (h : BlockHash) : Bool :=
  match c.peers.find? (fun p => decide (p.endpoint = e)) with
  | some existing => decide (existing.mostRecent = h)
  | none => false

def unaware (list : List PeerInformation) (b : Block) : List Endpoint :=
  (endpoints list).filter fun e => !knowsAbout c e (S.ledger.hash b)

/-- `representatives` are the keys that `foreach_representative` comes by. The flag says whether
anything was sent. -/
def confirmBroadcast (representatives : List (Key × Key)) (list : List PeerInformation) (b : Block)
    (sequence : Word64) : Bool × List Packet :=
  let sent := representatives.flatMap fun (pub, prv) =>
    (unaware S c list b).map (confirmBlock S c prv pub b sequence)
  (!sent.isEmpty, sent)

def republishBlock (index : FirstIndex) (representatives : List (Key × Key)) (b : Block) :
    List Packet :=
  let list := PeerExchange.list index c
  let (confirmed, sent) := confirmBroadcast S c representatives list b 0
  if !confirmed then sent ++ (unaware S c list b).map (publish c b) else sent

def broadcastConfirmReq (index : FirstIndex) (b : Block) : List Packet :=
  (endpoints (PeerExchange.list index c)).map fun e => sendConfirmReq c e b

def processConfirmation (representatives : List (Key × Key)) (b : Block) (sender : Endpoint) :
    List Packet :=
  representatives.map fun (pub, prv) => confirmBlock S c prv pub b 0 sender

/-- A packet of the node, with a message about the block. -/
structure Carries (b : Block) (p : Packet) : Prop where
  source : p.source = c.self
  about : about p.message = some b
  wellFormed : p.message.WellFormed

variable {S c} {b : Block} {p : Packet} {e : Endpoint} {index : FirstIndex}
  {representatives : List (Key × Key)} {list : List PeerInformation} {sequence : Word64}

theorem carries_confirmBlock (prv pub : Key) :
    Carries c b (confirmBlock S c prv pub b sequence e) :=
  ⟨rfl, rfl, rfl, blockType_blockHeader .confirmAck b⟩

theorem carries_confirmBroadcast
    (h : p ∈ (confirmBroadcast S c representatives list b sequence).2) : Carries c b p := by
  obtain ⟨⟨pub, prv⟩, _, hp⟩ := List.mem_flatMap.mp h
  obtain ⟨e, _, rfl⟩ := List.mem_map.mp hp
  exact carries_confirmBlock prv pub

theorem carries_republishBlock (h : p ∈ republishBlock S c index representatives b) :
    Carries c b p := by
  unfold republishBlock at h
  dsimp only at h
  split_ifs at h
  · rcases List.mem_append.mp h with h | h
    · exact carries_confirmBroadcast h
    · obtain ⟨e, _, rfl⟩ := List.mem_map.mp h
      exact ⟨rfl, rfl, rfl, blockType_blockHeader .publish b⟩
  · exact carries_confirmBroadcast h

theorem carries_broadcastConfirmReq (h : p ∈ broadcastConfirmReq c index b) : Carries c b p := by
  obtain ⟨e, _, rfl⟩ := List.mem_map.mp h
  exact ⟨rfl, rfl, rfl, blockType_blockHeader .confirmReq b⟩

theorem exists_republished (he : e ∈ endpoints c.peers)
    (hknows : knowsAbout c e (S.ledger.hash b) = false) :
    ∃ p ∈ republishBlock S c index representatives b, p.destination = e := by
  have hunaware : e ∈ unaware S c (PeerExchange.list index c) b := by
    refine List.mem_filter.mpr ⟨?_, by simp [hknows]⟩
    exact ((index.perm c).map _).mem_iff.mpr he
  unfold republishBlock
  dsimp only
  split_ifs with hconfirmed
  · exact ⟨publish c b e, List.mem_append_right _ (List.mem_map_of_mem hunaware), rfl⟩
  · -- something was sent, so there is a representative, and it votes to all of them
    cases representatives with
    | nil => exact absurd rfl hconfirmed
    | cons key keys =>
        refine ⟨confirmBlock S c key.2 key.1 b 0 e, ?_, rfl⟩
        exact List.mem_flatMap.mpr ⟨key, List.mem_cons_self .., List.mem_map_of_mem hunaware⟩

theorem exists_of_knowsAbout {h : BlockHash} (hknows : knowsAbout c e h = true) :
    ∃ q ∈ c.peers, q.endpoint = e ∧ q.mostRecent = h := by
  unfold knowsAbout at hknows
  cases hq : c.peers.find? (fun p => decide (p.endpoint = e)) with
  | none => simp [hq] at hknows
  | some q =>
      refine ⟨q, List.mem_of_find?_eq_some hq, by simpa using List.find?_some hq, ?_⟩
      simpa [hq] using hknows

end Send

section Receive
variable {W : WorkEnv} {m : Message} {b : Block}

/-- The parser reads back what was written, and looks at the work. -/
theorem deserializeBuffer_about (stack : ℕ → Endpoint) (hm : m.WellFormed) (hb : about m = some b) :
    deserializeBuffer W stack {} (m.serialize W) =
      .ok (finish {} m (workValidateBlock W b) []) := by
  have hread : readHeader W (m.serialize W) = some (m.header, m.body) :=
    (reads_header W _ m.header _).mpr rfl
  have hblock : ∀ {h : Header} {c : Block}, h.blockType = some c.type →
      readBlock h (serialize c) = some (c, []) := by
    intro h c hc
    exact (reads_blockOf h _ c []).mpr ⟨hc, (List.append_nil _).symm⟩
  cases m with
  | keepalive h es => cases hb
  | publish h c =>
      cases hb
      simp only [deserializeBuffer, hread, Message.header, Message.body, hm.1]
      rw [if_neg (by decide), if_pos trivial]
      simp only [deserializePublish, deserializeBlockMessage, readAgain_ok hread hm.1, ok_bind]
      simp only [Message.body, Message.header, hblock hm.2]
      rfl
  | confirmReq h c =>
      cases hb
      simp only [deserializeBuffer, hread, Message.header, Message.body, hm.1]
      rw [if_neg (by decide), if_neg (by decide), if_pos trivial]
      simp only [deserializeConfirmReq, deserializeBlockMessage, readAgain_ok hread hm.1, ok_bind]
      simp only [Message.body, Message.header, hblock hm.2]
      rfl
  | confirmAck h v =>
      cases hb
      have hvote : readVote h (writeVote v) = some (v, []) :=
        (reads_vote h _ v []).mpr ⟨hm.2, (List.append_nil _).symm⟩
      simp only [deserializeBuffer, hread, Message.header, Message.body, hm.1]
      rw [if_neg (by decide), if_neg (by decide), if_neg (by decide), if_pos trivial]
      simp only [deserializeConfirmAck, hread, Message.body, Message.header, hvote]

theorem receiveAction_about (stack : ℕ → Endpoint) (own remote : Endpoint) (counts : NetworkCounts)
    (hm : m.WellFormed) (hb : about m = some b) :
    receiveAction W stack own false true remote (m.serialize W) counts =
      .ok (if !reservedAddress remote && remote ≠ own then
        if workValidateBlock W b then
          ({ counts with insufficientWorkCount := counts.insufficientWorkCount + 1 }, [])
        else (counts, [m])
      else ({ counts with badSenderCount := counts.badSenderCount + 1 }, [])) := by
  have hparse : parseDatagram W stack (m.serialize W) counts = .ok (if workValidateBlock W b then
      ({ counts with insufficientWorkCount := counts.insufficientWorkCount + 1 }, [])
      else (counts, [m])) := by
    rw [parseDatagram, deserializeBuffer_about stack hm hb, ok_bind]
    cases workValidateBlock W b <;> rfl
  unfold receiveAction
  rw [if_pos (show (!false && true) = true from rfl), hparse]
  split_ifs <;> rfl

theorem visited_about {stack : ℕ → Endpoint} {own remote : Endpoint}
    {counts counts' : NetworkCounts} {visited : List Message} (hm : m.WellFormed)
    (hb : about m = some b)
    (h : receiveAction W stack own false true remote (m.serialize W) counts =
      .ok (counts', visited)) :
    (visited = [] ∨ visited = [m] ∧ workValidateBlock W b = false) ∧
      (reservedAddress remote = false → remote ≠ own → workValidateBlock W b = false →
        visited = [m]) := by
  rw [receiveAction_about stack own remote counts hm hb] at h
  split_ifs at h with husable hwork
  · cases h
    exact ⟨Or.inl rfl, by simp [hwork]⟩
  · cases h
    exact ⟨Or.inr ⟨rfl, by simpa using hwork⟩, fun _ _ _ => rfl⟩
  · cases h
    refine ⟨Or.inl rfl, fun hreserved hown _ => absurd ?_ husable⟩
    simp [hreserved, hown]

/-- What is noted of a peer was noted before, or is noted by the event. -/
theorem recent_apply {c : PeerContainer} {a : PeerEvent} {q : PeerInformation}
    (hq : q ∈ (a.apply c).peers) :
    (∃ q' ∈ c.peers, q'.endpoint = q.endpoint ∧ q'.mostRecent = q.mostRecent) ∨
      ∃ now, a = .insert now q.endpoint q.mostRecent := by
  have hmodified : ∀ {e : Endpoint} {f : PeerInformation → PeerInformation},
      q ∈ modify e f c.peers →
      q ∈ c.peers ∨ ∃ q' ∈ c.peers, q'.endpoint = e ∧ q = f q' := by
    intro e f h
    obtain ⟨q', hq', h⟩ := List.mem_map.mp ((modify_perm e f c.peers).mem_iff.mp h)
    split_ifs at h with he
    · exact Or.inr ⟨q', hq', he, h.symm⟩
    · exact Or.inl (h ▸ hq')
  cases a with
  | insert now e hash =>
      rw [PeerEvent.apply, Peers.insert] at hq
      split_ifs at hq
      · exact Or.inl ⟨q, hq, rfl, rfl⟩
      · rcases hmodified hq with hq | ⟨q', _, rfl, rfl⟩
        · exact Or.inl ⟨q, hq, rfl, rfl⟩
        · exact Or.inr ⟨now, rfl⟩
      · rcases List.mem_cons.mp ((place_perm _ _).mem_iff.mp hq) with rfl | hq
        · exact Or.inr ⟨now, rfl⟩
        · exact Or.inl ⟨q, hq, rfl, rfl⟩
  | purge now cutoff =>
      obtain ⟨q', hq', rfl⟩ := List.mem_map.mp hq
      exact Or.inl ⟨q', (List.dropWhile_sublist _).mem hq', rfl, rfl⟩
  | bootstrapFailed now e =>
      rw [PeerEvent.apply, PeerExchange.bootstrapFailed] at hq
      split_ifs at hq
      · rcases hmodified hq with hq | ⟨q', hq', _, rfl⟩
        · exact Or.inl ⟨q, hq, rfl, rfl⟩
        · exact Or.inl ⟨q', hq', rfl, rfl⟩
      · exact Or.inl ⟨q, hq, rfl, rfl⟩

end Receive

/-- The assertion of `foreach_representative`. -/
inductive RelayAssertion where
  | fetched
  deriving DecidableEq, Repr

/-- The accounts of one wallet that have weight, with their private keys. -/
def walletRepresentatives (E : WalletEnv) (s : Store) (w : WalletStore) :
    List Key → Check RelayAssertion (List (Key × Key))
  | [] => return []
  | account :: accounts => do
      if weight s account ≠ 0 then
        let (error, prv) := w.fetch E account 0
        require (error = false) .fetched
        return (account, prv) :: (← walletRepresentatives E s w accounts)
      else walletRepresentatives E s w accounts

/-- The keys that `foreach_representative` comes by. A locked wallet is skipped. -/
def foreachRepresentative (E : WalletEnv) (s : Store) :
    List WalletStore → Check RelayAssertion (List (Key × Key))
  | [] => return []
  | w :: wallets => do
      let here ← if w.validPassword E then walletRepresentatives E s w w.accounts else return []
      return here ++ (← foreachRepresentative E s wallets)

/-- Where a thread stands in the loop of `process_receive_republish`: a block is to be processed,
to be put into the gap cache, or to be published, or the cache is to be asked for a block that
waits. A request to confirm a block is `asked` until it is answered. The thread that received it
does so when it leaves the loop; here the answer may come at any time. -/
inductive Hand where
  | received (b : Block)
  | missing (b : Block) (needed : BlockHash)
  | accepted (b : Block)
  | fetching (h : BlockHash)
  | asked (b : Block) (sender : Endpoint)
  deriving DecidableEq, Repr

/-- Where the thread stands once a block has been processed. -/
def Hand.after (E : Env) (b : Block) : ProcessResult → Hand
  | .progress => .accepted b
  | .gapPrevious => .missing b b.previous
  | .gapSource => .missing b b.source
  | _ => .fetching (E.hash b)

structure Host where
  store : Store
  gapCache : Cache
  peers : PeerContainer
  wallets : List WalletStore
  hands : List Hand

/-- What a message asks for beside having its block processed. -/
def requests (sender : Endpoint) : Message → List Hand
  | .confirmReq _ b => [.asked b sender]
  | _ => []

/-- `network_message_visitor`, up to the loop of `process_receive_republish`. -/
def Host.visit (E : Env) (now now' : Time) (sender : Endpoint) (host : Host) (m : Message) : Host :=
  match about m with
  | none => { host with peers := contacted now host.peers sender }
  | some b =>
      { host with
        peers := (Peers.insert now' (E.hash b) (contacted now host.peers sender) sender).container
        hands := .received b :: requests sender m ++ host.hands }

/-- The end of `network_message_visitor::confirm_req`. -/
def Host.confirmReq (N : GossipEnv) (host : Host) (b : Block) (sender : Endpoint) :
    Check RelayAssertion (List Packet) := do
  if host.store.blockExists (N.ledger.hash b) then
    let representatives ← foreachRepresentative N.wallet host.store host.wallets
    return processConfirmation N.toSpendEnv host.peers representatives b sender
  else return []

/-- Every endpoint has a node, which may be idle. -/
structure Network where
  hosts : Endpoint → Host
  flight : List Packet

def Network.set (σ : Network) (n : Endpoint) (host : Host) (sent : List Packet) : Network :=
  ⟨Function.update σ.hosts n host, sent ++ σ.flight⟩

def Host.turn (host : Host) (old : Hand) (new : List Hand) : List Hand :=
  new ++ host.hands.erase old

inductive Event where
  | enter (n : Endpoint) (b : Block)
  | deliver (p : Packet)
  | resend (p : Packet)
  | process (n : Endpoint) (b : Block)
  | file (n : Endpoint) (b : Block) (needed : BlockHash)
  | republish (n : Endpoint) (b : Block)
  | fetch (n : Endpoint) (h : BlockHash)
  | answer (n : Endpoint) (b : Block) (sender : Endpoint)
  | request (n : Endpoint) (b : Block)
  | announce (n : Endpoint) (b : Block)
  | peers (n : Endpoint) (a : PeerEvent)
  | wallets (n : Endpoint) (wallets : List WalletStore)

inductive Step (N : GossipEnv) : Network → Event → Network → Prop
  /-- A block from the node's own wallets, over RPC or from a bulk push. -/
  | enter {σ n b} : Step N σ (.enter n b)
      (σ.set n { σ.hosts n with hands := .received b :: (σ.hosts n).hands } [])
  | deliver {σ p stack counts counts' visited now now'} (sent : p ∈ σ.flight)
      (parsed : receiveAction N.work stack p.destination false true p.source
        (p.message.serialize N.work) counts = .ok (counts', visited)) :
      Step N σ (.deliver p) (Network.set { σ with flight := σ.flight.erase p } p.destination
        (visited.foldl (Host.visit N.ledger now now' p.source) (σ.hosts p.destination)) [])
  | resend {σ p} (sent : p ∈ σ.flight) :
      Step N σ (.resend p) { σ with flight := p :: σ.flight }
  | process {σ n b fuel ret store} (held : .received b ∈ (σ.hosts n).hands)
      (returns : process (N.node n) fuel (σ.hosts n).store b = .ok (ret, store)) :
      Step N σ (.process n b) (σ.set n { σ.hosts n with
        store := store
        hands := (σ.hosts n).turn (.received b) [.after N.ledger b ret.code] } [])
  | file {σ n b needed} (held : .missing b needed ∈ (σ.hosts n).hands) :
      Step N σ (.file n b needed) (σ.set n { σ.hosts n with
        gapCache := GapCache.add N.ledger (σ.hosts n).gapCache b needed
        hands := (σ.hosts n).turn (.missing b needed) [.fetching (N.ledger.hash b)] } [])
  | republish {σ n b index representatives} (held : .accepted b ∈ (σ.hosts n).hands)
      (keys : foreachRepresentative N.wallet (σ.hosts n).store (σ.hosts n).wallets =
        .ok representatives) :
      Step N σ (.republish n b) (σ.set n { σ.hosts n with
        hands := (σ.hosts n).turn (.accepted b) [.fetching (N.ledger.hash b)] }
        (republishBlock N.toSpendEnv (σ.hosts n).peers index representatives b))
  | fetch {σ n h block gapCache} (held : .fetching h ∈ (σ.hosts n).hands)
      (got : GapCache.get (σ.hosts n).gapCache h = (block, gapCache)) :
      Step N σ (.fetch n h) (σ.set n { σ.hosts n with
        gapCache := gapCache
        hands := (σ.hosts n).turn (.fetching h) (block.toList.map .received) } [])
  | answer {σ n b sender sent} (held : .asked b sender ∈ (σ.hosts n).hands)
      (answered : (σ.hosts n).confirmReq N b sender = .ok sent) :
      Step N σ (.answer n b sender) (σ.set n { σ.hosts n with
        hands := (σ.hosts n).turn (.asked b sender) [] } sent)
  /-- An election starts. -/
  | request {σ n b index} :
      Step N σ (.request n b) (σ.set n (σ.hosts n)
        (broadcastConfirmReq (σ.hosts n).peers index b))
  /-- An election announces its winner. -/
  | announce {σ n b index representatives sequence}
      (keys : foreachRepresentative N.wallet (σ.hosts n).store (σ.hosts n).wallets =
        .ok representatives) :
      Step N σ (.announce n b) (σ.set n (σ.hosts n)
        (confirmBroadcast N.toSpendEnv (σ.hosts n).peers representatives
          (PeerExchange.list index (σ.hosts n).peers) b sequence).2)
  | peers {σ n a} : Step N σ (.peers n a)
      (σ.set n { σ.hosts n with peers := a.apply (σ.hosts n).peers } [])
  | wallets {σ n ws} : Step N σ (.wallets n ws)
      (σ.set n { σ.hosts n with wallets := ws } [])

end PaperNode.Gossip
