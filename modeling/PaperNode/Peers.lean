import PaperNode.MessageParser

/-!
# Peers

The container of the peers has an index for the endpoints, where each occurs once, and an index in
the order of the last contact. Here it is the list of the second index, with both facts as fields.
An endpoint has an IPv6 address; an IPv4 address is mapped into the range that starts at
`::ffff:0:0`. Addresses are compared byte by byte, so as numbers.
-/
namespace PaperNode.Peers
open BoundedRecursion Blocks MessageParser ProofOfWork

/-- Ten zeros, two bytes of ones and the four bytes of the address. -/
def mappedFromV4Bytes (x : BitVec 32) : BitVec 128 := BitVec.ofNat 128 (0xffff * 2 ^ 32 + x.toNat)

def mappedRange (first last : BitVec 32) (bytes : BitVec 128) : Bool :=
  (mappedFromV4Bytes first).toNat ≤ bytes.toNat && bytes.toNat ≤ (mappedFromV4Bytes last).toNat

/-- The last test has no upper bound. -/
def reservedAddress (e : Endpoint) : Bool :=
  let bytes := e.address
  if mappedRange 0x00000000 0x00ffffff bytes then true
  else if mappedRange 0xc0000200 0xc00002ff bytes then true
  else if mappedRange 0xc6336400 0xc63364ff bytes then true
  else if mappedRange 0xcb007100 0xcb0071ff bytes then true
  else if mappedRange 0xe9fc0000 0xe9fc00ff bytes then true
  else if (mappedFromV4Bytes 0xf0000000).toNat ≤ bytes.toNat then true
  else false

/-- The networks that are meant, with the lengths of their masks: `0.0.0.0/8`, `192.0.2.0/24`,
`198.51.100.0/24`, `203.0.113.0/24`, `233.252.0.0/24` and `240.0.0.0/4`. -/
def reservedNetworks : List (ℕ × ℕ) :=
  [(0x00000000, 8), (0xc0000200, 24), (0xc6336400, 24), (0xcb007100, 24), (0xe9fc0000, 24),
    (0xf0000000, 4)]

def InNetwork (x : BitVec 32) (network : ℕ × ℕ) : Prop :=
  x.toNat / 2 ^ (32 - network.2) = network.1 / 2 ^ (32 - network.2)

def Mapped (a : BitVec 128) : Prop := ∃ x, a = mappedFromV4Bytes x

def MappedReserved (a : BitVec 128) : Prop :=
  ∃ x, a = mappedFromV4Bytes x ∧ ∃ network ∈ reservedNetworks, InNetwork x network

theorem toNat_mappedFromV4Bytes (x : BitVec 32) :
    (mappedFromV4Bytes x).toNat = 0xffff00000000 + x.toNat := by
  have hx := x.isLt
  rw [mappedFromV4Bytes, BitVec.toNat_ofNat]
  omega

theorem eq_mappedFromV4Bytes_iff {a : BitVec 128} {x : BitVec 32} :
    a = mappedFromV4Bytes x ↔ a.toNat = 0xffff00000000 + x.toNat := by
  rw [← toNat_mappedFromV4Bytes, BitVec.toNat_inj]

theorem mapped_iff {a : BitVec 128} :
    Mapped a ↔ 0xffff00000000 ≤ a.toNat ∧ a.toNat ≤ 0xffffffffffff := by
  unfold Mapped
  constructor
  · intro h
    obtain ⟨x, hx⟩ := h
    rw [eq_mappedFromV4Bytes_iff] at hx
    have := x.isLt
    omega
  · intro h
    refine ⟨BitVec.ofNat 32 (a.toNat - 0xffff00000000), ?_⟩
    rw [eq_mappedFromV4Bytes_iff, BitVec.toNat_ofNat]
    omega

theorem reservedAddress_iff (e : Endpoint) :
    reservedAddress e = true ↔
      (0xffff00000000 ≤ e.address.toNat ∧ e.address.toNat ≤ 0xffff00ffffff) ∨
      (0xffffc0000200 ≤ e.address.toNat ∧ e.address.toNat ≤ 0xffffc00002ff) ∨
      (0xffffc6336400 ≤ e.address.toNat ∧ e.address.toNat ≤ 0xffffc63364ff) ∨
      (0xffffcb007100 ≤ e.address.toNat ∧ e.address.toNat ≤ 0xffffcb0071ff) ∨
      (0xffffe9fc0000 ≤ e.address.toNat ∧ e.address.toNat ≤ 0xffffe9fc00ff) ∨
      0xfffff0000000 ≤ e.address.toNat := by
  simp [reservedAddress, mappedRange, toNat_mappedFromV4Bytes]

theorem mappedReserved_iff (a : BitVec 128) :
    MappedReserved a ↔
      (0xffff00000000 ≤ a.toNat ∧ a.toNat ≤ 0xffff00ffffff) ∨
      (0xffffc0000200 ≤ a.toNat ∧ a.toNat ≤ 0xffffc00002ff) ∨
      (0xffffc6336400 ≤ a.toNat ∧ a.toNat ≤ 0xffffc63364ff) ∨
      (0xffffcb007100 ≤ a.toNat ∧ a.toNat ≤ 0xffffcb0071ff) ∨
      (0xffffe9fc0000 ≤ a.toNat ∧ a.toNat ≤ 0xffffe9fc00ff) ∨
      (0xfffff0000000 ≤ a.toNat ∧ a.toNat ≤ 0xffffffffffff) := by
  unfold MappedReserved
  simp only [reservedNetworks, InNetwork, List.mem_cons, List.not_mem_nil, or_false,
    exists_eq_or_imp, exists_eq_left, eq_mappedFromV4Bytes_iff]
  constructor
  · intro h
    obtain ⟨x, hx, h⟩ := h
    have := x.isLt
    omega
  · intro h
    refine ⟨BitVec.ofNat 32 (a.toNat - 0xffff00000000), ?_⟩
    rw [BitVec.toNat_ofNat]
    omega

theorem reservedAddress_exact_iff (e : Endpoint) :
    (reservedAddress e = true ↔ MappedReserved e.address) ↔
      e.address.toNat ≤ (mappedFromV4Bytes 0xffffffff).toNat := by
  rw [reservedAddress_iff, mappedReserved_iff, toNat_mappedFromV4Bytes]
  have hlast : (0xffffffff : BitVec 32).toNat = 0xffffffff := rfl
  rw [hlast]
  omega

abbrev Time := ℤ

structure PeerInformation where
  endpoint : Endpoint
  lastContact : Time
  lastAttempt : Time
  lastBootstrapFailure : Time
  mostRecent : BlockHash
  deriving DecidableEq, Repr

def InOrder (l : List PeerInformation) : Prop := l.Pairwise fun p q => p.lastContact ≤ q.lastContact

def endpoints (l : List PeerInformation) : List Endpoint := l.map PeerInformation.endpoint

structure PeerContainer where
  self : Endpoint
  peers : List PeerInformation
  unique : (endpoints peers).Nodup
  inOrder : InOrder peers

instance decidableInOrder (l : List PeerInformation) : Decidable (InOrder l) :=
  inferInstanceAs (Decidable (l.Pairwise fun p q => p.lastContact ≤ q.lastContact))

/-- An entry is put behind all that are not later. -/
def place (p : PeerInformation) : List PeerInformation → List PeerInformation
  | [] => [p]
  | q :: l => if p.lastContact < q.lastContact then p :: q :: l else q :: place p l

def update (e : Endpoint) (f : PeerInformation → PeerInformation) (l : List PeerInformation) :
    List PeerInformation :=
  l.map fun p => if p.endpoint = e then f p else p

/-- An entry that is modified stays where it is if it is still in order there, and is placed anew
otherwise. -/
def modify (e : Endpoint) (f : PeerInformation → PeerInformation) (l : List PeerInformation) :
    List PeerInformation :=
  if InOrder (update e f l) then update e f l
  else ((update e f l).filter (·.endpoint = e)).foldr place ((update e f l).filter (·.endpoint ≠ e))

section Lists
variable {e : Endpoint} {f : PeerInformation → PeerInformation} {p : PeerInformation}
  {l : List PeerInformation}

theorem place_perm (p : PeerInformation) (l : List PeerInformation) :
    (place p l).Perm (p :: l) := by
  induction l with
  | nil => exact .refl _
  | cons q l ih =>
      rw [place]
      split_ifs
      · exact .refl _
      · exact (ih.cons q).trans (.swap p q l)

theorem inOrder_place (h : InOrder l) : InOrder (place p l) := by
  induction l with
  | nil => exact List.pairwise_singleton _ _
  | cons q l ih =>
      obtain ⟨hq, hl⟩ := List.pairwise_cons.mp h
      rw [place]
      split_ifs with hlt
      · refine List.pairwise_cons.mpr ⟨?_, h⟩
        intro r hr
        rcases List.mem_cons.mp hr with rfl | hr
        · exact hlt.le
        · exact hlt.le.trans (hq r hr)
      · refine List.pairwise_cons.mpr ⟨?_, ih hl⟩
        intro r hr
        rcases List.mem_cons.mp ((place_perm p l).mem_iff.mp hr) with rfl | hr
        · exact not_lt.mp hlt
        · exact hq r hr

theorem inOrder_foldr_place (l' : List PeerInformation) (h : InOrder l) :
    InOrder (l'.foldr place l) := by
  induction l' with
  | nil => exact h
  | cons p l' ih => exact inOrder_place ih

theorem foldr_place_perm (l' l : List PeerInformation) : (l'.foldr place l).Perm (l' ++ l) := by
  induction l' with
  | nil => exact .refl _
  | cons p l' ih => exact (place_perm p _).trans (ih.cons p)

theorem modify_perm (e : Endpoint) (f : PeerInformation → PeerInformation)
    (l : List PeerInformation) : (modify e f l).Perm (update e f l) := by
  unfold modify
  split_ifs
  · exact .refl _
  · refine (foldr_place_perm _ _).trans ?_
    simpa using List.filter_append_perm (fun p : PeerInformation => decide (p.endpoint = e))
      (update e f l)

theorem endpoints_update (hf : ∀ p, (f p).endpoint = p.endpoint) :
    endpoints (update e f l) = endpoints l := by
  unfold endpoints update
  rw [List.map_map]
  refine List.map_congr_left fun p _ => ?_
  show (if p.endpoint = e then f p else p).endpoint = p.endpoint
  split_ifs
  · exact hf p
  · rfl

theorem endpoints_modify_perm (hf : ∀ p, (f p).endpoint = p.endpoint) :
    (endpoints (modify e f l)).Perm (endpoints l) :=
  endpoints_update (e := e) (l := l) hf ▸ (modify_perm e f l).map _

theorem filter_update (hf : ∀ p, (f p).endpoint = p.endpoint) :
    (update e f l).filter (·.endpoint ≠ e) = l.filter (·.endpoint ≠ e) := by
  induction l with
  | nil => rfl
  | cons p l ih =>
      rw [update, List.map_cons, List.filter_cons, List.filter_cons]
      by_cases hp : p.endpoint = e
      · simpa [update, hp, hf p] using ih
      · simpa [update, hp] using ih

theorem inOrder_modify (hf : ∀ p, (f p).endpoint = p.endpoint) (h : InOrder l) :
    InOrder (modify e f l) := by
  unfold modify
  split_ifs with hkept
  · exact hkept
  · refine inOrder_foldr_place _ ?_
    rw [filter_update hf]
    exact h.sublist List.filter_sublist

end Lists

def notAPeer (c : PeerContainer) (e : Endpoint) : Bool :=
  if e.address = 0 then true
  else if reservedAddress e then true
  else if e = c.self then true
  else false

/-- What an insertion returns, whether the observer of new peers is called, and the container. -/
structure Insertion where
  result : Bool
  unknown : Bool
  container : PeerContainer

def touch (now : Time) (hash : BlockHash) (p : PeerInformation) : PeerInformation :=
  { p with lastContact := now, mostRecent := hash }

theorem endpoint_touch (now : Time) (hash : BlockHash) (p : PeerInformation) :
    (touch now hash p).endpoint = p.endpoint := rfl

def insert (now : Time) (hash : BlockHash) (c : PeerContainer) (e : Endpoint) : Insertion :=
  if notAPeer c e then ⟨true, false, c⟩
  else if h : e ∈ endpoints c.peers then
    ⟨true, false,
      { c with
        peers := modify e (touch now hash) c.peers
        unique := (endpoints_modify_perm (endpoint_touch now hash)).nodup_iff.mpr c.unique
        inOrder := inOrder_modify (endpoint_touch now hash) c.inOrder }⟩
  else
    ⟨false, true,
      { c with
        peers := place ⟨e, now, now, 0, hash⟩ c.peers
        unique := ((place_perm _ _).map _).nodup_iff.mpr (List.nodup_cons.mpr ⟨h, c.unique⟩)
        inOrder := inOrder_place c.inOrder }⟩

def contacted (now : Time) (c : PeerContainer) (e : Endpoint) : PeerContainer :=
  (insert now 0 c e).container

theorem mem_insert {now : Time} {hash : BlockHash} {c : PeerContainer} {e e' : Endpoint} :
    e' ∈ endpoints (insert now hash c e).container.peers ↔
      e' ∈ endpoints c.peers ∨ (e' = e ∧ notAPeer c e = false) := by
  unfold insert
  split_ifs with hnot hknown
  · simp [hnot]
  · rw [(endpoints_modify_perm (endpoint_touch now hash)).mem_iff]
    constructor
    · exact .inl
    · intro h
      rcases h with h | ⟨rfl, _⟩
      · exact h
      · exact hknown
  · have hperm := (place_perm ⟨e, now, now, 0, hash⟩ c.peers).map PeerInformation.endpoint
    rw [endpoints, hperm.mem_iff]
    simp [hnot, endpoints, or_comm]

structure NetworkCounts where
  errorCount : ℕ := 0
  insufficientWorkCount : ℕ := 0
  badSenderCount : ℕ := 0
  deriving DecidableEq, Repr

section Receive
variable (W : WorkEnv) (stack : ℕ → Endpoint)

/-- The parser, and what it counts. The second part is what the visitor gets. -/
def parseDatagram (buffer : List UInt8) (s : NetworkCounts) :
    ParserChecked (NetworkCounts × List Message) := do
  let parser ← deserializeBuffer W stack {} buffer
  if parser.error then
    return ({ s with errorCount := s.errorCount + 1 }, parser.visited)
  else if parser.insufficientWork then
    return ({ s with insufficientWorkCount := s.insufficientWorkCount + 1 }, parser.visited)
  else
    return (s, parser.visited)

/-- `own` is the endpoint of the node itself. -/
def receiveAction (own : Endpoint) (error on : Bool) (remote : Endpoint) (buffer : List UInt8)
    (s : NetworkCounts) : ParserChecked (NetworkCounts × List Message) :=
  if !error && on then
    if !reservedAddress remote && remote ≠ own then parseDatagram W stack buffer s
    else return ({ s with badSenderCount := s.badSenderCount + 1 }, [])
  else return (s, [])

end Receive

/-- The tests find the reserved IPv4 ranges and nothing else, and no native address is refused for
them: it is inserted, and its datagrams are parsed. -/
structure OnlyReserved (e : Endpoint) : Prop where
  exactly : reservedAddress e = true ↔ MappedReserved e.address
  insert : ¬ Mapped e.address → ∀ now hash c, e.address ≠ 0 → e ≠ PeerContainer.self c →
    e ∈ endpoints (insert now hash c e).container.peers
  receive : ¬ Mapped e.address → ∀ W stack own buffer s, e ≠ own →
    receiveAction W stack own false true e buffer s = parseDatagram W stack buffer s

theorem not_reserved_of_native {e : Endpoint} (h : ¬ Mapped e.address)
    (hle : e.address.toNat ≤ (mappedFromV4Bytes 0xffffffff).toNat) :
    reservedAddress e = false := by
  rw [mapped_iff] at h
  have hlast : (mappedFromV4Bytes 0xffffffff).toNat = 0xffffffffffff := toNat_mappedFromV4Bytes _
  rw [hlast] at hle
  rw [← Bool.not_eq_true, reservedAddress_iff]
  omega

/-- Only reserved ranges are refused up to the last mapped address, and beyond it all addresses
are. -/
theorem onlyReserved_iff (e : Endpoint) :
    OnlyReserved e ↔ e.address.toNat ≤ (mappedFromV4Bytes 0xffffffff).toNat := by
  constructor
  · intro h
    exact (reservedAddress_exact_iff e).mp h.exactly
  · intro hle
    refine ⟨(reservedAddress_exact_iff e).mpr hle, ?_, ?_⟩
    · intro hnative now hash c hzero hself
      have hpeer : notAPeer c e = false := by
        rw [notAPeer, if_neg hzero, not_reserved_of_native hnative hle, if_neg Bool.false_ne_true,
          if_neg hself]
      exact mem_insert.mpr (.inr ⟨rfl, hpeer⟩)
    · intro hnative W stack own buffer s hown
      simp [receiveAction, hown, not_reserved_of_native hnative hle]

/-- The address `2001:db8::1`, a port, and an empty container of another node. -/
def documentation : Endpoint := ⟨0x20010db8000000000000000000000001, 7075⟩

def lonely : PeerContainer := ⟨⟨1, 7075⟩, [], List.nodup_nil, List.Pairwise.nil⟩

/-- A native address is refused by the container and its datagrams are dropped. -/
theorem native_address_refused :
    ¬ Mapped documentation.address ∧ reservedAddress documentation = true ∧
      (insert 0 0 lonely documentation).container = lonely ∧
      ∀ W stack, receiveAction W stack lonely.self false true documentation [] {} =
        .ok ({ badSenderCount := 1 }, []) := by
  have hreserved : reservedAddress documentation = true := by decide
  refine ⟨?_, hreserved, ?_, ?_⟩
  · rw [mapped_iff]
    decide
  · have hnot : notAPeer lonely documentation = true := by decide
    rw [insert, if_pos hnot]
  · intro W stack
    rw [receiveAction, hreserved]
    rfl

section Walks
variable {α : Type*} {P : α → Prop} [DecidablePred P] {l : List α}

theorem dropWhile_eq_filter (h : l.Pairwise fun a b => P b → P a) :
    l.dropWhile (fun a => P a) = l.filter (fun a => ¬ P a) := by
  induction l with
  | nil => rfl
  | cons a l ih =>
      obtain ⟨ha, hl⟩ := List.pairwise_cons.mp h
      by_cases hP : P a
      · simp [hP, ih hl]
      · have hrest : l.filter (fun a => ¬ P a) = l :=
          List.filter_eq_self.mpr fun b hb => decide_eq_true fun hPb => hP (ha b hb hPb)
        simp only [List.dropWhile_cons, List.filter_cons, hP, not_false_eq_true, decide_true,
          decide_false, if_true, if_false, hrest, Bool.false_eq_true]

theorem mem_takeWhile_iff (h : l.Pairwise fun a b => P b → P a) {a : α} (ha : a ∈ l) :
    a ∈ l.takeWhile (fun a => P a) ↔ P a := by
  induction l with
  | nil => cases ha
  | cons b l ih =>
      obtain ⟨hb, hl⟩ := List.pairwise_cons.mp h
      by_cases hP : P b
      · rcases List.mem_cons.mp ha with rfl | ha
        · simp [hP]
        · rw [List.takeWhile_cons_of_pos (by simpa using hP), List.mem_cons, ih hl ha]
          constructor
          · intro h
            rcases h with rfl | h
            · exact hP
            · exact h
          · exact .inr
      · rcases List.mem_cons.mp ha with rfl | ha
        · simp [hP]
        · simpa [hP] using fun h => hP (hb a ha h)

/-- A walk that stops at the first element without a property finds all that have it only if they
come first. -/
theorem pairwise_of_takeWhile (hnodup : l.Nodup)
    (h : ∀ a ∈ l, P a → a ∈ l.takeWhile (fun a => P a)) : l.Pairwise fun a b => P b → P a := by
  induction l with
  | nil => exact List.Pairwise.nil
  | cons a l ih =>
      obtain ⟨ha, hl⟩ := List.nodup_cons.mp hnodup
      by_cases hP : P a
      · refine List.pairwise_cons.mpr ⟨fun _ _ _ => hP, ih hl ?_⟩
        intro b hb hPb
        have hmem := h b (List.mem_cons_of_mem a hb) hPb
        rw [List.takeWhile_cons_of_pos (by simpa using hP)] at hmem
        rcases List.mem_cons.mp hmem with rfl | hmem
        · exact absurd hb ha
        · exact hmem
      · have hnone : ∀ b ∈ l, ¬ P b := by
          intro b hb hPb
          have hmem := h b (List.mem_cons_of_mem a hb) hPb
          rw [List.takeWhile_cons_of_neg (by simpa using hP)] at hmem
          cases hmem
        refine List.pairwise_cons.mpr ⟨fun b hb hPb => absurd hPb (hnone b hb), ?_⟩
        exact List.pairwise_of_forall_mem_list fun _ _ b hb hPb => absurd hPb (hnone b hb)

end Walks

/-- The peers that are left, whether the observer of the last disconnection is called, and the
container. -/
structure Purge where
  list : List PeerInformation
  disconnected : Bool
  container : PeerContainer

def attempt (now : Time) (p : PeerInformation) : PeerInformation := { p with lastAttempt := now }

theorem endpoints_attempt (now : Time) (l : List PeerInformation) :
    endpoints (l.map (attempt now)) = endpoints l := by
  rw [endpoints, List.map_map]
  rfl

theorem inOrder_attempt {l : List PeerInformation} (now : Time) (h : InOrder l) :
    InOrder (l.map (attempt now)) :=
  List.pairwise_map.mpr h

/-- The peers from the pivot on, as they were; in the container each of them is given a new time of
the last attempt. -/
def purgeList (now cutoff : Time) (c : PeerContainer) : Purge :=
  let list := c.peers.dropWhile fun p => p.lastContact < cutoff
  ⟨list, list.isEmpty,
    { c with
      peers := list.map (attempt now)
      unique := endpoints_attempt now list ▸ ((List.dropWhile_sublist _).map _).nodup c.unique
      inOrder := inOrder_attempt now (c.inOrder.sublist (List.dropWhile_sublist _)) }⟩

section Rounds
variable (period cutoff : Time)

/-- The endpoints that a round sends keepalives to, in this order. The test of the last attempt is
in the guard of the loop. -/
def ongoingKeepalive (now : Time) (c : PeerContainer) : List Endpoint × PeerContainer :=
  let purge := purgeList now (now - cutoff) c
  (endpoints (purge.list.takeWhile fun p => period < now - p.lastAttempt), purge.container)

/-- The peers that `purge_list` retains. -/
def retained (now : Time) (c : PeerContainer) : List PeerInformation :=
  c.peers.filter fun p => now - cutoff ≤ p.lastContact

/-- Of the retained peers exactly those get a keepalive whose last attempt is older than the
period. -/
def KeepalivesComplete (now : Time) (c : PeerContainer) : Prop :=
  ∀ p ∈ retained cutoff now c,
    p.endpoint ∈ (ongoingKeepalive period cutoff now c).1 ↔ period < now - p.lastAttempt

/-- In the order of the last contact, no stale peer comes after one that is not. -/
def StaleFirst (now : Time) (c : PeerContainer) : Prop :=
  (retained cutoff now c).Pairwise fun p q =>
    period < now - q.lastAttempt → period < now - p.lastAttempt

variable {period cutoff} {now : Time} {c : PeerContainer}

theorem list_purgeList (now : Time) (c : PeerContainer) :
    (purgeList now (now - cutoff) c).list = retained cutoff now c := by
  have hprefix : c.peers.Pairwise fun p q =>
      q.lastContact < now - cutoff → p.lastContact < now - cutoff :=
    c.inOrder.imp fun hpq hq => lt_of_le_of_lt hpq hq
  have hdrop := dropWhile_eq_filter hprefix
  simp only [not_lt] at hdrop
  exact hdrop

theorem nodup_retained (now : Time) (c : PeerContainer) :
    (endpoints (retained cutoff now c)).Nodup :=
  (List.filter_sublist.map _).nodup c.unique

theorem endpoint_mem_iff {p : PeerInformation} {l : List PeerInformation}
    (hl : ∀ q ∈ l, q ∈ retained cutoff now c) (hp : p ∈ retained cutoff now c) :
    p.endpoint ∈ endpoints l ↔ p ∈ l := by
  constructor
  · intro h
    obtain ⟨q, hq, heq⟩ := List.mem_map.mp h
    rwa [List.inj_on_of_nodup_map (nodup_retained now c) hp (hl q hq) heq.symm]
  · intro h
    exact List.mem_map_of_mem h

/-- A round is complete exactly if in the order of the last contact the stale peers come first. -/
theorem keepalivesComplete_iff (period cutoff now : Time) (c : PeerContainer) :
    KeepalivesComplete period cutoff now c ↔ StaleFirst period cutoff now c := by
  have hsent : ∀ p ∈ retained cutoff now c,
      (p.endpoint ∈ (ongoingKeepalive period cutoff now c).1 ↔
        p ∈ (retained cutoff now c).takeWhile fun p => period < now - p.lastAttempt) := by
    intro p hp
    rw [ongoingKeepalive, list_purgeList]
    exact endpoint_mem_iff (fun q hq => (List.takeWhile_sublist _).mem hq) hp
  constructor
  · intro h
    refine pairwise_of_takeWhile (List.Nodup.of_map _ (nodup_retained now c)) ?_
    intro p hp hstale
    exact (hsent p hp).mp ((h p hp).mpr hstale)
  · intro h p hp
    rw [hsent p hp]
    exact mem_takeWhile_iff h hp

end Rounds

/-- A round of an hour after the start, in seconds: the first peer is new since half a minute, the
second was known before the last round and heard of since. -/
def crowd : PeerContainer :=
  ⟨⟨1, 7075⟩, [⟨⟨2, 7075⟩, 3570, 3570, 0, 0⟩, ⟨⟨3, 7075⟩, 3590, 3539, 0, 0⟩], by decide, by decide⟩

/-- The new peer ends the loop, and the stale one behind it gets no keepalive. -/
theorem stale_peer_skipped :
    ¬ KeepalivesComplete 60 300 3600 crowd ∧ (ongoingKeepalive 60 300 3600 crowd).1 = [] ∧
      ⟨⟨3, 7075⟩, 3590, 3539, 0, 0⟩ ∈ retained 300 3600 crowd := by
  have hsent : (ongoingKeepalive 60 300 3600 crowd).1 = [] := by decide
  have hretained : ⟨⟨3, 7075⟩, 3590, 3539, 0, 0⟩ ∈ retained 300 3600 crowd := by decide
  refine ⟨?_, hsent, hretained⟩
  intro h
  have hmem := (h _ hretained).mpr (by decide)
  rw [hsent] at hmem
  cases hmem

end PaperNode.Peers
