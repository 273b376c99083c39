import PaperNode.Peers
import PaperNode.SwapRemoval
import PaperNode.TransitionRuns

/-!
# The exchange of peers

A keepalive carries up to eight peers of its sender. They are left over from a copy of the container
out of which entries are removed at random until the rest fits. The receiver sends a keepalive of
its own to each of them that it does not know yet.

The order of the copy is that of the hashes of the endpoints, and the random words are whatever the
generator yields; both are left open. All addresses are IPv6 by the type of the endpoints, which is
what the assertions about them say.
-/
namespace PaperNode.PeerExchange
open BoundedRecursion MessageParser Peers ProofOfWork SwapRemoval TransitionRuns

/-- `GenerateWord32` of a generator with states `σ`. Which word it yields is up to the state, but it
is between the bounds. -/
structure RandomPool (σ : Type) where
  generateWord32 : (min max : BitVec 32) → σ → BitVec 32 × σ
  within : ∀ min max s, min ≤ max →
    min ≤ (generateWord32 min max s).1 ∧ (generateWord32 min max s).1 ≤ max

/-- A generator that yields the words of a list, where they are between the bounds. -/
def scripted : RandomPool (List (BitVec 32)) where
  generateWord32 min max
    | [] => (min, [])
    | w :: ws => if min ≤ w ∧ w ≤ max then (w, ws) else (min, ws)
  within min max s hle := by
    cases s with
    | nil => exact ⟨le_refl min, hle⟩
    | cons w ws =>
        dsimp only
        split_ifs with hw
        · exact hw
        · exact ⟨le_refl min, hle⟩

/-- The order in which the index of the endpoints is walked. -/
structure FirstIndex where
  walk : PeerContainer → List PeerInformation
  perm : ∀ c, (walk c).Perm c.peers

/-- A copy, made while the container is locked. -/
def list (index : FirstIndex) (c : PeerContainer) : List PeerInformation := index.walk c

/-- The assertions of `random_fill`, and accesses outside of its list. -/
inductive FillFault where
  | indexBelow | indexNonnegative | outOfBounds | fits | targetEnd
  deriving DecidableEq, Repr

abbrev FillChecked := Check FillFault

/-- The last entry is copied over the one at the place, unless it is that one. -/
def overwrite (peers : List PeerInformation) (index : ℕ) : FillChecked (List PeerInformation) :=
  if index ≠ peers.length - 1 then do
    let last ← demand peers[peers.length - 1]? .outOfBounds
    require (index < peers.length) .outOfBounds
    return peers.set index last
  else return peers

def popBack (peers : List PeerInformation) : FillChecked (List PeerInformation) := do
  require (peers ≠ []) .outOfBounds
  return peers.dropLast

section Thinning
variable {σ : Type} (pool : RandomPool σ)

/-- The size is reduced to the width of the generator's words. -/
def draw (peers : List PeerInformation) (s : σ) : BitVec 32 × σ :=
  pool.generateWord32 0 (BitVec.ofNat 32 (peers.length - 1)) s

def thinOne (peers : List PeerInformation) (s : σ) :
    FillChecked (List PeerInformation × σ) := do
  let index := (draw pool peers s).1.toNat
  require (index < peers.length) .indexBelow
  require (0 ≤ index) .indexNonnegative -- the word is unsigned
  let moved ← overwrite peers index
  let rest ← popBack moved
  return (rest, (draw pool peers s).2)

/-- The loop that runs while there are more than `size` peers. -/
def thin (size : ℕ) : ℕ → List PeerInformation → σ → FillChecked (List PeerInformation × σ)
  | 0, _, _ => exhaust
  | fuel + 1, peers, s =>
      if size < peers.length then do
        let one ← thinOne pool peers s
        thin size fuel one.1 one.2
      else return (peers, s)

variable {peers : List PeerInformation} {s : σ}

theorem draw_lt (hpos : 0 < peers.length) : (draw pool peers s).1.toNat < peers.length := by
  have hzero : (0 : BitVec 32) ≤ BitVec.ofNat 32 (peers.length - 1) := by
    rw [BitVec.le_def]
    exact Nat.zero_le _
  have hle := (pool.within _ _ s hzero).2
  rw [BitVec.le_def, BitVec.toNat_ofNat] at hle
  have hmod := Nat.mod_le (peers.length - 1) (2 ^ 32)
  unfold draw
  omega

theorem overwrite_popBack {index : ℕ} (h : index < peers.length) :
    (overwrite peers index >>= popBack) = .ok (remove peers index h) := by
  have hlast : peers.length - 1 < peers.length := by omega
  have hne : peers ≠ [] := List.ne_nil_of_length_pos (by omega)
  unfold overwrite
  split_ifs with hindex
  · have hset : peers.set index peers[peers.length - 1] ≠ [] := by simpa using hne
    rw [List.getElem?_eq_getElem hlast, demand, ok_bind, require_of h]
    simp only [ok_bind, pure_bind, popBack, require_of hset]
    rfl
  · -- the last entry was drawn, and is only cut off
    rw [remove_last h (not_not.mp hindex), pure_bind, popBack, require_of hne]
    rfl

theorem thinOne_eq (hpos : 0 < peers.length) :
    ∃ removed rest t, thinOne pool peers s = .ok (rest, t) ∧ peers.Perm (removed :: rest) ∧
      rest.length = peers.length - 1 := by
  have hindex := draw_lt pool (s := s) hpos
  refine ⟨_, _, (draw pool peers s).2, ?_, perm_cons_remove hindex, length_remove hindex⟩
  simp only [thinOne, require_of hindex, require_of (Nat.zero_le _), ok_bind]
  rw [← bind_assoc, overwrite_popBack hindex]
  rfl

/-- The loop ends with as many peers as there are or fit. Those that are removed and those that stay
are the peers before. -/
theorem thin_eq (size : ℕ) {fuel : ℕ} (hfuel : peers.length < fuel) :
    ∃ removed rest t, thin pool size fuel peers s = .ok (rest, t) ∧
      peers.Perm (removed ++ rest) ∧ rest.length = min size peers.length := by
  induction fuel generalizing peers s with
  | zero => exact absurd hfuel (Nat.not_lt_zero _)
  | succ fuel ih =>
      rw [thin]
      split_ifs with hmore
      · obtain ⟨p, one, t, hone, hperm, hlength⟩ :=
          thinOne_eq pool (s := s) (Nat.zero_lt_of_lt hmore)
        -- every turn uses up one entry, so what is left of the budget is enough
        have hfuel' : one.length < fuel := by omega
        obtain ⟨removed, rest, u, hrest, hothers, hsize⟩ := ih (s := t) hfuel'
        refine ⟨p :: removed, rest, u, ?_, ?_, by omega⟩
        · rw [hone]
          exact hrest
        · exact hperm.trans (hothers.cons p)
      · exact ⟨[], peers, s, rfl, .refl _, by omega⟩

end Thinning

/-- `address_v6 {}` with port zero. -/
def unspecified : Endpoint := ⟨0, 0⟩

/-- The loop over the peers that are left, with the slot that is next. -/
def copyEndpoints : List PeerInformation → ℕ → Vector Endpoint 8 → FillChecked (Vector Endpoint 8)
  | [], _, target => return target
  | p :: peers, j, target =>
      if h : j < 8 then copyEndpoints peers (j + 1) (target.set j p.endpoint h)
      else fail .targetEnd

def randomFill {σ : Type} (pool : RandomPool σ) (index : FirstIndex) (c : PeerContainer)
    (target : Vector Endpoint 8) (s : σ) : FillChecked (Vector Endpoint 8 × σ) := do
  let peers := list index c
  let thinned ← thin pool target.size (peers.length + 1) peers s
  require (thinned.1.length ≤ target.size) .fits
  let filled ← copyEndpoints thinned.1 0 (target.map fun _ => unspecified)
  return (filled, thinned.2)

/-- The endpoints in the first slots, and nothing in the others. -/
def padded (chosen : List Endpoint) : List Endpoint :=
  chosen ++ List.replicate (8 - chosen.length) unspecified

/-- As many peers of the container as there are or fit, and none twice. -/
structure Chosen (c : PeerContainer) (chosen : List Endpoint) : Prop where
  count : chosen.length = min 8 c.peers.length
  distinct : chosen.Nodup
  peers : ∀ e ∈ chosen, e ∈ endpoints c.peers

theorem copyEndpoints_eq (peers : List PeerInformation) {j : ℕ} (target : Vector Endpoint 8)
    (h : j + peers.length ≤ 8) :
    ∃ filled, copyEndpoints peers j target = .ok filled ∧
      filled.toList = target.toList.take j ++ endpoints peers ++
        target.toList.drop (j + peers.length) := by
  induction peers generalizing j target with
  | nil =>
      refine ⟨target, rfl, ?_⟩
      simp [endpoints]
  | cons p peers ih =>
      rw [List.length_cons] at h
      have hj : j < 8 := by omega
      obtain ⟨filled, hrun, hfilled⟩ := ih (j := j + 1) (target.set j p.endpoint hj) (by omega)
      refine ⟨filled, ?_, ?_⟩
      · rw [copyEndpoints, dif_pos hj, hrun]
      · have hset : j < (target.toList.set j p.endpoint).length := by
          rw [List.length_set, Vector.length_toList]
          exact hj
        rw [hfilled, Vector.toList_set, ← List.take_append_getElem hset, List.getElem_set_self,
          List.take_set_of_le (le_refl j), List.drop_set_of_lt (by omega), List.length_cons]
        simp [endpoints, Nat.add_comm, Nat.add_left_comm]

theorem chosen_of_perm {c : PeerContainer} {peers removed rest : List PeerInformation}
    (hpeers : peers.Perm c.peers) (hperm : peers.Perm (removed ++ rest))
    (hlength : rest.length = min 8 peers.length) : Chosen c (endpoints rest) := by
  have hall : (endpoints c.peers).Perm (endpoints removed ++ endpoints rest) := by
    unfold endpoints
    rw [← List.map_append]
    exact (hpeers.symm.trans hperm).map _
  refine ⟨?_, ?_, ?_⟩
  · rw [endpoints, List.length_map, hlength, hpeers.length_eq]
  · exact (List.nodup_append.mp (hall.nodup_iff.mp c.unique)).2.1
  · intro e he
    exact hall.mem_iff.mpr (List.mem_append_right _ he)

section Filling
variable {σ : Type} (pool : RandomPool σ) (index : FirstIndex) (c : PeerContainer)
  (target : Vector Endpoint 8) (s : σ)

theorem randomFill_eq :
    ∃ slots t chosen, randomFill pool index c target s = .ok (slots, t) ∧ Chosen c chosen ∧
      slots.toList = padded chosen := by
  obtain ⟨removed, rest, t, hthin, hperm, hlength⟩ :=
    thin_eq pool (s := s) 8 (Nat.lt_succ_self (list index c).length)
  have hfits : rest.length ≤ 8 := by omega
  obtain ⟨filled, hcopy, hfilled⟩ :=
    copyEndpoints_eq rest (j := 0) (target.map fun _ => unspecified) (by omega)
  refine ⟨filled, t, endpoints rest, ?_, chosen_of_perm (index.perm c) hperm hlength, ?_⟩
  · simp only [randomFill, Vector.size]
    rw [hthin, ok_bind, require_of hfits, ok_bind, hcopy]
    rfl
  · rw [hfilled, Vector.toList_map, List.map_const', Vector.length_toList, List.drop_replicate,
      List.take_zero, List.nil_append, Nat.zero_add, padded, endpoints, List.length_map]

/-- Whatever the peers, their order in the copy and the random words, the slots are filled: no
assertion fails and no access is outside of the list. The first slots hold different peers of the
container, as many as there are or fit, and the others are unspecified. -/
theorem randomFill_distinct :
    ∃ slots t chosen, randomFill pool index c target s = .ok (slots, t) ∧
      slots.toList = chosen ++ List.replicate (8 - chosen.length) ⟨0, 0⟩ ∧
      chosen.length = min 8 c.peers.length ∧ chosen.Nodup ∧
      ∀ e ∈ chosen, e ∈ endpoints c.peers := by
  obtain ⟨slots, t, chosen, hrun, hchosen, hslots⟩ := randomFill_eq pool index c target s
  exact ⟨slots, t, chosen, hrun, hslots, hchosen.count, hchosen.distinct, hchosen.peers⟩

end Filling

/-- Nine peers, of which the sixth is removed. -/
example :
    let peers := (List.range 9).map fun k => ⟨⟨1, BitVec.ofNat 16 k⟩, k, 0, 0, 0⟩
    let c : PeerContainer := ⟨⟨1, 7075⟩, peers, by decide, by decide⟩
    returns (randomFill scripted ⟨PeerContainer.peers, fun _ => .refl _⟩ c
      (Vector.replicate 8 ⟨1, 10000⟩) [5]) fun r => (r.1.toList.map fun e => e.port.toNat) =
        [0, 1, 2, 3, 4, 8, 6, 7] := by
  decide +kernel

def failedAt (now : Time) (p : PeerInformation) : PeerInformation :=
  { p with lastBootstrapFailure := now }

theorem endpoint_failedAt (now : Time) (p : PeerInformation) :
    (failedAt now p).endpoint = p.endpoint := rfl

def bootstrapFailed (now : Time) (c : PeerContainer) (e : Endpoint) : PeerContainer :=
  if e ∈ endpoints c.peers then
    { c with
      peers := modify e (failedAt now) c.peers
      unique := (endpoints_modify_perm (endpoint_failedAt now)).nodup_iff.mpr c.unique
      inOrder := inOrder_modify (endpoint_failedAt now) c.inOrder }
  else c

/-- What changes a container. A contact is an insertion too. -/
inductive PeerEvent where
  | insert (now : Time) (e : Endpoint) (hash : Blocks.BlockHash)
  | purge (now cutoff : Time)
  | bootstrapFailed (now : Time) (e : Endpoint)

def PeerEvent.apply (c : PeerContainer) : PeerEvent → PeerContainer
  | .insert now e hash => (Peers.insert now hash c e).container
  | .purge now cutoff => (purgeList now cutoff c).container
  | .bootstrapFailed now e => PeerExchange.bootstrapFailed now c e

def BuiltUp : PeerContainer → Prop :=
  Reached (fun c => c.peers = []) fun c (a : PeerEvent) d => d = a.apply c

theorem self_apply (c : PeerContainer) (a : PeerEvent) : (a.apply c).self = c.self := by
  cases a with
  | insert now e hash =>
      rw [PeerEvent.apply, Peers.insert]
      split_ifs <;> rfl
  | purge now cutoff => rfl
  | bootstrapFailed now e =>
      rw [PeerEvent.apply, bootstrapFailed]
      split_ifs <;> rfl

theorem mem_apply {c : PeerContainer} {a : PeerEvent} {e : Endpoint}
    (h : e ∈ endpoints (a.apply c).peers) : e ∈ endpoints c.peers ∨ notAPeer c e = false := by
  cases a with
  | insert now e' hash =>
      rcases mem_insert.mp h with h | ⟨rfl, hpeer⟩
      · exact .inl h
      · exact .inr hpeer
  | purge now cutoff =>
      rw [PeerEvent.apply, purgeList, endpoints_attempt] at h
      exact .inl (((List.dropWhile_sublist _).map _).mem h)
  | bootstrapFailed now e' =>
      rw [PeerEvent.apply, bootstrapFailed] at h
      split_ifs at h
      · exact .inl ((endpoints_modify_perm (endpoint_failedAt now)).mem_iff.mp h)
      · exact .inl h

theorem possible_of_builtUp {c : PeerContainer} (h : BuiltUp c) :
    ∀ e ∈ endpoints c.peers, notAPeer c e = false := by
  refine Reached.invariant (I := fun c => ∀ e ∈ endpoints c.peers, notAPeer c e = false) ?_ ?_ h
  · intro c hempty e he
    rw [hempty] at he
    cases he
  · rintro c a _ hpossible rfl e he
    have hsame : notAPeer (a.apply c) e = notAPeer c e := by
      rw [notAPeer, self_apply]
      rfl
    rw [hsame]
    rcases mem_apply he with he | hpeer
    · exact hpossible e he
    · exact hpeer

theorem notAPeer_unspecified (c : PeerContainer) : notAPeer c unspecified = true := if_pos rfl

def keepaliveHeader : Header := ⟨1, 1, 1, MessageType.code .keepalive, 0⟩

def sendKeepalive {σ : Type} (W : WorkEnv) (pool : RandomPool σ) (index : FirstIndex)
    (c : PeerContainer) (s : σ) : FillChecked (List UInt8 × σ) := do
  let filled ← randomFill pool index c (Vector.replicate 8 unspecified) s
  return ((Message.keepalive keepaliveHeader filled.1.toList).serialize W, filled.2)

/-- A peer that was heard of since the cutoff. -/
def knownPeer (cutoff now : Time) (c : PeerContainer) (e : Endpoint) : Bool :=
  match c.peers.find? (·.endpoint = e) with
  | some p => now - cutoff < p.lastContact
  | none => false

/-- The container is not locked through the loop: `view` is what it holds and what the clock shows
in each turn. -/
def mergePeers (cutoff : Time) (view : ℕ → PeerContainer × Time) : ℕ → List Endpoint → List Endpoint
  | _, [] => []
  | i, e :: es =>
      if !notAPeer (view i).1 e && !knownPeer cutoff (view i).2 (view i).1 e then
        e :: mergePeers cutoff view (i + 1) es
      else mergePeers cutoff view (i + 1) es

section Merging
variable {cutoff : Time} {view : ℕ → PeerContainer × Time}

theorem mergePeers_append (i : ℕ) (es es' : List Endpoint) :
    mergePeers cutoff view i (es ++ es') =
      mergePeers cutoff view i es ++ mergePeers cutoff view (i + es.length) es' := by
  induction es generalizing i with
  | nil => rfl
  | cons e es ih =>
      rw [List.cons_append, mergePeers, mergePeers, ih, List.length_cons,
        show i + 1 + es.length = i + (es.length + 1) by omega]
      split_ifs <;> rfl

theorem mergePeers_sublist (i : ℕ) (es : List Endpoint) :
    (mergePeers cutoff view i es).Sublist es := by
  induction es generalizing i with
  | nil => exact .slnil
  | cons e es ih =>
      rw [mergePeers]
      split_ifs
      · exact (ih _).cons_cons e
      · exact (ih _).cons e

theorem mergePeers_unspecified (i n : ℕ) :
    mergePeers cutoff view i (List.replicate n unspecified) = [] := by
  induction n generalizing i with
  | zero => rfl
  | succ n ih =>
      rw [List.replicate_succ, mergePeers, notAPeer_unspecified]
      exact ih _

theorem mergePeers_padded (i : ℕ) (chosen : List Endpoint) :
    mergePeers cutoff view i (padded chosen) = mergePeers cutoff view i chosen := by
  rw [padded, mergePeers_append, mergePeers_unspecified, List.append_nil]

/-- Each endpoint that may be a peer and is not known in its turn gets a keepalive. -/
theorem mem_mergePeers {i : ℕ} {es : List Endpoint} {e : Endpoint} :
    e ∈ mergePeers cutoff view i es ↔
      ∃ k, es[k]? = some e ∧ notAPeer (view (i + k)).1 e = false ∧
        knownPeer cutoff (view (i + k)).2 (view (i + k)).1 e = false := by
  induction es generalizing i with
  | nil => simp [mergePeers]
  | cons e' es ih =>
      rw [mergePeers, ← Nat.or_exists_add_one]
      simp only [List.getElem?_cons_zero, List.getElem?_cons_succ, Nat.add_zero, Option.some.injEq,
        ← Nat.add_assoc, Nat.add_right_comm i _ 1, ← ih]
      split_ifs with hsend
      · simp only [Bool.and_eq_true, Bool.not_eq_true'] at hsend
        rw [List.mem_cons]
        refine or_congr_left ⟨?_, fun h => h.1.symm⟩
        rintro rfl
        exact ⟨rfl, hsend⟩
      · refine (or_iff_right ?_).symm
        rintro ⟨rfl, hsend'⟩
        exact hsend (by simpa using hsend')

end Merging

theorem length_padded {c : PeerContainer} {chosen : List Endpoint} (h : Chosen c chosen) :
    (padded chosen).length = 8 := by
  have hcount := h.count
  rw [padded, List.length_append, List.length_replicate]
  omega

/-- A keepalive tells of different peers of its sender, and of nothing that may not be a peer. It is
parsed without an error wherever it arrives, and the receiver sends its own keepalives to those of
these peers that it does not know when their turn comes, to none twice, and to nobody else. -/
theorem keepalive_exchanged {σ : Type} (W : WorkEnv) (pool : RandomPool σ) (index : FirstIndex)
    {c : PeerContainer} (h : BuiltUp c) (s : σ) :
    ∃ bytes t chosen, sendKeepalive W pool index c s = .ok (bytes, t) ∧ Chosen c chosen ∧
      (∀ e ∈ chosen, notAPeer c e = false) ∧
      (∀ stack counts, parseDatagram W stack bytes counts =
        .ok (counts, [.keepalive keepaliveHeader (padded chosen)])) ∧
      ∀ cutoff view, (mergePeers cutoff view 0 (padded chosen)).Sublist chosen ∧
        ∀ e, e ∈ mergePeers cutoff view 0 (padded chosen) ↔
          ∃ k, chosen[k]? = some e ∧ notAPeer (view k).1 e = false ∧
            knownPeer cutoff (view k).2 (view k).1 e = false := by
  obtain ⟨slots, t, chosen, hrun, hchosen, hslots⟩ :=
    randomFill_eq pool index c (Vector.replicate 8 unspecified) s
  refine ⟨(Message.keepalive keepaliveHeader (padded chosen)).serialize W, t, chosen, ?_, hchosen,
    fun e he => possible_of_builtUp h e (hchosen.peers e he), ?_, ?_⟩
  · rw [sendKeepalive, hrun, ok_bind, hslots]
    rfl
  · intro stack counts
    rw [parseDatagram, deserializeBuffer_serialize stack rfl (length_padded hchosen)]
    rfl
  · intro cutoff view
    rw [mergePeers_padded]
    refine ⟨mergePeers_sublist 0 chosen, fun e => ?_⟩
    simp only [mem_mergePeers, Nat.zero_add]

/-- A node that knows one peer tells of it, and a node that knows nobody writes to this peer. -/
theorem keepalive_exchanged_one : ∃ (c : PeerContainer) (sent : List UInt8 × List (BitVec 32)),
    BuiltUp c ∧ sendKeepalive ⟨.testNetwork, fun _ => 0, true⟩ scripted
      ⟨PeerContainer.peers, fun _ => .refl _⟩ c [] = .ok sent ∧
    ∃ told, (∀ stack, parseDatagram ⟨.testNetwork, fun _ => 0, true⟩ stack sent.1 {} =
        .ok ({}, [.keepalive keepaliveHeader told])) ∧
      (⟨0xffff7f000001, 7076⟩ : Endpoint) ∈
        mergePeers 300 (fun _ => (⟨⟨0xffff7f000001, 7077⟩, [], .nil, .nil⟩, 0)) 0 told := by
  let c : PeerContainer := PeerEvent.apply ⟨⟨0xffff7f000001, 7075⟩, [], .nil, .nil⟩
    (.insert 0 ⟨0xffff7f000001, 7076⟩ 0)
  have hknown : endpoints c.peers = [⟨0xffff7f000001, 7076⟩] := by decide
  have hc : BuiltUp c := Reached.next (a := PeerEvent.insert 0 ⟨0xffff7f000001, 7076⟩ 0)
    (.start (s := ⟨⟨0xffff7f000001, 7075⟩, [], .nil, .nil⟩) rfl) rfl
  obtain ⟨bytes, t, chosen, hsent, hchosen, _, hparsed, hmerged⟩ :=
    keepalive_exchanged ⟨.testNetwork, fun _ => 0, true⟩ scripted
      ⟨PeerContainer.peers, fun _ => .refl _⟩ hc []
  have hpeers : c.peers.length = 1 := by decide
  obtain ⟨e, rfl⟩ : ∃ e, chosen = [e] :=
    List.length_eq_one_iff.mp (hchosen.count.trans (by rw [hpeers]; rfl))
  have he : e ∈ endpoints c.peers := hchosen.peers e (List.mem_singleton_self e)
  obtain rfl := List.mem_singleton.mp (hknown ▸ he)
  refine ⟨c, (bytes, t), hc, hsent, padded [⟨0xffff7f000001, 7076⟩],
    fun stack => hparsed stack {}, ?_⟩
  exact ((hmerged 300 _).2 _).mpr ⟨0, rfl, by decide, rfl⟩

end PaperNode.PeerExchange
