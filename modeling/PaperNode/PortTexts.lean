import PaperNode.MessageParser
import PaperNode.TextFields
import PaperNode.UnsignedText

/-!
# Ports written as text

A port is read with `std::stoul` in three places: by `parse_port` for endpoints and for the command
`keepalive`, and in the configurations of the node and of the server for commands. In each of them
the number is first converted to the 16 bits of a port, and the check of the range that follows
cannot find it too large; the one of `parse_port` looks at the count of the characters instead.
-/
namespace PaperNode.PortTexts
open Base58 MessageParser TextFields UnsignedText

/-- What the readers take from outside: Boost reads addresses and truth values. -/
structure Texts where
  /-- `address_v6::from_string`; there is no address if it sets an error. -/
  fromString : Text → Option (BitVec 128)
  /-- `ptree::get` of a truth value; without a result it throws. -/
  getBool : Text → Option Bool

/-- The result and the port that is stored. There is neither if the conversion throws. -/
def parsePort (t : Text) : Option (Bool × BitVec 16) :=
  match stoul t with
  | none => none
  | some (number, converted) =>
      some (converted ≠ t.length || converted > 65535, BitVec.ofNat 16 number)

/-- The place of the last occurrence. -/
def rfind (c : UInt8) : Text → Option ℕ
  | [] => none
  | x :: t =>
      match rfind c t with
      | some i => some (i + 1)
      | none => if x = c then some 0 else none

section Readers
variable (T : Texts)

/-- The address in front of the last colon and the port behind it. -/
def parseAddressPort (string : Text) : Option (BitVec 128 × BitVec 16) :=
  match rfind 58 string with
  | some portPosition =>
      if portPosition > 0 then
        match parsePort (string.drop (portPosition + 1)) with
        | some (false, port) =>
            (T.fromString (string.take portPosition)).map fun address => (address, port)
        | some (true, _) => none
        | none => none
      else none
  | none => none

def parseEndpoint (string : Text) : Option Endpoint :=
  (parseAddressPort T string).map fun r => ⟨r.1, r.2⟩

def parseTcpEndpoint (string : Text) : Option Endpoint :=
  (parseAddressPort T string).map fun r => ⟨r.1, r.2⟩

/-- What comes of the command `keepalive`: the node is told the address and the port, or the reply
is a bad request, or an exception leaves the handler. -/
inductive KeepaliveOutcome where
  | contact (addressText : Text) (port : BitVec 16)
  | badRequest (content : Text)
  | escapes
  deriving DecidableEq, Repr

/-- The handler catches runtime errors. What `std::stoul` throws is a logic error. -/
def rpcKeepalive (request : Ptree) : KeepaliveOutcome :=
  match request.text (bytes "address"), request.text (bytes "port") with
  | some addressText, some portText =>
      match parsePort portText with
      | some (false, port) => .contact addressText port
      | some (true, _) => .badRequest (bytes "Invalid port")
      | none => .escapes
  | _, _ => .badRequest (bytes "Unable to parse JSON")

structure Logging where
  ledgerLogging : Bool
  ledgerDuplicateLogging : Bool
  networkLogging : Bool
  networkMessageLogging : Bool
  networkPublishLogging : Bool
  networkPacketLogging : Bool
  networkKeepaliveLogging : Bool
  nodeLifetimeTracing : Bool
  insufficientWorkLogging : Bool
  logRpc : Bool
  bulkPullLogging : Bool
  workGenerationTime : Bool
  logToCerr : Bool
  deriving DecidableEq, Repr

def getBool (tree : Ptree) (name : Text) : Option Bool := (tree.text name).bind T.getBool

def Logging.deserializeJson (tree : Ptree) : Option Logging := do
  let ledger ← getBool T tree (bytes "ledger")
  let ledgerDuplicate ← getBool T tree (bytes "ledger_duplicate")
  let network ← getBool T tree (bytes "network")
  let networkMessage ← getBool T tree (bytes "network_message")
  let networkPublish ← getBool T tree (bytes "network_publish")
  let networkPacket ← getBool T tree (bytes "network_packet")
  let networkKeepalive ← getBool T tree (bytes "network_keepalive")
  let nodeLifetimeTracing ← getBool T tree (bytes "node_lifetime_tracing")
  let insufficientWork ← getBool T tree (bytes "insufficient_work")
  let logRpc ← getBool T tree (bytes "log_rpc")
  let bulkPull ← getBool T tree (bytes "bulk_pull")
  let workGenerationTime ← getBool T tree (bytes "work_generation_time")
  let logToCerr ← getBool T tree (bytes "log_to_cerr")
  return ⟨ledger, ledgerDuplicate, network, networkMessage, networkPublish, networkPacket,
    networkKeepalive, nodeLifetimeTracing, insufficientWork, logRpc, bulkPull, workGenerationTime,
    logToCerr⟩

structure NodeConfig where
  peeringPort : BitVec 16
  logging : Logging
  preconfiguredPeers : List Text
  packetDelayMicroseconds : BitVec 32
  bootstrapFractionNumerator : BitVec 32
  creationRebroadcast : BitVec 32
  rebroadcastDelay : BitVec 32
  deriving DecidableEq, Repr

def readUnsigned (w : ℕ) (t : Text) : Option (BitVec w) := (stoul t).map fun r => BitVec.ofNat w r.1

def child (tree : Ptree) (name : Text) : Option Ptree :=
  tree.getChild (PropertyTree.segments 46 name)

/-- The texts of a configuration and its part on logging, before any of them is converted. -/
structure NodeConfig.Parts where
  peeringPort : Text
  packetDelayMicroseconds : Text
  bootstrapFractionNumerator : Text
  creationRebroadcast : Text
  rebroadcastDelay : Text
  logging : Ptree
  preconfiguredPeers : List Text

def NodeConfig.parts (tree : Ptree) : Option NodeConfig.Parts := do
  let peeringPort ← tree.text (bytes "peering_port")
  let packetDelayMicroseconds ← tree.text (bytes "packet_delay_microseconds")
  let bootstrapFractionNumerator ← tree.text (bytes "bootstrap_fraction_numerator")
  let creationRebroadcast ← tree.text (bytes "creation_rebroadcast")
  let rebroadcastDelay ← tree.text (bytes "rebroadcast_delay")
  let logging ← child tree (bytes "logging")
  let preconfiguredPeers ← child tree (bytes "preconfigured_peers")
  return ⟨peeringPort, packetDelayMicroseconds, bootstrapFractionNumerator, creationRebroadcast,
    rebroadcastDelay, logging, preconfiguredPeers.children.map fun m => m.2.data⟩

/-- The numbers are converted, then compared with their limits. -/
def NodeConfig.convert (parts : NodeConfig.Parts) : Option NodeConfig := do
  let peeringPort ← readUnsigned 16 parts.peeringPort
  let packetDelayMicroseconds ← readUnsigned 32 parts.packetDelayMicroseconds
  let bootstrapFractionNumerator ← readUnsigned 32 parts.bootstrapFractionNumerator
  let creationRebroadcast ← readUnsigned 32 parts.creationRebroadcast
  let rebroadcastDelay ← readUnsigned 32 parts.rebroadcastDelay
  if creationRebroadcast.toNat > 10 then none
  else if rebroadcastDelay.toNat > 300 then none
  else if peeringPort.toNat > 65535 then none
  else do
    let logging ← Logging.deserializeJson T parts.logging
    return ⟨peeringPort, logging, parts.preconfiguredPeers, packetDelayMicroseconds,
      bootstrapFractionNumerator, creationRebroadcast, rebroadcastDelay⟩

def NodeConfig.deserializeJson (tree : Ptree) : Option NodeConfig :=
  (NodeConfig.parts tree).bind (NodeConfig.convert T)

structure RpcConfig where
  address : BitVec 128
  port : BitVec 16
  enableControl : Bool
  deriving DecidableEq, Repr

def RpcConfig.deserializeJson (tree : Ptree) : Option RpcConfig := do
  let addressText ← tree.text (bytes "address")
  let portText ← tree.text (bytes "port")
  let enableControl ← getBool T tree (bytes "enable_control")
  let port ← readUnsigned 16 portText
  if port.toNat > 65535 then none
  else do
    let address ← T.fromString addressText
    return ⟨address, port, enableControl⟩

end Readers

/-- The port a call of `parse_port` hands on. -/
def accepted : Option (Bool × BitVec 16) → Option (BitVec 16)
  | some (false, port) => some port
  | some (true, _) => none
  | none => none

def KeepaliveOutcome.port : KeepaliveOutcome → Option (BitVec 16)
  | .contact _ port => some port
  | _ => none

def portText (string : Text) : Option Text := (rfind 58 string).map fun i => string.drop (i + 1)

/-- A port that is accepted is the integer between 0 and 65535 that the text denotes. -/
def AtFaceValue (text : Option Text) (port : Option (BitVec 16)) : Prop :=
  ∀ p, port = some p → ∃ t n, text = some t ∧ Denotes t n ∧ 0 ≤ n ∧ n ≤ 65535 ∧ (p.toNat : ℤ) = n

/-- An integer denoted by the text is a port, or its digits do not fit into 64 bits, or the text has
more characters than `parse_port` admits. -/
def SafePort (t : Text) : Prop :=
  ∀ n, Denotes t n → (0 ≤ n ∧ n ≤ 65535) ∨ 2 ^ 64 ≤ n.natAbs ∨ 65535 < t.length

/-- If the text starts with a number of 64 bits, then it denotes a port as a whole. -/
def SafeNumber (t : Text) : Prop :=
  stoul t ≠ none → ∃ n, Denotes t n ∧ 0 ≤ n ∧ n ≤ 65535

def Addressed (T : Texts) (string : Text) : Prop :=
  ∃ i, rfind 58 string = some i ∧ 0 < i ∧ T.fromString (string.take i) ≠ none

def SafeEndpoint (T : Texts) (string : Text) : Prop :=
  ∀ t, portText string = some t → Addressed T string → SafePort t

def SafeKeepalive (request : Ptree) : Prop :=
  ∀ t, request.text (bytes "port") = some t → request.text (bytes "address") ≠ none → SafePort t

/-- Everything but the port can be converted and is within its limits. -/
structure NodeConfig.Others (T : Texts) (parts : NodeConfig.Parts) (c : NodeConfig) : Prop where
  packetDelay : readUnsigned 32 parts.packetDelayMicroseconds = some c.packetDelayMicroseconds
  bootstrapFraction :
    readUnsigned 32 parts.bootstrapFractionNumerator = some c.bootstrapFractionNumerator
  creationRebroadcast : readUnsigned 32 parts.creationRebroadcast = some c.creationRebroadcast
  rebroadcastDelay : readUnsigned 32 parts.rebroadcastDelay = some c.rebroadcastDelay
  logging : Logging.deserializeJson T parts.logging = some c.logging
  creationRebroadcast_le : c.creationRebroadcast.toNat ≤ 10
  rebroadcastDelay_le : c.rebroadcastDelay.toNat ≤ 300

def NodeConfig.InOrder (T : Texts) (tree : Ptree) : Prop :=
  ∃ parts c, NodeConfig.parts tree = some parts ∧ NodeConfig.Others T parts c

def SafeNodeConfig (T : Texts) (tree : Ptree) : Prop :=
  ∀ t, tree.text (bytes "peering_port") = some t → NodeConfig.InOrder T tree → SafeNumber t

/-- The rest of a configuration of the server is in order. -/
structure RpcConfig.InOrder (T : Texts) (tree : Ptree) : Prop where
  address : (tree.text (bytes "address")).bind T.fromString ≠ none
  enableControl : getBool T tree (bytes "enable_control") ≠ none

def SafeRpcConfig (T : Texts) (tree : Ptree) : Prop :=
  ∀ t, tree.text (bytes "port") = some t → RpcConfig.InOrder T tree → SafeNumber t

theorem accepted_eq_some_iff {error : Bool} {port p : BitVec 16} :
    accepted (some (error, port)) = some p ↔ error = false ∧ port = p := by
  cases error <;> simp [accepted]

theorem accepted_parsePort_iff {t : Text} {p : BitVec 16} :
    accepted (parsePort t) = some p ↔
      ∃ v, stoul t = some (v, t.length) ∧ t.length ≤ 65535 ∧ BitVec.ofNat 16 v = p := by
  unfold parsePort
  rcases stoul t with _ | ⟨number, converted⟩
  · simp [accepted]
  simp only [accepted_eq_some_iff, Bool.or_eq_false_iff, decide_eq_false_iff_not, not_not,
    gt_iff_lt, not_lt, Option.some.injEq, Prod.mk.injEq]
  constructor
  · intro h
    obtain ⟨⟨hall, hlen⟩, hp⟩ := h
    exact ⟨number, ⟨rfl, hall⟩, hall ▸ hlen, hp⟩
  · intro h
    obtain ⟨v, ⟨rfl, hall⟩, hlen, hp⟩ := h
    exact ⟨⟨hall, hall ▸ hlen⟩, hp⟩

theorem toNat_port {n : ℤ} (hpos : 0 ≤ n) (hle : n ≤ 65535) :
    ((BitVec.ofNat 16 (n % 2 ^ 64).toNat).toNat : ℤ) = n := by
  rw [BitVec.toNat_ofNat]
  omega

theorem parsePort_atFaceValue (t : Text) :
    AtFaceValue (some t) (accepted (parsePort t)) ↔ SafePort t := by
  constructor
  · intro h n hn
    by_cases hlarge : 2 ^ 64 ≤ n.natAbs
    · exact .inr (.inl hlarge)
    by_cases hlong : 65535 < t.length
    · exact .inr (.inr hlong)
    have hall : stoul t = some ((n % 2 ^ 64).toNat, t.length) :=
      stoul_eq_some_length_iff.mpr ⟨n, hn, Nat.not_le.mp hlarge, rfl⟩
    obtain ⟨t', m, ht, hm, hrange⟩ :=
      h _ (accepted_parsePort_iff.mpr ⟨_, hall, Nat.not_lt.mp hlong, rfl⟩)
    cases ht
    rw [hn.unique hm]
    exact .inl ⟨hrange.1, hrange.2.1⟩
  · intro h p hp
    obtain ⟨v, hv, hlen, rfl⟩ := accepted_parsePort_iff.mp hp
    obtain ⟨n, hn, hsmall, rfl⟩ := stoul_eq_some_length_iff.mp hv
    rcases h n hn with ⟨hpos, hle⟩ | hlarge | hlong
    · exact ⟨t, n, rfl, hn, hpos, hle, toNat_port hpos hle⟩
    · omega
    · omega

theorem readUnsigned_atFaceValue (t : Text) :
    AtFaceValue (some t) (readUnsigned 16 t) ↔ SafeNumber t := by
  constructor
  · intro h hne
    obtain ⟨r, hr⟩ := Option.ne_none_iff_exists'.mp hne
    obtain ⟨t', n, ht, hn, hpos, hle, _⟩ := h _ (by rw [readUnsigned, hr, Option.map_some])
    cases ht
    exact ⟨n, hn, hpos, hle⟩
  · intro h p hp
    obtain ⟨r, hr, rfl⟩ := Option.map_eq_some_iff.mp hp
    obtain ⟨n, hn, hpos, hle⟩ := h (hr ▸ Option.some_ne_none r)
    have hall : stoul t = some ((n % 2 ^ 64).toNat, t.length) :=
      stoul_eq_some_length_iff.mpr ⟨n, hn, by omega, rfl⟩
    rw [hr] at hall
    rw [Option.some.inj hall]
    exact ⟨t, n, rfl, hn, hpos, hle, toNat_port hpos hle⟩

/-- A reader that takes its port from one text is safe exactly if that text is, as far as everything
else it reads is in order. -/
theorem atFaceValue_of_reader {text : Option Text} {port : Option (BitVec 16)} {others : Prop}
    {read : Text → Option (BitVec 16)} {safe : Text → Prop}
    (hread : ∀ t, AtFaceValue (some t) (read t) ↔ safe t)
    (hport : ∀ p, port = some p ↔ ∃ t, text = some t ∧ others ∧ read t = some p) :
    AtFaceValue text port ↔ ∀ t, text = some t → others → safe t := by
  constructor
  · intro h t ht hothers
    refine (hread t).mp fun p hp => ?_
    rw [← ht]
    exact h p ((hport p).mpr ⟨t, ht, hothers, hp⟩)
  · intro h p hp
    obtain ⟨t, ht, hothers, hp⟩ := (hport p).mp hp
    rw [ht]
    exact (hread t).mpr (h t ht hothers) p hp

theorem parseAddressPort_port_iff (T : Texts) (string : Text) (p : BitVec 16) :
    (parseAddressPort T string).map Prod.snd = some p ↔
      ∃ t, portText string = some t ∧ Addressed T string ∧ accepted (parsePort t) = some p := by
  unfold parseAddressPort portText Addressed
  rcases hcolon : rfind 58 string with _ | i
  · simp
  by_cases hpos : 0 < i
  · rcases hport : parsePort (string.drop (i + 1)) with _ | ⟨_ | _, port⟩ <;>
      rcases haddress : T.fromString (string.take i) with _ | address <;>
      simp [hpos, hport, haddress, accepted]
  · simp [hpos]

theorem parseEndpoint_port {T : Texts} {string : Text} :
    (parseEndpoint T string).map Endpoint.port = (parseAddressPort T string).map Prod.snd := by
  unfold parseEndpoint
  rw [Option.map_map]
  rfl

theorem parseTcpEndpoint_port {T : Texts} {string : Text} :
    (parseTcpEndpoint T string).map Endpoint.port = (parseAddressPort T string).map Prod.snd := by
  unfold parseTcpEndpoint
  rw [Option.map_map]
  rfl

theorem rpcKeepalive_port_iff {request : Ptree} {p : BitVec 16} :
    (rpcKeepalive request).port = some p ↔ ∃ t, request.text (bytes "port") = some t ∧
      request.text (bytes "address") ≠ none ∧ accepted (parsePort t) = some p := by
  unfold rpcKeepalive
  rcases request.text (bytes "address") with _ | addressText
  · simp [KeepaliveOutcome.port]
  rcases request.text (bytes "port") with _ | t
  · simp [KeepaliveOutcome.port]
  rcases hport : parsePort t with _ | ⟨_ | _, port⟩ <;>
    simp [hport, KeepaliveOutcome.port, accepted]

/-- The check of the range comes after the conversion to 16 bits. -/
theorem port_check (port : BitVec 16) : ¬port.toNat > 65535 := by
  have := port.isLt
  omega

theorem NodeConfig.parts_peeringPort {tree : Ptree} {parts : NodeConfig.Parts}
    (h : NodeConfig.parts tree = some parts) :
    tree.text (bytes "peering_port") = some parts.peeringPort := by
  unfold NodeConfig.parts at h
  simp only [Option.bind_eq_bind, Option.bind_eq_some_iff] at h
  obtain ⟨_, hport, _, _, _, _, _, _, _, _, _, _, _, _, h⟩ := h
  cases h
  exact hport

theorem NodeConfig.others_of_convert {T : Texts} {parts : NodeConfig.Parts} {c : NodeConfig}
    (h : NodeConfig.convert T parts = some c) :
    readUnsigned 16 parts.peeringPort = some c.peeringPort ∧ NodeConfig.Others T parts c := by
  unfold NodeConfig.convert at h
  simp only [Option.bind_eq_bind, Option.bind_eq_some_iff, port_check, if_false] at h
  obtain ⟨port, hport, delay, hdelay, fraction, hfraction, creation, hcreation, rebroadcast,
    hrebroadcast, h⟩ := h
  split_ifs at h with hcreation_le hrebroadcast_le
  obtain ⟨logging, hlogging, h⟩ := Option.bind_eq_some_iff.mp h
  cases h
  exact ⟨hport, hdelay, hfraction, hcreation, hrebroadcast, hlogging, Nat.not_lt.mp hcreation_le,
    Nat.not_lt.mp hrebroadcast_le⟩

theorem NodeConfig.convert_of_others {T : Texts} {parts : NodeConfig.Parts} {c : NodeConfig}
    (h : NodeConfig.Others T parts c) {p : BitVec 16}
    (hp : readUnsigned 16 parts.peeringPort = some p) :
    NodeConfig.convert T parts =
      some { c with peeringPort := p, preconfiguredPeers := parts.preconfiguredPeers } := by
  unfold NodeConfig.convert
  simp only [hp, h.packetDelay, h.bootstrapFraction, h.creationRebroadcast, h.rebroadcastDelay,
    h.logging, Option.bind_eq_bind, Option.bind_some, gt_iff_lt,
    Nat.not_lt.mpr h.creationRebroadcast_le, Nat.not_lt.mpr h.rebroadcastDelay_le, port_check,
    if_false]
  rfl

theorem NodeConfig.deserializeJson_port_iff {T : Texts} {tree : Ptree} {p : BitVec 16} :
    (NodeConfig.deserializeJson T tree).map NodeConfig.peeringPort = some p ↔
      ∃ t, tree.text (bytes "peering_port") = some t ∧ NodeConfig.InOrder T tree ∧
        readUnsigned 16 t = some p := by
  constructor
  · intro h
    obtain ⟨c, hc, rfl⟩ := Option.map_eq_some_iff.mp h
    obtain ⟨parts, hparts, hc⟩ := Option.bind_eq_some_iff.mp hc
    obtain ⟨hport, hothers⟩ := NodeConfig.others_of_convert hc
    exact ⟨parts.peeringPort, NodeConfig.parts_peeringPort hparts, ⟨parts, c, hparts, hothers⟩,
      hport⟩
  · intro h
    obtain ⟨t, ht, ⟨parts, c, hparts, hothers⟩, hport⟩ := h
    rw [NodeConfig.parts_peeringPort hparts] at ht
    cases ht
    unfold NodeConfig.deserializeJson
    rw [hparts, Option.bind_some, NodeConfig.convert_of_others hothers hport]
    rfl

theorem RpcConfig.deserializeJson_port_iff {T : Texts} {tree : Ptree} {p : BitVec 16} :
    (RpcConfig.deserializeJson T tree).map RpcConfig.port = some p ↔
      ∃ t, tree.text (bytes "port") = some t ∧ RpcConfig.InOrder T tree ∧
        readUnsigned 16 t = some p := by
  unfold RpcConfig.deserializeJson
  simp only [Option.bind_eq_bind, port_check, if_false]
  constructor
  · intro h
    obtain ⟨c, hc, rfl⟩ := Option.map_eq_some_iff.mp h
    simp only [Option.bind_eq_some_iff] at hc
    obtain ⟨_, haddressText, t, ht, _, hcontrol, _, hport, _, haddress, hc⟩ := hc
    cases hc
    refine ⟨t, ht, ⟨?_, hcontrol ▸ Option.some_ne_none _⟩, hport⟩
    rw [haddressText, Option.bind_some, haddress]
    exact Option.some_ne_none _
  · intro h
    obtain ⟨t, ht, ⟨haddress, hcontrol⟩, hport⟩ := h
    obtain ⟨address, haddress⟩ := Option.ne_none_iff_exists'.mp haddress
    obtain ⟨addressText, haddressText, haddress⟩ := Option.bind_eq_some_iff.mp haddress
    obtain ⟨control, hcontrol⟩ := Option.ne_none_iff_exists'.mp hcontrol
    simp only [haddressText, ht, hcontrol, hport, haddress, Option.bind_some]
    rfl

/-- The port of each of the readers is the one its text denotes exactly if that text is safe. -/
theorem ports_atFaceValue_iff (T : Texts) (t string : Text) (request nodeTree rpcTree : Ptree) :
    (AtFaceValue (some t) (accepted (parsePort t)) ↔ SafePort t) ∧
      (AtFaceValue (portText string) ((parseEndpoint T string).map Endpoint.port) ↔
        SafeEndpoint T string) ∧
      (AtFaceValue (portText string) ((parseTcpEndpoint T string).map Endpoint.port) ↔
        SafeEndpoint T string) ∧
      (AtFaceValue (request.text (bytes "port")) (rpcKeepalive request).port ↔
        SafeKeepalive request) ∧
      (AtFaceValue (nodeTree.text (bytes "peering_port"))
          ((NodeConfig.deserializeJson T nodeTree).map NodeConfig.peeringPort) ↔
        SafeNodeConfig T nodeTree) ∧
      (AtFaceValue (rpcTree.text (bytes "port"))
          ((RpcConfig.deserializeJson T rpcTree).map RpcConfig.port) ↔
        SafeRpcConfig T rpcTree) := by
  have hendpoint := atFaceValue_of_reader parsePort_atFaceValue (parseAddressPort_port_iff T string)
  refine ⟨parsePort_atFaceValue t, ?_, ?_, ?_, ?_, ?_⟩
  · rw [parseEndpoint_port]
    exact hendpoint
  · rw [parseTcpEndpoint_port]
    exact hendpoint
  · exact atFaceValue_of_reader parsePort_atFaceValue fun _ => rpcKeepalive_port_iff
  · exact atFaceValue_of_reader readUnsigned_atFaceValue fun _ =>
      NodeConfig.deserializeJson_port_iff
  · exact atFaceValue_of_reader readUnsigned_atFaceValue fun _ =>
      RpcConfig.deserializeJson_port_iff

def letteredPort : Ptree :=
  Ptree.ofTexts [(bytes "address", bytes "::1"), (bytes "port", bytes "80abc"),
    (bytes "enable_control", bytes "true")]

/-- 65616 is read as 80 and -1 as 65535, and a server is configured for port 80 by a text that is
not a number. -/
theorem ports_reduced :
    parsePort (bytes "65616") = some (false, 80) ∧
      ¬AtFaceValue (some (bytes "65616")) (accepted (parsePort (bytes "65616"))) ∧
      parsePort (bytes "-1") = some (false, 65535) ∧
      ∀ (T : Texts) (address : BitVec 128), T.fromString (bytes "::1") = some address →
        T.getBool (bytes "true") = some true →
        RpcConfig.deserializeJson T letteredPort = some ⟨address, 80, true⟩ := by
  refine ⟨by decide +kernel, ?_, by decide +kernel, ?_⟩
  · rw [parsePort_atFaceValue]
    intro h
    have hdenotes : Denotes (bytes "65616") 65616 :=
      denotes_iff.mpr ⟨⟨false, bytes "65616", []⟩, by decide +kernel, rfl, by decide +kernel⟩
    have := h 65616 hdenotes
    revert this
    decide +kernel
  · intro T address haddress hcontrol
    have haddressText : letteredPort.text (bytes "address") = some (bytes "::1") := by
      decide +kernel
    have hportText : letteredPort.text (bytes "port") = some (bytes "80abc") := by decide +kernel
    have hcontrolText : letteredPort.text (bytes "enable_control") = some (bytes "true") := by
      decide +kernel
    have hport : readUnsigned 16 (bytes "80abc") = some 80 := by decide +kernel
    simp only [RpcConfig.deserializeJson, getBool, haddressText, hportText, hcontrolText, hport,
      haddress, hcontrol, Option.bind_eq_bind, Option.bind_some, port_check, if_false]
    rfl

end PaperNode.PortTexts
