import HarddriveParty.Discovery.TextOrder

/-!
# Services on the local network

Model of what a node announces over mDNS, and of what it makes of the services that it finds
(`src/connections/discovery/mdns.rs`). The daemon that puts services on the network and resolves
them is a crate outside the repository: what it resolves a service to is an input, and `ResolvesTo`
says what can come of an announced one.
-/

namespace HarddriveParty

/-- `mdns_sd::ScopedIp`: an IP address, for IPv6 with the index of its scope. -/
inductive ScopedIp where
  | v4 (addr : UInt32)
  | v6 (addr : BitVec 128) (scopeIndex : UInt32)
  deriving DecidableEq, Repr

/-- What `mdns_sd::ServiceInfo::new` is given. -/
structure ServiceInfo where
  tyDomain : String
  instanceName : String
  hostName : String
  ip : IpAddr
  port : UInt16
  properties : List (String × String)
  deriving DecidableEq, Repr

/-- The part of `mdns_sd::ResolvedService` that is looked at. The set of addresses is in the order
in which it is gone through. -/
structure ResolvedService where
  tyDomain : String
  port : UInt16
  addresses : List ScopedIp
  properties : List (String × String)
  deriving DecidableEq, Repr

/-- The part of `mdns_sd::ServiceEvent` that is looked at. -/
inductive ServiceEvent where
  | serviceResolved (info : ResolvedService)
  | serviceRemoved (fullname : String)
  | other
  deriving DecidableEq, Repr

/-- Why a service is no peer. -/
inductive InvalidService where
  | message (text : String)
  | announceAddress (err : AnnounceAddressDecodeError)
  deriving DecidableEq, Repr

namespace ScopedIp

/-- `ScopedIp::to_ip_addr`. -/
def toIpAddr : ScopedIp → IpAddr
  | v4 addr => .v4 addr
  | v6 addr _ => .v6 addr

/-- `ScopedIp::is_ipv4`. -/
def isIpv4 : ScopedIp → Bool
  | v4 _ => true
  | v6 _ _ => false

end ScopedIp

/-- `ResolvedService::get_property_val_str`: case does not matter in the name of a property. -/
def ResolvedService.getPropertyValStr (info : ResolvedService) (key : String) : Option String :=
  (info.properties.find? fun property ↦ property.1.toLower = key.toLower).map (·.2)

namespace MdnsServer

variable (engine : Base64.NoPadCodec)

/-- Name of the mDNS service (`src/connections/discovery/mdns.rs:16`). -/
def serviceType : String := "_hdp._udp.local."

/-- The property with the announce address (`src/connections/discovery/mdns.rs:19`). -/
def announceAddressPropertyName : String := "hdp-aa"

/-- `create_service_info` (`src/connections/discovery/mdns.rs:101`). -/
def createServiceInfo (id : String) (addr : SocketAddr) (announceAddress : AnnounceAddress) :
    Outcome InvalidService ServiceInfo := do
  let instanceName ← Outcome.orPanic "byte index is not a char boundary"
    (Utf8.slice id 0 (min 16 id.utf8ByteSize))
  pure
    { tyDomain := serviceType
      instanceName
      hostName := instanceName ++ ".local."
      ip := addr.ip
      port := addr.port
      properties := [(announceAddressPropertyName, announceAddress.toText engine)] }

/-- `socket_addr_from_scoped_ip` (`src/connections/discovery/mdns.rs:163`). -/
def socketAddrFromScopedIp (ip : ScopedIp) (port : UInt16) : SocketAddr :=
  match ip with
  | .v4 addr => .v4 addr port
  | .v6 addr scopeIndex => .v6 addr port 0 scopeIndex

/-- The first address of our own family, or else the first one. -/
def chooseAddress (addresses : List ScopedIp) (ourAddr : SocketAddr) : Option ScopedIp :=
  (addresses.find? fun ip ↦ ip.isIpv4 = ourAddr.isIpv4).or addresses.head?

/-- What `AnnounceAddress::from_string` gives, with its error as one of this file. -/
def decodeAnnounceAddress (text : String) : Outcome InvalidService AnnounceAddress :=
  match AnnounceAddress.fromString engine text with
  | .ok announceAddress => .ok announceAddress
  | .error (.error err) => .error (.error (.announceAddress err))
  | .error (.panic reason) => .error (.panic reason)

/-- `parse_peer_info` (`src/connections/discovery/mdns.rs:137`). -/
def parsePeerInfo (info : ResolvedService) (ourAddr : SocketAddr) :
    Outcome InvalidService (SocketAddr × AnnounceAddress) := do
  Outcome.ensure (info.tyDomain = serviceType)
    (.message "Peer does not have expected service type")
  let text ← Outcome.okOr (.message "Cannot get announce address property from mDNS service")
    (info.getPropertyValStr announceAddressPropertyName)
  let announceAddress ← decodeAnnounceAddress engine text
  let chosen ← Outcome.okOr (.message "Cannot get IP from discovered mDNS service info")
    (chooseAddress info.addresses ourAddr)
  pure (socketAddrFromScopedIp chosen info.port, announceAddress)

/-- What `run` does about an event (`src/connections/discovery/mdns.rs:52`). What is no peer is
left out; a panic ends the task. -/
def handleEvent (addr : SocketAddr) : ServiceEvent → Outcome InvalidService (Option Hdp.Action)
  | .serviceResolved info =>
    match parsePeerInfo engine info addr with
    | .ok (theirAddr, theirAnnounceAddress) =>
      .ok (serviceResolved addr theirAddr theirAnnounceAddress)
    | .error (.error _) => .ok none
    | .error (.panic reason) => .error (.panic reason)
  | .serviceRemoved _ => .ok none
  | .other => .ok none

end MdnsServer

/-! ### A service that cannot be parsed -/

/-- The service is of our type, and the text of its announce address is one that cannot be cut. -/
def ResolvedService.Breaks (info : ResolvedService) : Prop :=
  info.tyDomain = MdnsServer.serviceType ∧
    ∃ text, info.getPropertyValStr MdnsServer.announceAddressPropertyName = some text ∧
      ¬AnnounceAddress.CutsCleanly text

namespace MdnsServer

theorem panicked_decodeAnnounceAddress_iff (engine : Base64.NoPadCodec) (text : String) :
    (decodeAnnounceAddress engine text).Panicked ↔ ¬AnnounceAddress.CutsCleanly text := by
  rw [← AnnounceAddress.fromString_returns_iff engine text, not_not, decodeAnnounceAddress]
  split <;> simp [Outcome.Panicked, *]

/-- Nothing but the text of its announce address makes a service panic. -/
theorem panicked_parsePeerInfo_iff (engine : Base64.NoPadCodec) (info : ResolvedService)
    (ourAddr : SocketAddr) : (parsePeerInfo engine info ourAddr).Panicked ↔ info.Breaks := by
  have hfound (peer : SocketAddr × AnnounceAddress) :
      ¬Outcome.Panicked (pure peer : Outcome InvalidService _) := Outcome.not_panicked_ok peer
  simp [parsePeerInfo, ResolvedService.Breaks, Outcome.panicked_bind_iff,
    panicked_decodeAnnounceAddress_iff, hfound, -bind_pure_comp]

/-- A text of one digit is enough. -/
example : (⟨serviceType, 1000, [], [("hdp-aa", "6")]⟩ : ResolvedService).Breaks := by
  refine ⟨rfl, "6", by decide +kernel, fun hcuts ↦ ?_⟩
  obtain ⟨n, hlength, -⟩ := hcuts '6' 6 (by decide) (by decide)
  cases hlength

end MdnsServer

/-! ### An announced service that is found -/

/-- What a service that was announced can be resolved to: nothing but its addresses is added to, and
these are the one that it has, with the scope of an interface. -/
structure ServiceInfo.ResolvesTo (service : ServiceInfo) (info : ResolvedService) : Prop where
  tyDomain : info.tyDomain = service.tyDomain
  port : info.port = service.port
  properties : info.properties = service.properties
  found : info.addresses ≠ []
  ip : ∀ ip ∈ info.addresses, ip.toIpAddr = service.ip

namespace MdnsServer

variable {engine : Base64.NoPadCodec} {addresses : List ScopedIp} {ourAddr : SocketAddr}

/-- An address is chosen if there is one. -/
theorem exists_chooseAddress (h : addresses ≠ []) (ourAddr : SocketAddr) :
    ∃ ip ∈ addresses, chooseAddress addresses ourAddr = some ip := by
  unfold chooseAddress
  cases hfind : addresses.find? fun ip ↦ ip.isIpv4 = ourAddr.isIpv4 with
  | some ip => exact ⟨ip, List.mem_of_find?_eq_some hfind, rfl⟩
  | none =>
    obtain ⟨ip, rest, rfl⟩ := List.exists_cons_of_ne_nil h
    exact ⟨ip, List.mem_cons_self, rfl⟩

theorem seenAt_socketAddrFromScopedIp {ip : ScopedIp} {addr : SocketAddr}
    (h : ip.toIpAddr = addr.ip) : addr.SeenAt (socketAddrFromScopedIp ip addr.port) := by
  cases ip with
  | v4 bits => exact ⟨h, rfl⟩
  | v6 bits scopeIndex => exact ⟨h, rfl⟩

/-- A service that was announced is taken for what it is: a peer with this announce address, seen
at its address. -/
theorem parsePeerInfo_createServiceInfo {id : String} {addr : SocketAddr}
    {announceAddress : AnnounceAddress} {service : ServiceInfo} {info : ResolvedService}
    (hunscoped : announceAddress.connectionDetails.Unscoped)
    (hservice : createServiceInfo engine id addr announceAddress = .ok service)
    (hinfo : service.ResolvesTo info) (ourAddr : SocketAddr) :
    ∃ theirAddr, addr.SeenAt theirAddr ∧
      parsePeerInfo engine info ourAddr = .ok (theirAddr, announceAddress) := by
  obtain ⟨instanceName, -, hcreated⟩ := Outcome.bind_eq_ok_iff.mp hservice
  cases hcreated
  obtain ⟨ip, hip, hchosen⟩ := exists_chooseAddress hinfo.found ourAddr
  refine ⟨socketAddrFromScopedIp ip addr.port,
    seenAt_socketAddrFromScopedIp (hinfo.ip ip hip), ?_⟩
  have hproperty : info.getPropertyValStr announceAddressPropertyName =
      some (announceAddress.toText engine) := by
    rw [ResolvedService.getPropertyValStr, hinfo.properties]
    simp
  have hdecoded : decodeAnnounceAddress engine (announceAddress.toText engine) =
      .ok announceAddress := by
    rw [decodeAnnounceAddress, AnnounceAddress.fromString_toText engine _ hunscoped]
  simp only [parsePeerInfo, Outcome.bind_eq_ok_iff, Outcome.ensure_eq_ok_iff,
    Outcome.okOr_eq_ok_iff]
  exact ⟨(), hinfo.tyDomain, _, hproperty, _, hdecoded, ip, hchosen, by rw [hinfo.port]; rfl⟩

end MdnsServer

end HarddriveParty
