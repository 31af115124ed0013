import HarddriveParty.Shared.AddressText

/-!
# NAT classification

Model of `src/connections/discovery/stun.rs`: servers are asked one after another for the
address that they see, until two different servers have answered, and the two reports decide
the kind of NAT. The kind is read off the first report alone where there is none, and the
second report is what is announced.
-/

namespace HarddriveParty

namespace Stun

/-! ### Reachable addresses -/

/-- `is_globally_reachable_ipv4` (`src/connections/discovery/stun.rs:121`). -/
def isGloballyReachableIpv4 (ip : UInt32) : Bool :=
  match octets ip with
  | [a, b, c, d] =>
    let isPrivate := a = 10 ∨ (a = 172 ∧ 16 ≤ b ∧ b ≤ 31) ∨ (a = 192 ∧ b = 168)
    let isLinkLocal := a = 169 ∧ b = 254
    let isBroadcast := a = 255 ∧ b = 255 ∧ c = 255 ∧ d = 255
    let isDocumentation := (a = 192 ∧ b = 0 ∧ c = 2) ∨ (a = 198 ∧ b = 51 ∧ c = 100) ∨
      (a = 203 ∧ b = 0 ∧ c = 113)
    let isUnspecified := a = 0 ∧ b = 0 ∧ c = 0 ∧ d = 0
    let isMulticast := 224 ≤ a ∧ a ≤ 239
    if isPrivate ∨ a = 127 ∨ isLinkLocal ∨ isBroadcast ∨ isDocumentation ∨ isUnspecified ∨
        isMulticast then false
    -- Carrier-grade NAT shared address space
    else if a = 100 ∧ 64 ≤ b ∧ b ≤ 127 then false
    -- Benchmarking / reserved / future use
    else if a = 198 ∧ (b = 18 ∨ b = 19) then false
    else if 240 ≤ a then false
    else true
  | _ => false

/-- `is_globally_reachable_ipv6` (`src/connections/discovery/stun.rs:152`). -/
def isGloballyReachableIpv6 (ip : BitVec 128) : Bool :=
  let first := ip.toNat / 2 ^ 112
  let isMulticast := first / 2 ^ 8 = 0xff
  let isUniqueLocal := first / 2 ^ 9 = 0xfc00 / 2 ^ 9
  let isUnicastLinkLocal := first / 2 ^ 6 = 0xfe80 / 2 ^ 6
  if ip = 1 ∨ ip = 0 ∨ isMulticast ∨ isUniqueLocal ∨ isUnicastLinkLocal then false
  -- Documentation prefix 2001:db8::/32
  else if (segments ip).take 2 = [0x2001, 0x0db8] then false
  else true

/-- `is_globally_reachable_ip`. -/
def isGloballyReachableIp : IpAddr → Bool
  | .v4 ip => isGloballyReachableIpv4 ip
  | .v6 ip => isGloballyReachableIpv6 ip

/-! ### Asking the servers -/

/-- A server that is asked: what its name resolves to, and what the client gets from an
address of it. -/
structure StunServer where
  toSocketAddrs : Except String (List SocketAddr)
  queryExternalAddress : SocketAddr → Except String SocketAddr

/-- Query a single stun server (`src/connections/discovery/stun.rs:89`): the address that it
reports and its own. -/
def stunQuery (localIp : IpAddr) (stunServer : StunServer) :
    Except String (SocketAddr × SocketAddr) :=
  match stunServer.toSocketAddrs with
  | .error e => .error e
  | .ok addrs =>
    match addrs.find? SocketAddr.isIpv4 with
    | none => .error "Failed to get IP of stun server"
    | some server =>
      match stunServer.queryExternalAddress server with
      | .error e => .error e
      | .ok publicAddr =>
        if publicAddr.ip ≠ localIp ∧ isGloballyReachableIp publicAddr.ip = false then
          .error ("STUN server returned non-public mapped address " ++ publicAddr.text)
        else .ok (publicAddr, server)

/-- The loop over the servers, with the first answer. -/
def attempts (localIp : IpAddr) :
    Option (SocketAddr × SocketAddr) → List StunServer → Except String (SocketAddr × SocketAddr)
  | _, [] =>
    .error "Could not connect to any stun server - maybe no internet connection"
  | none, stunServer :: rest =>
    match stunQuery localIp stunServer with
    | .ok first => attempts localIp (some first) rest
    | .error _ => attempts localIp none rest
  | some (publicAdd1, stunServer1), stunServer :: rest =>
    match stunQuery localIp stunServer with
    | .ok (publicAdd2, stunServer2) =>
      if stunServer1 ≠ stunServer2 then .ok (publicAdd1, publicAdd2)
      else attempts localIp (some (publicAdd1, stunServer1)) rest
    | .error _ => attempts localIp (some (publicAdd1, stunServer1)) rest

/-- Try a selection of the available stun servers until we get two results from different
servers (`src/connections/discovery/stun.rs:41`). The servers are the given ones, or a random
choice of the built-in ones. -/
def multipeAttemptStunQuery (localAddr : SocketAddr) (stunServers : List StunServer) :
    Except String (SocketAddr × SocketAddr) :=
  if stunServers.isEmpty then .error "No STUN servers provided"
  else attempts localAddr.ip none stunServers

/-- Get our public address and NAT type using STUN
(`src/connections/discovery/stun.rs:14`). -/
def stunTest (localAddr : SocketAddr) (stunServers : List StunServer) :
    Except String PeerConnectionDetails :=
  match multipeAttemptStunQuery localAddr stunServers with
  | .error e => .error e
  | .ok (publicAddr1, publicAddr2) =>
    let hasNat := localAddr.ip ≠ publicAddr1.ip
    let isSymmetric := publicAddr1 ≠ publicAddr2
    .ok (if ¬hasNat then .noNat publicAddr2
      else if isSymmetric then .symmetric publicAddr2.ip
      else .asymmetric publicAddr2)

/-! ### What the class says -/

/-- The answers of the servers, in the order in which they are asked. -/
def answers (localIp : IpAddr) (stunServers : List StunServer) : List (SocketAddr × SocketAddr) :=
  stunServers.filterMap fun stunServer ↦ (stunQuery localIp stunServer).toOption

/-- The first answer and the next one of a server with another address. -/
def TwoReports (reports : List (SocketAddr × SocketAddr))
    (first second : SocketAddr × SocketAddr) : Prop :=
  ∃ rest, reports = first :: rest ∧ rest.find? (fun r ↦ first.2 ≠ r.2) = some second

/-- The class says what the reports do: without a NAT the announced address is a local one; with
an easy NAT two servers report it and it is not local; with a hard NAT two servers report
different addresses; and there is no class only without a second server. -/
structure ClassifiesSoundly (localAddr : SocketAddr) (stunServers : List StunServer) : Prop where
  noNat : ∀ a, stunTest localAddr stunServers = .ok (.noNat a) → a.ip = localAddr.ip
  asymmetric : ∀ a, stunTest localAddr stunServers = .ok (.asymmetric a) →
    a.ip ≠ localAddr.ip ∧ ∃ server1 server2, server1 ≠ server2 ∧
      [(a, server1), (a, server2)].Sublist (answers localAddr.ip stunServers)
  symmetric : ∀ ip, stunTest localAddr stunServers = .ok (.symmetric ip) →
    ∃ a1 server1 a2 server2, server1 ≠ server2 ∧ a1 ≠ a2 ∧ a2.ip = ip ∧
      [(a1, server1), (a2, server2)].Sublist (answers localAddr.ip stunServers)
  error : (∃ e, stunTest localAddr stunServers = .error e) ↔
    ∀ first rest, answers localAddr.ip stunServers = first :: rest → ∀ r ∈ rest, r.2 = first.2

variable {localAddr : SocketAddr} {localIp : IpAddr} {stunServers : List StunServer}

/-- After the first answer the loop looks for one of a server with another address. -/
theorem attempts_some (first : SocketAddr × SocketAddr) (stunServers : List StunServer) :
    attempts localIp (some first) stunServers =
      match (answers localIp stunServers).find? fun r ↦ first.2 ≠ r.2 with
      | some second => .ok (first.1, second.1)
      | none => .error "Could not connect to any stun server - maybe no internet connection" := by
  induction stunServers with
  | nil => rfl
  | cons stunServer rest ih =>
    rw [attempts, answers, List.filterMap_cons]
    cases hquery : stunQuery localIp stunServer with
    | error e => exact ih
    | ok r =>
      simp only [Except.toOption, List.find?_cons]
      by_cases hserver : first.2 = r.2
      · simp only [hserver, ne_eq, not_true_eq_false, if_false, decide_false]
        rw [← hserver]
        exact ih
      · simp [hserver]

/-- The loop gives two reports when there are, and an error otherwise. -/
theorem attempts_none (stunServers : List StunServer) :
    (∃ first second, TwoReports (answers localIp stunServers) first second ∧
        attempts localIp none stunServers = .ok (first.1, second.1)) ∨
      (∀ first second, ¬ TwoReports (answers localIp stunServers) first second) ∧
        ∃ e, attempts localIp none stunServers = .error e := by
  induction stunServers with
  | nil =>
    right
    refine ⟨fun first second h ↦ ?_, _, rfl⟩
    obtain ⟨rest, hcons, -⟩ := h
    cases hcons
  | cons stunServer rest ih =>
    rw [attempts, answers, List.filterMap_cons]
    cases hquery : stunQuery localIp stunServer with
    | error e => exact ih
    | ok first =>
      simp only [Except.toOption, attempts_some]
      cases hfind : (answers localIp rest).find? fun r ↦ first.2 ≠ r.2 with
      | some second => exact Or.inl ⟨first, second, ⟨_, rfl, hfind⟩, rfl⟩
      | none =>
        right
        refine ⟨fun first' second h ↦ ?_, _, rfl⟩
        obtain ⟨rest', hcons, hsecond⟩ := h
        cases hcons
        exact Option.some_ne_none _ (hsecond.symm.trans hfind)

/-- Two reports are answers of two servers, one after the other. -/
theorem TwoReports.sublist {reports : List (SocketAddr × SocketAddr)}
    {first second : SocketAddr × SocketAddr} (h : TwoReports reports first second) :
    first.2 ≠ second.2 ∧ [first, second].Sublist reports := by
  obtain ⟨rest, rfl, hfind⟩ := h
  constructor
  · simpa using List.find?_some hfind
  · exact (List.singleton_sublist.mpr (List.mem_of_find?_eq_some hfind)).cons_cons first

/-- There are no two reports when all later answers come from the address of the first. -/
theorem not_twoReports_iff {reports : List (SocketAddr × SocketAddr)} :
    (∀ first second, ¬ TwoReports reports first second) ↔
      ∀ first rest, reports = first :: rest → ∀ r ∈ rest, r.2 = first.2 := by
  constructor
  · rintro hno first rest rfl r hr
    by_contra hne
    cases hfind : rest.find? fun r ↦ first.2 ≠ r.2 with
    | some second => exact hno first second ⟨rest, rfl, hfind⟩
    | none =>
      have hall := List.find?_eq_none.mp hfind r hr
      simp only [decide_eq_true_eq, not_not] at hall
      exact hne hall.symm
  · rintro hall first second h
    obtain ⟨hne, -⟩ := h.sublist
    obtain ⟨rest, hcons, hfind⟩ := h
    exact hne (hall first rest hcons second (List.mem_of_find?_eq_some hfind)).symm

/-- Without a server there are no answers. -/
private theorem multipeAttemptStunQuery_eq (h : stunServers ≠ []) :
    multipeAttemptStunQuery localAddr stunServers = attempts localAddr.ip none stunServers := by
  rw [multipeAttemptStunQuery, if_neg (by simpa using h)]

/-- The test classifies the two reports, and fails when there are none. -/
theorem stunTest_cases (localAddr : SocketAddr) (stunServers : List StunServer) :
    (∃ first second, TwoReports (answers localAddr.ip stunServers) first second ∧
        stunTest localAddr stunServers = .ok (
          if ¬localAddr.ip ≠ first.1.ip then .noNat second.1
          else if first.1 ≠ second.1 then .symmetric second.1.ip
          else .asymmetric second.1)) ∨
      (∀ first second, ¬ TwoReports (answers localAddr.ip stunServers) first second) ∧
        ∃ e, stunTest localAddr stunServers = .error e := by
  by_cases hempty : stunServers = []
  · subst hempty
    right
    refine ⟨fun first second h ↦ ?_, _, rfl⟩
    obtain ⟨rest, hcons, -⟩ := h
    cases hcons
  · rcases @attempts_none localAddr.ip stunServers with ⟨first, second, h, hrun⟩ | ⟨h, e, hrun⟩
    · left
      refine ⟨first, second, h, ?_⟩
      rw [stunTest, multipeAttemptStunQuery_eq hempty, hrun]
    · right
      refine ⟨h, e, ?_⟩
      rw [stunTest, multipeAttemptStunQuery_eq hempty, hrun]

/-- An easy NAT is reported by two servers. -/
theorem asymmetric_reported {a : SocketAddr}
    (h : stunTest localAddr stunServers = .ok (.asymmetric a)) :
    a.ip ≠ localAddr.ip ∧ ∃ server1 server2, server1 ≠ server2 ∧
      [(a, server1), (a, server2)].Sublist (answers localAddr.ip stunServers) := by
  rcases stunTest_cases localAddr stunServers with ⟨first, second, htwo, hrun⟩ | ⟨-, e, hrun⟩
  · rw [h] at hrun
    obtain ⟨hservers, hsublist⟩ := htwo.sublist
    split at hrun
    · cases hrun
    · next hnat =>
      split at hrun
      · cases hrun
      · next hsame =>
        cases hrun
        rw [not_not] at hnat hsame
        refine ⟨?_, first.2, second.2, hservers, ?_⟩
        · rw [← hsame]
          exact hnat.symm
        · rwa [show (second.1, first.2) = first from Prod.ext hsame.symm rfl]
  · rw [h] at hrun
    cases hrun

/-- A hard NAT is reported by two servers that see different addresses. -/
theorem symmetric_reported {ip : IpAddr}
    (h : stunTest localAddr stunServers = .ok (.symmetric ip)) :
    ∃ a1 server1 a2 server2, server1 ≠ server2 ∧ a1 ≠ a2 ∧ a2.ip = ip ∧
      [(a1, server1), (a2, server2)].Sublist (answers localAddr.ip stunServers) := by
  rcases stunTest_cases localAddr stunServers with ⟨first, second, htwo, hrun⟩ | ⟨-, e, hrun⟩
  · rw [h] at hrun
    obtain ⟨hservers, hsublist⟩ := htwo.sublist
    split at hrun
    · cases hrun
    · split at hrun
      · next hdiffer =>
        cases hrun
        exact ⟨first.1, first.2, second.1, second.2, hservers, hdiffer, rfl, hsublist⟩
      · cases hrun
  · rw [h] at hrun
    cases hrun

/-- The test fails exactly without a second server. -/
theorem error_iff : (∃ e, stunTest localAddr stunServers = .error e) ↔
    ∀ first rest, answers localAddr.ip stunServers = first :: rest →
      ∀ r ∈ rest, r.2 = first.2 := by
  rw [← not_twoReports_iff]
  rcases stunTest_cases localAddr stunServers with ⟨first, second, htwo, hrun⟩ | ⟨hno, herror⟩
  · apply iff_of_false
    · rintro ⟨e, he⟩
      rw [he] at hrun
      cases hrun
    · exact fun hno ↦ hno first second htwo
  · exact iff_of_true herror hno

/-- Without a NAT the second report is announced. -/
theorem noNat_iff {a : SocketAddr} :
    stunTest localAddr stunServers = .ok (.noNat a) ↔
      ∃ first second, TwoReports (answers localAddr.ip stunServers) first second ∧
        first.1.ip = localAddr.ip ∧ second.1 = a := by
  rcases stunTest_cases localAddr stunServers with ⟨first, second, htwo, hrun⟩ | ⟨hno, e, hrun⟩
  · have hclass : stunTest localAddr stunServers = .ok (.noNat a) ↔
        first.1.ip = localAddr.ip ∧ second.1 = a := by
      rw [hrun]
      by_cases hlocal : first.1.ip = localAddr.ip
      · simp [hlocal]
      · rw [if_neg (by simpa using Ne.symm hlocal)]
        split
        · simp [hlocal]
        · simp [hlocal]
    rw [hclass]
    constructor
    · exact fun h ↦ ⟨first, second, htwo, h⟩
    · rintro ⟨first', second', ⟨rest', hcons', hfind'⟩, h⟩
      obtain ⟨rest, hcons, hfind⟩ := htwo
      rw [hcons] at hcons'
      cases hcons'
      rw [hfind] at hfind'
      cases hfind'
      exact h
  · rw [hrun]
    constructor
    · intro h
      cases h
    · rintro ⟨first, second, htwo, -⟩
      exact absurd htwo (hno first second)

/-- For every local address and whatever the servers answer, the class says what the reports do
unless the first report is local and the second is not. -/
theorem classifiesSoundly_iff (localAddr : SocketAddr) (stunServers : List StunServer) :
    ClassifiesSoundly localAddr stunServers ↔
      ∀ first second, TwoReports (answers localAddr.ip stunServers) first second →
        first.1.ip = localAddr.ip → second.1.ip = localAddr.ip := by
  constructor
  · intro h first second htwo hlocal
    exact h.noNat second.1 (noNat_iff.mpr ⟨first, second, htwo, hlocal, rfl⟩)
  · intro h
    refine ⟨fun a ha ↦ ?_, fun a ↦ asymmetric_reported, fun ip ↦ symmetric_reported, error_iff⟩
    obtain ⟨first, second, htwo, hlocal, rfl⟩ := noNat_iff.mp ha
    exact h first second htwo hlocal

/-- A server at an address that reports an address. -/
def reporting (server reported : SocketAddr) : StunServer :=
  ⟨.ok [server], fun _ ↦ .ok reported⟩

/-- The first server reports the local address `8.8.8.8`, the second one `1.1.1.1`: the node
announces the second as its own address without a NAT. -/
theorem noNat_of_other_address :
    stunTest (.v4 0x08080808 1000)
        [reporting (.v4 1 3478) (.v4 0x08080808 1000),
          reporting (.v4 2 3478) (.v4 0x01010101 1000)] = .ok (.noNat (.v4 0x01010101 1000)) ∧
      ¬ ClassifiesSoundly (.v4 0x08080808 1000)
        [reporting (.v4 1 3478) (.v4 0x08080808 1000),
          reporting (.v4 2 3478) (.v4 0x01010101 1000)] := by
  have hrun : stunTest (.v4 0x08080808 1000)
      [reporting (.v4 1 3478) (.v4 0x08080808 1000),
        reporting (.v4 2 3478) (.v4 0x01010101 1000)] = .ok (.noNat (.v4 0x01010101 1000)) := by
    rfl
  refine ⟨hrun, fun h ↦ ?_⟩
  exact absurd (h.noNat _ hrun) (by decide)

end Stun

end HarddriveParty
