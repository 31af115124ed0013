import HarddriveParty.Connections.Model
import Mathlib.Data.Prod.Lex

/-!
# What is done about a discovered peer

Model of `handle_peer` in `src/connections/discovery/mod.rs`, which decides from the NAT types
of both sides who connects to whom. What hole punching finds, and which sockets can be bound,
are inputs.
-/

namespace HarddriveParty

/-! ### The order of socket addresses -/

namespace SocketAddr

/-- The fields in the order in which socket addresses are compared, IPv4 first. -/
def key : SocketAddr → ℕ ×ₗ ℕ ×ₗ ℕ ×ₗ ℕ ×ₗ ℕ
  | v4 ip port => toLex (0, toLex (ip.toNat, toLex (port.toNat, toLex (0, 0))))
  | v6 ip port flowinfo scopeId =>
    toLex (1, toLex (ip.toNat, toLex (port.toNat, toLex (flowinfo.toNat, scopeId.toNat))))

theorem key_injective : Function.Injective key := by
  intro a b h
  cases a with
  | v4 ip port =>
    cases b with
    | v4 ip' port' =>
      simp only [key, EmbeddingLike.apply_eq_iff_eq, Prod.mk.injEq, UInt32.toNat_inj,
        UInt16.toNat_inj, true_and, and_true] at h
      rw [h.1, h.2]
    | v6 ip' port' flowinfo' scopeId' => simp [key] at h
  | v6 ip port flowinfo scopeId =>
    cases b with
    | v4 ip' port' => simp [key] at h
    | v6 ip' port' flowinfo' scopeId' =>
      simp only [key, EmbeddingLike.apply_eq_iff_eq, Prod.mk.injEq, UInt32.toNat_inj,
        UInt16.toNat_inj, BitVec.toNat_inj, true_and] at h
      rw [h.1, h.2.1, h.2.2.1, h.2.2.2]

/-- The derived order of `std::net::SocketAddr`. -/
instance : LinearOrder SocketAddr := LinearOrder.lift' key key_injective

end SocketAddr

/-! ### Handling a peer -/

/-- A bound UDP socket. -/
structure UdpSocket where
  id : Nat
  deriving DecidableEq, Repr

/-- Details of a peer found through one of the discovery methods
(`src/connections/discovery/mod.rs:35`). -/
structure DiscoveredPeer where
  socketAddress : SocketAddr
  socketOption : Option UdpSocket
  discoveryMethod : DiscoveryMethod
  announceAddress : AnnounceAddress
  deriving DecidableEq, Repr

/-- What the two calls of a `HolePuncher` (`src/connections/discovery/hole_punch.rs`) give. -/
structure HolePuncher where
  holePunchPeer : SocketAddr → Except String Unit
  holePunchPeerWithoutPort : IpAddr → Except String SocketAddr

/-- What the sockets that a call opens give: the search for an open port behind a hard NAT, and
a socket on any port. -/
structure Sockets where
  birthdayHardSide : SocketAddr → Except String (UdpSocket × SocketAddr)
  bind : Except String UdpSocket

/-- Handle a peer we have discovered - depending on NAT type
(`src/connections/discovery/mod.rs:323`). -/
def handlePeer (sockets : Sockets) (holePuncher : Option HolePuncher)
    (localDetails : PeerConnectionDetails) (announceAddress : AnnounceAddress)
    (discoveryMethod : DiscoveryMethod) :
    Except UiServerError (Option DiscoveredPeer × SocketAddr) :=
  match announceAddress.connectionDetails with
  | .symmetric remoteIp =>
    match localDetails with
    | .symmetric _ => .error (.peerDiscovery "Symmetric to symmetric not yet supported")
    | .asymmetric _ =>
      match holePuncher with
      | some puncher => do
        let socketAddress ←
          (puncher.holePunchPeerWithoutPort remoteIp).mapError .peerDiscovery
        -- Wait for them to connect to us
        return (none, socketAddress)
      | none => .error (.peerDiscovery "We have asymmetric NAT but no local socket")
    -- They are symmetric (hard), we have no nat
    | .noNat socketAddress => .ok (none, socketAddress)
  | .asymmetric socketAddress =>
    match localDetails with
    | .asymmetric ourSocketAddress =>
      match holePuncher with
      | some puncher => do
        if ourSocketAddress.ip ≠ socketAddress.ip then
          (puncher.holePunchPeer socketAddress).mapError .peerDiscovery
        -- Decide whether to connect or let them connect, by comparing socket addresses
        return if socketAddress < ourSocketAddress then
          (some ⟨socketAddress, none, discoveryMethod, announceAddress⟩, socketAddress)
        else (none, socketAddress)
      | none => .error (.peerDiscovery "We have asymmetric nat but no local socket")
    | .symmetric _ => do
      let (socket, socketAddress) ←
        (sockets.birthdayHardSide socketAddress).mapError .peerDiscovery
      return (some ⟨socketAddress, some socket, discoveryMethod, announceAddress⟩, socketAddress)
    -- They are Asymmetric (easy), we have no nat
    | .noNat socketAddress => .ok (none, socketAddress)
  | .noNat socketAddress =>
    -- They have no nat - should be able to connect to them normally
    match localDetails with
    | .noNat ourSocketAddress =>
      if discoveryMethod = .direct ∨ socketAddress < ourSocketAddress then
        .ok (some ⟨socketAddress, none, discoveryMethod, announceAddress⟩, socketAddress)
      else .ok (none, socketAddress)
    | .symmetric _ => do
      let socket ← sockets.bind.mapError .peerDiscovery
      return (some ⟨socketAddress, some socket, discoveryMethod, announceAddress⟩, socketAddress)
    | .asymmetric _ =>
      .ok (some ⟨socketAddress, none, discoveryMethod, announceAddress⟩, socketAddress)

/-! ### Both sides of an automatic discovery -/

/-- The socket address of the details, which a symmetric NAT does not have. -/
def PeerConnectionDetails.socketAddress? : PeerConnectionDetails → Option SocketAddr
  | noNat addr | asymmetric addr => some addr
  | symmetric _ => none

/-- A node that takes part in automatic discovery. -/
structure Side where
  announceAddress : AnnounceAddress
  holePuncher : Option HolePuncher
  sockets : Sockets

namespace Side

/-- What the node does about another one that it learns of from a third. -/
def handle (s remote : Side) : Except UiServerError (Option DiscoveredPeer × SocketAddr) :=
  handlePeer s.sockets s.holePuncher s.announceAddress.connectionDetails remote.announceAddress
    .gossip

/-- The node is behind a symmetric NAT. -/
def IsSymmetric (s : Side) : Prop := s.announceAddress.connectionDetails.socketAddress? = none

/-- The node has a hole puncher unless it is behind a symmetric NAT, all hole punching
succeeds, and the system gives out a socket. -/
structure Ready (s : Side) : Prop where
  present : ¬ s.IsSymmetric → s.holePuncher.isSome
  punch : ∀ puncher ∈ s.holePuncher, ∀ addr, puncher.holePunchPeer addr = .ok ()
  punchWithoutPort : ∀ puncher ∈ s.holePuncher, ∀ ip,
    ∃ addr, puncher.holePunchPeerWithoutPort ip = .ok addr
  hardSide : ∀ addr, ∃ socket, s.sockets.birthdayHardSide addr = .ok socket
  bind : ∃ socket, s.sockets.bind = .ok socket

/-- The node gets a peer to connect to, which is the other one. -/
def Dials (s remote : Side) : Prop :=
  ∃ socketAddress socketOption addr, s.handle remote =
    .ok (some ⟨socketAddress, socketOption, .gossip, remote.announceAddress⟩, addr)

/-- The node waits for the other one to connect. -/
def Waits (s remote : Side) : Prop := ∃ addr, s.handle remote = .ok (none, addr)

/-- The node reports an error. -/
def Fails (s remote : Side) : Prop := ∃ e, s.handle remote = .error e

variable {s remote : Side}

/-- Two nodes behind symmetric NATs both fail. -/
theorem fails_of_symmetric (hs : s.IsSymmetric) (hremote : remote.IsSymmetric) :
    Fails s remote := by
  unfold IsSymmetric at hs hremote
  cases hd : s.announceAddress.connectionDetails with
  | noNat addr => rw [hd] at hs; cases hs
  | asymmetric addr => rw [hd] at hs; cases hs
  | symmetric ip =>
    cases hr : remote.announceAddress.connectionDetails with
    | noNat addr => rw [hr] at hremote; cases hremote
    | asymmetric addr => rw [hr] at hremote; cases hremote
    | symmetric ip' =>
      simp only [Fails, handle, handlePeer, hd, hr]
      exact ⟨_, rfl⟩

/-- A node behind a symmetric NAT connects to one that is not. -/
theorem dials_of_symmetric (h : s.Ready) (hs : s.IsSymmetric) (hremote : ¬ remote.IsSymmetric) :
    Dials s remote := by
  unfold IsSymmetric at hs hremote
  cases hd : s.announceAddress.connectionDetails with
  | noNat addr => rw [hd] at hs; cases hs
  | asymmetric addr => rw [hd] at hs; cases hs
  | symmetric ip =>
    cases hr : remote.announceAddress.connectionDetails with
    | noNat addr =>
      obtain ⟨socket, hsocket⟩ := h.bind
      simp only [Dials, handle, handlePeer, hd, hr, hsocket]
      exact ⟨_, _, _, rfl⟩
    | asymmetric addr =>
      obtain ⟨socket, hsocket⟩ := h.hardSide addr
      simp only [Dials, handle, handlePeer, hd, hr, hsocket]
      exact ⟨_, _, _, rfl⟩
    | symmetric ip' => rw [hr] at hremote; exact absurd rfl hremote

/-- A node that is not behind a symmetric NAT waits for one that is. -/
theorem waits_of_symmetric (h : s.Ready) (hs : ¬ s.IsSymmetric) (hremote : remote.IsSymmetric) :
    Waits s remote := by
  obtain ⟨puncher, hpuncher⟩ := Option.isSome_iff_exists.mp (h.present hs)
  unfold IsSymmetric at hs hremote
  cases hr : remote.announceAddress.connectionDetails with
  | noNat addr => rw [hr] at hremote; cases hremote
  | asymmetric addr => rw [hr] at hremote; cases hremote
  | symmetric ip =>
    cases hd : s.announceAddress.connectionDetails with
    | noNat addr =>
      simp only [Waits, handle, handlePeer, hd, hr]
      exact ⟨_, rfl⟩
    | asymmetric addr =>
      obtain ⟨found, hfound⟩ := h.punchWithoutPort puncher hpuncher ip
      simp only [Waits, handle, handlePeer, hd, hr, hpuncher, hfound]
      exact ⟨_, rfl⟩
    | symmetric ip' => rw [hd] at hs; exact absurd rfl hs

/-- A node without NAT waits for one behind an asymmetric NAT, which connects. -/
theorem waits_and_dials_of_noNat {a b : SocketAddr}
    (hs : s.announceAddress.connectionDetails = .noNat a)
    (hremote : remote.announceAddress.connectionDetails = .asymmetric b) :
    Waits s remote ∧ Dials remote s := by
  simp only [Waits, Dials, handle, handlePeer, hs, hremote]
  exact ⟨⟨_, rfl⟩, _, _, _, rfl⟩

/-- Of two nodes of one NAT type, the one with the greater socket address connects. -/
theorem dials_of_lt {a b : SocketAddr} (h : s.Ready) (hlt : b < a)
    (hkind : s.announceAddress.connectionDetails = .noNat a ∧
        remote.announceAddress.connectionDetails = .noNat b ∨
      s.announceAddress.connectionDetails = .asymmetric a ∧
        remote.announceAddress.connectionDetails = .asymmetric b) :
    Dials s remote := by
  rcases hkind with ⟨hs, hremote⟩ | ⟨hs, hremote⟩
  · simp only [Dials, handle, handlePeer, hs, hremote, if_pos (Or.inr hlt)]
    exact ⟨_, _, _, rfl⟩
  · have hnot : ¬ s.IsSymmetric := by simp [IsSymmetric, hs, PeerConnectionDetails.socketAddress?]
    obtain ⟨puncher, hpuncher⟩ := Option.isSome_iff_exists.mp (h.present hnot)
    simp only [Dials, handle, handlePeer, hs, hremote, hpuncher, h.punch puncher hpuncher,
      if_pos hlt]
    refine ⟨b, none, b, ?_⟩
    split <;> rfl

/-- Of two nodes of one NAT type, the one with the lesser socket address waits. -/
theorem waits_of_lt {a b : SocketAddr} (h : s.Ready) (hlt : a < b)
    (hkind : s.announceAddress.connectionDetails = .noNat a ∧
        remote.announceAddress.connectionDetails = .noNat b ∨
      s.announceAddress.connectionDetails = .asymmetric a ∧
        remote.announceAddress.connectionDetails = .asymmetric b) :
    Waits s remote := by
  have hnlt : ¬ b < a := not_lt.mpr hlt.le
  rcases hkind with ⟨hs, hremote⟩ | ⟨hs, hremote⟩
  · simp only [Waits, handle, handlePeer, hs, hremote, hnlt, or_false, reduceCtorEq, if_false]
    exact ⟨_, rfl⟩
  · have hnot : ¬ s.IsSymmetric := by simp [IsSymmetric, hs, PeerConnectionDetails.socketAddress?]
    obtain ⟨puncher, hpuncher⟩ := Option.isSome_iff_exists.mp (h.present hnot)
    simp only [Waits, handle, handlePeer, hs, hremote, hpuncher, h.punch puncher hpuncher,
      if_neg hnlt]
    refine ⟨b, ?_⟩
    split <;> rfl

private theorem tieBreak {a b : SocketAddr} (hs : s.Ready) (hr : remote.Ready) (hne : a ≠ b)
    (hkind : s.announceAddress.connectionDetails = .noNat a ∧
        remote.announceAddress.connectionDetails = .noNat b ∨
      s.announceAddress.connectionDetails = .asymmetric a ∧
        remote.announceAddress.connectionDetails = .asymmetric b) :
    Dials s remote ∧ Waits remote s ∨ Waits s remote ∧ Dials remote s := by
  have hmirror : remote.announceAddress.connectionDetails = .noNat b ∧
        s.announceAddress.connectionDetails = .noNat a ∨
      remote.announceAddress.connectionDetails = .asymmetric b ∧
        s.announceAddress.connectionDetails = .asymmetric a :=
    hkind.imp And.symm And.symm
  rcases lt_or_gt_of_ne hne with hlt | hlt
  · exact Or.inr ⟨waits_of_lt hs hlt hkind, dials_of_lt hr hlt hmirror⟩
  · exact Or.inl ⟨dials_of_lt hs hlt hkind, waits_of_lt hr hlt hmirror⟩

/-- Automatic discovery makes exactly one side connect and the other one wait, whatever the NAT
types and addresses, unless both are behind symmetric NATs: then both sides fail. -/
theorem exactly_one_dials (s remote : Side) (hs : s.Ready) (hremote : remote.Ready)
    (hdistinct : ∀ a b, s.announceAddress.connectionDetails.socketAddress? = some a →
      remote.announceAddress.connectionDetails.socketAddress? = some b → a ≠ b) :
    (¬ (s.IsSymmetric ∧ remote.IsSymmetric) →
      Dials s remote ∧ Waits remote s ∨ Waits s remote ∧ Dials remote s) ∧
    (s.IsSymmetric ∧ remote.IsSymmetric → Fails s remote ∧ Fails remote s) := by
  refine ⟨fun hnot ↦ ?_, fun h ↦ ⟨fails_of_symmetric h.1 h.2, fails_of_symmetric h.2 h.1⟩⟩
  by_cases hsym : s.IsSymmetric
  · have hother : ¬ remote.IsSymmetric := fun h ↦ hnot ⟨hsym, h⟩
    exact Or.inl ⟨dials_of_symmetric hs hsym hother, waits_of_symmetric hremote hother hsym⟩
  · by_cases hother : remote.IsSymmetric
    · exact Or.inr ⟨waits_of_symmetric hs hsym hother, dials_of_symmetric hremote hother hsym⟩
    · -- both have a socket address: the NAT types decide, or else the addresses
      cases hd : s.announceAddress.connectionDetails with
      | symmetric ip => exact absurd (congrArg PeerConnectionDetails.socketAddress? hd) hsym
      | noNat a =>
        cases hr : remote.announceAddress.connectionDetails with
        | symmetric ip => exact absurd (congrArg PeerConnectionDetails.socketAddress? hr) hother
        | asymmetric b => exact Or.inr (waits_and_dials_of_noNat hd hr)
        | noNat b =>
          have hne : a ≠ b := hdistinct a b (by rw [hd]; rfl) (by rw [hr]; rfl)
          exact tieBreak hs hremote hne (Or.inl ⟨hd, hr⟩)
      | asymmetric a =>
        cases hr : remote.announceAddress.connectionDetails with
        | symmetric ip => exact absurd (congrArg PeerConnectionDetails.socketAddress? hr) hother
        | noNat b => exact Or.inl (waits_and_dials_of_noNat hr hd).symm
        | asymmetric b =>
          have hne : a ≠ b := hdistinct a b (by rw [hd]; rfl) (by rw [hr]; rfl)
          exact tieBreak hs hremote hne (Or.inr ⟨hd, hr⟩)

/-- Two nodes behind asymmetric NATs, one at an IPv4 address and one at an IPv6 address. -/
theorem exactly_one_dials_mixed :
    let puncher : HolePuncher := ⟨fun _ ↦ .ok (), fun _ ↦ .ok (.v4 1 1)⟩
    let sockets : Sockets := ⟨fun addr ↦ .ok (⟨0⟩, addr), .ok ⟨0⟩⟩
    let left : Side := ⟨⟨.asymmetric (.v4 9 9), "l"⟩, some puncher, sockets⟩
    let right : Side := ⟨⟨.asymmetric (.v6 1 1 0 0), "r"⟩, some puncher, sockets⟩
    Dials left right ∧ Waits right left ∨ Waits left right ∧ Dials right left := by
  intro puncher sockets left right
  have hready (details : PeerConnectionDetails) (name : String) :
      Side.Ready ⟨⟨details, name⟩, some puncher, sockets⟩ := by
    constructor
    · exact fun _ ↦ rfl
    · intro p hp addr
      cases hp
      rfl
    · intro p hp ip
      cases hp
      exact ⟨_, rfl⟩
    · exact fun addr ↦ ⟨_, rfl⟩
    · exact ⟨_, rfl⟩
  apply (exactly_one_dials left right (hready _ _) (hready _ _) _).1
  · rintro ⟨h, -⟩
    cases h
  · intro a b ha hb
    cases ha
    cases hb
    exact fun h ↦ by cases h

end Side

end HarddriveParty
