import HarddriveParty.Base.Numerals
import HarddriveParty.Connections.Hdp
import HarddriveParty.Shared.AddressText

/-!
# The two tie-breaks of automatic discovery

Two nodes without NAT that discover each other both ways decide who connects by comparing their
socket addresses. After `src/connections/discovery/mdns.rs` the texts are compared, and after
`handle_peer` in `src/connections/discovery/mod.rs` the values. The text of an address is a
sequence of printed numbers: the texts are in the order of the values only where, at the first
number in which the two addresses differ, the smaller address has the number that is printed
first.
-/

namespace HarddriveParty

open Numerals

/-! ### The two rules -/

/-- What `run` does about a resolved service: nothing about ourselves; any other peer becomes
known, and is connected to if our address is greater as a text
(`src/connections/discovery/mdns.rs:56`). -/
def MdnsServer.serviceResolved (addr theirAddr : SocketAddr)
    (theirAnnounceAddress : AnnounceAddress) : Option Hdp.Action :=
  if theirAddr = addr then none
  else
    some (.mdns theirAnnounceAddress
      (if Utf8.compareBytes addr.text theirAddr.text = .gt then some theirAddr else none))

/-- The mDNS rule lets the node at the first address connect to the other one. -/
def MdnsDials (a b : SocketAddr) (announceAddress : AnnounceAddress) : Prop :=
  MdnsServer.serviceResolved a b announceAddress = some (.mdns announceAddress (some b))

/-- The rule for two nodes without NAT lets the node at the first address connect to the other
one. -/
def NoNatDials (a b : SocketAddr) (sockets : Sockets) (holePuncher : Option HolePuncher)
    (discoveryMethod : DiscoveryMethod) (name : String) : Prop :=
  handlePeer sockets holePuncher (.noNat a) ⟨.noNat b, name⟩ discoveryMethod =
    .ok (some ⟨b, none, discoveryMethod, ⟨.noNat b, name⟩⟩, b)

/-- The mDNS rule lets the node at the first address connect to the other one if and only if
the rule of `handle_peer` does, for every discovery that is not a direct one. -/
def SameRule (a b : SocketAddr) : Prop :=
  ∀ sockets holePuncher discoveryMethod name, discoveryMethod ≠ .direct →
    (MdnsDials a b ⟨.noNat b, name⟩ ↔ NoNatDials a b sockets holePuncher discoveryMethod name)

/-! ### Printed addresses -/

/-- A character in the text of an address, or its end, which comes before every character. -/
abbrev Mark := Option UInt8

/-- The mark of an ASCII character. -/
def mark (c : Char) : Mark := some c.toUInt8

/-- The ASCII digits of a radix. -/
def asciiDigits (r : Nat) (hr : r ≤ 16) : Digits Mark r where
  code d := mark (Nat.digitChar d)
  mono := by
    have h : ∀ d : Fin 16, ∀ c : Fin 16, c < d →
        compare (mark (Nat.digitChar c)) (mark (Nat.digitChar d)) = .lt := by decide
    intro c d hcd hd
    exact h ⟨d, by omega⟩ ⟨c, by omega⟩ hcd

/-- The decimal digits. -/
def decimalDigits : Digits Mark 10 := asciiDigits 10 (by decide)

/-- The hexadecimal digits. -/
def hexDigits : Digits Mark 16 := asciiDigits 16 (by decide)

/-- A number in decimal digits. -/
def decimal (n : Nat) (stop : Mark) : Printed Mark := ⟨n, (Nat.toDigits 10 n).length, stop⟩

/-- A number in hexadecimal digits. -/
def hexGroup (n : Nat) (stop : Mark) : Printed Mark := ⟨n, (Nat.toDigits 16 n).length, stop⟩

/-- A number in decimal digits among hexadecimal ones, which it is compared with. -/
def decimalInHex (n : Nat) (stop : Mark) : Printed Mark :=
  ⟨reread 16 n, (Nat.toDigits 10 n).length, stop⟩

/-- No digits at all, as between two colons. -/
def noDigits (stop : Mark) : Printed Mark := ⟨0, 0, stop⟩

/-- Numbers with separators between them. -/
def separated (field : Nat → Mark → Printed Mark) (sep stop : Mark) : List Nat → List (Printed Mark)
  | [] => [noDigits stop]
  | [n] => [field n stop]
  | n :: m :: rest => field n sep :: separated field sep stop (m :: rest)

/-- The numbers of an IPv4 socket address: four octets and the port. -/
def ipv4Fields (ip : UInt32) (port : UInt16) : List (Printed Mark) :=
  separated decimal (mark '.') (mark ':') (octets ip) ++ [decimal port.toNat none]

/-- The numbers of an IPv6 address: its segments without the longest run of zeros, or the
octets of the IPv4 address that it stands for. -/
def ipv6IpFields (ip : BitVec 128) (stop : Mark) : List (Printed Mark) :=
  match toIpv4Mapped ip with
  | some ipv4 =>
    [noDigits (mark ':'), noDigits (mark ':'), hexGroup 0xffff (mark ':')] ++
      separated decimalInHex (mark '.') stop (octets ipv4)
  | none =>
    let zeroes := zeroSpan 0 ⟨0, 0⟩ ⟨0, 0⟩ (segments ip)
    if 1 < zeroes.len then
      separated hexGroup (mark ':') (mark ':') ((segments ip).take zeroes.start) ++
        noDigits (mark ':') ::
        separated hexGroup (mark ':') stop ((segments ip).drop (zeroes.start + zeroes.len))
    else separated hexGroup (mark ':') stop (segments ip)

/-- The numbers of an IPv6 socket address: those of the IP address, the scope id unless it is
zero, and the port. -/
def ipv6Fields (ip : BitVec 128) (port : UInt16) (scopeId : UInt32) : List (Printed Mark) :=
  (if scopeId = 0 then ipv6IpFields ip (mark ']')
    else ipv6IpFields ip (mark '%') ++ [decimalInHex scopeId.toNat (mark ']')]) ++
    [noDigits (mark ':'), decimalInHex port.toNat none]

/-- The text of the first address comes first, number by number: at the first number in which
the two differ, its leading digits, as many as the shorter number has, form a smaller number, or
the same and what comes next, a digit or a separator, is smaller. -/
def PrintsBefore : SocketAddr → SocketAddr → Prop
  | .v4 ip port, .v4 ip' port' =>
    ListBefore decimalDigits (ipv4Fields ip port) (ipv4Fields ip' port')
  | .v4 _ _, .v6 _ _ _ _ => True
  | .v6 _ _ _ _, .v4 _ _ => False
  | .v6 ip port _ scopeId, .v6 ip' port' _ scopeId' =>
    ListBefore hexDigits (ipv6Fields ip port scopeId) (ipv6Fields ip' port' scopeId')

instance : DecidableRel PrintsBefore
  | .v4 ip port, .v4 ip' port' => inferInstanceAs
    (Decidable (ListBefore decimalDigits (ipv4Fields ip port) (ipv4Fields ip' port')))
  | .v4 _ _, .v6 _ _ _ _ => inferInstanceAs (Decidable True)
  | .v6 _ _ _ _, .v4 _ _ => inferInstanceAs (Decidable False)
  | .v6 ip port _ scopeId, .v6 ip' port' _ scopeId' => inferInstanceAs
    (Decidable (ListBefore hexDigits (ipv6Fields ip port scopeId) (ipv6Fields ip' port' scopeId')))

/-! ### What is printed -/

section Text

/-- The marks of a string. -/
def marks (s : String) : List Mark := (Utf8.encode s).map some

theorem marks_append (s t : String) : marks (s ++ t) = marks s ++ marks t := by
  simp [marks]

/-- The digits of a number are marked one by one. -/
private theorem marks_digits {ds : List Nat} (h : ∀ d ∈ ds, d < 16) :
    marks (String.ofList (ds.map Nat.digitChar)) = ds.map fun d ↦ mark (Nat.digitChar d) := by
  have hone : ∀ d : Fin 16, marks (String.ofList [Nat.digitChar d]) = [mark (Nat.digitChar d)] := by
    decide
  induction ds with
  | nil => rfl
  | cons d ds ih =>
    have happ : String.ofList ((d :: ds).map Nat.digitChar) =
        String.ofList [Nat.digitChar d] ++ String.ofList (ds.map Nat.digitChar) := by
      rw [← String.ofList_append]
      rfl
    rw [happ, marks_append, ih fun e he ↦ h e (List.mem_cons_of_mem d he),
      hone ⟨d, h d List.mem_cons_self⟩]
    rfl

/-- The numeral of a number in the radix of its digits. -/
private theorem marks_toDigits {r : Nat} (hr : 1 < r) (hr16 : r ≤ 16) (n : Nat) :
    marks (String.ofList (Nat.toDigits r n)) =
      (numeral r (Nat.toDigits r n).length n).map fun d ↦ mark (Nat.digitChar d) := by
  have hlt : ∀ d ∈ numeral r (Nat.toDigits r n).length n, d < 16 := fun d hd ↦
    Nat.lt_of_lt_of_le (lt_of_mem_numeral (by omega) hd) hr16
  rw [← marks_digits hlt, map_digitChar_numeral hr]

theorem text_decimal (n : Nat) (stop : Mark) :
    (decimal n stop).text decimalDigits = marks (toString n) ++ [stop] := by
  rw [Nat.toString_eq_ofList_toDigits, marks_toDigits (by decide) (by decide)]
  rfl

theorem text_hexGroup (n : Nat) (stop : Mark) :
    (hexGroup n stop).text hexDigits = marks (hexText n) ++ [stop] := by
  rw [hexText, marks_toDigits (by decide) (by decide)]
  rfl

private theorem lt_of_mem_decimalNumeral {n d : Nat}
    (h : d ∈ numeral 10 (Nat.toDigits 10 n).length n) : d < 16 :=
  Nat.lt_trans (lt_of_mem_numeral (by decide) h) (by decide)

private theorem numeral_reread (n : Nat) :
    numeral 16 (Nat.toDigits 10 n).length (reread 16 n) =
      numeral 10 (Nat.toDigits 10 n).length n := by
  have h := numeral_ofNumeral fun d hd ↦ lt_of_mem_decimalNumeral (n := n) hd
  rwa [length_numeral] at h

theorem text_decimalInHex (n : Nat) (stop : Mark) :
    (decimalInHex n stop).text hexDigits = marks (toString n) ++ [stop] := by
  rw [Nat.toString_eq_ofList_toDigits, marks_toDigits (by decide) (by decide), ← numeral_reread]
  rfl

theorem text_noDigits (stop : Mark) : (noDigits stop).text hexDigits = [stop] := rfl

/-- Separated numbers are printed with the separators between them. -/
theorem text_separated {r : Nat} {c : Digits Mark r} {field : Nat → Mark → Printed Mark}
    {shown : Nat → String} (hfield : ∀ n stop, (field n stop).text c = marks (shown n) ++ [stop])
    (sep : Char) (hsep : marks (String.singleton sep) = [mark sep]) (stop : Mark) (ns : List Nat) :
    (separated field (mark sep) stop ns).flatMap (Printed.text c) =
      marks (String.intercalate (String.singleton sep) (ns.map shown)) ++ [stop] := by
  induction ns with
  | nil => rfl
  | cons n ns ih =>
    cases ns with
    | nil => simp [separated, hfield]
    | cons m ns =>
      rw [separated, List.flatMap_cons, ih, hfield]
      simp only [List.map_cons, String.intercalate_cons_cons, marks_append, hsep]
      simp

theorem text_octets (ip : UInt32) (stop : Mark) :
    (separated decimal (mark '.') stop (octets ip)).flatMap (Printed.text decimalDigits) =
      marks (ipv4Text ip) ++ [stop] :=
  text_separated text_decimal '.' (by decide) stop (octets ip)

theorem text_octetsInHex (ip : UInt32) (stop : Mark) :
    (separated decimalInHex (mark '.') stop (octets ip)).flatMap (Printed.text hexDigits) =
      marks (ipv4Text ip) ++ [stop] :=
  text_separated text_decimalInHex '.' (by decide) stop (octets ip)

theorem text_groups (stop : Mark) (chunk : List Nat) :
    (separated hexGroup (mark ':') stop chunk).flatMap (Printed.text hexDigits) =
      marks (subsliceText chunk) ++ [stop] :=
  text_separated text_hexGroup ':' (by decide) stop chunk

theorem text_ipv4Fields (ip : UInt32) (port : UInt16) :
    (ipv4Fields ip port).flatMap (Printed.text decimalDigits) =
      marks (SocketAddr.v4 ip port).text ++ [none] := by
  have hcolon : marks ":" = [mark ':'] := by decide
  rw [ipv4Fields, List.flatMap_append, text_octets, List.flatMap_singleton, text_decimal,
    SocketAddr.text, marks_append, marks_append, hcolon]
  simp

theorem text_ipv6IpFields (ip : BitVec 128) (stop : Mark) :
    (ipv6IpFields ip stop).flatMap (Printed.text hexDigits) = marks (ipv6Text ip) ++ [stop] := by
  have hcolons : marks "::" = [mark ':', mark ':'] := by decide
  unfold ipv6IpFields ipv6Text
  cases toIpv4Mapped ip with
  | some ipv4 =>
    have hmapped : ([noDigits (mark ':'), noDigits (mark ':'), hexGroup 0xffff (mark ':')]).flatMap
        (Printed.text hexDigits) = marks "::ffff:" := by decide
    simp only
    rw [List.flatMap_append, text_octetsInHex, hmapped, marks_append, List.append_assoc]
  | none =>
    simp only
    split
    · rw [List.flatMap_append, List.flatMap_cons, text_groups, text_groups, text_noDigits,
        marks_append, marks_append, hcolons]
      simp
    · exact text_groups stop (segments ip)

theorem text_ipv6Fields (ip : BitVec 128) (port : UInt16) (flowinfo scopeId : UInt32) :
    mark '[' :: (ipv6Fields ip port scopeId).flatMap (Printed.text hexDigits) =
      marks (SocketAddr.v6 ip port flowinfo scopeId).text ++ [none] := by
  have hopen : marks "[" = [mark '['] := by decide
  have hclose : marks "]:" = [mark ']', mark ':'] := by decide
  have hpercent : marks "%" = [mark '%'] := by decide
  unfold ipv6Fields SocketAddr.text scopeText
  rw [List.flatMap_append]
  by_cases hscope : scopeId = 0
  · simp [hscope, marks_append, hopen, hclose, text_ipv6IpFields, text_noDigits,
      text_decimalInHex]
  · simp [hscope, marks_append, hopen, hclose, hpercent, text_ipv6IpFields, text_noDigits,
      text_decimalInHex]

end Text

section Fits

private theorem stop_ne {r : Nat} {hr : r ≤ 16} {stop : Mark}
    (hstop : stop ∈ [none, mark '.', mark ':', mark ']', mark '%']) (d : Nat) (hd : d < r) :
    stop ≠ (asciiDigits r hr).code d := by
  have h : ∀ stop ∈ [none, mark '.', mark ':', mark ']', mark '%'], ∀ d : Fin 16,
      stop ≠ mark (Nat.digitChar d) := by decide +kernel
  exact h stop hstop ⟨d, by omega⟩

variable {stop : Mark} (hstop : stop ∈ [none, mark '.', mark ':', mark ']', mark '%'])
include hstop

theorem fits_decimal (n : Nat) : (decimal n stop).Fits decimalDigits :=
  ⟨lt_pow_length_toDigits (by decide) n, stop_ne hstop⟩

theorem fits_hexGroup (n : Nat) : (hexGroup n stop).Fits hexDigits :=
  ⟨lt_pow_length_toDigits (by decide) n, stop_ne hstop⟩

theorem fits_decimalInHex (n : Nat) : (decimalInHex n stop).Fits hexDigits := by
  refine ⟨?_, stop_ne hstop⟩
  have h := ofNumeral_lt fun d hd ↦ lt_of_mem_decimalNumeral (n := n) hd
  rwa [length_numeral] at h

theorem fits_noDigits {r : Nat} {hr : r ≤ 16} : (noDigits stop).Fits (asciiDigits r hr) :=
  ⟨Nat.one_pos, stop_ne hstop⟩

omit hstop in
/-- Separated numbers fit when each number does before the separator and at the end. -/
theorem fits_separated {r : Nat} {hr : r ≤ 16} {field : Nat → Mark → Printed Mark} {sep : Mark}
    {ns : List Nat} (hsep : ∀ n, (field n sep).Fits (asciiDigits r hr))
    (hend : ∀ n, (field n stop).Fits (asciiDigits r hr))
    (hnone : (noDigits stop).Fits (asciiDigits r hr)) :
    ∀ f ∈ separated field sep stop ns, f.Fits (asciiDigits r hr) := by
  induction ns with
  | nil => simpa [separated] using hnone
  | cons n ns ih =>
    cases ns with
    | nil => simpa [separated] using hend n
    | cons m ns =>
      intro f hf
      rcases List.mem_cons.mp hf with rfl | hf
      · exact hsep n
      · exact ih f hf

theorem fits_groups {chunk : List Nat} :
    ∀ f ∈ separated hexGroup (mark ':') stop chunk, f.Fits hexDigits :=
  fits_separated (fits_hexGroup (by simp)) (fits_hexGroup hstop) (fits_noDigits hstop)

theorem fits_ipv6IpFields (ip : BitVec 128) : ∀ f ∈ ipv6IpFields ip stop, f.Fits hexDigits := by
  have hcolon : mark ':' ∈ [none, mark '.', mark ':', mark ']', mark '%'] := by simp
  unfold ipv6IpFields
  cases toIpv4Mapped ip with
  | some ipv4 =>
    intro f hf
    rcases List.mem_append.mp hf with hf | hf
    · simp only [List.mem_cons, List.not_mem_nil, or_false] at hf
      rcases hf with rfl | rfl | rfl
      · exact fits_noDigits hcolon
      · exact fits_noDigits hcolon
      · exact fits_hexGroup hcolon _
    · exact fits_separated (fits_decimalInHex (by simp)) (fits_decimalInHex hstop)
        (fits_noDigits hstop) f hf
  | none =>
    simp only
    split
    · intro f hf
      rcases List.mem_append.mp hf with hf | hf
      · exact fits_groups hcolon f hf
      · rcases List.mem_cons.mp hf with rfl | hf
        · exact fits_noDigits hcolon
        · exact fits_groups hstop f hf
    · exact fits_groups hstop

end Fits

theorem fits_ipv4Fields (ip : UInt32) (port : UInt16) :
    ∀ f ∈ ipv4Fields ip port, f.Fits decimalDigits := by
  intro f hf
  rcases List.mem_append.mp hf with hf | hf
  · exact fits_separated (fits_decimal (by simp)) (fits_decimal (by simp))
      (fits_noDigits (by simp)) f hf
  · rw [List.mem_singleton.mp hf]
    exact fits_decimal (by simp) _

theorem fits_ipv6Fields (ip : BitVec 128) (port : UInt16) (scopeId : UInt32) :
    ∀ f ∈ ipv6Fields ip port scopeId, f.Fits hexDigits := by
  intro f hf
  rcases List.mem_append.mp hf with hf | hf
  · split at hf
    · exact fits_ipv6IpFields (by simp) ip f hf
    · rcases List.mem_append.mp hf with hf | hf
      · exact fits_ipv6IpFields (by simp) ip f hf
      · rw [List.mem_singleton.mp hf]
        exact fits_decimalInHex (by simp) _
  · simp only [List.mem_cons, List.not_mem_nil, or_false] at hf
    rcases hf with rfl | rfl
    · exact fits_noDigits (by simp)
    · exact fits_decimalInHex (by simp) _

/-! ### The order of the texts -/

section Order

/-- Behind a mark for the end, texts are compared as without it. -/
private theorem compare_marked (a b : Bytes) :
    compare (a.map some ++ [none] : List Mark) (b.map some ++ [none]) = compare a b := by
  induction a generalizing b with
  | nil =>
    cases b with
    | nil => rfl
    | cons y b => rfl
  | cons x a ih =>
    cases b with
    | nil => rfl
    | cons y b =>
      rw [List.map_cons, List.map_cons, List.cons_append, List.cons_append,
        List.compare_cons_cons, List.compare_cons_cons, ih]
      rfl

private theorem compareBytes_marks (s t : String) :
    Utf8.compareBytes s t = compare (marks s ++ [none]) (marks t ++ [none]) :=
  (compare_marked _ _).symm

/-- An IPv4 address prints a digit first, and an IPv6 address a bracket. -/
private theorem text_v4_lt_v6 (ip : UInt32) (port : UInt16) (ip' : BitVec 128) (port' : UInt16)
    (flowinfo scopeId : UInt32) :
    compare (marks (SocketAddr.v4 ip port).text ++ [none])
      (marks (SocketAddr.v6 ip' port' flowinfo scopeId).text ++ [none]) = .lt := by
  have hlt : ∀ d : Fin 10, compare (mark (Nat.digitChar d)) (mark '[') = .lt := by decide
  have hfields : ∃ n rest, ipv4Fields ip port = decimal n (mark '.') :: rest := ⟨_, _, rfl⟩
  obtain ⟨n, rest, hfields⟩ := hfields
  obtain ⟨k, hk⟩ : ∃ k, (Nat.toDigits 10 n).length = k + 1 :=
    Nat.exists_eq_succ_of_ne_zero (Nat.ne_of_gt Nat.length_toDigits_pos)
  have htext : (decimal n (mark '.')).text decimalDigits =
      mark (Nat.digitChar (n / 10 ^ k % 10)) ::
        ((numeral 10 k n).map decimalDigits.code ++ [mark '.']) := by
    rw [Printed.text, decimal, hk]
    rfl
  rw [← text_ipv6Fields, ← text_ipv4Fields, hfields, List.flatMap_cons, htext, List.cons_append,
    List.compare_cons_cons, hlt ⟨n / 10 ^ k % 10, Nat.mod_lt _ (by decide)⟩]
  rfl

/-- Which text comes first is decided number by number. -/
theorem compareBytes_text_lt_iff (a b : SocketAddr) :
    Utf8.compareBytes a.text b.text = .lt ↔ PrintsBefore a b := by
  rw [compareBytes_marks]
  cases a with
  | v4 ip port =>
    cases b with
    | v4 ip' port' =>
      rw [← text_ipv4Fields, ← text_ipv4Fields]
      exact compare_texts_lt_iff (fits_ipv4Fields ip port) (fits_ipv4Fields ip' port')
    | v6 ip' port' flowinfo' scopeId' =>
      exact iff_of_true (text_v4_lt_v6 ip port ip' port' flowinfo' scopeId') trivial
  | v6 ip port flowinfo scopeId =>
    cases b with
    | v4 ip' port' =>
      rw [Std.OrientedOrd.eq_swap, text_v4_lt_v6]
      exact iff_of_false (by decide) id
    | v6 ip' port' flowinfo' scopeId' =>
      rw [← text_ipv6Fields, ← text_ipv6Fields, List.compare_cons_cons,
        Std.ReflOrd.compare_self, Ordering.eq_then]
      exact compare_texts_lt_iff (fits_ipv6Fields ip port scopeId)
        (fits_ipv6Fields ip' port' scopeId')

end Order

/-! ### Agreement -/

section Agreement

variable {a b : SocketAddr}

/-- The mDNS rule connects to the address that prints first. -/
theorem mdnsDials_iff {announceAddress : AnnounceAddress} :
    MdnsDials a b announceAddress ↔ PrintsBefore b a := by
  have hswap : Utf8.compareBytes a.text b.text = .gt ↔ Utf8.compareBytes b.text a.text = .lt := by
    have h : Utf8.compareBytes b.text a.text = (Utf8.compareBytes a.text b.text).swap :=
      Std.OrientedCmp.eq_swap
    rw [h, Ordering.swap_eq_lt]
  unfold MdnsDials MdnsServer.serviceResolved
  rw [← compareBytes_text_lt_iff, ← hswap]
  by_cases hab : b = a
  · subst hab
    have hself : Utf8.compareBytes b.text b.text = .eq := Std.ReflCmp.compare_self
    simp [hself]
  · simp [hab]

/-- The rule for two nodes without NAT connects to the smaller address. -/
theorem noNatDials_iff {sockets : Sockets} {holePuncher : Option HolePuncher}
    {discoveryMethod : DiscoveryMethod} {name : String} (hmethod : discoveryMethod ≠ .direct) :
    NoNatDials a b sockets holePuncher discoveryMethod name ↔ b < a := by
  by_cases hlt : b < a
  · simp [NoNatDials, handlePeer, hlt]
  · simp [NoNatDials, handlePeer, hlt, hmethod]

theorem sameRule_iff : SameRule a b ↔ (PrintsBefore b a ↔ b < a) := by
  constructor
  · intro h
    have hrule := h ⟨fun _ ↦ .error "", .error ""⟩ none .mdns "" (by decide)
    rwa [mdnsDials_iff, noNatDials_iff (by decide)] at hrule
  · intro h sockets holePuncher discoveryMethod name hmethod
    rw [mdnsDials_iff, noNatDials_iff hmethod]
    exact h

theorem not_printsBefore_of_printsBefore (h : PrintsBefore b a) : ¬ PrintsBefore a b := by
  rw [← compareBytes_text_lt_iff] at h ⊢
  intro hab
  exact Std.OrientedCmp.not_lt_of_lt h hab

private theorem sameRule_both_iff (h : b < a) :
    SameRule a b ∧ SameRule b a ↔ PrintsBefore b a := by
  rw [sameRule_iff, sameRule_iff]
  constructor
  · intro hboth
    exact hboth.1.mpr h
  · intro hprints
    exact ⟨iff_of_true hprints h,
      iff_of_false (not_printsBefore_of_printsBefore hprints) (not_lt_of_gt h)⟩

/-- The two rules pick the same one of two nodes to connect, if and only if the smaller of the
two addresses prints before the greater one. -/
theorem tie_breaks_agree_iff (a b : SocketAddr) (h : a ≠ b) :
    SameRule a b ∧ SameRule b a ↔ PrintsBefore (min a b) (max a b) := by
  rcases lt_or_gt_of_ne h with hlt | hgt
  · rw [min_eq_left hlt.le, max_eq_right hlt.le, and_comm]
    exact sameRule_both_iff hlt
  · rw [min_eq_right hgt.le, max_eq_left hgt.le]
    exact sameRule_both_iff hgt

/-- They agree about `10.0.0.2:9` and `10.0.0.1:9`. -/
theorem tie_breaks_agree_neighbours :
    SameRule (.v4 0x0a000002 9) (.v4 0x0a000001 9) ∧
      SameRule (.v4 0x0a000001 9) (.v4 0x0a000002 9) :=
  (tie_breaks_agree_iff _ _ (by decide)).mpr (by decide)

/-- They disagree about `10.0.0.1:9` and `9.0.0.1:9`: the node at the first address connects by
one rule and the node at the second by the other. -/
theorem tie_breaks_disagree : ¬ ∀ a b, a ≠ b → SameRule a b := by
  intro h
  have hrule := sameRule_iff.mp (h (.v4 0x0a000001 9) (.v4 0x09000001 9) (by decide))
  have hprints : ¬ PrintsBefore (.v4 0x09000001 9) (.v4 0x0a000001 9) := by decide
  have hlt : SocketAddr.v4 0x09000001 9 < SocketAddr.v4 0x0a000001 9 := by decide
  exact hprints (hrule.mpr hlt)

end Agreement

end HarddriveParty
