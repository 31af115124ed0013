import HarddriveParty.Discovery.TieBreak

/-!
# The order of address texts

Socket addresses without flow label and scope id have different texts, although the text of an
IPv6 address leaves out a run of zeros; so of two such addresses one has the greater text. A scope
id only makes a text smaller.
-/

namespace HarddriveParty

open Numerals

/-! ### The numbers of an address -/

theorem octets_inj {a b : UInt32} (h : octets a = octets b) : a = b := by
  simp only [octets, List.cons.injEq, and_true] at h
  apply UInt32.toNat_inj.mp
  omega

theorem segments_inj {a b : BitVec 128} (h : segments a = segments b) : a = b := by
  have hsegment (i : Nat) (hi : i < 8) :
      a.toNat / 2 ^ (112 - 16 * i) % 65536 = b.toNat / 2 ^ (112 - 16 * i) % 65536 :=
    List.map_inj_left.mp h i (List.mem_range.mpr hi)
  have hshift (n i : Nat) (hi : i < 7) : n / 2 ^ (112 - 16 * i) =
      n / 2 ^ (112 - 16 * (i + 1)) / 65536 := by
    rw [Nat.div_div_eq_div_mul, show (65536 : Nat) = 2 ^ 16 from rfl, ← Nat.pow_add]
    congr 2
    omega
  have hleading (i : Nat) (hi : i < 8) :
      a.toNat / 2 ^ (112 - 16 * i) = b.toNat / 2 ^ (112 - 16 * i) := by
    induction i with
    | zero =>
      have ha : a.toNat / 2 ^ 112 < 65536 := by have := a.isLt; omega
      have hb : b.toNat / 2 ^ 112 < 65536 := by have := b.isLt; omega
      have h0 := hsegment 0 hi
      rwa [Nat.mod_eq_of_lt ha, Nat.mod_eq_of_lt hb] at h0
    | succ i ih =>
      have hprevious := ih (by omega)
      rw [hshift a.toNat i (by omega), hshift b.toNat i (by omega)] at hprevious
      have hlast := hsegment (i + 1) hi
      omega
  apply BitVec.eq_of_toNat_eq
  simpa using hleading 7 (by decide)

theorem length_segments (ip : BitVec 128) : (segments ip).length = 8 := by
  rw [segments, List.length_map, List.length_range]

/-- An IPv6 address that an IPv4 address is mapped to is determined by it. -/
theorem toIpv4Mapped_inj {a b : BitVec 128} {ipv4 : UInt32} (ha : toIpv4Mapped a = some ipv4)
    (hb : toIpv4Mapped b = some ipv4) : a = b := by
  unfold toIpv4Mapped at ha hb
  split at ha
  · next hprefix =>
    split at hb
    · next hprefix' =>
      apply segments_inj
      have hlow : UInt32.ofNat a.toNat = UInt32.ofNat b.toNat :=
        (Option.some.inj ha).trans (Option.some.inj hb).symm
      have hmod : a.toNat % 2 ^ 32 = b.toNat % 2 ^ 32 := by
        have htoNat := congrArg UInt32.toNat hlow
        rwa [UInt32.toNat_ofNat', UInt32.toNat_ofNat'] at htoNat
      have hrest : (segments a).drop 6 = (segments b).drop 6 := by
        show [a.toNat / 2 ^ 16 % 65536, a.toNat / 2 ^ 0 % 65536] =
          [b.toNat / 2 ^ 16 % 65536, b.toNat / 2 ^ 0 % 65536]
        have h6 : a.toNat / 2 ^ 16 % 65536 = b.toNat / 2 ^ 16 % 65536 := by omega
        have h7 : a.toNat / 2 ^ 0 % 65536 = b.toNat / 2 ^ 0 % 65536 := by omega
        rw [h6, h7]
      rw [← List.take_append_drop 6 (segments a), hprefix, hrest, ← hprefix',
        List.take_append_drop]
    · cases hb
  · cases ha

/-! ### The run of zeros that is left out -/

/-- A span lies within the numbers, and only zeros are in it. -/
structure Span.Zeroes (ns : List Nat) (span : Span) : Prop where
  within : span.start + span.len ≤ ns.length
  zeroes : (ns.drop span.start).take span.len = List.replicate span.len 0

/-- A zero behind a span of zeros belongs to it. -/
private theorem Span.Zeroes.extend {ns rest : List Nat} {start len : Nat}
    (h : Span.Zeroes ns ⟨start, len⟩) (hrest : ns.drop (start + len) = 0 :: rest) :
    Span.Zeroes ns ⟨start, len + 1⟩ := by
  have hlt : start + len < ns.length := by
    by_contra hge
    rw [List.drop_eq_nil_of_le (Nat.le_of_not_lt hge)] at hrest
    cases hrest
  have hzeroes : (ns.drop start).take len = List.replicate len 0 := h.zeroes
  refine ⟨hlt, ?_⟩
  show (ns.drop start).take (len + 1) = List.replicate (len + 1) 0
  rw [List.take_add, List.drop_drop, hrest, hzeroes, List.replicate_succ']
  rfl

/-- The longest span is one of zeros, as is the one at hand. -/
private theorem zeroSpan_zeroes {ns rest : List Nat} {i : Nat} {current longest : Span}
    (hrest : ns.drop i = rest) (hi : i ≤ ns.length)
    (hcurrent : current.len = 0 ∨ current.start + current.len = i ∧ current.Zeroes ns)
    (hlongest : longest.Zeroes ns) : (zeroSpan i current longest rest).Zeroes ns := by
  induction rest generalizing i current longest with
  | nil => exact hlongest
  | cons segment rest ih =>
    have hnext : ns.drop (i + 1) = rest := by rw [← List.drop_drop, hrest, List.drop_one]; rfl
    have hlt : i < ns.length := by
      by_contra hge
      rw [List.drop_eq_nil_of_le (Nat.le_of_not_lt hge)] at hrest
      cases hrest
    rw [zeroSpan]
    split
    · next hzero =>
      subst hzero
      have hextended : Span.Zeroes ns
          ⟨if current.len = 0 then i else current.start, current.len + 1⟩ ∧
          (if current.len = 0 then i else current.start) + (current.len + 1) = i + 1 := by
        split
        · next hlen =>
          rw [hlen]
          have hempty : Span.Zeroes ns ⟨i, 0⟩ := ⟨hi, rfl⟩
          exact ⟨hempty.extend hrest, rfl⟩
        · next hlen =>
          obtain ⟨hend, hzeroes⟩ := hcurrent.resolve_left hlen
          rw [← hend] at hrest
          exact ⟨Span.Zeroes.extend hzeroes hrest, by omega⟩
      refine ih hnext hlt (Or.inr ⟨hextended.2, hextended.1⟩) ?_
      by_cases hlonger : longest.len < current.len + 1
      · rw [if_pos hlonger]
        exact hextended.1
      · rw [if_neg hlonger]
        exact hlongest
    · exact ih hnext hlt (Or.inl rfl) hlongest

/-- The numbers are those in front of the longest run of zeros, the zeros, and the others. -/
theorem eq_around_zeroSpan (ns : List Nat) :
    let zeroes := zeroSpan 0 ⟨0, 0⟩ ⟨0, 0⟩ ns
    ns = ns.take zeroes.start ++
      (List.replicate zeroes.len 0 ++ ns.drop (zeroes.start + zeroes.len)) := by
  intro zeroes
  have hzeroes : zeroes.Zeroes ns :=
    zeroSpan_zeroes rfl (Nat.zero_le _) (Or.inl rfl) ⟨Nat.zero_le _, rfl⟩
  rw [← hzeroes.zeroes, ← List.drop_drop, List.take_append_drop, List.take_append_drop]

theorem zeroSpan_within (ns : List Nat) :
    let zeroes := zeroSpan 0 ⟨0, 0⟩ ⟨0, 0⟩ ns
    zeroes.start + zeroes.len ≤ ns.length :=
  (zeroSpan_zeroes rfl (Nat.zero_le _) (Or.inl rfl) ⟨Nat.zero_le _, rfl⟩).within

/-! ### Printed numbers determine the address -/

/-- A number is printed with digits, and so that it and its stop can be told. -/
structure Tells (field : Nat → Mark → Printed Mark) : Prop where
  inj : ∀ n m s t, field n s = field m t → n = m ∧ s = t
  digits : ∀ n s t, field n s ≠ noDigits t
  stop : ∀ n s, (field n s).stop = s

theorem tells_decimal : Tells decimal where
  inj _ _ _ _ h := ⟨(Printed.mk.inj h).1, (Printed.mk.inj h).2.2⟩
  digits _ _ _ h := absurd (Printed.mk.inj h).2.1 (Nat.ne_of_gt Nat.length_toDigits_pos)
  stop _ _ := rfl

theorem tells_hexGroup : Tells hexGroup where
  inj _ _ _ _ h := ⟨(Printed.mk.inj h).1, (Printed.mk.inj h).2.2⟩
  digits _ _ _ h := absurd (Printed.mk.inj h).2.1 (Nat.ne_of_gt Nat.length_toDigits_pos)
  stop _ _ := rfl

theorem tells_decimalInHex : Tells decimalInHex where
  inj n m s t h := by
    have htext : marks (toString n) ++ [s] = marks (toString m) ++ [t] := by
      rw [← text_decimalInHex, ← text_decimalInHex, h]
    obtain ⟨hmarks, hstop⟩ := List.append_inj' htext rfl
    have hbytes := List.map_injective_iff.mpr (Option.some_injective _) hmarks
    have hstring : toString n = toString m := Utf8.encode_inj.mp hbytes
    have hdigits := congrArg String.toList hstring
    rw [Nat.toString_eq_ofList_toDigits, Nat.toString_eq_ofList_toDigits, String.toList_ofList,
      String.toList_ofList] at hdigits
    have hnumber := congrArg (Nat.ofDigitChars 10 · 0) hdigits
    simp at hnumber
    exact ⟨hnumber, List.head_eq_of_cons_eq hstop⟩
  digits _ _ _ h := absurd (Printed.mk.inj h).2.1 (Nat.ne_of_gt Nat.length_toDigits_pos)
  stop _ _ := rfl

section Separated

variable {field : Nat → Mark → Printed Mark} {sep stop : Mark} {ns ms : List Nat}

private theorem separated_ne_nil : separated field sep stop ns ≠ [] := by
  cases ns with
  | nil => exact List.cons_ne_nil _ _
  | cons n ns => cases ns <;> exact List.cons_ne_nil _ _

/-- Separated numbers can be told from each other. -/
theorem separated_inj (hfield : Tells field)
    (h : separated field sep stop ns = separated field sep stop ms) : ns = ms := by
  induction ns generalizing ms with
  | nil =>
    cases ms with
    | nil => rfl
    | cons m ms => cases ms <;> exact absurd (List.head_eq_of_cons_eq h).symm (hfield.digits _ _ _)
  | cons n ns ih =>
    cases ms with
    | nil => cases ns <;> exact absurd (List.head_eq_of_cons_eq h) (hfield.digits _ _ _)
    | cons m ms =>
      cases ns with
      | nil =>
        cases ms with
        | nil => rw [(hfield.inj _ _ _ _ (List.head_eq_of_cons_eq h)).1]
        | cons m' ms => exact absurd (List.tail_eq_of_cons_eq h).symm separated_ne_nil
      | cons n' ns =>
        cases ms with
        | nil => exact absurd (List.tail_eq_of_cons_eq h) separated_ne_nil
        | cons m' ms =>
          rw [(hfield.inj _ _ _ _ (List.head_eq_of_cons_eq h)).1, ih (List.tail_eq_of_cons_eq h)]

/-- Separated numbers begin with one that has digits, if there are any. -/
private theorem separated_ne_noDigits (hfield : Tells field) {n : Nat} {t : Mark}
    {rest : List (Printed Mark)} :
    ∀ xs, separated field sep stop (n :: ns) ++ xs ≠ noDigits t :: rest := by
  intro xs h
  cases ns <;> exact hfield.digits _ _ _ (List.head_eq_of_cons_eq h)

/-- Separated numbers can be told from what follows behind two separators. -/
theorem separated_append_inj (hfield : Tells field) {xs ys : List (Printed Mark)}
    (h : separated field sep sep ns ++ noDigits sep :: xs =
      separated field sep sep ms ++ noDigits sep :: ys) : ns = ms ∧ xs = ys := by
  induction ns generalizing ms with
  | nil =>
    cases ms with
    | nil =>
      rw [separated] at h
      exact ⟨rfl, List.tail_eq_of_cons_eq (List.tail_eq_of_cons_eq h)⟩
    | cons m ms => exact absurd h.symm (separated_ne_noDigits hfield _)
  | cons n ns ih =>
    cases ms with
    | nil => exact absurd h (separated_ne_noDigits hfield _)
    | cons m ms =>
      cases ns with
      | nil =>
        cases ms with
        | nil =>
          have hrest := List.tail_eq_of_cons_eq (List.tail_eq_of_cons_eq h)
          exact ⟨by rw [(hfield.inj _ _ _ _ (List.head_eq_of_cons_eq h)).1], hrest⟩
        | cons m' ms =>
          exact absurd (List.tail_eq_of_cons_eq h).symm (separated_ne_noDigits hfield _)
      | cons n' ns =>
        cases ms with
        | nil => exact absurd (List.tail_eq_of_cons_eq h) (separated_ne_noDigits hfield _)
        | cons m' ms =>
          obtain ⟨htail, hrest⟩ := ih (List.tail_eq_of_cons_eq h)
          exact ⟨by rw [(hfield.inj _ _ _ _ (List.head_eq_of_cons_eq h)).1, htail], hrest⟩

/-- Behind separated numbers there is a separator or the stop. -/
private theorem stop_of_mem_separated (hfield : Tells field) {f : Printed Mark}
    (hf : f ∈ separated field sep stop ns) : f.stop = sep ∨ f.stop = stop := by
  induction ns with
  | nil => exact Or.inr (by rw [List.mem_singleton.mp hf]; rfl)
  | cons n ns ih =>
    cases ns with
    | nil => exact Or.inr (by rw [List.mem_singleton.mp hf, hfield.stop])
    | cons m ns =>
      rcases List.mem_cons.mp hf with rfl | hf
      · exact Or.inl (hfield.stop _ _)
      · exact ih hf

/-- Separated numbers are printed with digits, if there are any. -/
private theorem noDigits_notMem_separated (hfield : Tells field) (hns : ns ≠ []) (t : Mark) :
    noDigits t ∉ separated field sep stop ns := by
  induction ns with
  | nil => exact absurd rfl hns
  | cons n ns ih =>
    intro hmem
    cases ns with
    | nil => exact hfield.digits _ _ _ (List.mem_singleton.mp hmem).symm
    | cons m ns =>
      rcases List.mem_cons.mp hmem with hhead | hmem
      · exact hfield.digits _ _ _ hhead.symm
      · exact ih (List.cons_ne_nil _ _) hmem

end Separated

section Fields

variable {stop : Mark}

private theorem stop_of_mem_unmapped {ip : BitVec 128} (hip : toIpv4Mapped ip = none)
    {f : Printed Mark} (hf : f ∈ ipv6IpFields ip stop) : f.stop = mark ':' ∨ f.stop = stop := by
  rw [ipv6IpFields, hip] at hf
  dsimp only at hf
  split at hf
  · rcases List.mem_append.mp hf with hf | hf
    · exact Or.inl ((stop_of_mem_separated tells_hexGroup hf).elim id id)
    · rcases List.mem_cons.mp hf with rfl | hf
      · exact Or.inl rfl
      · exact stop_of_mem_separated tells_hexGroup hf
  · exact stop_of_mem_separated tells_hexGroup hf

/-- The octets of an IPv4 address have a dot between them. -/
private theorem exists_dot {ip : BitVec 128} {ipv4 : UInt32} (hip : toIpv4Mapped ip = some ipv4)
    (stop : Mark) : ∃ f ∈ ipv6IpFields ip stop, f.stop = mark '.' := by
  rw [ipv6IpFields, hip]
  exact ⟨decimalInHex (ipv4.toNat / 2 ^ 24) (mark '.'), by simp [octets, separated], rfl⟩

private theorem mapped_ne_unmapped {a b : BitVec 128} {ipv4 : UInt32} (hstop : stop ≠ mark '.')
    (ha : toIpv4Mapped a = some ipv4) (hb : toIpv4Mapped b = none) :
    ipv6IpFields a stop ≠ ipv6IpFields b stop := by
  intro h
  obtain ⟨f, hf, hdot⟩ := exists_dot ha stop
  rw [h] at hf
  rcases stop_of_mem_unmapped hb hf with hcolon | hother
  · exact absurd (hdot.symm.trans hcolon) (by decide)
  · exact hstop (hother.symm.trans hdot)

/-- The run of zeros that is left out can be filled in again. -/
theorem ipv6IpFields_inj {a b : BitVec 128} (hstop : stop ≠ mark '.')
    (h : ipv6IpFields a stop = ipv6IpFields b stop) : a = b := by
  cases ha : toIpv4Mapped a with
  | some ipv4 =>
    cases hb : toIpv4Mapped b with
    | some ipv4' =>
      rw [ipv6IpFields, ipv6IpFields, ha, hb] at h
      have hoctets := separated_inj tells_decimalInHex (List.append_cancel_left h)
      rw [octets_inj hoctets] at ha
      exact toIpv4Mapped_inj ha hb
    | none => exact absurd h (mapped_ne_unmapped hstop ha hb)
  | none =>
    cases hb : toIpv4Mapped b with
    | some ipv4' => exact absurd h.symm (mapped_ne_unmapped hstop hb ha)
    | none =>
      have hsegments (ip : BitVec 128) : segments ip ≠ [] := by
        intro hnil
        have hlength := length_segments ip
        rw [hnil] at hlength
        cases hlength
      have habsent (ip : BitVec 128) :
          noDigits (mark ':') ∉ separated hexGroup (mark ':') stop (segments ip) :=
        noDigits_notMem_separated tells_hexGroup (hsegments ip) _
      rw [ipv6IpFields, ipv6IpFields, ha, hb] at h
      dsimp only at h
      apply segments_inj
      split at h
      · split at h
        · obtain ⟨hfront, hback⟩ := separated_append_inj tells_hexGroup h
          replace hback := separated_inj tells_hexGroup hback
          have hfrontLength := congrArg List.length hfront
          have hbackLength := congrArg List.length hback
          have hwithin := zeroSpan_within (segments a)
          have hwithin' := zeroSpan_within (segments b)
          dsimp only at hwithin hwithin'
          rw [List.length_take, List.length_take] at hfrontLength
          rw [List.length_drop, List.length_drop] at hbackLength
          rw [length_segments] at hwithin hwithin' hfrontLength hbackLength
          rw [length_segments] at hfrontLength hbackLength
          have hlen : (zeroSpan 0 ⟨0, 0⟩ ⟨0, 0⟩ (segments a)).len =
              (zeroSpan 0 ⟨0, 0⟩ ⟨0, 0⟩ (segments b)).len := by omega
          rw [eq_around_zeroSpan (segments a), eq_around_zeroSpan (segments b), hfront, hback, hlen]
        · refine absurd ?_ (habsent b)
          rw [← h]
          exact List.mem_append_right _ List.mem_cons_self
      · split at h
        · refine absurd ?_ (habsent a)
          rw [h]
          exact List.mem_append_right _ List.mem_cons_self
        · exact separated_inj tells_hexGroup h

end Fields

/-! ### The texts -/

namespace SocketAddr

variable {a b : SocketAddr}

/-- Addresses without flow label and scope id have different texts. -/
theorem text_inj (ha : a.Unscoped) (hb : b.Unscoped) (h : a.text = b.text) : a = b := by
  have hself : Utf8.compareBytes a.text b.text = .eq := by
    rw [h]
    exact Std.ReflCmp.compare_self
  cases a with
  | v4 ip port =>
    cases b with
    | v4 ip' port' =>
      have hfields := flatMap_text_inj (fits_ipv4Fields ip port) (fits_ipv4Fields ip' port')
        (by rw [text_ipv4Fields, text_ipv4Fields, h])
      obtain ⟨hip, hport⟩ := List.append_inj' hfields rfl
      rw [octets_inj (separated_inj tells_decimal hip),
        UInt16.toNat_inj.mp (tells_decimal.inj _ _ _ _ (List.head_eq_of_cons_eq hport)).1]
    | v6 ip' port' flowinfo scopeId =>
      rw [(compareBytes_text_lt_iff (.v4 ip port) (.v6 ip' port' flowinfo scopeId)).mpr trivial]
        at hself
      cases hself
  | v6 ip port flowinfo scopeId =>
    obtain ⟨rfl, rfl⟩ := ha
    cases b with
    | v4 ip' port' =>
      rw [Std.OrientedCmp.gt_of_lt
        ((compareBytes_text_lt_iff (.v4 ip' port') (.v6 ip port 0 0)).mpr trivial)] at hself
      cases hself
    | v6 ip' port' flowinfo scopeId =>
      obtain ⟨rfl, rfl⟩ := hb
      have hfields := flatMap_text_inj (fits_ipv6Fields ip port 0) (fits_ipv6Fields ip' port' 0)
        (List.tail_eq_of_cons_eq (by rw [text_ipv6Fields _ _ 0, text_ipv6Fields _ _ 0, h]))
      rw [ipv6Fields, ipv6Fields, if_pos rfl, if_pos rfl] at hfields
      obtain ⟨hip, hport⟩ := List.append_inj' hfields rfl
      have hports := List.head_eq_of_cons_eq (List.tail_eq_of_cons_eq hport)
      rw [ipv6IpFields_inj (by decide) hip,
        UInt16.toNat_inj.mp (tells_decimalInHex.inj _ _ _ _ hports).1]

/-- A scope id only makes the text of an address smaller. -/
theorem compareBytes_scoped (ip : BitVec 128) (port : UInt16) (flowinfo scopeId : UInt32) :
    Utf8.compareBytes (v6 ip port flowinfo scopeId).text (v6 ip port 0 0).text ≠ .gt := by
  have hunscoped : scopeText 0 = "" := if_pos rfl
  rw [text, text, hunscoped, String.append_empty, Utf8.compareBytes]
  by_cases hscope : scopeId = 0
  · rw [hscope, hunscoped, String.append_empty, Std.ReflOrd.compare_self]
    decide
  · have hpercent : Utf8.encode "%" = ['%'.toUInt8] := by decide
    have hclose : Utf8.encode "]:" = [']'.toUInt8, ':'.toUInt8] := by decide
    have hbefore : compare '%'.toUInt8 ']'.toUInt8 = .lt := by decide
    rw [scopeText, if_neg hscope]
    simp only [Utf8.encode_append, List.append_assoc]
    rw [compare_append_left, compare_append_left, hpercent, hclose, List.singleton_append,
      List.cons_append, List.compare_cons_cons, hbefore, Ordering.lt_then]
    decide

/-! ### Two nodes that see each other -/

/-- A node at the one address is seen at the other one, maybe with a scope. -/
structure SeenAt (a s : SocketAddr) : Prop where
  ip : s.ip = a.ip
  port : s.port = a.port

theorem SeenAt.eq {s : SocketAddr} (h : a.SeenAt s) (ha : a.Unscoped) (hs : s.Unscoped) :
    s = a := by
  obtain ⟨hip, hport⟩ := h
  cases a with
  | v4 ip port =>
    cases s with
    | v4 ip' port' =>
      cases hip
      cases hport
      rfl
    | v6 ip' port' flowinfo scopeId => cases hip
  | v6 ip port flowinfo scopeId =>
    obtain ⟨rfl, rfl⟩ := ha
    cases s with
    | v4 ip' port' => cases hip
    | v6 ip' port' flowinfo scopeId =>
      obtain ⟨rfl, rfl⟩ := hs
      cases hip
      cases hport
      rfl

/-- The text of the address at which a node is seen is not greater than that of its own. -/
theorem SeenAt.compareBytes {s : SocketAddr} (h : a.SeenAt s) (ha : a.Unscoped) :
    Utf8.compareBytes s.text a.text ≠ .gt := by
  obtain ⟨hip, hport⟩ := h
  cases a with
  | v4 ip port =>
    cases s with
    | v4 ip' port' =>
      cases hip
      cases hport
      have hself : Utf8.compareBytes (v4 ip port).text (v4 ip port).text = .eq :=
        Std.ReflCmp.compare_self
      rw [hself]
      decide
    | v6 ip' port' flowinfo scopeId => cases hip
  | v6 ip port flowinfo scopeId =>
    obtain ⟨rfl, rfl⟩ := ha
    cases s with
    | v4 ip' port' => cases hip
    | v6 ip' port' flowinfo scopeId =>
      cases hip
      cases hport
      exact compareBytes_scoped ip port flowinfo scopeId

/-- Of two nodes that see each other, one has a greater text than it sees. -/
theorem one_greater {s t : SocketAddr} (ha : a.Unscoped) (hb : b.Unscoped) (hne : a ≠ b)
    (hs : b.SeenAt s) (ht : a.SeenAt t) :
    Utf8.compareBytes a.text s.text = .gt ∨ Utf8.compareBytes b.text t.text = .gt := by
  by_contra hneither
  obtain ⟨has, hbt⟩ := not_or.mp hneither
  have hab : (Utf8.compareBytes a.text b.text).isLE := Std.TransCmp.isLE_trans
    (Ordering.isLE_iff_ne_gt.mpr has) (Ordering.isLE_iff_ne_gt.mpr (hs.compareBytes hb))
  have hba : (Utf8.compareBytes b.text a.text).isLE := Std.TransCmp.isLE_trans
    (Ordering.isLE_iff_ne_gt.mpr hbt) (Ordering.isLE_iff_ne_gt.mpr (ht.compareBytes ha))
  have heq := Std.OrientedCmp.isLE_antisymm hab hba
  exact hne (text_inj ha hb (Std.LawfulEqCmp.eq_of_compare heq))

end SocketAddr

end HarddriveParty
