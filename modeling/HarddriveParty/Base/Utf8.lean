import HarddriveParty.Base.Bytes

/-!
# UTF-8 strings as byte strings

Library module. Lean strings carry their UTF-8 bytes and a proof that these are valid,
as Rust strings do. `encode` and `decode` are `str::as_bytes` and `str::from_utf8`;
`slice` is indexing by a byte range, which fails outside the string or inside a character.
-/

namespace Utf8

/-- The bytes of a string, `str::as_bytes`. -/
def encode (s : String) : Bytes := s.toByteArray.data.toList

/-- The string with the given bytes, if they are valid UTF-8, `str::from_utf8`. -/
def decode (b : Bytes) : Option String := String.fromUTF8? ⟨b.toArray⟩

/-- Encoding determines the string. -/
theorem encode_inj {s t : String} : encode s = encode t ↔ s = t := by
  constructor
  · intro h
    apply String.toByteArray_inj.mp
    apply ByteArray.ext
    exact Array.toList_inj.mp h
  · exact congrArg encode

/-- The empty string has no bytes. -/
@[simp] theorem encode_empty : encode "" = [] := rfl

/-- Concatenation of strings concatenates their bytes. -/
@[simp] theorem encode_append (s t : String) : encode (s ++ t) = encode s ++ encode t := by
  simp [encode]

/-- The byte length is the size of the encoding. -/
theorem length_encode (s : String) : (encode s).length = s.utf8ByteSize := by
  rw [encode, Array.length_toList]
  exact String.size_toByteArray

/-- Valid bytes are decoded to the string that has them. -/
@[simp] theorem decode_encode (s : String) : decode (encode s) = some s := by
  have hv : (⟨(encode s).toArray⟩ : ByteArray).IsValidUTF8 := s.isValidUTF8
  rw [decode, String.fromUTF8?, dif_pos hv]
  rfl

/-- A decoded string has the bytes it was decoded from. -/
theorem encode_of_decode {b : Bytes} {s : String} (h : decode b = some s) : encode s = b := by
  unfold decode String.fromUTF8? at h
  split at h
  · cases h
    rfl
  · cases h

/-- Decoding succeeds on exactly the bytes of a string. -/
theorem decode_eq_some_iff {b : Bytes} {s : String} : decode b = some s ↔ b = encode s := by
  constructor
  · exact fun h ↦ (encode_of_decode h).symm
  · rintro rfl
    exact decode_encode s

/-- Compare two strings by their bytes, as `Ord` for `str`. -/
def compareBytes (a b : String) : Ordering := compare (encode a) (encode b)

instance : Std.TransCmp compareBytes := inferInstanceAs (Std.TransCmp (compareOn encode))

instance : Std.LawfulEqCmp compareBytes where
  eq_of_compare h := encode_inj.mp (Std.LawfulEqOrd.eq_of_compare h)

/-- `str::is_char_boundary` on a byte offset. -/
def IsBoundary (s : String) (i : Nat) : Prop := String.Pos.Raw.IsValid s ⟨i⟩

instance (s : String) (i : Nat) : Decidable (IsBoundary s i) :=
  inferInstanceAs (Decidable (String.Pos.Raw.IsValid s ⟨i⟩))

/-- A boundary splits the string in two strings. -/
theorem isBoundary_iff_split {s : String} {i : Nat} :
    IsBoundary s i ↔ ∃ x y, s = x ++ y ∧ (encode x).length = i := by
  rw [IsBoundary, String.Pos.Raw.isValid_iff_exists_append]
  constructor
  · rintro ⟨x, y, hs, hi⟩
    refine ⟨x, y, hs, ?_⟩
    rw [length_encode]
    exact (congrArg String.Pos.Raw.byteIdx hi).symm
  · rintro ⟨x, y, hs, hi⟩
    refine ⟨x, y, hs, ?_⟩
    rw [length_encode] at hi
    apply String.Pos.Raw.ext
    simpa using hi.symm

/-- `&s[a..b]`; `none` stands for the panic on a bad range. -/
def slice (s : String) (a b : Nat) : Option String :=
  if h : a ≤ b ∧ IsBoundary s a ∧ IsBoundary s b then
    some (String.extract (s := s) ⟨⟨a⟩, h.2.1⟩ ⟨⟨b⟩, h.2.2⟩)
  else none

/-- A slice between boundaries succeeds. -/
theorem slice_isSome_iff {s : String} {a b : Nat} :
    (slice s a b).isSome ↔ a ≤ b ∧ IsBoundary s a ∧ IsBoundary s b := by
  unfold slice
  split
  · next h => simpa using h
  · next h => simpa using h

/-- A slice has the bytes of its range. -/
theorem encode_slice {s t : String} {a b : Nat} (h : slice s a b = some t) :
    encode t = ((encode s).drop a).take (b - a) := by
  unfold slice at h
  split at h
  · cases h
    simp only [encode, String.toByteArray_extract, ByteArray.data_extract, Array.toList_extract,
      List.extract_eq_take_drop]
  · cases h

/-- Cutting a concatenation at its joints gives its middle part. -/
theorem slice_middle (x t z : String) :
    slice (x ++ t ++ z) (encode x).length ((encode x).length + (encode t).length) = some t := by
  have ha : IsBoundary (x ++ t ++ z) (encode x).length :=
    isBoundary_iff_split.mpr ⟨x, t ++ z, by rw [String.append_assoc], rfl⟩
  have hb : IsBoundary (x ++ t ++ z) ((encode x).length + (encode t).length) :=
    isBoundary_iff_split.mpr ⟨x ++ t, z, rfl, by simp⟩
  obtain ⟨u, hu⟩ := Option.isSome_iff_exists.mp
    (slice_isSome_iff.mpr ⟨Nat.le_add_right _ _, ha, hb⟩)
  have he := encode_slice hu
  rw [encode_append, encode_append, List.append_assoc, List.drop_left, Nat.add_sub_cancel_left,
    List.take_left] at he
  rw [hu, encode_inj.mp he]

/-- The start of a string up to a joint. -/
theorem slice_left (x z : String) : slice (x ++ z) 0 (encode x).length = some x := by
  simpa using slice_middle "" x z

/-- A valid byte string can be cut before and after every ASCII byte. -/
theorem decode_split_ascii {a b : Bytes} {c : UInt8} {s : String} (hc : c < 128)
    (h : decode (a ++ c :: b) = some s) :
    ∃ x y, decode a = some x ∧ decode (c :: b) = some y := by
  have hs := encode_of_decode h
  have hlen : a.length < s.utf8ByteSize := by
    rw [← length_encode, hs, List.length_append, List.length_cons]
    omega
  have hbyte : s.toByteArray.data.toList[a.length]? = some c := by
    change (encode s)[a.length]? = some c
    rw [hs]
    simp
  have hb : IsBoundary s a.length := by
    rw [IsBoundary, String.Pos.Raw.isValid_iff_isUTF8FirstByte]
    refine Or.inr ⟨by simpa [String.Pos.Raw.lt_iff] using hlen, ?_⟩
    have hget : s.getUTF8Byte ⟨a.length⟩ (by simpa [String.Pos.Raw.lt_iff] using hlen) = c := by
      have hl : a.length < s.toByteArray.data.toList.length := by
        rw [Array.length_toList]
        exact Nat.lt_of_lt_of_eq hlen String.size_toByteArray.symm
      rw [List.getElem?_eq_getElem hl] at hbyte
      exact Option.some.inj hbyte
    rw [hget]
    left
    apply UInt8.toNat_inj.mp
    have hlow : c.toNat < 2 ^ 7 := UInt8.lt_iff_toNat_lt.mp hc
    rw [UInt8.toNat_and]
    change c.toNat &&& 2 ^ 7 = 0
    apply Nat.eq_of_testBit_eq
    intro i
    rw [Nat.testBit_and, Nat.zero_testBit, Nat.testBit_two_pow]
    by_cases hi : 7 = i
    · subst i
      rw [Nat.testBit_lt_two_pow hlow, Bool.false_and]
    · simp [hi]
  obtain ⟨x, y, hxy, hl⟩ := isBoundary_iff_split.mp hb
  have he : encode x ++ encode y = a ++ c :: b := by rw [← encode_append, ← hxy, hs]
  obtain ⟨hx, hy⟩ := List.append_inj he hl
  exact ⟨x, y, decode_eq_some_iff.mpr hx.symm, decode_eq_some_iff.mpr hy.symm⟩

/-- An ASCII byte in front makes no difference to whether a byte string is valid. -/
theorem isSome_decode_cons_ascii {b : Bytes} {c : UInt8} (hc : c < 128) :
    (decode (c :: b)).isSome = (decode b).isSome := by
  have hval : (Char.ofUInt8 c).val.toNat = c.toNat := UInt8.toNat_toUInt32 c
  have hchar : String.utf8EncodeChar (Char.ofUInt8 c) = [c] := by
    have hle : (Char.ofUInt8 c).val ≤ 127 := by
      rw [UInt32.le_iff_toNat_le, hval]
      exact Nat.lt_succ_iff.mp (UInt8.lt_iff_toNat_lt.mp hc)
    rw [String.utf8EncodeChar_eq_singleton (Char.utf8Size_eq_one_iff.mpr hle)]
    congr 1
    apply UInt8.toNat_inj.mp
    rw [UInt32.toNat_toUInt8, hval]
    exact Nat.mod_eq_of_lt c.toNat_lt
  have hbytes : (⟨(c :: b).toArray⟩ : ByteArray) =
      [Char.ofUInt8 c].utf8Encode ++ ⟨b.toArray⟩ := by
    rw [List.utf8Encode_singleton, hchar]
    rfl
  have hvalid : ∀ a : ByteArray, (String.fromUTF8? a).isSome = decide a.IsValidUTF8 := by
    intro a
    unfold String.fromUTF8?
    split
    · next h => simp [h]
    · next h => simp [h]
  rw [decode, decode, hvalid, hvalid, hbytes]
  exact decide_eq_decide.mpr ByteArray.isValidUTF8_utf8Encode_singleton_append_iff

/-- What stands before and behind an ASCII byte of a valid byte string is valid. -/
theorem decode_around_ascii {a b : Bytes} {c : UInt8} (hc : c < 128)
    (h : (decode (a ++ c :: b)).isSome) : (decode a).isSome ∧ (decode b).isSome := by
  obtain ⟨s, hs⟩ := Option.isSome_iff_exists.mp h
  obtain ⟨x, y, hx, hy⟩ := decode_split_ascii hc hs
  refine ⟨by rw [hx]; rfl, ?_⟩
  rw [← isSome_decode_cons_ascii hc, hy]
  rfl

/-- The parts of a valid byte string between the occurrences of an ASCII byte are valid. -/
theorem decode_of_mem_splitOn {p piece : Bytes} {c : UInt8} (hc : c < 128)
    (h : (decode p).isSome) (hp : piece ∈ p.splitOn c) : (decode piece).isSome := by
  have hjoin : [c].intercalate (p.splitOn c) = p := List.intercalate_splitOn c
  rw [← hjoin] at h
  generalize p.splitOn c = pieces at h hp
  induction pieces with
  | nil => cases hp
  | cons first rest ih =>
    cases rest with
    | nil =>
      rw [List.mem_singleton] at hp
      subst hp
      simpa using h
    | cons second rest =>
      rw [List.intercalate_cons_cons, List.append_assoc] at h
      obtain ⟨hfirst, hrest⟩ := decode_around_ascii hc h
      rcases List.mem_cons.mp hp with rfl | hp
      · exact hfirst
      · exact ih hrest hp

end Utf8
