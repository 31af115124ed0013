import HarddriveParty.Base.Utf8

/-!
# Unpadded base64

Library module. `NoPadCodec` states what a canonical codec without padding promises:
encoding and decoding are mutually inverse, so trailing bits, padding and foreign
characters are refused, and `n` bytes take `⌈8n / 6⌉` characters. `standard` is the
codec over the alphabet of RFC 4648 §4, which keeps these promises.
-/

namespace Base64

/-- A canonical codec; a refusal carries its displayed text. -/
structure NoPadCodec where
  encode : Bytes → String
  decode : String → Except String Bytes
  decode_encode : ∀ b, decode (encode b) = .ok b
  encode_of_decode : ∀ s b, decode s = .ok b → encode b = s
  length_encode : ∀ b, (Utf8.encode (encode b)).length = (b.length * 8 + 5) / 6

/-- The characters of the standard alphabet, by value. -/
def alphabet : List Char :=
  "ABCDEFGHIJKLMNOPQRSTUVWXYZabcdefghijklmnopqrstuvwxyz0123456789+/".toList

/-- The character of a six-bit value. -/
def digitChar (i : Nat) : Char := alphabet.getD i 'A'

/-- The six-bit value of a character of the alphabet. -/
def charDigit (c : Char) : Option Nat := alphabet.findIdx? (· == c)

/-- The six-bit groups of a byte string, the last one filled with zero bits. -/
def sextets : Bytes → List Nat
  | [] => []
  | [a] => [a.toNat / 4, a.toNat * 16 % 64]
  | [a, b] => [a.toNat / 4, (a.toNat * 16 + b.toNat / 16) % 64, b.toNat * 4 % 64]
  | a :: b :: c :: rest =>
    [a.toNat / 4, (a.toNat * 16 + b.toNat / 16) % 64, (b.toNat * 4 + c.toNat / 64) % 64,
      c.toNat % 64] ++ sextets rest

/-- The bytes of six-bit groups; left-over bits must be zero. -/
def unsextets : List Nat → Option Bytes
  | [] => some []
  | [_] => none
  | [w, x] => if x % 16 = 0 then some [UInt8.ofNat (w * 4 + x / 16)] else none
  | [w, x, y] =>
    if y % 4 = 0 then
      some [UInt8.ofNat (w * 4 + x / 16), UInt8.ofNat (x * 16 + y / 4)]
    else none
  | w :: x :: y :: z :: rest =>
    (unsextets rest).map fun tail ↦
      [UInt8.ofNat (w * 4 + x / 16), UInt8.ofNat (x * 16 + y / 4), UInt8.ofNat (y * 64 + z)] ++ tail

/-- Every group is a six-bit value. -/
theorem sextets_lt (b : Bytes) : ∀ i ∈ sextets b, i < 64 := by
  induction b using sextets.induct with
  | case1 => simp [sextets]
  | case2 a =>
    have ha := a.toNat_lt
    simp only [sextets, List.mem_cons, List.not_mem_nil, or_false]
    rintro i (rfl | rfl) <;> omega
  | case3 a b =>
    have ha := a.toNat_lt
    have hb := b.toNat_lt
    simp only [sextets, List.mem_cons, List.not_mem_nil, or_false]
    rintro i (rfl | rfl | rfl) <;> omega
  | case4 a b c rest ih =>
    have ha := a.toNat_lt
    have hb := b.toNat_lt
    simp only [sextets, List.mem_append, List.mem_cons, List.not_mem_nil, or_false]
    rintro i ((rfl | rfl | rfl | rfl) | hi)
    · omega
    · omega
    · omega
    · omega
    · exact ih i hi

/-- `n` bytes give `⌈8n / 6⌉` groups. -/
theorem length_sextets (b : Bytes) : (sextets b).length = (b.length * 8 + 5) / 6 := by
  induction b using sextets.induct with
  | case1 => rfl
  | case2 a => simp [sextets]
  | case3 a b => simp [sextets]
  | case4 a b c rest ih =>
    simp only [sextets, List.length_append, List.length_cons, List.length_nil, ih]
    omega

/-- Regrouping recovers the bytes. -/
theorem unsextets_sextets (b : Bytes) : unsextets (sextets b) = some b := by
  induction b using sextets.induct with
  | case1 => rfl
  | case2 a =>
    have ha := a.toNat_lt
    have hz : a.toNat * 16 % 64 % 16 = 0 := by omega
    have h0 : UInt8.ofNat (a.toNat / 4 * 4 + a.toNat * 16 % 64 / 16) = a := by
      apply UInt8.toNat_inj.mp
      simp only [UInt8.toNat_ofNat']
      omega
    simp only [sextets, unsextets, hz, h0, ite_true]
  | case3 a b =>
    have ha := a.toNat_lt
    have hb := b.toNat_lt
    have hz : b.toNat * 4 % 64 % 4 = 0 := by omega
    have h0 : UInt8.ofNat (a.toNat / 4 * 4 + (a.toNat * 16 + b.toNat / 16) % 64 / 16) = a := by
      apply UInt8.toNat_inj.mp
      simp only [UInt8.toNat_ofNat']
      omega
    have h1 : UInt8.ofNat ((a.toNat * 16 + b.toNat / 16) % 64 * 16 + b.toNat * 4 % 64 / 4) = b := by
      apply UInt8.toNat_inj.mp
      simp only [UInt8.toNat_ofNat']
      omega
    simp only [sextets, unsextets, hz, h0, h1, ite_true]
  | case4 a b c rest ih =>
    have ha := a.toNat_lt
    have hb := b.toNat_lt
    have hc := c.toNat_lt
    have h0 : UInt8.ofNat (a.toNat / 4 * 4 + (a.toNat * 16 + b.toNat / 16) % 64 / 16) = a := by
      apply UInt8.toNat_inj.mp
      simp only [UInt8.toNat_ofNat']
      omega
    have h1 : UInt8.ofNat ((a.toNat * 16 + b.toNat / 16) % 64 * 16 +
        (b.toNat * 4 + c.toNat / 64) % 64 / 4) = b := by
      apply UInt8.toNat_inj.mp
      simp only [UInt8.toNat_ofNat']
      omega
    have h2 : UInt8.ofNat ((b.toNat * 4 + c.toNat / 64) % 64 * 64 + c.toNat % 64) = c := by
      apply UInt8.toNat_inj.mp
      simp only [UInt8.toNat_ofNat']
      omega
    simp only [sextets, List.cons_append, List.nil_append, unsextets, ih, h0, h1, h2,
      Option.map_some]

/-- Regrouping accepts canonical groups only. -/
theorem sextets_of_unsextets (l : List Nat) (b : Bytes) (hl : ∀ i ∈ l, i < 64)
    (h : unsextets l = some b) : sextets b = l := by
  induction l using unsextets.induct generalizing b with
  | case1 =>
    cases h
    rfl
  | case2 => cases h
  | case3 w x hz =>
    have hw := hl w (by simp)
    have hx := hl x (by simp)
    simp only [unsextets, hz, ite_true] at h
    cases h
    simp only [sextets, UInt8.toNat_ofNat']
    congr 1
    · omega
    · congr 1
      omega
  | case4 w x hz => simp [unsextets, hz] at h
  | case5 w x y hz =>
    have hw := hl w (by simp)
    have hx := hl x (by simp)
    have hy := hl y (by simp)
    simp only [unsextets, hz, ite_true] at h
    cases h
    simp only [sextets, UInt8.toNat_ofNat']
    congr 1
    · omega
    · congr 1
      · omega
      · congr 1
        omega
  | case6 w x y hz => simp [unsextets, hz] at h
  | case7 w x y z rest ih =>
    have hw := hl w (by simp)
    have hx := hl x (by simp)
    have hy := hl y (by simp)
    have hzz := hl z (by simp)
    simp only [unsextets, Option.map_eq_some_iff] at h
    obtain ⟨tail, ht, rfl⟩ := h
    have hr := ih tail (fun i hi ↦ hl i (by simp [hi])) ht
    simp only [List.cons_append, List.nil_append, sextets, hr, UInt8.toNat_ofNat']
    congr 1
    · omega
    · congr 1
      · omega
      · congr 1
        · omega
        · congr 1
          omega

private theorem charDigit_digitChar_table :
    ∀ i : Fin 64, charDigit (digitChar i) = some i.val := by
  decide

/-- Every six-bit value is read back from its character. -/
theorem charDigit_digitChar {i : Nat} (hi : i < 64) : charDigit (digitChar i) = some i :=
  charDigit_digitChar_table ⟨i, hi⟩

/-- Only the character of a value is read as that value. -/
theorem digitChar_of_charDigit {c : Char} {i : Nat} (h : charDigit c = some i) :
    i < 64 ∧ digitChar i = c := by
  obtain ⟨hi, hc, -⟩ := List.findIdx?_eq_some_iff_getElem.mp h
  have hlen : alphabet.length = 64 := by decide
  refine ⟨by omega, ?_⟩
  rw [digitChar, List.getD_eq_getElem?_getD, List.getElem?_eq_getElem hi]
  simpa using hc

private theorem digitChar_utf8Size : ∀ i : Fin 64, (digitChar i).utf8Size = 1 := by
  decide +kernel

/-- The characters of a byte string in the standard alphabet. -/
def encode (b : Bytes) : String := String.ofList ((sextets b).map digitChar)

/-- The byte string with the given characters, if they are canonical. -/
def decode (s : String) : Option Bytes := (s.toList.mapM charDigit).bind unsextets

private theorem mapM_charDigit (l : List Nat) (hl : ∀ i ∈ l, i < 64) :
    (l.map digitChar).mapM charDigit = some l := by
  induction l with
  | nil => rfl
  | cons i l ih =>
    have hi := charDigit_digitChar (hl i (by simp))
    have ht := ih fun j hj ↦ hl j (by simp [hj])
    simp [List.mapM_cons, hi, ht]

private theorem map_digitChar (cs : List Char) (l : List Nat) (h : cs.mapM charDigit = some l) :
    l.map digitChar = cs ∧ ∀ i ∈ l, i < 64 := by
  induction cs generalizing l with
  | nil =>
    cases h
    simp
  | cons c cs ih =>
    rw [List.mapM_cons] at h
    simp only [Option.bind_eq_bind, Option.bind_eq_some_iff, Option.pure_def,
      Option.some.injEq] at h
    obtain ⟨i, hi, t, ht, rfl⟩ := h
    obtain ⟨hlt, hc⟩ := digitChar_of_charDigit hi
    obtain ⟨hm, hb⟩ := ih t ht
    simp only [List.map_cons, hc, hm, List.mem_cons, true_and]
    rintro j (rfl | hj)
    · exact hlt
    · exact hb j hj

private theorem utf8ByteSize_ofList (l : List Nat) (hl : ∀ i ∈ l, i < 64) :
    (Utf8.encode (String.ofList (l.map digitChar))).length = l.length := by
  induction l with
  | nil => rfl
  | cons i l ih =>
    have hs : String.ofList ((i :: l).map digitChar) =
        String.singleton (digitChar i) ++ String.ofList (l.map digitChar) := by
      apply String.ext
      simp
    have hi : (digitChar i).utf8Size = 1 := digitChar_utf8Size ⟨i, hl i (by simp)⟩
    rw [hs, Utf8.encode_append, List.length_append, ih fun j hj ↦ hl j (by simp [hj]),
      Utf8.length_encode, String.utf8ByteSize_singleton, hi, List.length_cons, Nat.add_comm]

/-- The standard alphabet keeps the codec's promises. The texts of refusals are not modelled. -/
def standard : NoPadCodec where
  encode := encode
  decode s := (decode s).elim (.error "") .ok
  decode_encode b := by
    rw [decode, encode, String.toList_ofList, mapM_charDigit _ (sextets_lt b), Option.bind_some,
      unsextets_sextets, Option.elim_some]
  encode_of_decode s b h := by
    cases hd : decode s with
    | none => simp [hd] at h
    | some bytes =>
      rw [hd] at h
      cases h
      obtain ⟨l, hl, hb⟩ := Option.bind_eq_some_iff.mp hd
      obtain ⟨hm, hlt⟩ := map_digitChar _ _ hl
      apply String.ext
      rw [encode, String.toList_ofList, sextets_of_unsextets l _ hlt hb, hm]
  length_encode b := by
    rw [encode, utf8ByteSize_ofList _ (sextets_lt b), length_sextets]

end Base64
