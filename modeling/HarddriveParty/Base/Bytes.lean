import Mathlib.Data.List.Induction
import Mathlib.Tactic.Ring

/-!
# Byte strings and fixed-width integers

Library module. Byte strings are lists of bytes. `toBe` and `toLe` write a number in a
fixed number of bytes, most significant or least significant byte first; `ofBe` and
`ofLe` read every byte string back. Both directions are inverse on the right widths.
-/

/-- Byte strings, as the keys and values of a byte store and as file contents. -/
abbrev Bytes := List UInt8

namespace Bytes

/-- The `n` low bytes of `x`, most significant byte first. -/
def toBe : Nat → Nat → Bytes
  | 0, _ => []
  | n + 1, x => toBe n (x / 256) ++ [UInt8.ofNat x]

/-- The number whose big-endian digits are the given bytes. -/
def ofBe (b : Bytes) : Nat := b.foldl (fun acc byte ↦ acc * 256 + byte.toNat) 0

/-- The `n` low bytes of `x`, least significant byte first. -/
def toLe (n x : Nat) : Bytes := (toBe n x).reverse

/-- The number whose little-endian digits are the given bytes. -/
def ofLe (b : Bytes) : Nat := ofBe b.reverse

/-- Fixed-width encoding has exactly the requested width. -/
@[simp] theorem length_toBe (n x : Nat) : (toBe n x).length = n := by
  induction n generalizing x with
  | zero => rfl
  | succ n ih => simp [toBe, ih]

/-- The empty string is zero. -/
@[simp] theorem ofBe_nil : ofBe [] = 0 := rfl

/-- The last byte is the lowest digit. -/
@[simp] theorem ofBe_concat (b : Bytes) (byte : UInt8) :
    ofBe (b ++ [byte]) = ofBe b * 256 + byte.toNat := by
  simp [ofBe]

/-- The first byte is the highest digit. -/
theorem ofBe_cons (byte : UInt8) (b : Bytes) :
    ofBe (byte :: b) = byte.toNat * 256 ^ b.length + ofBe b := by
  induction b using List.reverseRecOn with
  | nil => simp [ofBe]
  | append_singleton b last ih =>
    rw [← List.cons_append, ofBe_concat, ofBe_concat, ih, List.length_append,
      List.length_singleton, pow_succ]
    ring

/-- A number read from `n` bytes is below `256 ^ n`. -/
theorem ofBe_lt (b : Bytes) : ofBe b < 256 ^ b.length := by
  induction b using List.reverseRecOn with
  | nil => simp
  | append_singleton b byte ih =>
    have hb : byte.toNat < 256 := byte.toNat_lt
    rw [ofBe_concat, List.length_append, List.length_singleton, pow_succ]
    omega

/-- Reading a fixed-width encoding gives the number back when it fits. -/
theorem ofBe_toBe (n x : Nat) (h : x < 256 ^ n) : ofBe (toBe n x) = x := by
  induction n generalizing x with
  | zero =>
    have hx : x = 0 := by simpa using h
    simp [toBe, hx]
  | succ n ih =>
    have hq : x / 256 < 256 ^ n := by
      rw [pow_succ] at h
      omega
    rw [toBe, ofBe_concat, ih _ hq]
    simp only [UInt8.toNat_ofNat']
    omega

/-- Writing the number read from a byte string gives the bytes back. -/
theorem toBe_ofBe (b : Bytes) : toBe b.length (ofBe b) = b := by
  induction b using List.reverseRecOn with
  | nil => rfl
  | append_singleton b byte ih =>
    have hb : byte.toNat < 256 := byte.toNat_lt
    have hq : (ofBe b * 256 + byte.toNat) / 256 = ofBe b := by omega
    have hr : UInt8.ofNat (ofBe b * 256 + byte.toNat) = byte := by
      apply UInt8.toNat_inj.mp
      simp only [UInt8.toNat_ofNat']
      omega
    rw [List.length_append, List.length_singleton, toBe, ofBe_concat, hq, hr, ih]

/-- Little-endian encoding has exactly the requested width. -/
@[simp] theorem length_toLe (n x : Nat) : (toLe n x).length = n := by
  simp [toLe]

/-- Little-endian reading inverts little-endian writing when the number fits. -/
theorem ofLe_toLe (n x : Nat) (h : x < 256 ^ n) : ofLe (toLe n x) = x := by
  rw [ofLe, toLe, List.reverse_reverse, ofBe_toBe n x h]

/-- Little-endian writing inverts little-endian reading. -/
theorem toLe_ofLe (b : Bytes) : toLe b.length (ofLe b) = b := by
  rw [toLe, ofLe, ← List.length_reverse, toBe_ofBe, List.reverse_reverse]

/-- `&b[lo..hi]`; `none` stands for the panic on a bad range. -/
def slice (b : Bytes) (lo hi : Nat) : Option Bytes :=
  if lo ≤ hi ∧ hi ≤ b.length then some ((b.drop lo).take (hi - lo)) else none

/-- `&b[lo..]`; `none` stands for the panic on a bad range. -/
def sliceFrom (b : Bytes) (lo : Nat) : Option Bytes := slice b lo b.length

/-- The middle part of a byte string is cut out by its offsets. -/
theorem slice_append {a b c : Bytes} {lo hi : Nat} (hlo : a.length = lo)
    (hhi : lo + b.length = hi) : slice (a ++ (b ++ c)) lo hi = some b := by
  subst hlo hhi
  have hb : (b ++ c).take (a.length + b.length - a.length) = b := by
    rw [Nat.add_sub_cancel_left, List.take_left]
  have hin : a.length ≤ a.length + b.length ∧
      a.length + b.length ≤ (a ++ (b ++ c)).length := by
    simp only [List.length_append]
    omega
  rw [slice, if_pos hin, List.drop_left, hb]

/-- The end of a byte string is cut out by its offset. -/
theorem sliceFrom_append {a b : Bytes} {lo : Nat} (hlo : a.length = lo) :
    sliceFrom (a ++ b) lo = some b := by
  have hhi : lo + b.length = (a ++ b).length := by
    rw [List.length_append, hlo]
  have h := slice_append (c := []) hlo hhi
  rwa [List.append_nil] at h

/-- A slice and what follows it make up the byte string. -/
theorem slice_zero_append {b x y : Bytes} {i : Nat} (hx : slice b 0 i = some x)
    (hy : sliceFrom b i = some y) : x ++ y = b := by
  unfold slice at hx
  unfold sliceFrom slice at hy
  split at hx
  · split at hy
    · cases hx
      cases hy
      rw [List.drop_zero, Nat.sub_zero, ← List.length_drop, List.take_length]
      exact List.take_append_drop i b
    · cases hy
  · cases hx

/-- A slice and the end of the byte string after it make up its end. -/
theorem sliceFrom_of_slice {b x y : Bytes} {lo hi : Nat} (hx : slice b lo hi = some x)
    (hy : sliceFrom b hi = some y) : sliceFrom b lo = some (x ++ y) := by
  unfold slice at hx
  unfold sliceFrom slice at hy ⊢
  split at hx
  · next hlo =>
    rw [if_pos ⟨hlo.2, Nat.le_refl _⟩] at hy
    cases hx
    cases hy
    rw [if_pos ⟨hlo.1.trans hlo.2, Nat.le_refl _⟩, ← List.length_drop, ← List.length_drop,
      List.take_length, List.take_length]
    have hdrop : b.drop hi = (b.drop lo).drop (hi - lo) := by
      rw [List.drop_drop, Nat.add_sub_cancel' hlo.1]
    rw [hdrop, List.take_append_drop]
  · cases hx

/-- Nothing is cut off before the first byte. -/
theorem sliceFrom_zero (b : Bytes) : sliceFrom b 0 = some b := by
  rw [sliceFrom, slice, if_pos ⟨Nat.zero_le _, Nat.le_refl _⟩, List.drop_zero, Nat.sub_zero,
    List.take_length]

/-- A slice within range is there. -/
theorem slice_isSome {b : Bytes} {lo hi : Nat} (h : lo ≤ hi) (hb : hi ≤ b.length) :
    (slice b lo hi).isSome := by
  rw [slice, if_pos ⟨h, hb⟩]
  rfl

/-- `u64::to_le_bytes`. -/
def leU64 (x : UInt64) : Bytes := toLe 8 x.toNat

/-- `u64::from_le_bytes` after the conversion of a slice to `[u8; 8]`. -/
def readLeU64 (b : Bytes) : Option UInt64 :=
  if b.length = 8 then some (UInt64.ofNat (ofLe b)) else none

/-- Eight little-endian bytes are written. -/
@[simp] theorem length_leU64 (x : UInt64) : (leU64 x).length = 8 := length_toLe 8 _

/-- Reading eight written bytes gives the number back. -/
@[simp] theorem readLeU64_leU64 (x : UInt64) : readLeU64 (leU64 x) = some x := by
  have hx : x.toNat < 256 ^ 8 := x.toNat_lt
  simp [readLeU64, leU64, ofLe_toLe 8 _ hx]

/-- What is read as a number is the encoding of that number. -/
theorem eq_leU64_of_readLeU64 {b : Bytes} {x : UInt64} (h : readLeU64 b = some x) :
    b = leU64 x := by
  unfold readLeU64 at h
  split at h
  · next hlen =>
    cases h
    have hlt : ofLe b < 256 ^ 8 := by
      rw [ofLe]
      exact Nat.lt_of_lt_of_eq (ofBe_lt b.reverse) (by rw [List.length_reverse, hlen])
    have hmod : ofLe b % 2 ^ 64 = ofLe b := Nat.mod_eq_of_lt hlt
    have hle := toLe_ofLe b
    rw [hlen] at hle
    rw [leU64, UInt64.toNat_ofNat', hmod, hle]
  · cases h

/-- Eight-byte encodings determine the number. -/
theorem leU64_inj {x y : UInt64} : leU64 x = leU64 y ↔ x = y := by
  constructor
  · intro h
    have hr := congrArg readLeU64 h
    simpa using hr
  · exact congrArg leU64

/-- `u64::to_be_bytes`. -/
def beU64 (x : UInt64) : Bytes := toBe 8 x.toNat

/-- `u64::from_be_bytes` after the conversion of a slice to `[u8; 8]`. -/
def readBeU64 (b : Bytes) : Option UInt64 :=
  if b.length = 8 then some (UInt64.ofNat (ofBe b)) else none

/-- Eight big-endian bytes are written. -/
@[simp] theorem length_beU64 (x : UInt64) : (beU64 x).length = 8 := length_toBe 8 _

/-- Reading eight written bytes gives the number back. -/
@[simp] theorem readBeU64_beU64 (x : UInt64) : readBeU64 (beU64 x) = some x := by
  have hx : x.toNat < 256 ^ 8 := x.toNat_lt
  simp [readBeU64, beU64, ofBe_toBe 8 _ hx]

/-- What is read as a number is the encoding of that number. -/
theorem eq_beU64_of_readBeU64 {b : Bytes} {x : UInt64} (h : readBeU64 b = some x) :
    b = beU64 x := by
  unfold readBeU64 at h
  split at h
  · next hlen =>
    cases h
    have hlt : ofBe b < 256 ^ 8 := by
      rw [← hlen]
      exact ofBe_lt b
    have hmod : ofBe b % 2 ^ 64 = ofBe b := Nat.mod_eq_of_lt hlt
    have hbe := toBe_ofBe b
    rw [hlen] at hbe
    rw [beU64, UInt64.toNat_ofNat', hmod, hbe]
  · cases h

/-- The digits of a number make up the number. -/
theorem ofBe_beU64 (x : UInt64) : ofBe (beU64 x) = x.toNat := ofBe_toBe 8 _ x.toNat_lt

/-- `u32::to_be_bytes`. -/
def beU32 (x : UInt32) : Bytes := toBe 4 x.toNat

/-- `u32::from_be_bytes` after the conversion of a slice to `[u8; 4]`. -/
def readBeU32 (b : Bytes) : Option UInt32 :=
  if b.length = 4 then some (UInt32.ofNat (ofBe b)) else none

/-- Four big-endian bytes are written. -/
@[simp] theorem length_beU32 (x : UInt32) : (beU32 x).length = 4 := length_toBe 4 _

/-- Reading four written bytes gives the number back. -/
@[simp] theorem readBeU32_beU32 (x : UInt32) : readBeU32 (beU32 x) = some x := by
  have hx : x.toNat < 256 ^ 4 := x.toNat_lt
  simp [readBeU32, beU32, ofBe_toBe 4 _ hx]

/-- What is read as a number is the encoding of that number. -/
theorem eq_beU32_of_readBeU32 {b : Bytes} {x : UInt32} (h : readBeU32 b = some x) :
    b = beU32 x := by
  unfold readBeU32 at h
  split at h
  · next hlen =>
    cases h
    have hlt : ofBe b < 256 ^ 4 := by
      rw [← hlen]
      exact ofBe_lt b
    have hmod : ofBe b % 2 ^ 32 = ofBe b := Nat.mod_eq_of_lt hlt
    have hbe := toBe_ofBe b
    rw [hlen] at hbe
    rw [beU32, UInt32.toNat_ofNat', hmod, hbe]
  · cases h

end Bytes
