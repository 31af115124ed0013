import HarddriveParty.Base.Utf8

/-!
# A binary format

Library module. The legacy layout of bincode: integers of fixed width, least significant byte
first, lengths as eight bytes, the tag of an enumeration as four, flags and option tags as
one. A format writes values and reads them off the front of a byte string; formats are put
together from smaller ones and keep the law that what was written is read back.
-/

namespace Bincode

/-- A way to write values and to read them back from the front of a byte string. In a process
with 64-bit addresses no byte string is longer than the bound of the law. -/
structure Format (α : Type) where
  write : α → Bytes
  read : Bytes → Option (α × Bytes)
  read_write : ∀ a rest, (write a).length < 2 ^ 64 → read (write a ++ rest) = some (a, rest)

/-- A way to turn values into messages and back. An error of `deserialize` is its text. -/
structure Codec (α : Type) where
  serialize : α → Bytes
  deserialize : Bytes → Except String α
  deserialize_serialize : ∀ a, (serialize a).length < 2 ^ 64 → deserialize (serialize a) = .ok a

/-- The first bytes of a byte string and what follows them. -/
def takeBytes (n : Nat) (b : Bytes) : Option (Bytes × Bytes) :=
  if n ≤ b.length then some (b.take n, b.drop n) else none

/-- What stands in front is taken. -/
theorem takeBytes_append {n : Nat} {b : Bytes} (h : b.length = n) (rest : Bytes) :
    takeBytes n (b ++ rest) = some (b, rest) := by
  subst h
  rw [takeBytes, List.take_left, List.drop_left, if_pos]
  rw [List.length_append]
  omega

namespace Format

variable {α β : Type}

/-- Nothing is written. -/
def unit : Format Unit where
  write _ := []
  read b := some ((), b)
  read_write := fun _ _ _ ↦ rfl

/-- A flag. -/
def bool : Format Bool where
  write a := [if a then 1 else 0]
  read
    | 0 :: rest => some (false, rest)
    | 1 :: rest => some (true, rest)
    | _ => none
  read_write := by
    intro a rest _
    cases a <;> rfl

/-- A number of eight bytes. -/
def u64 : Format UInt64 where
  write := Bytes.leU64
  read b := do
    let (first, rest) ← takeBytes 8 b
    let a ← Bytes.readLeU64 first
    return (a, rest)
  read_write := by
    intro a rest _
    rw [takeBytes_append (Bytes.length_leU64 a) rest]
    simp

/-- A number in front is read. -/
theorem u64_read (x : UInt64) (rest : Bytes) :
    u64.read (Bytes.leU64 x ++ rest) = some (x, rest) := by
  apply u64.read_write
  simp [u64]

/-- Values that are written in so many bytes. -/
def fixed (n : Nat) (write : α → Bytes) (read : Bytes → α) (hlength : ∀ a, (write a).length = n)
    (hread : ∀ a, read (write a) = a) : Format α where
  write := write
  read b := (takeBytes n b).map fun p ↦ (read p.1, p.2)
  read_write := by
    intro a rest _
    rw [takeBytes_append (hlength a) rest, Option.map_some, hread a]

/-- A number of two bytes. -/
def u16 : Format UInt16 :=
  fixed 2 (fun x ↦ Bytes.toLe 2 x.toNat) (fun b ↦ UInt16.ofNat (Bytes.ofLe b))
    (fun _ ↦ Bytes.length_toLe 2 _) (by
      intro x
      have hx : x.toNat < 256 ^ 2 := x.toNat_lt
      rw [Bytes.ofLe_toLe 2 _ hx, UInt16.ofNat_toNat])

/-- A string, behind the number of its bytes. -/
def string : Format String where
  write s := Bytes.leU64 (UInt64.ofNat (Utf8.encode s).length) ++ Utf8.encode s
  read b := do
    let (length, rest) ← u64.read b
    let (text, rest) ← takeBytes length.toNat rest
    let s ← Utf8.decode text
    return (s, rest)
  read_write := by
    intro s rest h
    rw [List.length_append] at h
    have hlt : (Utf8.encode s).length < 2 ^ 64 := by omega
    have hlen : (UInt64.ofNat (Utf8.encode s).length).toNat = (Utf8.encode s).length := by
      rw [UInt64.toNat_ofNat', Nat.mod_eq_of_lt hlt]
    rw [List.append_assoc, u64_read]
    simp only [Option.bind_eq_bind, Option.bind_some, takeBytes_append hlen.symm rest,
      Utf8.decode_encode, Option.pure_def]

/-- A string takes eight bytes more than its text. -/
@[simp] theorem length_string_write (s : String) :
    (string.write s).length = 8 + (Utf8.encode s).length := by
  simp only [string, List.length_append, Bytes.length_leU64]

/-- One value after the other. -/
def seq (f : Format α) (g : Format β) : Format (α × β) where
  write p := f.write p.1 ++ g.write p.2
  read b := do
    let (x, rest) ← f.read b
    let (y, rest) ← g.read rest
    return ((x, y), rest)
  read_write := by
    rintro ⟨x, y⟩ rest h
    simp only [List.length_append] at h
    have hx := f.read_write x (g.write y ++ rest) (by omega)
    have hy := g.read_write y rest (by omega)
    simp only [List.append_assoc, hx, hy, Option.bind_eq_bind, Option.bind_some, Option.pure_def]

/-- The values of a type that is another one under a different name. -/
def iso (f : Format α) (toNew : α → β) (ofNew : β → α) (h : ∀ b, toNew (ofNew b) = b) :
    Format β where
  write b := f.write (ofNew b)
  read b := (f.read b).map fun p ↦ (toNew p.1, p.2)
  read_write := by
    intro b rest hlen
    rw [f.read_write _ rest hlen, Option.map_some, h b]

/-- A value that may be missing, behind a tag. -/
def option (f : Format α) : Format (Option α) where
  write
    | none => [0]
    | some a => 1 :: f.write a
  read
    | 0 :: rest => some (none, rest)
    | 1 :: rest => (f.read rest).map fun p ↦ (some p.1, p.2)
    | _ => none
  read_write := by
    intro a rest h
    cases a with
    | none => rfl
    | some a =>
      rw [List.length_cons] at h
      simp [f.read_write a rest (by omega)]

/-- Read so many values. -/
def readMany (f : Format α) : Nat → Bytes → Option (List α × Bytes)
  | 0, b => some ([], b)
  | n + 1, b => do
    let (a, rest) ← f.read b
    let (as, rest) ← readMany f n rest
    return (a :: as, rest)

theorem readMany_flatMap (f : Format α) (as : List α) (rest : Bytes)
    (h : (as.flatMap f.write).length < 2 ^ 64) :
    readMany f as.length (as.flatMap f.write ++ rest) = some (as, rest) := by
  induction as with
  | nil => rfl
  | cons a as ih =>
    rw [List.flatMap_cons, List.length_append] at h
    rw [List.length_cons, readMany, List.flatMap_cons, List.append_assoc,
      f.read_write a _ (by omega)]
    simp [ih (by omega)]

theorem length_le_flatMap (f : Format α) (hpos : ∀ a, 0 < (f.write a).length) (as : List α) :
    as.length ≤ (as.flatMap f.write).length := by
  induction as with
  | nil => exact Nat.zero_le _
  | cons a as ih =>
    have ha := hpos a
    rw [List.flatMap_cons, List.length_append, List.length_cons]
    omega

/-- A list of values that take space, behind their number. -/
def list (f : Format α) (hpos : ∀ a, 0 < (f.write a).length) : Format (List α) where
  write as := Bytes.leU64 (UInt64.ofNat as.length) ++ as.flatMap f.write
  read b := do
    let (length, rest) ← u64.read b
    readMany f length.toNat rest
  read_write := by
    intro as rest h
    rw [List.length_append] at h
    have hlt : (as.flatMap f.write).length < 2 ^ 64 := by omega
    have hlen : (UInt64.ofNat as.length).toNat = as.length := by
      have hle := length_le_flatMap f hpos as
      rw [UInt64.toNat_ofNat', Nat.mod_eq_of_lt (by omega)]
    rw [List.append_assoc, u64_read]
    simp only [Option.bind_eq_bind, Option.bind_some, hlen, readMany_flatMap f as rest hlt]

/-- The messages of a format: a value and nothing behind it. `errorText` is the text of the
error for bytes that no value starts. -/
def codec (f : Format α) (errorText : Bytes → String) : Codec α where
  serialize := f.write
  deserialize b :=
    match f.read b with
    | none => .error (errorText b)
    | some (a, []) => .ok a
    | some (_, rest) =>
      .error ("trailing bytes after bincode message: " ++ toString rest.length)
  deserialize_serialize := by
    intro a h
    have hread := f.read_write a [] h
    rw [List.append_nil] at hread
    simp only [hread]

end Format

/-- The variants of an enumeration: each value has a tag below `count` and the bytes of its
payload. -/
structure Variants (α : Type) where
  count : Nat
  tag : α → Nat
  write : α → Bytes
  read : Nat → Bytes → Option (α × Bytes)
  tag_lt : ∀ a, tag a < count
  read_write : ∀ a rest, (write a).length < 2 ^ 64 →
    read (tag a) (write a ++ rest) = some (a, rest)

namespace Variants

variable {α β : Type}

/-- The last variant. -/
def last (f : Format α) : Variants α where
  count := 1
  tag _ := 0
  write := f.write
  read tag b := if tag = 0 then f.read b else none
  tag_lt := fun _ ↦ Nat.one_pos
  read_write := fun a rest h ↦ by rw [if_pos rfl, f.read_write a rest h]

/-- A variant in front of others. -/
def cons (f : Format α) (v : Variants β) : Variants (α ⊕ β) where
  count := v.count + 1
  tag
    | .inl _ => 0
    | .inr b => v.tag b + 1
  write
    | .inl a => f.write a
    | .inr b => v.write b
  read
    | 0, bytes => (f.read bytes).map fun p ↦ (.inl p.1, p.2)
    | tag + 1, bytes => (v.read tag bytes).map fun p ↦ (.inr p.1, p.2)
  tag_lt := by
    rintro (a | b)
    · exact Nat.succ_pos _
    · exact Nat.succ_lt_succ (v.tag_lt b)
  read_write := by
    rintro (a | b) rest h
    · simp [f.read_write a rest h]
    · simp [v.read_write b rest h]

/-- A value of an enumeration, behind its tag. -/
def format (v : Variants α) (hcount : v.count ≤ 2 ^ 32) : Format α where
  write a := Bytes.toLe 4 (v.tag a) ++ v.write a
  read b := do
    let (tag, rest) ← takeBytes 4 b
    v.read (Bytes.ofLe tag) rest
  read_write := by
    intro a rest h
    rw [List.length_append] at h
    have htag : v.tag a < 256 ^ 4 := Nat.lt_of_lt_of_le (v.tag_lt a) hcount
    rw [List.append_assoc, takeBytes_append (Bytes.length_toLe 4 _)]
    simp [Bytes.ofLe_toLe 4 _ htag, v.read_write a rest (by omega)]

end Variants

end Bincode
