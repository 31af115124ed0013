import Mathlib.Algebra.Group.Nat.Defs
import Mathlib.Data.List.Induction

/-!
# The order of printed numbers

Library module. A text is a sequence of numbers in digits of one radix, each with a character
behind it that is no digit. Such texts are compared letter by letter, but what decides can be
said of the numbers: at the first one that differs, the leading digits, as many as the shorter
number has, and if these are equal the digit or the stop that comes next. A number may be
printed with no digit at all.
-/

namespace Numerals

/-- The last `d` digits of a number in radix `r`, the most significant first. -/
def numeral (r : Nat) : Nat → Nat → List Nat
  | 0, _ => []
  | d + 1, v => v / r ^ d % r :: numeral r d v

/-- The characters of the digits in a radix, in the order of the digits. -/
structure Digits (α : Type) [Ord α] (r : Nat) where
  code : Nat → α
  mono : ∀ c d, c < d → d < r → compare (code c) (code d) = .lt

/-- A number, how many digits are printed of it, and the character behind them. -/
structure Printed (α : Type) where
  value : Nat
  digits : Nat
  stop : α
  deriving DecidableEq

section Arithmetic

theorem length_numeral (r d v : Nat) : (numeral r d v).length = d := by
  induction d with
  | zero => rfl
  | succ d ih => rw [numeral, List.length_cons, ih]

/-- The digits of a number from the last one on. -/
theorem numeral_succ (r d v : Nat) : numeral r (d + 1) v = numeral r d (v / r) ++ [v % r] := by
  induction d with
  | zero => simp [numeral]
  | succ d ih =>
    rw [numeral, ih, numeral, Nat.div_div_eq_div_mul, ← Nat.pow_succ']
    rfl

/-- More digits are those of the leading part and those of the rest. -/
theorem numeral_add (r d e v : Nat) :
    numeral r (d + e) v = numeral r d (v / r ^ e) ++ numeral r e v := by
  induction d with
  | zero => simp [numeral]
  | succ d ih =>
    rw [Nat.succ_add, numeral, ih, numeral, Nat.div_div_eq_div_mul, ← Nat.pow_add,
      Nat.add_comm e d]
    rfl

/-- The last digits do not depend on what stands before them. -/
theorem numeral_mod (r d v : Nat) : numeral r d (v % r ^ d) = numeral r d v := by
  induction d generalizing v with
  | zero => rfl
  | succ d ih =>
    rw [numeral, numeral]
    congr 1
    · rw [Nat.pow_succ, Nat.mod_mul_right_div_self, Nat.mod_mod]
    · rw [← ih, Nat.mod_mod_of_dvd _ (Nat.pow_dvd_pow r (Nat.le_succ d)), ih]

/-- The number of a list of digits in radix `r`, the most significant first. -/
def ofNumeral (r : Nat) (ds : List Nat) : Nat := ds.foldl (fun v d ↦ v * r + d) 0

/-- The number that the decimal digits of a number are in radix `r`. -/
def reread (r n : Nat) : Nat := ofNumeral r (numeral 10 (Nat.toDigits 10 n).length n)

/-- The last digit comes behind the number of the others. -/
private theorem ofNumeral_concat (r : Nat) (ds : List Nat) (d : Nat) :
    ofNumeral r (ds ++ [d]) = ofNumeral r ds * r + d := by
  rw [ofNumeral, List.foldl_append]
  rfl

/-- A list of digits is the numeral of its number. -/
theorem numeral_ofNumeral {r : Nat} {ds : List Nat} (h : ∀ d ∈ ds, d < r) :
    numeral r ds.length (ofNumeral r ds) = ds := by
  induction ds using List.reverseRecOn with
  | nil => rfl
  | append_singleton ds d ih =>
    have hd : d < r := h d (by simp)
    have hdiv : (ofNumeral r ds * r + d) / r = ofNumeral r ds := by
      rw [Nat.add_comm, Nat.add_mul_div_right _ _ (by omega), Nat.div_eq_of_lt hd, Nat.zero_add]
    have hmod : (ofNumeral r ds * r + d) % r = d := by
      rw [Nat.add_comm, Nat.add_mul_mod_self_right, Nat.mod_eq_of_lt hd]
    rw [List.length_append, List.length_singleton, ofNumeral_concat, numeral_succ, hdiv, hmod,
      ih fun e he ↦ h e (by simp [he])]

/-- Digits make a number with room in as many digits. -/
theorem ofNumeral_lt {r : Nat} {ds : List Nat} (h : ∀ d ∈ ds, d < r) :
    ofNumeral r ds < r ^ ds.length := by
  induction ds using List.reverseRecOn with
  | nil => simp [ofNumeral]
  | append_singleton ds d ih =>
    have hd : d < r := h d (by simp)
    have hlt := Nat.mul_le_mul_right r (ih fun e he ↦ h e (by simp [he]))
    rw [Nat.succ_mul] at hlt
    rw [List.length_append, List.length_singleton, ofNumeral_concat, Nat.pow_succ]
    omega

/-- Digits are less than the radix. -/
theorem lt_of_mem_numeral {r d v e : Nat} (hr : 0 < r) (h : e ∈ numeral r d v) : e < r := by
  induction d with
  | zero => cases h
  | succ d ih =>
    rcases List.mem_cons.mp h with rfl | h
    · exact Nat.mod_lt _ hr
    · exact ih h

/-- The digits of a number are its numeral. -/
theorem map_digitChar_numeral {r : Nat} (hr : 1 < r) (n : Nat) :
    (numeral r (Nat.toDigits r n).length n).map Nat.digitChar = Nat.toDigits r n := by
  induction n using Nat.strongRecOn with
  | ind n ih =>
    by_cases hn : n < r
    · rw [Nat.toDigits_of_lt_base hn]
      simp [numeral, Nat.mod_eq_of_lt hn]
    · have hle : r ≤ n := Nat.le_of_not_lt hn
      rw [Nat.toDigits_of_base_le hr hle, List.length_append, List.length_singleton, numeral_succ,
        List.map_append, ih (n / r) (Nat.div_lt_self (by omega) hr)]
      rfl

/-- A number has room in its digits. -/
theorem lt_pow_length_toDigits {r : Nat} (hr : 1 < r) (n : Nat) :
    n < r ^ (Nat.toDigits r n).length :=
  (Nat.length_toDigits_le_iff hr Nat.length_toDigits_pos).mp (Nat.le_refl _)

/-- Numbers are compared by quotient, then by remainder. -/
theorem compare_div_mod (x y m : Nat) :
    compare x y = (compare (x / m) (y / m)).then (compare (x % m) (y % m)) := by
  rcases Nat.lt_trichotomy (x / m) (y / m) with h | h | h
  · rw [Nat.compare_eq_lt.mpr h, Nat.compare_eq_lt.mpr (Nat.lt_of_div_lt_div h)]
    rfl
  · have hx := Nat.div_add_mod x m
    have hy := Nat.div_add_mod y m
    rw [h] at hx
    rw [Nat.compare_eq_eq.mpr h, Ordering.eq_then]
    rcases Nat.lt_trichotomy (x % m) (y % m) with hlt | heq | hgt
    · rw [Nat.compare_eq_lt.mpr hlt, Nat.compare_eq_lt]
      omega
    · rw [Nat.compare_eq_eq.mpr heq, Nat.compare_eq_eq]
      omega
    · rw [Nat.compare_eq_gt.mpr hgt, Nat.compare_eq_gt]
      omega
  · rw [Nat.compare_eq_gt.mpr h, Nat.compare_eq_gt.mpr (Nat.lt_of_div_lt_div h)]
    rfl

/-- A number with room in its digits is determined by them. -/
theorem numeral_inj {r d x y : Nat} (hx : x < r ^ d) (hy : y < r ^ d)
    (h : numeral r d x = numeral r d y) : x = y := by
  induction d generalizing x y with
  | zero =>
    rw [Nat.pow_zero] at hx hy
    omega
  | succ d ih =>
    rw [numeral_succ, numeral_succ] at h
    obtain ⟨hlead, hlast⟩ := List.append_inj' h rfl
    rw [Nat.pow_succ'] at hx hy
    have hdiv := ih (Nat.div_lt_of_lt_mul hx) (Nat.div_lt_of_lt_mul hy) hlead
    rw [← Nat.div_add_mod x r, ← Nat.div_add_mod y r, hdiv, List.head_eq_of_cons_eq hlast]

end Arithmetic

section Texts

variable {α : Type} [Ord α] [Std.TransOrd α] [Std.LawfulEqOrd α] {r : Nat} (c : Digits α r)

/-- Digits are compared as the characters that stand for them. -/
theorem compare_code {d e : Nat} (hd : d < r) (he : e < r) :
    compare (c.code d) (c.code e) = compare d e := by
  rcases Nat.lt_trichotomy d e with h | h | h
  · rw [c.mono d e h he, Nat.compare_eq_lt.mpr h]
  · rw [h, Std.ReflOrd.compare_self, Std.ReflOrd.compare_self]
  · rw [Std.OrientedOrd.eq_swap, c.mono e d h hd, Nat.compare_eq_gt.mpr h]
    rfl

/-- Of two numbers with the same count of digits, the texts are compared as the numbers, then
by what stands behind. -/
theorem compare_numeral_append (d x y : Nat) (hx : x < r ^ d) (hy : y < r ^ d) (a b : List α) :
    compare ((numeral r d x).map c.code ++ a) ((numeral r d y).map c.code ++ b) =
      (compare x y).then (compare a b) := by
  induction d generalizing x y with
  | zero =>
    have hxy : x = y := by
      rw [Nat.pow_zero] at hx hy
      omega
    rw [hxy, Std.ReflOrd.compare_self]
    rfl
  | succ d ih =>
    have hpos : 0 < r ^ d := by
      apply Nat.pos_of_ne_zero
      intro h
      rw [Nat.pow_succ, h] at hx
      omega
    have hlead : ∀ v, v < r ^ (d + 1) → v / r ^ d < r := by
      intro v hv
      rw [Nat.pow_succ'] at hv
      exact Nat.div_lt_of_lt_mul (by rwa [Nat.mul_comm])
    have hrest := ih (x % r ^ d) (y % r ^ d) (Nat.mod_lt _ hpos) (Nat.mod_lt _ hpos)
    rw [numeral_mod, numeral_mod] at hrest
    rw [numeral, numeral, Nat.mod_eq_of_lt (hlead x hx), Nat.mod_eq_of_lt (hlead y hy),
      List.map_cons, List.map_cons, List.cons_append, List.cons_append, List.compare_cons_cons,
      compare_code c (hlead x hx) (hlead y hy), hrest, compare_div_mod x y (r ^ d),
      Ordering.then_assoc]

namespace Printed

/-- The characters of a printed number. -/
def text (f : Printed α) : List α := (numeral r f.digits f.value).map c.code ++ [f.stop]

omit [Std.TransOrd α] [Std.LawfulEqOrd α] in
private theorem exists_text_append (f : Printed α) (a : List α) : ∃ x l, f.text c ++ a = x :: l :=
  List.exists_cons_of_ne_nil (by simp [text])

/-- The number has room in its digits, and the stop is no digit. -/
structure Fits (f : Printed α) : Prop where
  room : f.value < r ^ f.digits
  stop : ∀ d, d < r → f.stop ≠ c.code d

/-- The number that the leading digits form, as many as the other number has. -/
def lead (r : Nat) (f g : Printed α) : Nat := f.value / r ^ (f.digits - g.digits)

/-- The character behind the leading digits, as many as the other number has. -/
def next (f g : Printed α) : α :=
  if g.digits < f.digits then c.code (f.value / r ^ (f.digits - g.digits - 1) % r) else f.stop

/-- The leading digits form a smaller number than those of the other one, or the same and the
character that comes next is smaller. -/
def Before (f g : Printed α) : Prop :=
  lead r f g < lead r g f ∨ lead r f g = lead r g f ∧ compare (next c f g) (next c g f) = .lt

variable {c} {f g : Printed α}

private theorem then_of_ne_eq {o p : Ordering} (h : o ≠ .eq) : o.then p = o := by
  cases o with
  | lt => rfl
  | eq => exact absurd rfl h
  | gt => rfl

/-- Which of two different numbers comes first does not depend on what stands behind them. -/
private theorem compare_text_of_lt (hf : f.Fits c) (hg : g.Fits c) (h : f.digits < g.digits)
    (a b : List α) :
    compare (f.text c ++ a) (g.text c ++ b) =
      (compare (lead r f g) (lead r g f)).then (compare (next c f g) (next c g f)) := by
  obtain ⟨k, hk⟩ : ∃ k, g.digits = f.digits + (k + 1) := ⟨g.digits - f.digits - 1, by omega⟩
  have hfg : f.digits - g.digits = 0 := by omega
  have hgf : g.digits - f.digits = k + 1 := by omega
  have hr : 0 < r := by
    apply Nat.pos_of_ne_zero
    intro h0
    have hroom := hg.room
    rw [hk, h0, ← Nat.add_assoc, Nat.pow_succ, Nat.mul_zero] at hroom
    omega
  have hdigit : g.value / r ^ k % r < r := Nat.mod_lt _ hr
  have hleadroom : g.value / r ^ (k + 1) < r ^ f.digits := by
    apply Nat.div_lt_of_lt_mul
    rw [← Nat.pow_add, Nat.add_comm, ← hk]
    exact hg.room
  -- the stop of the shorter number meets a digit of the longer one
  have hne : compare f.stop (c.code (g.value / r ^ k % r)) ≠ .eq := by
    intro heq
    exact hf.stop _ hdigit (Std.LawfulEqOrd.eq_of_compare heq)
  have htext : g.text c ++ b = (numeral r f.digits (g.value / r ^ (k + 1))).map c.code ++
      (c.code (g.value / r ^ k % r) :: ((numeral r k g.value).map c.code ++ [g.stop] ++ b)) := by
    rw [text, hk, numeral_add, numeral]
    simp
  rw [htext, text, List.append_assoc, List.singleton_append,
    compare_numeral_append c _ _ _ hf.room hleadroom, List.compare_cons_cons, then_of_ne_eq hne]
  unfold lead next
  rw [hfg, hgf, if_neg (by omega), if_pos h, Nat.pow_zero, Nat.div_one, Nat.add_sub_cancel]

/-- Different numbers decide which of two texts comes first. -/
theorem compare_text_of_ne (hf : f.Fits c) (hg : g.Fits c) (h : f ≠ g) (a b : List α) :
    compare (f.text c ++ a) (g.text c ++ b) =
      (compare (lead r f g) (lead r g f)).then (compare (next c f g) (next c g f)) := by
  rcases Nat.lt_trichotomy f.digits g.digits with hlt | heq | hgt
  · exact compare_text_of_lt hf hg hlt a b
  · have hroom := hg.room
    rw [← heq] at hroom
    rw [text, text, List.append_assoc, List.append_assoc, List.singleton_append,
      List.singleton_append, ← heq, compare_numeral_append c _ _ _ hf.room hroom,
      List.compare_cons_cons]
    unfold lead next
    rw [heq, Nat.sub_self, if_neg (Nat.lt_irrefl _), if_neg (Nat.lt_irrefl _), Nat.pow_zero,
      Nat.div_one, Nat.div_one]
    by_cases hvalue : f.value = g.value
    · have hstop : compare f.stop g.stop ≠ .eq := by
        intro hs
        apply h
        obtain ⟨value, digits, stop⟩ := f
        obtain ⟨value', digits', stop'⟩ := g
        simp only at heq hvalue hs
        rw [heq, hvalue, Std.LawfulEqOrd.eq_of_compare hs]
      rw [then_of_ne_eq hstop]
    · have hne : compare f.value g.value ≠ .eq := mt Nat.compare_eq_eq.mp hvalue
      rw [then_of_ne_eq hne, then_of_ne_eq hne]
  · have hswap := compare_text_of_lt hg hf hgt b a
    rw [Std.OrientedOrd.eq_swap, hswap, Ordering.swap_then, ← Std.OrientedOrd.eq_swap,
      ← Std.OrientedOrd.eq_swap]

end Printed

/-- At the first number in which two lists differ, that of the first list is before that of the
second. -/
def ListBefore : List (Printed α) → List (Printed α) → Prop
  | [], [] => False
  | [], _ :: _ => True
  | _ :: _, [] => False
  | f :: fs, g :: gs => f = g ∧ ListBefore fs gs ∨ f ≠ g ∧ f.Before c g

instance (f g : Printed α) : Decidable (f.Before c g) := inferInstanceAs (Decidable (_ ∨ _))

instance decidableListBefore [DecidableEq α] :
    (fs gs : List (Printed α)) → Decidable (ListBefore c fs gs)
  | [], [] => inferInstanceAs (Decidable False)
  | [], _ :: _ => inferInstanceAs (Decidable True)
  | _ :: _, [] => inferInstanceAs (Decidable False)
  | f :: fs, g :: gs =>
    have := decidableListBefore fs gs
    inferInstanceAs (Decidable (f = g ∧ ListBefore c fs gs ∨ f ≠ g ∧ f.Before c g))

variable {c}

omit [Std.TransOrd α] in
theorem compare_append_left (p a b : List α) : compare (p ++ a) (p ++ b) = compare a b := by
  induction p with
  | nil => rfl
  | cons x p ih =>
    rw [List.cons_append, List.cons_append, List.compare_cons_cons, Std.ReflOrd.compare_self, ih]
    rfl

/-- The order of two texts is the order of their numbers. -/
theorem compare_texts_lt_iff {fs gs : List (Printed α)} (hfs : ∀ f ∈ fs, f.Fits c)
    (hgs : ∀ g ∈ gs, g.Fits c) :
    compare (fs.flatMap (Printed.text c)) (gs.flatMap (Printed.text c)) = .lt ↔
      ListBefore c fs gs := by
  induction fs generalizing gs with
  | nil =>
    cases gs with
    | nil => simp [ListBefore]
    | cons g gs =>
      obtain ⟨x, l, hl⟩ := Printed.exists_text_append c g (gs.flatMap (Printed.text c))
      rw [List.flatMap_nil, List.flatMap_cons, hl, List.compare_nil_cons]
      exact iff_of_true rfl trivial
  | cons f fs ih =>
    cases gs with
    | nil =>
      obtain ⟨x, l, hl⟩ := Printed.exists_text_append c f (fs.flatMap (Printed.text c))
      rw [List.flatMap_nil, List.flatMap_cons, hl, List.compare_cons_nil]
      exact iff_of_false (by decide) id
    | cons g gs =>
      have hf := hfs f (by simp)
      have hg := hgs g (by simp)
      rw [List.flatMap_cons, List.flatMap_cons, ListBefore]
      by_cases hfg : f = g
      · subst hfg
        rw [compare_append_left, ih (fun x hx ↦ hfs x (List.mem_cons_of_mem _ hx))
          (fun x hx ↦ hgs x (List.mem_cons_of_mem _ hx))]
        simp
      · rw [Printed.compare_text_of_ne hf hg hfg, Ordering.then_eq_lt, Nat.compare_eq_lt,
          Nat.compare_eq_eq]
        simp [hfg, Printed.Before]

/-! ### Texts determine their numbers -/

/-- Digits end at the first character that is none. -/
private theorem digits_inj {ds es : List Nat} {s t : α} {a b : List α} (hds : ∀ d ∈ ds, d < r)
    (hes : ∀ e ∈ es, e < r) (hs : ∀ d, d < r → s ≠ c.code d) (ht : ∀ d, d < r → t ≠ c.code d)
    (h : ds.map c.code ++ s :: a = es.map c.code ++ t :: b) : ds = es ∧ s = t ∧ a = b := by
  induction ds generalizing es with
  | nil =>
    cases es with
    | nil => exact ⟨rfl, List.cons.inj h⟩
    | cons e es => exact absurd (List.cons.inj h).1 (hs e (hes e List.mem_cons_self))
  | cons d ds ih =>
    have hd := hds d List.mem_cons_self
    cases es with
    | nil => exact absurd (List.cons.inj h).1.symm (ht d hd)
    | cons e es =>
      obtain ⟨hhead, htail⟩ := List.cons.inj h
      have hde : d = e := by
        rw [← Nat.compare_eq_eq, ← compare_code c hd (hes e List.mem_cons_self), hhead,
          Std.ReflOrd.compare_self]
      obtain ⟨rfl, hrest⟩ := ih (fun d hmem ↦ hds d (List.mem_cons_of_mem _ hmem))
        (fun e hmem ↦ hes e (List.mem_cons_of_mem _ hmem)) htail
      exact ⟨by rw [hde], hrest⟩

/-- What stands in front of a text is one number only. -/
theorem Printed.text_append_inj {f g : Printed α} {a b : List α} (hf : f.Fits c) (hg : g.Fits c)
    (h : f.text c ++ a = g.text c ++ b) : f = g ∧ a = b := by
  have hdigit {g : Printed α} (hg : g.Fits c) : ∀ d ∈ numeral r g.digits g.value, d < r := by
    intro d hd
    apply lt_of_mem_numeral _ hd
    by_contra hr
    obtain rfl : r = 0 := by omega
    cases hdigits : g.digits with
    | zero =>
      rw [hdigits] at hd
      cases hd
    | succ n =>
      have hroom := hg.room
      rw [hdigits, Nat.pow_succ] at hroom
      omega
  rw [text, text, List.append_assoc, List.append_assoc] at h
  obtain ⟨hnumeral, hstop, hrest⟩ := digits_inj (hdigit hf) (hdigit hg) hf.stop hg.stop h
  have hdigits : f.digits = g.digits := by
    rw [← length_numeral r f.digits f.value, hnumeral, length_numeral]
  obtain ⟨x, d, s⟩ := f
  obtain ⟨y, e, t⟩ := g
  obtain rfl : d = e := hdigits
  obtain rfl : s = t := hstop
  exact ⟨by rw [show x = y from numeral_inj hf.room hg.room hnumeral], hrest⟩

/-- Different numbers have different texts. -/
theorem flatMap_text_inj {fs gs : List (Printed α)} (hfs : ∀ f ∈ fs, f.Fits c)
    (hgs : ∀ g ∈ gs, g.Fits c)
    (h : fs.flatMap (Printed.text c) = gs.flatMap (Printed.text c)) : fs = gs := by
  induction fs generalizing gs with
  | nil =>
    cases gs with
    | nil => rfl
    | cons g gs =>
      obtain ⟨x, l, hl⟩ := Printed.exists_text_append c g (gs.flatMap (Printed.text c))
      rw [List.flatMap_nil, List.flatMap_cons, hl] at h
      cases h
  | cons f fs ih =>
    cases gs with
    | nil =>
      obtain ⟨x, l, hl⟩ := Printed.exists_text_append c f (fs.flatMap (Printed.text c))
      rw [List.flatMap_nil, List.flatMap_cons, hl] at h
      cases h
    | cons g gs =>
      obtain ⟨rfl, hrest⟩ := Printed.text_append_inj (hfs f List.mem_cons_self)
        (hgs g List.mem_cons_self) h
      rw [ih (fun f hmem ↦ hfs f (List.mem_cons_of_mem _ hmem))
        (fun g hmem ↦ hgs g (List.mem_cons_of_mem _ hmem)) hrest]

end Texts

end Numerals
