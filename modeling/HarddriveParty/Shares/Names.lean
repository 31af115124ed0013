import HarddriveParty.Shares.Model

/-!
# Share names

`Shares.shareNameForPath` only gives names that can stand as the first component of an
index path: non-empty, without a separator, and neither of the two special names.
-/

namespace HarddriveParty

open UnixPath

private theorem encode_ofList (cs : List Char) :
    Utf8.encode (String.ofList cs) = cs.flatMap String.utf8EncodeChar := by
  simp [Utf8.encode, List.utf8Encode]

/-- A decimal number has no separator. -/
theorem slash_notMem_encode_toString (i : Nat) : slash ∉ Utf8.encode (toString i) := by
  change slash ∉ Utf8.encode i.repr
  rw [Nat.repr_eq_ofList_toDigits, encode_ofList]
  intro h
  obtain ⟨c, hc, hs⟩ := List.mem_flatMap.mp h
  have hd := Nat.isDigit_of_mem_toDigits (by decide) (by decide) hc
  simp only [Char.isDigit, Bool.and_eq_true, decide_eq_true_eq] at hd
  have hlow : c.val ≤ 127 := UInt32.le_trans hd.2 (by decide)
  rw [String.utf8EncodeChar_eq_singleton (Char.utf8Size_eq_one_iff.mpr hlow),
    List.mem_singleton] at hs
  have hmin : 48 ≤ c.val.toNat := UInt32.le_iff_toNat_le.mp hd.1
  have hmax : c.val.toNat ≤ 57 := UInt32.le_iff_toNat_le.mp hd.2
  have hval := congrArg UInt8.toNat hs
  rw [UInt32.toNat_toUInt8] at hval
  have hslash : slash.toNat = 47 := rfl
  omega

/-- Bytes around `" - "` without a separator make a name. -/
theorem isName_of_dash {a b : Bytes} (ha : slash ∉ a) (hb : slash ∉ b) :
    IsName (a ++ Utf8.encode " - " ++ b) := by
  have hspace : (32 : UInt8) ∈ a ++ Utf8.encode " - " ++ b := by
    have hd : (32 : UInt8) ∈ Utf8.encode " - " := by decide
    simp [hd]
  refine ⟨List.ne_nil_of_mem hspace, ?_, ?_, ?_⟩
  · have hd : slash ∉ Utf8.encode " - " := by decide
    simp [ha, hb, hd]
  · intro h
    rw [h] at hspace
    exact absurd hspace (by decide)
  · intro h
    rw [h] at hspace
    exact absurd hspace (by decide)

private theorem slash_notMem_intercalate {l : List String}
    (h : ∀ s ∈ l, slash ∉ Utf8.encode s) :
    slash ∉ Utf8.encode (String.intercalate " - " l) := by
  induction l with
  | nil => simp
  | cons first rest ih =>
    have hfirst := h first (by simp)
    rcases rest with _ | ⟨second, rest⟩
    · simpa using hfirst
    · have hrest := ih fun s hs ↦ h s (List.mem_cons_of_mem _ hs)
      have hd : slash ∉ Utf8.encode " - " := by decide
      rw [String.intercalate_cons_cons, Utf8.encode_append, Utf8.encode_append]
      simp [hfirst, hrest, hd]

private theorem isName_intercalate {l : List String} (hl : 2 ≤ l.length)
    (h : ∀ s ∈ l, slash ∉ Utf8.encode s) : IsName (Utf8.encode (String.intercalate " - " l)) := by
  obtain ⟨first, second, rest, rfl⟩ : ∃ first second rest, l = first :: second :: rest := by
    cases l with
    | nil => cases hl
    | cons first l =>
      cases l with
      | nil => exact absurd hl (by simp)
      | cons second rest => exact ⟨first, second, rest, rfl⟩
  have hrest := slash_notMem_intercalate (l := second :: rest) fun s hs ↦
    h s (List.mem_cons_of_mem _ hs)
  rw [String.intercalate_cons_cons, Utf8.encode_append, Utf8.encode_append]
  exact isName_of_dash (h first (by simp)) hrest

private theorem isName_normalComponents {cs : List Component} {names : List String}
    (hcs : ∀ n, .normal n ∈ cs → IsName n) (h : normalComponents cs = some names) :
    ∀ s ∈ names, IsName (Utf8.encode s) := by
  fun_induction normalComponents cs generalizing names with
  | case1 =>
    cases h
    simp
  | case2 name rest ih =>
    obtain ⟨s, hs, hm⟩ := Option.bind_eq_some_iff.mp h
    obtain ⟨tail, htail, rfl⟩ := Option.map_eq_some_iff.mp hm
    have hrest := ih (fun n hn ↦ hcs n (List.mem_cons_of_mem _ hn)) htail
    intro t ht
    rcases List.mem_cons.mp ht with rfl | ht
    · rw [Utf8.encode_of_decode hs]
      exact hcs name (by simp)
    · exact hrest t ht
  | case3 c rest hc ih => exact ih (fun n hn ↦ hcs n (List.mem_cons_of_mem _ hn)) h

private theorem isName_suffixNames {cs : List String} {candidate : String}
    (hcs : ∀ s ∈ cs, IsName (Utf8.encode s)) (h : candidate ∈ suffixNames cs) :
    IsName (Utf8.encode candidate) := by
  obtain ⟨suffixLen, hlen, rfl⟩ := List.mem_map.mp h
  have hrange := List.mem_range'_1.mp hlen
  refine isName_intercalate ?_ fun s hs ↦ (hcs s (List.mem_of_mem_drop hs)).2.1
  rw [List.length_drop]
  omega

private theorem numberedName_spec {taken : String → Bool} {basename candidate : String}
    {fuel i : Nat} (h : numberedName taken basename fuel i = some candidate) :
    ∃ j : Nat, candidate = basename ++ " - " ++ toString j := by
  induction fuel generalizing i with
  | zero => cases h
  | succ fuel ih =>
    rw [numberedName] at h
    split at h
    · exact ih h
    · cases h
      exact ⟨i, rfl⟩

/-- A name that is chosen for a path without a name is a name. -/
theorem isName_of_new {shareNames : Tree} {path shareName : String}
    (hnew : ∀ k : Bytes, shareNames[k]? ≠ some (Utf8.encode path))
    (h : Shares.shareNameForPath shareNames path = .ok shareName) :
    IsName (Utf8.encode shareName) := by
  unfold Shares.shareNameForPath at h
  split at h
  · next existingName existingPath hfind =>
    have hmem := List.mem_of_find?_eq_some hfind
    have hpath : existingPath = Utf8.encode path := by simpa using List.find?_some hfind
    rw [Std.ExtTreeMap.mem_toList_iff_getElem?_eq_some, hpath] at hmem
    exact absurd hmem (hnew _)
  · split at h
    · cases h
    · next name hname =>
      split at h
      · cases h
      · next basename hbase =>
        have hb : IsName (Utf8.encode basename) := by
          rw [Utf8.encode_of_decode hbase]
          exact isName_of_fileName hname
        simp only at h
        split at h
        · split at h
          · cases h
          · next cs hcs =>
            split at h
            · next candidate hfind =>
              cases h
              exact isName_suffixNames (isName_normalComponents
                (fun n hn ↦ isName_of_mem_components hn) hcs)
                (List.mem_of_find?_eq_some hfind)
            · rw [Outcome.orPanic_eq_ok_iff] at h
              obtain ⟨j, rfl⟩ := numberedName_spec h
              rw [Utf8.encode_append, Utf8.encode_append]
              exact isName_of_dash hb.2.1 (slash_notMem_encode_toString j)
        · cases h
          exact hb

private theorem numberedName_free {taken : String → Bool} {basename candidate : String}
    {fuel i : Nat} (h : numberedName taken basename fuel i = some candidate) :
    taken candidate = false := by
  induction fuel generalizing i with
  | zero => cases h
  | succ fuel ih =>
    rw [numberedName] at h
    split at h
    · exact ih h
    · next hfree =>
      cases h
      exact Bool.eq_false_iff.mpr hfree

/-- The name that is chosen for a path stands for that path already, or for none. -/
theorem shareNames_of_shareNameForPath {shareNames : Tree} {path shareName : String}
    (h : Shares.shareNameForPath shareNames path = .ok shareName) :
    shareNames[Utf8.encode shareName]? = some (Utf8.encode path) ∨
      shareNames[Utf8.encode shareName]? = none := by
  unfold Shares.shareNameForPath at h
  split at h
  · next existingName existingPath hfind =>
    left
    rw [Outcome.okOr_eq_ok_iff] at h
    have hmem := List.mem_of_find?_eq_some hfind
    have hpath : existingPath = Utf8.encode path := by simpa using List.find?_some hfind
    rw [Std.ExtTreeMap.mem_toList_iff_getElem?_eq_some] at hmem
    rw [Utf8.encode_of_decode h, hmem]
    exact congrArg some hpath
  · right
    have hfree {candidate : String} (hc : shareNames[Utf8.encode candidate]?.isSome = false) :
        shareNames[Utf8.encode candidate]? = none :=
      Option.isNone_iff_eq_none.mp (Option.isSome_eq_false_iff.mp hc)
    split at h
    · cases h
    · split at h
      · cases h
      · simp only at h
        split at h
        · split at h
          · cases h
          · split at h
            · next candidate hfind =>
              cases h
              have hnot := List.find?_some hfind
              simp only [Bool.not_eq_true'] at hnot
              exact hfree hnot
            · rw [Outcome.orPanic_eq_ok_iff] at h
              exact hfree (numberedName_free h)
        · next hnot =>
          cases h
          exact hfree (Bool.eq_false_iff.mpr hnot)

/-- The name that is chosen for a path with a name stands for it. -/
theorem shareNames_of_stored {shareNames : Tree} {path shareName : String} {k : Bytes}
    (hk : shareNames[k]? = some (Utf8.encode path))
    (h : Shares.shareNameForPath shareNames path = .ok shareName) :
    shareNames[Utf8.encode shareName]? = some (Utf8.encode path) := by
  unfold Shares.shareNameForPath at h
  split at h
  · next existingName existingPath hfind =>
    rw [Outcome.okOr_eq_ok_iff] at h
    have hmem := List.mem_of_find?_eq_some hfind
    have hpath : existingPath = Utf8.encode path := by simpa using List.find?_some hfind
    rw [Std.ExtTreeMap.mem_toList_iff_getElem?_eq_some, hpath] at hmem
    rw [Utf8.encode_of_decode h, hmem]
  · next hfind =>
    have hno := List.find?_eq_none.mp hfind (k, Utf8.encode path)
      (Std.ExtTreeMap.mem_toList_iff_getElem?_eq_some.mpr hk)
    simp at hno

/-- When the names in use are names, so is the one that is chosen. -/
theorem isName_shareNameForPath {shareNames : Tree} {path shareName : String}
    (hnames : ∀ k, shareNames[k]?.isSome → IsName k)
    (h : Shares.shareNameForPath shareNames path = .ok shareName) :
    IsName (Utf8.encode shareName) := by
  cases hkey : shareNames[Utf8.encode shareName]? with
  | some v =>
    apply hnames
    rw [hkey]
    rfl
  | none =>
    refine isName_of_new (fun k hk ↦ ?_) h
    rw [shareNames_of_stored hk h] at hkey
    cases hkey

end HarddriveParty
