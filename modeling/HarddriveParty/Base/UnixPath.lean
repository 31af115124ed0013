import HarddriveParty.Base.Bytes
import HarddriveParty.Base.Parts
import Mathlib.Data.List.Infix
import Mathlib.Data.List.DropRight

/-!
# Unix paths

Library module. A path is a byte string; its components are what is left between the
separators once empty pieces and single dots are skipped, after `std::path`. A `Name` is
the name of a directory entry, and `joinNames` writes a relative path of such names; on
these paths the component functions invert the joins.
-/

namespace UnixPath

/-- The path separator, `MAIN_SEPARATOR`. -/
def slash : UInt8 := 47

/-- The byte of the special names `.` and `..`. -/
def dot : UInt8 := 46

/-- `std::path::Component` on Unix. -/
inductive Component where
  | rootDir
  | curDir
  | parentDir
  | normal (name : Bytes)
  deriving DecidableEq, Repr

/-- The path text of one component, `Component::as_os_str`. -/
def Component.asBytes : Component → Bytes
  | .rootDir => [slash]
  | .curDir => [dot]
  | .parentDir => [dot, dot]
  | .normal name => name

/-- The byte strings between the separators. -/
def pieces (p : Bytes) : List Bytes := p.splitOn slash

/-- The component of one piece; empty pieces and single dots are skipped. -/
def pieceComponent (piece : Bytes) : Option Component :=
  if piece = [] ∨ piece = [dot] then none
  else if piece = [dot, dot] then some .parentDir
  else some (.normal piece)

/-- The component before the body: a root, or a dot that starts the path. -/
def leading : List Bytes → List Component
  | [] => []
  | first :: rest =>
    if first = [] ∧ rest ≠ [] then [.rootDir]
    else if first = [dot] then [.curDir]
    else []

/-- `Path::components`. -/
def components (p : Bytes) : List Component :=
  leading (pieces p) ++ (pieces p).filterMap pieceComponent

/-- `Path::file_name`: the last component when it is a normal one. -/
def fileName (p : Bytes) : Option Bytes :=
  match (components p).getLast? with
  | some (.normal name) => some name
  | _ => none

/-- The text of the leading component and the pieces of the body after it. -/
def splitBody : List Bytes → Bytes × List Bytes
  | [] => ([], [])
  | first :: rest =>
    if first = [] ∧ rest ≠ [] then ([slash], rest)
    else if first = [dot] then ([dot], rest)
    else ([], first :: rest)

/-- Drop the skipped pieces at the end of a body. -/
def trimBody (body : List Bytes) : List Bytes :=
  body.rdropWhile fun piece ↦ (pieceComponent piece).isNone

/-- Write a leading text and a body back as one path. -/
def assemble (lead : Bytes) (body : List Bytes) : Bytes :=
  if lead = [dot] ∧ body ≠ [] then lead ++ slash :: [slash].intercalate body
  else lead ++ [slash].intercalate body

/-- `Path::parent`: the path without its last component. -/
def parent (p : Bytes) : Option Bytes :=
  match splitBody (pieces p) with
  | (lead, body) =>
    if trimBody body = [] then
      if lead = [dot] then some [] else none
    else some (assemble lead (trimBody (trimBody body).dropLast))

private def ancestorsWithin : Nat → Bytes → List Bytes
  | 0, p => [p]
  | fuel + 1, p =>
    match parent p with
    | none => [p]
    | some q => p :: ancestorsWithin fuel q

/-- `Path::ancestors`: the path, its parent, and so on. A path has at most as many
components as bytes. -/
def ancestors (p : Bytes) : List Bytes := ancestorsWithin p.length p

/-- `Path::join`. -/
def join (p q : Bytes) : Bytes :=
  if q.head? = some slash then q
  else if p = [] ∨ p.getLast? = some slash then p ++ q
  else p ++ slash :: q

/-- A path with the given components, `collect::<PathBuf>`. -/
def collect (cs : List Component) : Bytes := cs.foldl (fun p c ↦ join p c.asBytes) []

/-- `Path::strip_prefix`: what follows the components of `base`, as a path of the
remaining components. -/
def stripPrefix (p base : Bytes) : Option Bytes :=
  if components base <+: components p then
    some (collect ((components p).drop (components base).length))
  else none

/-- `Path::starts_with`: the components of `base` start those of `p`. -/
def StartsWith (p base : Bytes) : Prop := components base <+: components p

instance (p base : Bytes) : Decidable (StartsWith p base) :=
  inferInstanceAs (Decidable (_ <+: _))

/-- `base` is a proper component-wise ancestor of `p`. -/
def IsAncestor (base p : Bytes) : Prop := StartsWith p base ∧ components base ≠ components p

instance (base p : Bytes) : Decidable (IsAncestor base p) :=
  inferInstanceAs (Decidable (_ ∧ _))

/-- The names that a directory entry may have. -/
def IsName (b : Bytes) : Prop := b ≠ [] ∧ slash ∉ b ∧ b ≠ [dot] ∧ b ≠ [dot, dot]

instance (b : Bytes) : Decidable (IsName b) := inferInstanceAs (Decidable (_ ∧ _))

/-- The name of a directory entry. -/
abbrev Name := {b : Bytes // IsName b}

/-- The relative path with the given names. -/
def joinNames (ns : List Name) : Bytes := [slash].intercalate (ns.map Subtype.val)

/-- The empty path has no names. -/
@[simp] theorem joinNames_nil : joinNames [] = [] := rfl

/-- The path of one name is the name. -/
@[simp] theorem joinNames_singleton (n : Name) : joinNames [n] = n.val := by
  simp [joinNames]

/-- A name before other names is followed by a separator. -/
theorem joinNames_cons (n : Name) {ns : List Name} (h : ns ≠ []) :
    joinNames (n :: ns) = n.val ++ slash :: joinNames ns := by
  have hm : ns.map Subtype.val ≠ [] := mt List.map_eq_nil_iff.mp h
  rw [joinNames, List.map_cons, List.intercalate_cons_of_ne_nil hm, joinNames]
  simp

/-- The path of a concatenation of name lists. -/
theorem joinNames_append {ns ms : List Name} (hn : ns ≠ []) (hm : ms ≠ []) :
    joinNames (ns ++ ms) = joinNames ns ++ slash :: joinNames ms := by
  induction ns with
  | nil => exact absurd rfl hn
  | cons n ns ih =>
    rcases ns with _ | ⟨n', ns⟩
    · rw [List.singleton_append, joinNames_cons n hm, joinNames_singleton]
    · rw [List.cons_append, joinNames_cons n (by simp), ih (by simp), joinNames_cons n (by simp)]
      simp

/-- A path has a piece. -/
theorem pieces_ne_nil (p : Bytes) : pieces p ≠ [] := List.splitOn_ne_nil slash p

/-- No piece holds a separator. -/
theorem slash_notMem_of_mem_pieces {p piece : Bytes} (h : piece ∈ pieces p) : slash ∉ piece :=
  Parts.notMem_of_mem_splitOn h

/-- The pieces of a path of names are the names. -/
theorem pieces_joinNames {ns : List Name} (h : ns ≠ []) :
    pieces (joinNames ns) = ns.map Subtype.val := by
  refine List.splitOn_intercalate slash ?_ (mt List.map_eq_nil_iff.mp h)
  intro b hb
  obtain ⟨n, -, rfl⟩ := List.mem_map.mp hb
  exact n.property.2.1

/-- The pieces of a path followed by a separator and a name. -/
theorem pieces_append_name (p : Bytes) (n : Name) :
    pieces (p ++ slash :: n.val) = pieces p ++ [n.val] := by
  rw [pieces, List.splitOn_append_cons_self, List.splitOn_eq_singleton n.property.2.1, pieces]

/-- The pieces of a path followed by a separator and a path of names. -/
theorem pieces_append_joinNames (p : Bytes) {ns : List Name} (h : ns ≠ []) :
    pieces (p ++ slash :: joinNames ns) = pieces p ++ ns.map Subtype.val := by
  rw [pieces, List.splitOn_append_cons_self]
  show pieces p ++ pieces (joinNames ns) = _
  rw [pieces_joinNames h]

/-- A byte other than the separator occurs in a path of names when it occurs in a name. -/
theorem mem_joinNames {b : UInt8} (hb : b ≠ slash) {ns : List Name} :
    b ∈ joinNames ns ↔ ∃ n ∈ ns, b ∈ n.val := by
  induction ns with
  | nil => simp
  | cons n ns ih =>
    by_cases h : ns = []
    · simp [h]
    · simp [joinNames_cons n h, ih, hb]

/-- A name is a normal component. -/
@[simp] theorem pieceComponent_name (n : Name) :
    pieceComponent n.val = some (.normal n.val) := by
  obtain ⟨b, h1, -, h2, h3⟩ := n
  simp [pieceComponent, h1, h2, h3]

private theorem filterMap_names (ns : List Name) :
    (ns.map Subtype.val).filterMap pieceComponent = ns.map fun n ↦ .normal n.val := by
  rw [List.filterMap_map]
  have hf : (pieceComponent ∘ Subtype.val : Name → Option Component) =
      some ∘ fun n ↦ .normal n.val := funext fun n ↦ pieceComponent_name n
  rw [hf, List.filterMap_eq_map]

/-- A path of names has these names as its components. -/
theorem components_joinNames (ns : List Name) :
    components (joinNames ns) = ns.map fun n ↦ .normal n.val := by
  rcases ns with _ | ⟨n, ns⟩
  · rfl
  · rw [components, pieces_joinNames (by simp), filterMap_names]
    simp [leading, n.property.1, n.property.2.2.1]

/-- Normal components determine their names. -/
theorem map_normal_injective :
    Function.Injective (List.map fun n : Name ↦ Component.normal n.val) := by
  refine List.map_injective_iff.mpr fun n m h ↦ ?_
  exact Subtype.ext (Component.normal.inj h)

/-- A path of names determines its names. -/
theorem joinNames_inj {ns ms : List Name} : joinNames ns = joinNames ms ↔ ns = ms := by
  constructor
  · intro h
    have hc := congrArg components h
    rw [components_joinNames, components_joinNames] at hc
    exact map_normal_injective hc
  · exact congrArg joinNames

/-- Only the empty list of names has the empty path. -/
theorem joinNames_eq_nil_iff {ns : List Name} : joinNames ns = [] ↔ ns = [] := by
  rw [← joinNames_nil, joinNames_inj]

/-- On paths of names the component order is the prefix order of the names. -/
theorem startsWith_joinNames {ns ms : List Name} :
    StartsWith (joinNames ns) (joinNames ms) ↔ ms <+: ns := by
  rw [StartsWith, components_joinNames, components_joinNames]
  constructor
  · rintro ⟨t, ht⟩
    obtain ⟨u, v, huv, hu, -⟩ := List.map_eq_append_iff.mp ht.symm
    rw [map_normal_injective hu] at huv
    exact ⟨v, huv.symm⟩
  · exact fun h ↦ h.map _

/-- On paths of names a proper ancestor has a proper prefix of the names. -/
theorem isAncestor_joinNames {ns ms : List Name} :
    IsAncestor (joinNames ms) (joinNames ns) ↔ ms <+: ns ∧ ms ≠ ns := by
  rw [IsAncestor, startsWith_joinNames, components_joinNames, components_joinNames]
  exact and_congr_right fun _ ↦ not_congr map_normal_injective.eq_iff

/-- The empty path lies above every path of names but itself. -/
theorem isAncestor_nil {ns : List Name} : IsAncestor [] (joinNames ns) ↔ ns ≠ [] := by
  rw [← joinNames_nil, isAncestor_joinNames, and_iff_right List.nil_prefix, ne_comm]

/-- The path of a prefix of names is the path, or is followed by a separator in it. -/
theorem joinNames_prefix_iff {ns ms : List Name} (hm : ms ≠ []) :
    ms <+: ns ↔ joinNames ns = joinNames ms ∨ joinNames ms ++ [slash] <+: joinNames ns := by
  constructor
  · rintro ⟨t, rfl⟩
    by_cases ht : t = []
    · left
      rw [ht, List.append_nil]
    · right
      rw [joinNames_append hm ht]
      exact ⟨joinNames t, by simp⟩
  · rintro (h | ⟨t, ht⟩)
    · rw [joinNames_inj.mp h]
    · have hns : ns ≠ [] := by
        rintro rfl
        simp at ht
      have hp := congrArg pieces ht
      rw [List.append_assoc, List.singleton_append, pieces, List.splitOn_append_cons_self,
        pieces_joinNames hns] at hp
      have hpm := pieces_joinNames hm
      rw [pieces] at hpm
      rw [hpm] at hp
      obtain ⟨u, v, huv, hu, -⟩ := List.map_eq_append_iff.mp hp.symm
      rw [List.map_injective_iff.mpr Subtype.val_injective hu] at huv
      exact ⟨v, huv.symm⟩

private theorem trimBody_names (ns : List Name) :
    trimBody (ns.map Subtype.val) = ns.map Subtype.val := by
  rw [trimBody, List.rdropWhile_eq_self_iff]
  intro h
  obtain ⟨n, -, hn⟩ := List.mem_map.mp (List.getLast_mem h)
  rw [← hn]
  simp

/-- The parent of a path of names drops the last name. -/
theorem parent_joinNames_concat (ns : List Name) (n : Name) :
    parent (joinNames (ns ++ [n])) = some (joinNames ns) := by
  have hs : splitBody ((ns ++ [n]).map Subtype.val) = ([], (ns ++ [n]).map Subtype.val) := by
    rcases ns with _ | ⟨m, ns⟩
    · simp [splitBody, n.property.2.2.1]
    · simp [splitBody, m.property.1, m.property.2.2.1]
  have hd : ((ns ++ [n]).map Subtype.val).dropLast = ns.map Subtype.val := by simp
  rw [parent, pieces_joinNames (by simp), hs]
  simp only [trimBody_names, hd]
  rw [if_neg (by simp), assemble, if_neg (by simp)]
  rfl

private theorem ancestorsWithin_joinNames (ns : List Name) (fuel : Nat) (h : ns.length ≤ fuel) :
    ancestorsWithin fuel (joinNames ns) = ns.inits.reverse.map joinNames := by
  induction ns using List.reverseRecOn generalizing fuel with
  | nil =>
    cases fuel with
    | zero => rfl
    | succ fuel => rfl
  | append_singleton ns n ih =>
    cases fuel with
    | zero => simp at h
    | succ fuel =>
      rw [ancestorsWithin, parent_joinNames_concat]
      simp only
      rw [ih fuel (by simpa using h), List.inits_append]
      simp

private theorem length_le_length_joinNames (ns : List Name) :
    ns.length ≤ (joinNames ns).length := by
  induction ns with
  | nil => simp
  | cons n ns ih =>
    have hn : 0 < n.val.length := List.length_pos_iff.mpr n.property.1
    by_cases h : ns = []
    · subst h
      rw [joinNames_singleton]
      exact hn
    · rw [joinNames_cons n h, List.length_append, List.length_cons, List.length_cons]
      omega

/-- The ancestors of a path of names are the paths of its prefixes, longest first. -/
theorem ancestors_joinNames (ns : List Name) :
    ancestors (joinNames ns) = ns.inits.reverse.map joinNames :=
  ancestorsWithin_joinNames ns _ (length_le_length_joinNames ns)

/-- A path of names does not start with a separator. -/
theorem head?_joinNames (ns : List Name) : (joinNames ns).head? ≠ some slash := by
  rcases ns with _ | ⟨n, ns⟩
  · simp
  · obtain ⟨b, h1, h2, -⟩ := n
    rcases b with _ | ⟨c, b⟩
    · exact absurd rfl h1
    · have hc : c ≠ slash := by
        rintro rfl
        simp at h2
      by_cases h : ns = []
      · simpa [h] using hc
      · simpa [joinNames_cons _ h] using hc

private theorem getLast?_joinNames (ns : List Name) : (joinNames ns).getLast? ≠ some slash := by
  induction ns using List.reverseRecOn with
  | nil => simp
  | append_singleton ns n =>
    have hn : n.val.getLast? ≠ some slash := fun h ↦ n.property.2.1 (List.mem_of_getLast? h)
    by_cases h : ns = []
    · simpa [h] using hn
    · rw [joinNames_append h (by simp), joinNames_singleton,
        List.getLast?_append_of_ne_nil _ (by simp), List.getLast?_cons]
      rwa [List.getLast?_eq_some_getLast n.property.1] at hn ⊢

/-- Joining paths of names concatenates the names. -/
theorem join_joinNames {ns ms : List Name} (hn : ns ≠ []) (hm : ms ≠ []) :
    join (joinNames ns) (joinNames ms) = joinNames (ns ++ ms) := by
  rw [join, if_neg (head?_joinNames ms), if_neg, joinNames_append hn hm]
  rintro (h | h)
  · exact hn (joinNames_eq_nil_iff.mp h)
  · exact getLast?_joinNames ns h

/-- The empty path is neutral on the left. -/
theorem join_nil_joinNames (ms : List Name) : join [] (joinNames ms) = joinNames ms := by
  rw [join, if_neg (head?_joinNames ms), if_pos (Or.inl rfl), List.nil_append]

/-- Joining a path of names is joining its names one after another. -/
theorem join_joinNames_cons (p : Bytes) (n : Name) {ns : List Name} (h : ns ≠ []) :
    join p (joinNames (n :: ns)) = join (join p n.val) (joinNames ns) := by
  have hn : n.val.head? ≠ some slash := fun hh ↦ n.property.2.1 (List.mem_of_head? hh)
  have hlast : ∀ a : Bytes, (a ++ n.val).getLast? ≠ some slash := by
    intro a hl
    rw [List.getLast?_append_of_ne_nil _ n.property.1] at hl
    exact n.property.2.1 (List.mem_of_getLast? hl)
  have hne : ∀ a : Bytes, a ++ n.val ≠ [] :=
    fun a ha ↦ n.property.1 (List.append_eq_nil_iff.mp ha).2
  rw [join, if_neg (head?_joinNames _), joinNames_cons n h]
  by_cases hl : p = [] ∨ p.getLast? = some slash
  · rw [if_pos hl, join, if_neg (head?_joinNames _), join, if_neg hn, if_pos hl,
      if_neg (not_or.mpr ⟨hne p, hlast p⟩)]
    simp
  · rw [if_neg hl, join, if_neg (head?_joinNames _), join, if_neg hn, if_neg hl, if_neg]
    · simp
    · have happ : p ++ slash :: n.val = (p ++ [slash]) ++ n.val := by simp
      rw [happ]
      exact not_or.mpr ⟨hne _, hlast _⟩

/-- The last name of a joined path is joined to the path of the others. -/
theorem join_joinNames_concat (p : Bytes) (ns : List Name) (n : Name) :
    join p (joinNames (ns ++ [n])) = join (ns.foldl (fun q m ↦ join q m.val) p) n.val := by
  induction ns generalizing p with
  | nil => rw [List.nil_append, joinNames_singleton, List.foldl_nil]
  | cons m ns ih => rw [List.cons_append, join_joinNames_cons p m (by simp), List.foldl_cons, ih]

/-- Collecting normal components gives the path of their names. -/
theorem collect_names (ns : List Name) :
    collect (ns.map fun n ↦ .normal n.val) = joinNames ns := by
  rw [collect, List.foldl_map]
  simp only [Component.asBytes]
  induction ns using List.reverseRecOn with
  | nil => rfl
  | append_singleton ns n ih =>
    rw [List.foldl_append, ih, List.foldl_cons, List.foldl_nil, ← joinNames_singleton n]
    by_cases h : ns = []
    · subst h
      exact join_nil_joinNames [n]
    · exact join_joinNames h (by simp)

/-- A separator at the end adds an empty piece. -/
theorem pieces_concat_slash (p : Bytes) : pieces (p ++ [slash]) = pieces p ++ [[]] := by
  rw [pieces, List.splitOn_append_cons_self, List.splitOn_nil, pieces]

private theorem leading_concat {q : List Bytes} (hq : q ≠ []) (h : q ≠ [[]]) (b : Bytes) :
    leading (q ++ [b]) = leading q := by
  rcases q with _ | ⟨first, rest⟩
  · exact absurd rfl hq
  · rcases rest with _ | ⟨second, rest⟩
    · have hf : first ≠ [] := fun hf ↦ h (by rw [hf])
      simp [leading, hf]
    · simp [leading]

private theorem pieces_eq_singleton_nil {p : Bytes} (h : pieces p = [[]]) : p = [] := by
  have hi : [slash].intercalate (p.splitOn slash) = p := List.intercalate_splitOn slash
  rw [pieces] at h
  rw [h] at hi
  simpa using hi.symm

/-- The leading component of a path is made of its first piece. -/
private theorem splitBody_cases (ps : List Bytes) :
    (∃ body, ps = [] :: body ∧ splitBody ps = ([slash], body)) ∨
      (∃ body, ps = [dot] :: body ∧ splitBody ps = ([dot], body)) ∨ splitBody ps = ([], ps) := by
  cases ps with
  | nil => exact Or.inr (Or.inr rfl)
  | cons first rest =>
    rw [splitBody]
    split
    · next hroot => exact Or.inl ⟨rest, by rw [hroot.1], rfl⟩
    · split
      · next hdot => exact Or.inr (Or.inl ⟨rest, by rw [hdot], rfl⟩)
      · exact Or.inr (Or.inr rfl)

/-- A body ends with a component, behind the body of the parent. -/
private theorem trimBody_append {body : List Bytes} (h : trimBody body ≠ []) :
    ∃ rest, body = trimBody (trimBody body).dropLast ++ rest ∧ ∃ piece ∈ rest, piece ≠ [] := by
  let skips (piece : Bytes) : Bool := (pieceComponent piece).isNone
  obtain ⟨front, last, htrim⟩ := (List.eq_nil_or_concat (trimBody body)).resolve_left h
  rw [List.concat_eq_append] at htrim
  have hlast : last ≠ [] := by
    rintro rfl
    apply List.rdropWhile_last_not skips body h
    have hend : (trimBody body).getLast h = [] := by simp [htrim]
    exact (congrArg skips hend).trans rfl
  obtain ⟨skipped, hbody⟩ := List.rdropWhile_prefix skips body
  obtain ⟨skipped', hfront⟩ := List.rdropWhile_prefix skips front
  change trimBody body ++ skipped = body at hbody
  change trimBody front ++ skipped' = front at hfront
  refine ⟨skipped' ++ last :: skipped, ?_, last, by simp, hlast⟩
  rw [htrim, List.dropLast_concat, ← List.append_assoc, hfront, ← hbody, htrim, List.append_assoc,
    List.singleton_append]

private theorem pieces_intercalate {p : Bytes} {ps : List Bytes} (hsub : ps ⊆ pieces p)
    (hps : ps ≠ []) : pieces ([slash].intercalate ps) = ps := by
  refine List.splitOn_intercalate slash ?_ hps
  intro piece hpiece
  exact slash_notMem_of_mem_pieces (hsub hpiece)

private theorem pieces_cons_intercalate {p first : Bytes} {body : List Bytes}
    (hsub : first :: body ⊆ pieces p) (hbody : body ≠ []) :
    pieces (first ++ slash :: [slash].intercalate body) = first :: body := by
  have hwhole := pieces_intercalate hsub (by simp)
  rw [List.intercalate_cons_of_ne_nil hbody] at hwhole
  simpa using hwhole

/-- The pieces of a path begin with the pieces of its parent, and a component follows. The root
has an empty piece at its end. -/
theorem pieces_parent {p q : Bytes} (h : parent p = some q) (hq : q ≠ []) :
    ∃ ps rest, pieces p = ps ++ rest ∧ (pieces q = ps ∨ pieces q = ps ++ [[]]) ∧
      ∃ piece ∈ rest, piece ≠ [] := by
  have hsub {front rest : List Bytes} (heq : pieces p = front ++ rest) : front ⊆ pieces p := by
    rw [heq]
    exact List.subset_append_left front rest
  unfold parent at h
  rcases splitBody_cases (pieces p) with ⟨body, hp, hsplit⟩ | ⟨body, hp, hsplit⟩ | hsplit
  · simp only [hsplit] at h
    split at h
    · simp [slash, dot] at h
    · next hbody =>
      obtain ⟨rest, heq, hrest⟩ := trimBody_append hbody
      generalize trimBody (trimBody body).dropLast = front at *
      have hpieces : pieces p = ([] :: front) ++ rest := by rw [hp, heq, List.cons_append]
      refine ⟨[] :: front, rest, hpieces, ?_, hrest⟩
      rw [Option.some.injEq, assemble, if_neg (by simp [slash, dot])] at h
      by_cases hfront : front = []
      · right
        rw [← h, hfront]
        rfl
      · left
        rw [← h]
        exact pieces_cons_intercalate (hsub hpieces) hfront
  · simp only [hsplit] at h
    split at h
    · simp only [if_true, Option.some.injEq] at h
      exact absurd h.symm hq
    · next hbody =>
      obtain ⟨rest, heq, hrest⟩ := trimBody_append hbody
      generalize trimBody (trimBody body).dropLast = front at *
      have hpieces : pieces p = ([dot] :: front) ++ rest := by rw [hp, heq, List.cons_append]
      refine ⟨[dot] :: front, rest, hpieces, Or.inl ?_, hrest⟩
      rw [Option.some.injEq, assemble] at h
      by_cases hfront : front = []
      · rw [← h, hfront]
        rfl
      · rw [← h, if_pos ⟨rfl, hfront⟩]
        exact pieces_cons_intercalate (hsub hpieces) hfront
  · simp only [hsplit] at h
    split at h
    · simp at h
    · next hbody =>
      obtain ⟨rest, heq, hrest⟩ := trimBody_append hbody
      generalize trimBody (trimBody (pieces p)).dropLast = front at *
      rw [Option.some.injEq, assemble, if_neg (by simp), List.nil_append] at h
      refine ⟨front, rest, heq, Or.inl ?_, hrest⟩
      have hfront : front ≠ [] := by
        rintro rfl
        exact hq h.symm
      rw [← h]
      exact pieces_intercalate (hsub heq) hfront

/-- A path begins with its parent. -/
theorem parent_prefix {p q : Bytes} (h : parent p = some q) : q <+: p := by
  by_cases hq : q = []
  · rw [hq]
    exact List.nil_prefix
  · obtain ⟨ps, rest, hp, hpieces, piece, hpiece, -⟩ := pieces_parent h hq
    have hrest : rest ≠ [] := List.ne_nil_of_mem hpiece
    have hps : ps ≠ [] := by
      rintro rfl
      rcases hpieces with hnil | hnil
      · exact pieces_ne_nil q hnil
      · exact hq (pieces_eq_singleton_nil hnil)
    have hwhole : ∀ r : Bytes, [slash].intercalate (pieces r) = r := fun r ↦
      List.intercalate_splitOn slash
    rw [← hwhole p, ← hwhole q, hp, Parts.intercalate_append hps hrest]
    rcases hpieces with hq | hq
    · rw [hq]
      exact List.prefix_append _ _
    · rw [hq, Parts.intercalate_append hps (by simp)]
      exact ⟨[slash].intercalate rest, by simp⟩

/-- Joining a name adds one normal component. -/
theorem components_join_name (p : Bytes) (n : Name) :
    components (join p n.val) = components p ++ [.normal n.val] := by
  have hh : n.val.head? ≠ some slash := fun h ↦ n.property.2.1 (List.mem_of_head? h)
  rw [join, if_neg hh]
  by_cases hp : p = []
  · subst hp
    have hc := components_joinNames [n]
    rw [joinNames_singleton] at hc
    rw [if_pos (Or.inl rfl), List.nil_append, hc]
    rfl
  · have hne : pieces p ≠ [[]] := fun h ↦ hp (pieces_eq_singleton_nil h)
    by_cases hl : p.getLast? = some slash
    · obtain ⟨q, rfl⟩ := List.getLast?_eq_some_iff.mp hl
      rw [if_pos (Or.inr hl), List.append_assoc, List.singleton_append, components, components,
        pieces_append_name, pieces_concat_slash, List.filterMap_append, List.filterMap_append]
      have hlead : leading (pieces q ++ [n.val]) = leading (pieces q ++ [[]]) := by
        rcases hq : pieces q with _ | ⟨first, rest⟩
        · exact absurd hq (pieces_ne_nil q)
        · simp [leading]
      have hn : [n.val].filterMap pieceComponent = [.normal n.val] := by
        rw [List.filterMap_cons, pieceComponent_name]
        rfl
      rw [hlead, hn]
      simp [pieceComponent]
    · rw [if_neg (by simp [hp, hl]), components, components, pieces_append_name,
        leading_concat (pieces_ne_nil p) hne, List.filterMap_append, List.filterMap_cons,
        pieceComponent_name]
      simp

/-- Joining names one after another adds them as components. -/
theorem components_foldl_join (p : Bytes) (ns : List Name) :
    components (ns.foldl (fun q n ↦ join q n.val) p) =
      components p ++ ns.map fun n ↦ .normal n.val := by
  induction ns generalizing p with
  | nil => simp
  | cons n ns ih => rw [List.foldl_cons, ih, components_join_name]; simp

/-- Stripping a base gives the path of the names that were joined to it. -/
theorem stripPrefix_foldl_join (p : Bytes) (ns : List Name) :
    stripPrefix (ns.foldl (fun q n ↦ join q n.val) p) p = some (joinNames ns) := by
  rw [stripPrefix, components_foldl_join, if_pos (List.prefix_append _ _), List.drop_left,
    collect_names]

/-- A normal component is one of the pieces, and no piece that is skipped. -/
theorem normal_mem_components {p n : Bytes} (h : .normal n ∈ components p) :
    n ∈ pieces p ∧ pieceComponent n = some (.normal n) := by
  rw [components, List.mem_append] at h
  rcases h with h | h
  · unfold leading at h
    split at h
    · simp at h
    · split at h
      · simp at h
      · split at h <;> simp at h
  · obtain ⟨piece, hpiece, hc⟩ := List.mem_filterMap.mp h
    have hn : n = piece := by
      unfold pieceComponent at hc
      split at hc
      · cases hc
      · split at hc
        · cases hc
        · cases hc
          rfl
    rw [hn] at hc ⊢
    exact ⟨hpiece, hc⟩

/-- A normal component is a name. -/
theorem isName_of_mem_components {p n : Bytes} (h : .normal n ∈ components p) : IsName n := by
  obtain ⟨hpiece, hc⟩ := normal_mem_components h
  unfold pieceComponent at hc
  split at hc
  · cases hc
  · next hkept =>
    split at hc
    · cases hc
    · next hparent =>
      exact ⟨fun he ↦ hkept (Or.inl he), slash_notMem_of_mem_pieces hpiece,
        fun he ↦ hkept (Or.inr he), hparent⟩

/-- An absolute path starts with the root. -/
theorem rootDir_mem_components {p : Bytes} (h : p.head? = some slash) :
    .rootDir ∈ components p := by
  obtain ⟨rest, rfl⟩ := List.head?_eq_some_iff.mp h
  have hpieces : pieces (slash :: rest) = [] :: pieces rest := by
    rw [pieces, List.splitOn, List.splitOnP_cons_eq_if_modifyHead]
    simp [pieces, List.splitOn]
  rw [components, hpieces]
  simp [leading, pieces_ne_nil]

/-- The file name of a path is a name. -/
theorem isName_of_fileName {p n : Bytes} (h : fileName p = some n) : IsName n := by
  unfold fileName at h
  split at h
  · next name hl =>
    cases h
    exact isName_of_mem_components (List.mem_of_getLast? hl)
  · cases h

end UnixPath
