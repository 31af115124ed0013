import HarddriveParty.Shared.UiMessages
import HarddriveParty.Wishlist.Agreement

/-!
# When a request counts as complete

`file_completed` reports a request as complete when its byte counter reaches the total size,
not when no file is outstanding. Files of size zero that come last find the total reached
already: every one of them, and the file before them, completes the request.
-/

namespace HarddriveParty

open RequestedFile

namespace WishList

/-- What `file_completed` returns for the files of one request, when files of any request are
completed one after the other. -/
def outcomes (id : UInt32) (w : WishList) : List RequestedFile → List (Outcome DbError Bool)
  | [] => []
  | f :: rest =>
    let result := w.fileCompleted f
    if f.requestId = id then result.2 :: outcomes id result.1 rest
    else outcomes id result.1 rest

/-- True for the last of so many files and false for the others. -/
def lastOnly : Nat → List Bool
  | 0 => []
  | n + 1 => decide (n = 0) :: lastOnly n

/-- The event that `process_requests` sends when a request is complete
(`src/peer.rs:146`). -/
def completedEvents (event : DownloadEvent) : Outcome DbError Bool → List UiEvent
  | .ok true => [.download event]
  | _ => []

/-- Nothing of a request is done yet, its total is the sum of the sizes of its files, and each
of its files is completed once, in any order and between files of other requests. -/
structure CompletesOnce (w : WishList) (r : DownloadRequest)
    (files completed : List RequestedFile) : Prop where
  request : w.getRequest r.requestId = .ok r
  fresh : w.getDownloadProgressForRequest r.requestId = .ok 0
  total : r.totalSize.toNat = (files.map (·.size.toNat)).sum
  once : (completed.filter (·.requestId == r.requestId)).Perm
    (files.map fun f ↦ { f with downloaded := true })

/-- There is one file, or the last one is not empty. -/
def EndsWithContent (order : List RequestedFile) : Prop :=
  order.length ≤ 1 ∨ ∃ f, order.getLast? = some f ∧ f.size ≠ 0

/-- For each file whether those after it are all empty. -/
private def restEmpty : List Nat → List Bool
  | [] => []
  | _ :: rest => decide (rest.sum = 0) :: restEmpty rest

section Counter

variable {w : WishList} {id : UInt32} {r : DownloadRequest}

/-- Completing a file of another request leaves the request and its progress alone. -/
private theorem fileCompleted_other {f : RequestedFile} (hf : f.requestId ≠ id) :
    (w.fileCompleted f).1.getRequest id = w.getRequest id ∧
      (w.fileCompleted f).1.getDownloadProgressForRequest id =
        w.getDownloadProgressForRequest id := by
  cases hd : f.downloaded with
  | false =>
    rw [fileCompleted, if_pos hd]
    exact ⟨rfl, rfl⟩
  | true =>
    cases hr : w.getRequest f.requestId with
    | error e =>
      rw [fileCompleted_error hd hr]
      exact ⟨rfl, rfl⟩
    | ok r =>
      cases hp : w.getDownloadProgressForRequest f.requestId with
      | ok progress =>
        rw [fileCompleted_eq hd hr hp]
        refine ⟨rfl, ?_⟩
        rw [getDownloadProgress_insert, if_neg (Ne.symm hf)]
      | error e =>
        have hp' : ∀ t, ({ w with requestedFilesByPeer := t } :
            WishList).getDownloadProgressForRequest f.requestId = .error e := fun _ ↦ hp
        rw [fileCompleted, if_neg (by simp [hd]), hr]
        simp only [hp']
        exact ⟨rfl, rfl⟩

/-- Completing a file of the request adds its size, and reports whether the total is reached. -/
private theorem fileCompleted_own {f : RequestedFile} (hf : f.requestId = id)
    (hd : f.downloaded = true) (hr : w.getRequest id = .ok r) {progress : UInt64}
    (hp : w.getDownloadProgressForRequest id = .ok progress) :
    (w.fileCompleted f).2 = .ok (progress + f.size == r.totalSize) ∧
      (w.fileCompleted f).1.getRequest id = .ok r ∧
        (w.fileCompleted f).1.getDownloadProgressForRequest id = .ok (progress + f.size) := by
  subst hf
  rw [fileCompleted_eq hd hr hp]
  refine ⟨rfl, hr, ?_⟩
  rw [getDownloadProgress_insert, if_pos rfl]

/-- While the counter and the sizes of the files to come make up the total, a file completes
the request exactly when those after it are empty. -/
private theorem outcomes_eq {completed : List RequestedFile}
    (hdone : ∀ f ∈ completed, f.requestId = id → f.downloaded = true)
    (hr : w.getRequest id = .ok r) {progress : UInt64}
    (hp : w.getDownloadProgressForRequest id = .ok progress)
    (htotal : progress.toNat +
      ((completed.filter (·.requestId == id)).map (·.size.toNat)).sum = r.totalSize.toNat) :
    outcomes id w completed =
      (restEmpty ((completed.filter (·.requestId == id)).map (·.size.toNat))).map .ok := by
  induction completed generalizing w progress with
  | nil => rfl
  | cons f rest ih =>
    have hrest : ∀ g ∈ rest, g.requestId = id → g.downloaded = true :=
      fun g hg ↦ hdone g (List.mem_cons_of_mem _ hg)
    rw [outcomes]
    by_cases hf : f.requestId = id
    · obtain ⟨hresult, hr', hp'⟩ := fileCompleted_own hf (hdone f (by simp) hf) hr hp
      rw [List.filter_cons_of_pos (by simpa using hf), List.map_cons] at htotal ⊢
      rw [List.sum_cons] at htotal
      have hsum : (progress + f.size).toNat = progress.toNat + f.size.toNat := by
        have hlt := r.totalSize.toNat_lt
        rw [UInt64.toNat_add]
        omega
      rw [if_pos hf, hresult, restEmpty, List.map_cons]
      congr 1
      · rw [Except.ok.injEq, Bool.eq_iff_iff, beq_iff_eq, decide_eq_true_eq,
          ← UInt64.toNat_inj, hsum]
        omega
      · apply ih hrest hr' hp'
        rw [hsum]
        omega
    · obtain ⟨hr', hp'⟩ := fileCompleted_other (w := w) hf
      rw [List.filter_cons_of_neg (by simpa using hf)] at htotal ⊢
      rw [if_neg hf]
      exact ih hrest (hr'.trans hr) (hp'.trans hp) htotal

end Counter

section Flags

private theorem sum_ne_zero_of_getLast? {sizes : List Nat} {n : Nat}
    (h : sizes.getLast? = some n) (hn : n ≠ 0) : sizes.sum ≠ 0 := by
  intro hsum
  have hmem := List.mem_of_getLast? h
  have hle := List.le_sum_of_mem hmem
  omega

/-- There is one size, or the last one is not zero. -/
private def EndsNonzero (sizes : List Nat) : Prop :=
  sizes.length ≤ 1 ∨ ∃ n, sizes.getLast? = some n ∧ n ≠ 0

private theorem endsNonzero_cons {a b : Nat} {rest : List Nat} :
    EndsNonzero (a :: b :: rest) ↔ (b :: rest).sum ≠ 0 ∧ EndsNonzero (b :: rest) := by
  have hlong : ¬ (a :: b :: rest).length ≤ 1 := by simp
  rw [EndsNonzero, or_iff_right hlong, List.getLast?_cons_cons]
  constructor
  · rintro ⟨n, hn, hne⟩
    exact ⟨sum_ne_zero_of_getLast? hn hne, Or.inr ⟨n, hn, hne⟩⟩
  · rintro ⟨hsum, hshort | hlast⟩
    · have hnil : rest = [] := by simpa using hshort
      subst hnil
      exact ⟨b, rfl, by simpa using hsum⟩
    · exact hlast

/-- The last file is the only one that completes the request exactly when it is the only file
or not empty. -/
private theorem restEmpty_eq_lastOnly_iff (sizes : List Nat) :
    restEmpty sizes = lastOnly sizes.length ↔ EndsNonzero sizes := by
  induction sizes with
  | nil => simp [restEmpty, lastOnly, EndsNonzero]
  | cons a rest ih =>
    cases rest with
    | nil => simp [restEmpty, lastOnly, EndsNonzero]
    | cons b rest =>
      rw [endsNonzero_cons, ← ih, restEmpty, List.length_cons, lastOnly, List.cons.injEq]
      simp

/-- Some file completes the request, and no other does in the same case. -/
private theorem count_restEmpty (sizes : List Nat) (h : sizes ≠ []) :
    0 < (restEmpty sizes).count true ∧
      ((restEmpty sizes).count true = 1 ↔ EndsNonzero sizes) := by
  induction sizes with
  | nil => exact absurd rfl h
  | cons a rest ih =>
    cases rest with
    | nil => simp [restEmpty, EndsNonzero]
    | cons b rest =>
      obtain ⟨hpos, hone⟩ := ih (by simp)
      rw [endsNonzero_cons, ← hone, restEmpty]
      by_cases hsum : (b :: rest).sum = 0
      · rw [decide_eq_true hsum, List.count_cons_self]
        constructor
        · omega
        · simp only [hsum, ne_eq, not_true_eq_false, false_and, iff_false]
          omega
      · rw [decide_eq_false hsum, List.count_cons_of_ne (by simp)]
        exact ⟨hpos, (and_iff_right hsum).symm⟩

end Flags

private theorem endsNonzero_sizes (order : List RequestedFile) :
    EndsNonzero (order.map (·.size.toNat)) ↔ EndsWithContent order := by
  rw [EndsNonzero, EndsWithContent, List.length_map, List.getLast?_map]
  apply or_congr_right
  constructor
  · rintro ⟨n, hn, hne⟩
    obtain ⟨f, hf, rfl⟩ := Option.map_eq_some_iff.mp hn
    exact ⟨f, hf, fun h0 ↦ hne (by rw [h0]; rfl)⟩
  · rintro ⟨f, hf, hne⟩
    refine ⟨f.size.toNat, by rw [hf]; rfl, fun h0 ↦ hne ?_⟩
    rw [← UInt64.toNat_inj, h0]
    rfl

private theorem length_completedEvents (event : DownloadEvent) (flags : List Bool) :
    ((flags.map Except.ok).flatMap (completedEvents event)).length = flags.count true := by
  induction flags with
  | nil => rfl
  | cons flag flags ih =>
    rw [List.map_cons, List.flatMap_cons, List.length_append, ih]
    cases flag with
    | true => simp [completedEvents, Nat.add_comm]
    | false => simp [completedEvents]

/-- When every file of a request is completed once, completion is reported for the last file
and no other, and one event is sent, exactly when the last file is the only one or not empty. -/
theorem completion_exact_iff {w : WishList} {r : DownloadRequest}
    {files completed : List RequestedFile} (h : CompletesOnce w r files completed)
    (event : DownloadEvent) :
    (outcomes r.requestId w completed = (lastOnly files.length).map .ok ↔
      EndsWithContent (completed.filter (·.requestId == r.requestId))) ∧
    (files ≠ [] →
      (((outcomes r.requestId w completed).flatMap (completedEvents event)).length = 1 ↔
        EndsWithContent (completed.filter (·.requestId == r.requestId)))) := by
  have hlength : files.length = (completed.filter (·.requestId == r.requestId)).length := by
    rw [h.once.length_eq, List.length_map]
  have hdone : ∀ f ∈ completed, f.requestId = r.requestId → f.downloaded = true := by
    intro f hf hid
    have hmem : f ∈ completed.filter (·.requestId == r.requestId) :=
      List.mem_filter.mpr ⟨hf, by simpa using hid⟩
    obtain ⟨g, -, rfl⟩ := List.mem_map.mp (h.once.mem_iff.mp hmem)
    rfl
  have hsum : ((completed.filter (·.requestId == r.requestId)).map (·.size.toNat)).sum =
      r.totalSize.toNat := by
    rw [(h.once.map _).sum_eq, h.total, List.map_map]
    rfl
  have houtcomes := outcomes_eq hdone h.request h.fresh (by simpa using hsum)
  rw [houtcomes, ← endsNonzero_sizes, length_completedEvents]
  constructor
  · rw [← restEmpty_eq_lastOnly_iff, List.length_map, ← hlength]
    exact (List.map_injective_iff.mpr fun a b hab ↦ Except.ok.inj hab).eq_iff
  · intro hne
    apply (count_restEmpty _ ?_).2
    intro hnil
    rw [List.map_eq_nil_iff, ← List.length_eq_zero_iff, ← hlength,
      List.length_eq_zero_iff] at hnil
    exact hne hnil

/-- The directory `music` is requested, with a song of five bytes and an empty file. -/
def musicWithEmpty : WishList :=
  let w := empty.addRequest musicRequest
  let w := (w.addRequestedFile ⟨"music/one.mp3", 5, 1, false⟩).1
  (w.addRequestedFile ⟨"music/empty.txt", 0, 1, false⟩).1

/-- The two files of the request. -/
def musicFiles : List RequestedFile :=
  [⟨"music/one.mp3", 5, 1, false⟩, ⟨"music/empty.txt", 0, 1, false⟩]

private theorem completesOnce_music {completed : List RequestedFile}
    (h : (completed.filter (·.requestId == 1)).Perm
      (musicFiles.map fun f ↦ { f with downloaded := true })) :
    CompletesOnce musicWithEmpty musicRequest musicFiles completed :=
  ⟨by decide, by decide, by decide, h⟩

/-- When the song comes last, the request is complete once. -/
theorem completion_exact_empty_first :
    outcomes 1 musicWithEmpty
        [⟨"music/empty.txt", 0, 1, true⟩, ⟨"film", 7, 2, true⟩, ⟨"music/one.mp3", 5, 1, true⟩] =
      [.ok false, .ok true] := by
  apply (completion_exact_iff (r := musicRequest) (completesOnce_music (by decide))
    ⟨1, "music", "peer", .completed 0⟩).1.mpr
  exact Or.inr ⟨⟨"music/one.mp3", 5, 1, true⟩, rfl, by decide⟩

/-- When the empty file comes last, both files complete the request and two events are sent. -/
theorem empty_file_completes_again :
    CompletesOnce musicWithEmpty musicRequest musicFiles
        [⟨"music/one.mp3", 5, 1, true⟩, ⟨"music/empty.txt", 0, 1, true⟩] ∧
      outcomes 1 musicWithEmpty
          [⟨"music/one.mp3", 5, 1, true⟩, ⟨"music/empty.txt", 0, 1, true⟩] =
        [.ok true, .ok true] ∧
      ((outcomes 1 musicWithEmpty
          [⟨"music/one.mp3", 5, 1, true⟩, ⟨"music/empty.txt", 0, 1, true⟩]).flatMap
        (completedEvents ⟨1, "music", "peer", .completed 0⟩)).length = 2 :=
  ⟨completesOnce_music (by decide), by decide, by decide⟩

end WishList

end HarddriveParty
