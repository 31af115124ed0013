import Mathlib.Data.List.Basic
import Mathlib.Data.List.Nodup
import Mathlib.Data.List.Perm.Basic

/-!
# Answers on streams

Library module. Every request is answered on a stream of its own. A job holds the stream of a
request and what is left to write of its answer; jobs are passed on between the parts of a
system, and each one writes to its own stream only. So no stream gets anything but a beginning of
the answer to its own request, and a stream is open exactly as long as there is a job for it. A
stream that is finished holds the whole answer, unless it is one of those that may be cut short.
-/

namespace Answers

/-- Whether an answer is still written, was finished, or was given up. -/
inductive Progress where
  | writing
  | finished
  | brokenOff
  deriving DecidableEq, Repr

/-- The response to a request: what was written on its stream. -/
structure Response (ρ α : Type) where
  request : ρ
  written : List α
  progress : Progress
  deriving DecidableEq, Repr

/-- The number of a response, and what is left to write of it. -/
structure Job (α : Type) where
  output : Nat
  left : List α
  deriving DecidableEq, Repr

variable {ρ α : Type}

namespace Response

/-- The response to a new request. -/
def start (request : ρ) : Response ρ α := ⟨request, [], .writing⟩

/-- Something more was written. -/
def write (s : Response ρ α) (block : List α) : Response ρ α :=
  { s with written := s.written ++ block }

/-- Nothing more is written. -/
def stop (s : Response ρ α) (progress : Progress) : Response ρ α := { s with progress := progress }

@[simp] theorem request_write (s : Response ρ α) (block : List α) :
    (s.write block).request = s.request := rfl

@[simp] theorem request_stop (s : Response ρ α) (progress : Progress) :
    (s.stop progress).request = s.request := rfl

end Response

/-- Responses and jobs belong together: there is one job for each response that is written, with
what is left to write of the answer; every response is a beginning of the answer, and a finished
one all of it, unless it may be cut short. -/
structure Sound (answer : ρ → List α) (cut : Nat → Prop) (responses : List (Response ρ α))
    (jobs : List (Job α)) : Prop where
  nodup : (jobs.map Job.output).Nodup
  job : ∀ j ∈ jobs, ∃ s, responses[j.output]? = some s ∧ s.progress = .writing ∧
    s.written ++ j.left = answer s.request
  owned : ∀ (i : Nat) s, responses[i]? = some s → s.progress = .writing → i ∈ jobs.map Job.output
  stopped : ∀ (i : Nat) s, responses[i]? = some s → s.written <+: answer s.request ∧
    (s.progress = .finished → s.written = answer s.request ∨ cut i)

section Rules

variable {answer : ρ → List α} {cut cut' : Nat → Prop} {responses : List (Response ρ α)}
  {jobs jobs' : List (Job α)} {output : Nat} {left : List α}

/-- At first there are no responses and no jobs. -/
theorem sound_nil : Sound answer cut [] [] where
  nodup := List.nodup_nil
  job := by simp
  owned := by simp
  stopped := by simp

/-- More responses may be cut short. -/
theorem Sound.mono (h : Sound answer cut responses jobs) (hcut : ∀ i, cut i → cut' i) :
    Sound answer cut' responses jobs where
  nodup := h.nodup
  job := h.job
  owned := h.owned
  stopped i s hs := by
    obtain ⟨hwritten, hfinished⟩ := h.stopped i s hs
    exact ⟨hwritten, fun hstop ↦ (hfinished hstop).imp_right (hcut i)⟩

/-- From now on only the responses that are stopped already count as cut short. -/
theorem Sound.renew (h : Sound answer cut responses jobs) :
    Sound answer (fun i ↦ ∃ s, responses[i]? = some s ∧ s.progress ≠ .writing) responses jobs where
  nodup := h.nodup
  job := h.job
  owned := h.owned
  stopped i s hs := by
    refine ⟨(h.stopped i s hs).1, fun hfinished ↦ Or.inr ⟨s, hs, ?_⟩⟩
    rw [hfinished]
    decide

/-- The order of the jobs does not matter. -/
theorem Sound.perm (h : Sound answer cut responses jobs) (hperm : jobs.Perm jobs') :
    Sound answer cut responses jobs' where
  nodup := (hperm.map Job.output).nodup_iff.mp h.nodup
  job j hj := h.job j (hperm.mem_iff.mpr hj)
  owned i s hs hwriting := (hperm.map Job.output).mem_iff.mp (h.owned i s hs hwriting)
  stopped := h.stopped

/-- A new request gets a response of its own. -/
theorem Sound.start (h : Sound answer cut responses jobs) (request : ρ) :
    Sound answer cut (responses ++ [.start request])
      (⟨responses.length, answer request⟩ :: jobs) where
  nodup := by
    rw [List.map_cons, List.nodup_cons]
    refine ⟨fun hmem ↦ ?_, h.nodup⟩
    obtain ⟨j, hj, houtput⟩ := List.mem_map.mp hmem
    obtain ⟨s, hs, -⟩ := h.job j hj
    rw [houtput] at hs
    exact absurd (List.getElem?_eq_some_iff.mp hs).1 (Nat.lt_irrefl _)
  job j hj := by
    rcases List.mem_cons.mp hj with rfl | hj
    · exact ⟨.start request, by simp, rfl, rfl⟩
    · obtain ⟨s, hs, hrest⟩ := h.job j hj
      have hlt := (List.getElem?_eq_some_iff.mp hs).1
      exact ⟨s, by rw [List.getElem?_append_left hlt, hs], hrest⟩
  owned i s hs hwriting := by
    rw [List.map_cons, List.mem_cons]
    by_cases hlt : i < responses.length
    · rw [List.getElem?_append_left hlt] at hs
      exact Or.inr (h.owned i s hs hwriting)
    · have hle := (List.getElem?_eq_some_iff.mp hs).1
      rw [List.length_append, List.length_singleton] at hle
      left
      show i = responses.length
      omega
  stopped i s hs := by
    by_cases hlt : i < responses.length
    · rw [List.getElem?_append_left hlt] at hs
      exact h.stopped i s hs
    · rw [List.getElem?_append_right (Nat.not_lt.mp hlt)] at hs
      obtain rfl := List.mem_singleton.mp (List.mem_of_getElem? hs)
      exact ⟨List.nil_prefix, fun hfinished ↦ by cases hfinished⟩

/-- The response of the first job changes, and no other job writes to it. -/
private theorem Sound.modify (h : Sound answer cut responses (⟨output, left⟩ :: jobs))
    {f : Response ρ α → Response ρ α} :
    (∀ j ∈ jobs, (responses.modify output f)[j.output]? = responses[j.output]?) ∧
    ∃ s, responses[output]? = some s ∧ s.progress = .writing ∧
      s.written ++ left = answer s.request ∧ (responses.modify output f)[output]? = some (f s) := by
  have hnodup := h.nodup
  rw [List.map_cons, List.nodup_cons] at hnodup
  constructor
  · intro j hj
    have hne : output ≠ j.output := by
      intro heq
      exact hnodup.1 (List.mem_map.mpr ⟨j, hj, heq.symm⟩)
    rw [List.getElem?_modify_ne _ _ hne]
  · obtain ⟨s, hs, hwriting, hanswer⟩ := h.job ⟨output, left⟩ List.mem_cons_self
    refine ⟨s, hs, hwriting, hanswer, ?_⟩
    rw [List.getElem?_modify_eq, hs]
    rfl

/-- The first so many items that are left are written. -/
theorem Sound.write (h : Sound answer cut responses (⟨output, left⟩ :: jobs)) (n : Nat) :
    Sound answer cut (responses.modify output (·.write (left.take n)))
      (⟨output, left.drop n⟩ :: jobs) := by
  obtain ⟨hother, s, hs, hwriting, hanswer, hown⟩ := h.modify (f := (·.write (left.take n)))
  have hsplit : (s.written ++ left.take n) ++ left.drop n = answer s.request := by
    rw [List.append_assoc, List.take_append_drop, hanswer]
  refine ⟨h.nodup, ?_, ?_, ?_⟩
  · intro j hj
    rcases List.mem_cons.mp hj with rfl | hj
    · exact ⟨_, hown, hwriting, hsplit⟩
    · rw [hother j hj]
      exact h.job j (List.mem_cons_of_mem _ hj)
  · intro i t ht hopen
    by_cases hi : i = output
    · rw [hi]
      exact List.mem_cons_self
    · rw [List.getElem?_modify_ne _ _ (Ne.symm hi)] at ht
      exact h.owned i t ht hopen
  · intro i t ht
    by_cases hi : i = output
    · subst hi
      obtain rfl := Option.some.inj (hown.symm.trans ht)
      refine ⟨⟨_, hsplit⟩, fun hfinished ↦ ?_⟩
      exact absurd (hwriting.symm.trans hfinished) (by decide)
    · rw [List.getElem?_modify_ne _ _ (Ne.symm hi)] at ht
      exact h.stopped i t ht

/-- The first job ends, and if it is finished then nothing is left to write, or it is cut
short. -/
theorem Sound.stop (h : Sound answer cut responses (⟨output, left⟩ :: jobs)) (progress : Progress)
    (hstop : progress ≠ .writing) (hleft : progress = .finished → left = [] ∨ cut output) :
    Sound answer cut (responses.modify output (·.stop progress)) jobs := by
  obtain ⟨hother, s, hs, hwriting, hanswer, hown⟩ := h.modify (f := (·.stop progress))
  refine ⟨(List.nodup_cons.mp h.nodup).2, ?_, ?_, ?_⟩
  · intro j hj
    rw [hother j hj]
    exact h.job j (List.mem_cons_of_mem _ hj)
  · intro i t ht hopen
    by_cases hi : i = output
    · subst hi
      obtain rfl := Option.some.inj (hown.symm.trans ht)
      exact absurd hopen hstop
    · rw [List.getElem?_modify_ne _ _ (Ne.symm hi)] at ht
      rcases List.mem_cons.mp (h.owned i t ht hopen) with heq | hmem
      · exact absurd heq hi
      · exact hmem
  · intro i t ht
    by_cases hi : i = output
    · subst hi
      obtain rfl := Option.some.inj (hown.symm.trans ht)
      refine ⟨⟨left, hanswer⟩, fun hfinished ↦ ?_⟩
      refine (hleft hfinished).imp_left fun hnil ↦ ?_
      rw [hnil, List.append_nil] at hanswer
      exact hanswer
    · rw [List.getElem?_modify_ne _ _ (Ne.symm hi)] at ht
      exact h.stopped i t ht

/-- An entry of a list can be taken in front, and the others stay when it changes. -/
theorem exists_perm_set {β : Type} {l : List β} {i : Nat} {b : β} (h : l[i]? = some b) :
    ∃ rest, l.Perm (b :: rest) ∧ ∀ b', (l.set i b').Perm (b' :: rest) := by
  obtain ⟨hlt, rfl⟩ := List.getElem?_eq_some_iff.mp h
  exact ⟨l.eraseIdx i, (List.getElem_cons_eraseIdx_perm hlt).symm,
    fun b' ↦ List.set_perm_cons_eraseIdx hlt b'⟩

/-- Without a job there is no response that is still written. -/
theorem Sound.of_no_jobs (h : Sound answer cut responses []) {i : Nat} {s : Response ρ α}
    (hs : responses[i]? = some s) : s.progress ≠ .writing := by
  intro hwriting
  cases h.owned i s hs hwriting

end Rules

end Answers
