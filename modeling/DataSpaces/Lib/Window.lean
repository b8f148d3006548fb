import Mathlib.Data.List.Nodup
import Mathlib.Data.List.Perm.Basic
import DataSpaces.Lib.Runs

/-!
# A bounded window of jobs that share a capacity

Jobs wait in a list. The first one is posted as long as fewer than `limit` jobs are posted; then some of
the posted jobs complete, in any order, and the next ones are posted. Every posted job takes its size from
a capacity. A job that does not fit is refused, it is not put off.

`WindowInv` describes the states of all runs: the window is never larger than its limit, and every job is
waiting, posted or finished, once. `forall_not_refused_iff` says when no run refuses a job: every choice
of at most `limit` jobs has to fit together, even if the runs of interest never need it.
-/

namespace DataSpaces.Lib

open List

universe u

variable {ι : Type u}

structure Window (ι : Type u) where
  waiting : List ι
  posted : List ι
  finished : List ι

inductive WindowEvent (ι : Type u) where
  /-- post the first job that waits -/
  | post
  /-- the posted jobs of the test complete -/
  | pass (completed : ι → Bool)

namespace Window

variable (size : ι → Nat) (cap limit : Nat)

/-- The capacity that posted jobs take. -/
def used (w : Window ι) : Nat := (w.posted.map size).sum

/-- All jobs wait. -/
def start (l : List ι) : Window ι := ⟨l, [], []⟩

/-- No job can be posted, because none waits or because the window is full. -/
def Saturated (w : Window ι) : Prop := w.waiting = [] ∨ limit ≤ w.posted.length

/-- The next job does not fit. -/
def Refused (w : Window ι) : Prop :=
  ∃ i rest, w.waiting = i :: rest ∧ w.posted.length < limit ∧ cap < w.used size + size i

instance (w : Window ι) : Decidable (w.Saturated limit) :=
  decidable_of_iff (w.waiting.isEmpty = true ∨ limit ≤ w.posted.length)
    (or_congr_left List.isEmpty_iff)

/-- The window after the posted jobs of a test have completed. -/
def complete (w : Window ι) (completed : ι → Bool) : Window ι where
  waiting := w.waiting
  posted := w.posted.filter fun i => !completed i
  finished := w.finished ++ w.posted.filter completed

def step (w : Window ι) : WindowEvent ι → Option (Window ι)
  | .post =>
    match w.waiting with
    | [] => none
    | i :: rest =>
      if w.posted.length < limit ∧ w.used size + size i ≤ cap then
        some ⟨rest, w.posted ++ [i], w.finished⟩
      else none
  | .pass completed =>
    if w.Saturated limit ∧ w.posted.any completed = true then some (w.complete completed) else none

variable {size cap limit} {w w' : Window ι}

theorem step_post : w.step size cap limit .post = some w' ↔
    ∃ i, w.waiting = i :: w'.waiting ∧ w.posted.length < limit ∧ w.used size + size i ≤ cap ∧
      w'.posted = w.posted ++ [i] ∧ w'.finished = w.finished := by
  obtain ⟨waiting, posted, finished⟩ := w
  obtain ⟨waiting', posted', finished'⟩ := w'
  cases waiting with
  | nil => simp [step]
  | cons i rest =>
    simp only [step, Option.ite_none_right_eq_some, Option.some.injEq, Window.mk.injEq, cons.injEq]
    constructor
    · rintro ⟨⟨hlen, hfits⟩, rfl, rfl, rfl⟩
      exact ⟨i, ⟨rfl, rfl⟩, hlen, hfits, rfl, rfl⟩
    · rintro ⟨j, ⟨rfl, rfl⟩, hlen, hfits, rfl, rfl⟩
      exact ⟨⟨hlen, hfits⟩, rfl, rfl, rfl⟩

theorem step_pass {completed : ι → Bool} : w.step size cap limit (.pass completed) = some w' ↔
    (w.Saturated limit ∧ ∃ i ∈ w.posted, completed i = true) ∧ w' = w.complete completed := by
  simp only [step, Option.ite_none_right_eq_some, Option.some.injEq, any_eq_true]
  exact and_congr_right fun _ => eq_comm

/-! ## States of runs -/

/-- `before` are the jobs that do not wait any more. -/
structure WindowInv (limit : Nat) (l before : List ι) (w : Window ι) : Prop where
  split : l = before ++ w.waiting
  posted_sublist : w.posted.Sublist before
  perm : (w.posted ++ w.finished).Perm before
  length_le : w.posted.length ≤ limit

theorem WindowInv.start (limit : Nat) (l : List ι) : WindowInv limit l [] (start l) :=
  ⟨rfl, Sublist.refl _, Perm.refl _, Nat.zero_le _⟩

variable {l before : List ι}

section

variable (h : WindowInv limit l before w)

include h

/-- The posted jobs with the next one are a choice of the jobs, in their order. -/
theorem WindowInv.sublist_of_waiting {i : ι} {rest : List ι} (hw : w.waiting = i :: rest) :
    (w.posted ++ [i]).Sublist l := by
  rw [h.split, hw]
  exact h.posted_sublist.append (singleton_sublist.2 mem_cons_self)

theorem WindowInv.post (hstep : w.step size cap limit .post = some w') :
    ∃ i, WindowInv limit l (before ++ [i]) w' := by
  obtain ⟨i, hwaiting, hlen, -, hposted, hfinished⟩ := step_post.1 hstep
  refine ⟨i, ?_, ?_, ?_, ?_⟩
  · rw [h.split, hwaiting, append_assoc, singleton_append]
  · rw [hposted]
    exact h.posted_sublist.append (Sublist.refl _)
  · rw [hposted, hfinished]
    have hswap : (w.posted ++ [i] ++ w.finished).Perm (w.posted ++ w.finished ++ [i]) := by
      rw [append_assoc, append_assoc]
      exact perm_append_comm.append_left _
    exact hswap.trans (h.perm.append_right _)
  · rw [hposted, length_append, length_singleton]
    omega

theorem WindowInv.pass (completed : ι → Bool) : WindowInv limit l before (w.complete completed) where
  split := h.split
  posted_sublist := filter_sublist.trans h.posted_sublist
  perm := by
    show (w.posted.filter (fun i => !completed i) ++ (w.finished ++ w.posted.filter completed)).Perm before
    have hparts : (w.posted.filter completed ++ w.posted.filter fun i => !completed i).Perm w.posted :=
      filter_append_perm _ _
    have hswap : (w.posted.filter (fun i => !completed i) ++ (w.finished ++ w.posted.filter completed)).Perm
        (w.posted.filter completed ++ w.posted.filter (fun i => !completed i) ++ w.finished) := by
      rw [← append_assoc]
      refine perm_append_comm.trans ?_
      rw [append_assoc]
    exact hswap.trans ((hparts.append_right _).trans h.perm)
  length_le := (length_filter_le _ _).trans h.length_le

theorem WindowInv.step {event : WindowEvent ι} (hstep : w.step size cap limit event = some w') :
    ∃ before', WindowInv limit l before' w' := by
  cases event with
  | post =>
    obtain ⟨i, hinv⟩ := h.post hstep
    exact ⟨_, hinv⟩
  | pass completed =>
    obtain ⟨-, rfl⟩ := step_pass.1 hstep
    exact ⟨before, h.pass completed⟩

end

theorem exists_inv_of_reaches (h : Reaches (Window.step size cap limit) (Window.start l) w) :
    ∃ before, WindowInv limit l before w := by
  refine h.invariant (P := fun w => ∃ before, WindowInv limit l before w) ⟨[], WindowInv.start limit l⟩ ?_
  rintro w event w' ⟨before, hinv⟩ hstep
  exact hinv.step hstep

/-! ## Progress -/

/-- Posting and completing that is left to do. -/
def work (w : Window ι) : Nat := 2 * w.waiting.length + w.posted.length

theorem work_lt {event : WindowEvent ι} (hstep : w.step size cap limit event = some w') :
    w'.work < w.work := by
  cases event with
  | post =>
    obtain ⟨i, hwaiting, -, -, hposted, -⟩ := step_post.1 hstep
    simp only [work, hwaiting, hposted, length_append, length_cons, length_nil]
    omega
  | pass completed =>
    obtain ⟨⟨-, i, hi, hci⟩, rfl⟩ := step_pass.1 hstep
    have hlt : (w.posted.filter fun i => !completed i).length < w.posted.length :=
      length_filter_lt_length_iff_exists.2 ⟨i, hi, by simp [hci]⟩
    simp only [work, complete]
    omega

/-- A window that is neither done nor stuck with a job that does not fit can go on. -/
theorem exists_step (hlimit : 1 ≤ limit) (hrefused : ¬ w.Refused size cap limit)
    (hleft : w.waiting ≠ [] ∨ w.posted ≠ []) : ∃ event w', w.step size cap limit event = some w' := by
  by_cases hsat : w.Saturated limit
  · -- All posted jobs may complete.
    have hposted : w.posted ≠ [] := by
      rcases hsat with hnil | hlen
      · exact hleft.resolve_left fun h => h hnil
      · rintro hnil
        rw [hnil] at hlen
        exact absurd (hlimit.trans hlen) (by simp)
    obtain ⟨i, hi⟩ := exists_mem_of_ne_nil _ hposted
    exact ⟨.pass fun _ => true, _, step_pass.2 ⟨⟨hsat, i, hi, rfl⟩, rfl⟩⟩
  · obtain ⟨hwaiting, hlen⟩ := not_or.1 hsat
    obtain ⟨i, rest, hcons⟩ := exists_cons_of_ne_nil hwaiting
    have hfits : w.used size + size i ≤ cap := by
      by_contra hlt
      exact hrefused ⟨i, rest, hcons, not_le.1 hlen, not_le.1 hlt⟩
    exact ⟨.post, ⟨rest, w.posted ++ [i], w.finished⟩, step_post.2 ⟨i, hcons, not_le.1 hlen, hfits, rfl, rfl⟩⟩

/-! ## When no run refuses a job -/

/-- If nothing is refused, any choice of fewer than `limit` jobs can be all that is posted or at least part
of it when the next job is due: the other ones complete as soon as the window is full. -/
theorem exists_reaches_posted [DecidableEq ι] (hnodup : l.Nodup)
    (hnever : ∀ w, Reaches (Window.step size cap limit) (Window.start l) w → ¬ w.Refused size cap limit)
    (before : List ι) : ∀ (after chosen : List ι), l = before ++ after → chosen.Sublist before →
      chosen.length < limit → ∃ w, Reaches (Window.step size cap limit) (Window.start l) w ∧
        w.waiting = after ∧ chosen.Sublist w.posted ∧ w.posted.length < limit := by
  induction before using reverseRecOn with
  | nil =>
    intro after chosen hl hsub hlen
    rw [sublist_nil.1 hsub] at hlen ⊢
    exact ⟨start l, Reaches.refl _, hl, Sublist.refl _, hlen⟩
  | append_singleton before i ih =>
    intro after chosen hl hsub hlen
    obtain ⟨chosen', last, rfl, hsub', hlast⟩ := sublist_append_iff.1 hsub
    rw [length_append] at hlen
    rw [append_assoc, singleton_append] at hl
    obtain ⟨w, hreach, hwaiting, hchosen, hlength⟩ := ih (i :: after) chosen' hl hsub' (by omega)
    -- The next job fits, so it is posted.
    have hfits : w.used size + size i ≤ cap := by
      by_contra hlt
      exact hnever w hreach ⟨i, after, hwaiting, hlength, not_le.1 hlt⟩
    have hpost : w.step size cap limit .post = some ⟨after, w.posted ++ [i], w.finished⟩ :=
      step_post.2 ⟨i, hwaiting, hlength, hfits, rfl, rfl⟩
    have hreach' := hreach.trans (Reaches.head hpost (Reaches.refl _))
    have hsub'' : (chosen' ++ last).Sublist (w.posted ++ [i]) := hchosen.append hlast
    by_cases hfull : (w.posted ++ [i]).length < limit
    · exact ⟨_, hreach', rfl, hsub'', hfull⟩
    · -- The window is full: the jobs that were not chosen complete.
      obtain ⟨inv, hinv⟩ := exists_inv_of_reaches hreach'
      have hdistinct : (w.posted ++ [i]).Nodup := by
        have hinvnodup : inv.Nodup := (hinv.split ▸ hnodup).of_append_left
        exact hinv.posted_sublist.nodup hinvnodup
      obtain ⟨j, hj, hnot⟩ : ∃ j ∈ w.posted ++ [i], j ∉ chosen' ++ last := by
        by_contra hall
        push Not at hall
        have hle := (subperm_of_subset hdistinct hall).length_le
        simp only [length_append] at hle hfull
        omega
      let other : ι → Bool := fun j => decide (j ∉ chosen' ++ last)
      have hpass : (⟨after, w.posted ++ [i], w.finished⟩ : Window ι).step size cap limit (.pass other) =
          some (Window.complete ⟨after, w.posted ++ [i], w.finished⟩ other) :=
        step_pass.2 ⟨⟨Or.inr (not_lt.1 hfull), j, hj, decide_eq_true hnot⟩, rfl⟩
      refine ⟨_, hreach'.trans (Reaches.head hpass (Reaches.refl _)), rfl, ?_, ?_⟩
      · -- What was chosen stays.
        have hkept : (chosen' ++ last).filter (fun j => !decide (j ∉ chosen' ++ last)) = chosen' ++ last :=
          filter_eq_self.2 fun j hj => by simpa using hj
        rw [← hkept]
        exact hsub''.filter _
      · have hle : ((w.posted ++ [i]).filter fun j => !decide (j ∉ chosen' ++ last)).length ≤
            (chosen' ++ last).length := by
          refine (subperm_of_subset (hdistinct.filter _) fun j hj => ?_).length_le
          simpa using (mem_filter.1 hj).2
        exact hle.trans_lt (by rw [length_append]; exact hlen)

/-- No run refuses a job if and only if all choices of at most `limit` jobs fit together. -/
theorem forall_not_refused_iff [DecidableEq ι] (hnodup : l.Nodup) :
    (∀ w, Reaches (Window.step size cap limit) (Window.start l) w → ¬ w.Refused size cap limit) ↔
      ∀ chosen : List ι, chosen.Sublist l → chosen.length ≤ limit → (chosen.map size).sum ≤ cap := by
  constructor
  · intro hnever chosen hsub hlen
    rcases eq_nil_or_concat chosen with rfl | ⟨chosen, i, rfl⟩
    · exact Nat.zero_le cap
    · rw [concat_eq_append] at hsub hlen ⊢
      rw [length_append, length_singleton] at hlen
      -- The last job of the choice comes up while the other ones are posted.
      obtain ⟨before, rest, rfl, hbefore, hrest⟩ := append_sublist_iff.1 hsub
      obtain ⟨skipped, after, rfl, hskip⟩ := append_of_mem (singleton_sublist.1 hrest)
      obtain ⟨w, hreach, hwaiting, hchosen, hlength⟩ := exists_reaches_posted hnodup hnever
        (before ++ skipped) (i :: after) chosen (by rw [append_assoc])
        (hbefore.trans (sublist_append_left _ _)) (by omega)
      have hfits : w.used size + size i ≤ cap := by
        by_contra hlt
        exact hnever w hreach ⟨i, after, hwaiting, hlength, not_le.1 hlt⟩
      have hle : (chosen.map size).sum ≤ w.used size := (hchosen.map size).sum_le_sum fun _ _ => Nat.zero_le _
      rw [map_append, sum_append, map_singleton, sum_singleton]
      omega
  · rintro hall w hreach ⟨i, rest, hwaiting, hlen, hlt⟩
    obtain ⟨before, hinv⟩ := exists_inv_of_reaches hreach
    have hsum := hall (w.posted ++ [i]) (hinv.sublist_of_waiting hwaiting)
      (by rw [length_append, length_singleton]; omega)
    rw [map_append, sum_append, map_singleton, sum_singleton] at hsum
    exact absurd hlt (not_lt.2 hsum)

end Window

end DataSpaces.Lib
