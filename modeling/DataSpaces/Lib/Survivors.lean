import Mathlib.Data.List.Basic
import Mathlib.Tactic

/-!
# Lists that drop what a new item meets

`evictAll` unlinks every item that the new one meets and puts the new one in front. After a sequence of
additions the list holds the items that were added and met by no later addition (`mem_foldl_evictAll`).
The relation need be neither symmetric nor reflexive. If no item is added twice, this is about the items
that follow it in the sequence (`survives_iff_of_nodup`).
-/

namespace DataSpaces.Lib

open List

variable {α : Type*} {meets meets' : α → α → Bool} {xs : List α} {x y : α}

/-- Unlink all items that the new one meets and put the new one in front. -/
def evictAll (meets : α → α → Bool) (l : List α) (x : α) : List α :=
  x :: l.filter fun y => !meets x y

/-- The item was added, and after some addition of it no item that meets it was added. -/
def Survives (meets : α → α → Bool) (xs : List α) (y : α) : Prop :=
  ∃ before later, xs = before ++ y :: later ∧ ∀ x ∈ later, meets x y = false

theorem Survives.mem (h : Survives meets xs y) : y ∈ xs := by
  obtain ⟨before, later, rfl, -⟩ := h
  exact mem_append_right _ mem_cons_self

theorem not_survives_nil : ¬ Survives meets [] y := fun h => not_mem_nil h.mem

/-- One more addition. -/
theorem survives_append_singleton :
    Survives meets (xs ++ [x]) y ↔ y = x ∨ Survives meets xs y ∧ meets x y = false := by
  constructor
  · rintro ⟨before, later, heq, hlater⟩
    rcases eq_nil_or_concat' later with rfl | ⟨later, z, rfl⟩
    · exact Or.inl (singleton_inj.1 (append_inj_right' heq rfl)).symm
    · rw [← cons_append, ← append_assoc] at heq
      obtain rfl : x = z := singleton_inj.1 (append_inj_right' heq rfl)
      have hxs : xs = before ++ y :: later := append_inj_left' heq rfl
      refine Or.inr ⟨⟨before, later, hxs, fun w hw => hlater w (mem_append_left _ hw)⟩, ?_⟩
      exact hlater x (mem_append_right _ (mem_singleton_self x))
  · rintro (rfl | ⟨⟨before, later, rfl, hlater⟩, hx⟩)
    · exact ⟨xs, [], rfl, fun w hw => (not_mem_nil hw).elim⟩
    · refine ⟨before, later ++ [x], by rw [append_assoc, cons_append], fun w hw => ?_⟩
      rcases mem_append.1 hw with hw | hw
      · exact hlater w hw
      · rw [mem_singleton.1 hw]
        exact hx

/-- The list after a sequence of additions. -/
theorem mem_foldl_evictAll : y ∈ xs.foldl (evictAll meets) [] ↔ Survives meets xs y := by
  induction xs using reverseRecOn with
  | nil => exact ⟨fun h => (not_mem_nil h).elim, fun h => (not_survives_nil h).elim⟩
  | append_singleton xs x ih =>
    rw [foldl_append, survives_append_singleton, ← ih]
    simp [evictAll]

/-- No item of the list meets one that was added before it. -/
theorem pairwise_foldl_evictAll (meets : α → α → Bool) (xs : List α) :
    (xs.foldl (evictAll meets) []).Pairwise fun newer older => meets newer older = false := by
  induction xs using reverseRecOn with
  | nil => exact Pairwise.nil
  | append_singleton xs x ih =>
    rw [foldl_append]
    refine pairwise_cons.2 ⟨fun y hy => ?_, ih.filter _⟩
    simpa using (mem_filter.1 hy).2

/-- Fewer meetings leave more items. -/
theorem Survives.mono (h : Survives meets xs y) (hle : ∀ x ∈ xs, meets' x y = true → meets x y = true) :
    Survives meets' xs y := by
  obtain ⟨before, later, rfl, hlater⟩ := h
  refine ⟨before, later, rfl, fun x hx => Bool.eq_false_iff.2 fun hmeets => ?_⟩
  have hkept := hle x (mem_append_right _ (mem_cons_of_mem _ hx)) hmeets
  rw [hlater x hx] at hkept
  cases hkept

/-- The second item was added after the first one. -/
def Follows (xs : List α) (y x : α) : Prop := ∃ before later, xs = before ++ y :: later ∧ x ∈ later

theorem Follows.mem (h : Follows xs y x) : y ∈ xs ∧ x ∈ xs := by
  obtain ⟨before, later, rfl, hx⟩ := h
  exact ⟨mem_append_right _ mem_cons_self, mem_append_right _ (mem_cons_of_mem _ hx)⟩

theorem follows_pair_iff {a b : α} : Follows [a, b] y x ↔ y = a ∧ x = b := by
  constructor
  · rintro ⟨before, later, heq, hx⟩
    rcases before with - | ⟨c, before⟩
    · obtain ⟨rfl, rfl⟩ := cons.inj heq
      exact ⟨rfl, mem_singleton.1 hx⟩
    · -- The item is the second one, and nothing comes later.
      have hlen := congrArg List.length heq
      simp only [length_append, length_cons, length_nil] at hlen
      rw [length_eq_zero_iff.1 (by omega : later.length = 0)] at hx
      exact (not_mem_nil hx).elim
  · rintro ⟨rfl, rfl⟩
    exact ⟨[], [x], rfl, mem_singleton_self x⟩

/-- If all items are different, the place of an item is unique. -/
theorem follows_iff_of_nodup (hnd : xs.Nodup) {before later : List α} (heq : xs = before ++ y :: later) :
    Follows xs y x ↔ x ∈ later := by
  refine ⟨fun ⟨before', later', heq', hx⟩ => ?_, fun hx => ⟨before, later, heq, hx⟩⟩
  rw [heq, List.nodup_append, nodup_cons] at hnd
  have hbefore : y ∉ before := fun hy => hnd.2.2 y hy y mem_cons_self rfl
  obtain ⟨-, -, rfl⟩ := (append_cons_inj_of_notMem hbefore hnd.2.1.1).1 (heq.symm.trans heq')
  exact hx

theorem survives_iff_of_nodup (hnd : xs.Nodup) :
    Survives meets xs y ↔ y ∈ xs ∧ ∀ x, Follows xs y x → meets x y = false := by
  constructor
  · intro h
    obtain ⟨before, later, heq, hlater⟩ := id h
    exact ⟨h.mem, fun x hx => hlater x ((follows_iff_of_nodup hnd heq).1 hx)⟩
  · rintro ⟨hy, hno⟩
    obtain ⟨before, later, heq⟩ := append_of_mem hy
    exact ⟨before, later, heq, fun x hx => hno x ((follows_iff_of_nodup hnd heq).2 hx)⟩

/-- Of two items one was added after the other. -/
theorem follows_or_follows (hy : y ∈ xs) (hx : x ∈ xs) (hne : y ≠ x) : Follows xs y x ∨ Follows xs x y := by
  obtain ⟨before, later, heq⟩ := append_of_mem hy
  rw [heq, mem_append, mem_cons] at hx
  rcases hx with hx | hx | hx
  · obtain ⟨before', later', rfl⟩ := append_of_mem hx
    refine Or.inr ⟨before', later' ++ y :: later, by rw [heq, append_assoc, cons_append], ?_⟩
    exact mem_append_right _ mem_cons_self
  · exact absurd hx.symm hne
  · exact Or.inl ⟨before, later, heq, hx⟩

/-- There is a last item with a property. -/
theorem exists_last {P : α → Prop} [DecidablePred P] (hnd : xs.Nodup) (h : ∃ y ∈ xs, P y) :
    ∃ y ∈ xs, P y ∧ ∀ x, Follows xs y x → ¬ P x := by
  obtain ⟨y₀, hy₀, hP₀⟩ := h
  cases hf : xs.reverse.find? fun y => decide (P y) with
  | none =>
    exact absurd (decide_eq_true hP₀) (find?_eq_none.1 hf y₀ (mem_reverse.2 hy₀))
  | some y =>
    obtain ⟨hP, after, before, heq, hafter⟩ := find?_eq_some_iff_append.1 hf
    have hsplit : xs = before.reverse ++ y :: after.reverse := by
      rw [← reverse_reverse xs, heq, reverse_append, reverse_cons, append_assoc]
      rfl
    refine ⟨y, mem_reverse.1 (mem_of_find?_eq_some hf), of_decide_eq_true hP, fun x hx => ?_⟩
    have hmem := (follows_iff_of_nodup hnd hsplit).1 hx
    have hno := hafter x (mem_reverse.1 hmem)
    rwa [Bool.not_eq_true', decide_eq_false_iff_not] at hno

/-- Additions to other lists do not matter. -/
theorem survives_filter_iff (meets : α → α → Bool) (xs : List α) (y : α) (p : α → Bool)
    (hp : ∀ x ∈ xs, p y = true → meets x y = true → p x = true) :
    Survives meets (xs.filter p) y ↔ p y = true ∧ Survives meets xs y := by
  induction xs using reverseRecOn with
  | nil => simp [not_survives_nil]
  | append_singleton xs x ih =>
    have ih' := ih fun z hz => hp z (mem_append_left _ hz)
    have hx := hp x (mem_append_right _ (mem_singleton_self x))
    rw [filter_append, survives_append_singleton]
    -- An item that is filtered out meets none of those that are kept.
    by_cases hpx : p x = true
    · rw [filter_cons_of_pos hpx, filter_nil, survives_append_singleton, ih']
      constructor
      · rintro (rfl | ⟨⟨hy, hsurv⟩, hno⟩)
        · exact ⟨hpx, Or.inl rfl⟩
        · exact ⟨hy, Or.inr ⟨hsurv, hno⟩⟩
      · rintro ⟨hy, rfl | ⟨hsurv, hno⟩⟩
        · exact Or.inl rfl
        · exact Or.inr ⟨⟨hy, hsurv⟩, hno⟩
    · rw [filter_cons_of_neg hpx, filter_nil, append_nil, ih']
      refine and_congr_right fun hy => ?_
      constructor
      · intro hsurv
        exact Or.inr ⟨hsurv, Bool.eq_false_iff.2 fun hmeets => hpx (hx hy hmeets)⟩
      · rintro (rfl | ⟨hsurv, -⟩)
        · exact absurd hy hpx
        · exact hsurv

end DataSpaces.Lib
