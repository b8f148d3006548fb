import Mathlib.Algebra.BigOperators.Group.Finset.Basic
import Mathlib.Tactic

/-!
# Offsets in an array of several dimensions

`offset radix k acc v` is the number that a nest of loops computes from the indices `v k, …, v 0`, the
outermost one first: the accumulator is increased by the index of a dimension and multiplied by the
extent of the next inner one. Dimension `0` varies fastest.

The indices below their extents are determined by the offset (`offset_injective`); the outermost index
may be any number, and moving it moves the offset by blocks (`offset_shift`). `offset_lt` bounds the
offset by a product of extents, and every number below it is an offset (`exists_offset_eq`).
-/

namespace DataSpaces.Lib

open Function Finset

/-- The position of the cell with indices `v k, …, v 0` under the accumulator `acc`. -/
def offset (radix : Nat → Nat) : Nat → Nat → (Nat → Nat) → Nat
  | 0, acc, v => acc + v 0
  | k + 1, acc, v => offset radix k ((acc + v (k + 1)) * radix k) v

variable {radix : Nat → Nat} {k : Nat} {v w : Nat → Nat}

/-- The offset reads the indices up to the outermost one and the extents of the inner dimensions. -/
theorem offset_congr {radix' : Nat → Nat} {acc : Nat} (hradix : ∀ i < k, radix i = radix' i)
    (hv : ∀ i ≤ k, v i = w i) : offset radix k acc v = offset radix' k acc w := by
  induction k generalizing acc with
  | zero => rw [offset, offset, hv 0 le_rfl]
  | succ k ih =>
    rw [offset, offset, hv (k + 1) le_rfl, hradix k (Nat.lt_succ_self k)]
    exact ih (fun i hi => hradix i (Nat.lt_succ_of_lt hi)) fun i hi => hv i (Nat.le_succ_of_le hi)

/-- Moving the innermost index moves the offset by as many cells. -/
theorem offset_update_zero (k acc j : Nat) (v : Nat → Nat) :
    offset radix k acc (update v 0 (v 0 + j)) = offset radix k acc v + j := by
  induction k generalizing acc with
  | zero => rw [offset, offset, update_self, Nat.add_assoc]
  | succ k ih => rw [offset, offset, update_of_ne (Nat.succ_ne_zero k), ih]

/-- The accumulator counts blocks of all inner cells. -/
theorem offset_acc (k acc : Nat) (v : Nat → Nat) :
    offset radix k acc v = acc * ∏ i ∈ range k, radix i + offset radix k 0 v := by
  induction k generalizing acc with
  | zero => simp [offset]
  | succ k ih =>
    rw [offset, offset, ih, ih ((0 + v (k + 1)) * radix k), prod_range_succ]
    ring

variable {d a b m : Nat} {extent : Nat → Nat}

/-- Moving the outermost index moves the offset by blocks of all inner cells. -/
theorem offset_shift (hv : ∀ i < k, v i = w i) (htop : v k = w k + d) :
    offset radix k 0 v = d * ∏ i ∈ range k, radix i + offset radix k 0 w := by
  cases k with
  | zero =>
    simp only [offset, htop, range_zero, prod_empty]
    omega
  | succ k =>
    rw [offset, offset, htop, offset_acc, offset_acc k ((0 + w (k + 1)) * radix k),
      offset_congr (fun _ _ => rfl) fun i hi => hv i (Nat.lt_succ_of_le hi), prod_range_succ]
    ring

/-- A quotient and a remainder are determined by the number. -/
theorem eq_and_eq_of_mul_add_eq {c n : Nat} (hc : c < n) (hd : d < n)
    (h : a * n + c = b * n + d) : a = b ∧ c = d := by
  have hn : 0 < n := Nat.zero_lt_of_lt hc
  have hab : a = b := by
    have hq := congrArg (· / n) h
    simpa only [Nat.add_comm (_ * n), Nat.add_mul_div_right _ _ hn, Nat.div_eq_of_lt hc,
      Nat.div_eq_of_lt hd, Nat.zero_add] using hq
  subst hab
  exact ⟨rfl, Nat.add_left_cancel h⟩

/-- Below a multiple of the extent the offset determines the multiple and all indices. -/
theorem offset_mul_injective (hv : ∀ i ≤ k, v i < radix i) (hw : ∀ i ≤ k, w i < radix i)
    (h : offset radix k (a * radix k) v = offset radix k (b * radix k) w) : a = b ∧ ∀ i ≤ k, v i = w i := by
  induction k generalizing a b with
  | zero =>
    obtain ⟨hab, h0⟩ := eq_and_eq_of_mul_add_eq (hv 0 le_rfl) (hw 0 le_rfl) h
    refine ⟨hab, fun i hi => ?_⟩
    rw [Nat.le_zero.1 hi]
    exact h0
  | succ k ih =>
    rw [offset, offset] at h
    obtain ⟨houter, hinner⟩ :=
      ih (fun i hi => hv i (Nat.le_succ_of_le hi)) (fun i hi => hw i (Nat.le_succ_of_le hi)) h
    obtain ⟨hab, htop⟩ := eq_and_eq_of_mul_add_eq (hv (k + 1) le_rfl) (hw (k + 1) le_rfl) houter
    refine ⟨hab, fun i hi => ?_⟩
    rcases Nat.lt_succ_iff_lt_or_eq.1 (Nat.lt_succ_of_le hi) with hlt | rfl
    · exact hinner i (Nat.le_of_lt_succ hlt)
    · exact htop

/-- The offset determines the indices; the outermost one need not be below its extent. -/
theorem offset_injective (hv : ∀ i < k, v i < radix i) (hw : ∀ i < k, w i < radix i)
    (h : offset radix k 0 v = offset radix k 0 w) : ∀ i ≤ k, v i = w i := by
  cases k with
  | zero =>
    intro i hi
    rw [Nat.le_zero.1 hi]
    simpa [offset] using h
  | succ k =>
    rw [offset, offset, Nat.zero_add, Nat.zero_add] at h
    obtain ⟨htop, hinner⟩ := offset_mul_injective (fun i hi => hv i (Nat.lt_succ_of_le hi))
      (fun i hi => hw i (Nat.lt_succ_of_le hi)) h
    intro i hi
    rcases Nat.lt_succ_iff_lt_or_eq.1 (Nat.lt_succ_of_le hi) with hlt | rfl
    · exact hinner i (Nat.le_of_lt_succ hlt)
    · exact htop

theorem offset_mul_lt (ha : a < m) (hradix : ∀ i ≤ k, radix i ≤ extent i)
    (hv : ∀ i ≤ k, v i < extent i) : offset radix k (a * radix k) v < m * ∏ i ∈ range (k + 1), extent i := by
  induction k generalizing a m with
  | zero =>
    rw [offset, prod_range_one]
    calc a * radix 0 + v 0 < a * extent 0 + extent 0 :=
          Nat.add_lt_add_of_le_of_lt (Nat.mul_le_mul_left a (hradix 0 le_rfl)) (hv 0 le_rfl)
      _ = (a + 1) * extent 0 := (Nat.succ_mul a (extent 0)).symm
      _ ≤ m * extent 0 := Nat.mul_le_mul_right _ ha
  | succ k ih =>
    have houter : a * radix (k + 1) + v (k + 1) < m * extent (k + 1) :=
      calc a * radix (k + 1) + v (k + 1) < a * extent (k + 1) + extent (k + 1) :=
            Nat.add_lt_add_of_le_of_lt (Nat.mul_le_mul_left a (hradix (k + 1) le_rfl)) (hv (k + 1) le_rfl)
        _ = (a + 1) * extent (k + 1) := (Nat.succ_mul a _).symm
        _ ≤ m * extent (k + 1) := Nat.mul_le_mul_right _ ha
    rw [offset, prod_range_succ, mul_comm _ (extent (k + 1)), ← mul_assoc]
    exact ih houter (fun i hi => hradix i (Nat.le_succ_of_le hi)) fun i hi => hv i (Nat.le_succ_of_le hi)

/-- The offset is below the product of numbers that bound the extents and the indices. -/
theorem offset_lt (hradix : ∀ i ≤ k, radix i ≤ extent i) (hv : ∀ i ≤ k, v i < extent i) :
    offset radix k 0 v < ∏ i ∈ range (k + 1), extent i := by
  have h := offset_mul_lt Nat.zero_lt_one hradix hv
  rwa [Nat.zero_mul, Nat.one_mul] at h

/-- Every number below the product of the extents is the offset of a cell. -/
theorem exists_offset_eq (hm : m < ∏ i ∈ range (k + 1), radix i) :
    ∃ v, (∀ i ≤ k, v i < radix i) ∧ offset radix k 0 v = m := by
  induction k generalizing m with
  | zero =>
    rw [prod_range_one] at hm
    refine ⟨fun _ => m, fun i hi => ?_, by simp [offset]⟩
    rw [Nat.le_zero.1 hi]
    exact hm
  | succ k ih =>
    have hpos : 0 < ∏ i ∈ range (k + 1), radix i := by
      rw [prod_range_succ] at hm
      exact Nat.pos_of_ne_zero fun h => by simp [h] at hm
    -- The outermost index counts the blocks of inner cells below the number.
    obtain ⟨v, hv, hoff⟩ := ih (Nat.mod_lt m hpos)
    refine ⟨update v (k + 1) (m / ∏ i ∈ range (k + 1), radix i), fun i hi => ?_, ?_⟩
    · by_cases hik : i = k + 1
      · rw [hik, update_self]
        rw [prod_range_succ] at hm
        exact Nat.div_lt_of_lt_mul hm
      · rw [update_of_ne hik]
        exact hv i (by omega)
    · rw [offset, update_self, offset_acc,
        offset_congr (w := v) (fun _ _ => rfl) fun i hi => update_of_ne (by omega) _ _, hoff,
        Nat.zero_add, Nat.mul_assoc, Nat.mul_comm (radix k), ← prod_range_succ]
      exact Nat.div_add_mod' m _

end DataSpaces.Lib
