import Mathlib.Data.List.Flatten
import Mathlib.Data.List.Sort
import Mathlib.Tactic

/-!
# Lists of intervals

A closed interval of natural numbers and the numbers that a list of intervals enumerates, in list
order (`points`). An algorithm on interval tables that splits, merges or sorts intervals is described
by what it does to `points`: merging neighbours keeps it, cutting a quota off the front is `take`
and `drop`, and sorting disjoint intervals by their lower ends makes it strictly increasing.
-/

namespace DataSpaces.Lib

open List

/-- A closed interval; it is empty when `ub < lb`. -/
structure Intv where
  lb : Nat
  ub : Nat
deriving DecidableEq, Repr

namespace Intv

/-- The numbers of an interval, in increasing order. -/
def toList (i : Intv) : List Nat := range' i.lb (i.ub + 1 - i.lb)

/-- The numbers that a list of intervals enumerates. -/
def points (l : List Intv) : List Nat := l.flatMap toList

variable {i : Intv} {m : Nat} {l : List Intv}

@[simp] theorem mem_toList : m ∈ i.toList ↔ i.lb ≤ m ∧ m ≤ i.ub := by
  rw [toList, mem_range'_1]
  omega

theorem length_toList (i : Intv) : i.toList.length = i.ub + 1 - i.lb := by
  simp [toList]

theorem toList_pairwise (i : Intv) : i.toList.Pairwise (· < ·) := by
  rw [toList]
  exact pairwise_lt_range'

@[simp] theorem points_nil : points [] = [] := rfl

@[simp] theorem points_cons (i : Intv) (l : List Intv) :
    points (i :: l) = i.toList ++ points l := flatMap_cons

@[simp] theorem points_append (l l' : List Intv) : points (l ++ l') = points l ++ points l' := flatMap_append

theorem mem_points : m ∈ points l ↔ ∃ i ∈ l, i.lb ≤ m ∧ m ≤ i.ub := by
  simp [points, mem_flatMap]

theorem points_perm {l' : List Intv} (h : l.Perm l') : (points l).Perm (points l') := h.flatMap_right toList

/-- Two neighbouring intervals enumerate what their union does. -/
theorem toList_append_toList {j : Intv} (hi : i.lb ≤ i.ub + 1) (hj : j.lb ≤ j.ub + 1) (h : i.ub + 1 = j.lb) :
    i.toList ++ j.toList = (Intv.mk i.lb j.ub).toList := by
  have hlb : j.lb = i.lb + (i.ub + 1 - i.lb) := by omega
  have hlen : j.ub + 1 - i.lb = (i.ub + 1 - i.lb) + (j.ub + 1 - j.lb) := by omega
  simp only [toList]
  rw [hlen, ← range'_append_1, ← hlb]

/-- The first `len` numbers of an interval form an interval, and so do the others. -/
theorem toList_split {len : Nat} (hpos : 0 < len) (h : len ≤ i.ub + 1 - i.lb) :
    i.toList = (Intv.mk i.lb (i.lb + len - 1)).toList ++ (Intv.mk (i.lb + len) i.ub).toList := by
  rw [toList_append_toList]
  · simp only
    omega
  · simp only
    omega
  · simp only
    omega

/-! ## Sorted tables -/

/-- Non-empty intervals that overlap nowhere and are sorted by their lower ends follow each other:
the numbers they enumerate increase. The induction is on the table; the first interval ends before
any later one starts, since a later one starts no earlier and shares no number with it. -/
theorem points_pairwise_of_sorted (hne : ∀ i ∈ l, i.lb ≤ i.ub) (hnd : (points l).Nodup)
    (hs : l.Pairwise fun a b => a.lb ≤ b.lb) : (points l).Pairwise (· < ·) := by
  induction l with
  | nil => exact Pairwise.nil
  | cons i l ih =>
    rw [points_cons, List.nodup_append] at hnd
    rw [pairwise_cons] at hs
    rw [points_cons, pairwise_append]
    refine ⟨toList_pairwise i, ih (fun j hj => hne j (mem_cons_of_mem _ hj)) hnd.2.1 hs.2, ?_⟩
    intro m hm m' hm'
    obtain ⟨j, hj, hj1, hj2⟩ := mem_points.1 hm'
    have hij := hs.1 j hj
    have hjne := hne j (mem_cons_of_mem _ hj)
    rw [mem_toList] at hm
    have hout : ¬ (i.lb ≤ j.lb ∧ j.lb ≤ i.ub) := by
      intro hcon
      exact hnd.2.2 j.lb (mem_toList.2 hcon) j.lb (mem_points.2 ⟨j, hj, le_rfl, hjne⟩) rfl
    omega

/-- In a table whose numbers increase, every number lies between the lower end of the first interval
and the upper end of the last one. -/
theorem bounds_of_mem_points {j : Intv} (hne : ∀ k ∈ l, k.lb ≤ k.ub) (hinc : (points l).Pairwise (· < ·))
    (hhead : l.head? = some i) (hlast : l.getLast? = some j) (hm : m ∈ points l) : i.lb ≤ m ∧ m ≤ j.ub := by
  constructor
  · -- The first interval starts with the least number.
    cases l with
    | nil => simp at hhead
    | cons a l =>
      rw [head?_cons, Option.some.injEq] at hhead
      subst hhead
      rw [points_cons, pairwise_append] at hinc
      rw [points_cons, mem_append] at hm
      have hlow : a.lb ∈ a.toList := mem_toList.2 ⟨le_rfl, hne a mem_cons_self⟩
      rcases hm with hm | hm
      · exact (mem_toList.1 hm).1
      · exact le_of_lt (hinc.2.2 _ hlow m hm)
  · -- The last one ends with the greatest.
    obtain ⟨l, rfl⟩ : ∃ l', l = l' ++ [j] := by
      obtain ⟨l', hl'⟩ := getLast?_eq_some_iff.1 hlast
      exact ⟨l', hl'⟩
    rw [points_append, points_cons, points_nil, append_nil] at hm hinc
    rw [pairwise_append] at hinc
    rw [mem_append] at hm
    have hup : j.ub ∈ j.toList := mem_toList.2 ⟨hne j (by simp), le_rfl⟩
    rcases hm with hm | hm
    · exact le_of_lt (hinc.2.2 m hm _ hup)
    · exact (mem_toList.1 hm).2

/-- Non-empty intervals whose numbers increase and none of which starts right after the one before it
keep a distance of at least one number. -/
theorem pairwise_separated (hne : ∀ i ∈ l, i.lb ≤ i.ub) (hinc : (points l).Pairwise (· < ·))
    (hgap : l.IsChain fun i j => i.ub + 1 ≠ j.lb) : l.Pairwise fun i j => i.ub + 1 < j.lb := by
  induction l with
  | nil => exact Pairwise.nil
  | cons i l ih =>
    rw [points_cons, pairwise_append] at hinc
    have hl : ∀ j ∈ l, j.lb ≤ j.ub := fun j hj => hne j (mem_cons_of_mem _ hj)
    have hrest := ih hl hinc.2.1 hgap.tail
    refine pairwise_cons.2 ⟨?_, hrest⟩
    cases l with
    | nil => simp
    | cons j l =>
      have hj := hl j mem_cons_self
      have hi := hne i mem_cons_self
      have hlt : i.ub < j.lb := hinc.2.2 i.ub (mem_toList.2 ⟨hi, le_rfl⟩) j.lb
        (mem_points.2 ⟨j, mem_cons_self, le_rfl, hj⟩)
      have hne' : i.ub + 1 ≠ j.lb := (isChain_cons_cons.1 hgap).1
      intro k hk
      rcases mem_cons.1 hk with rfl | hk
      · omega
      -- A later interval starts after the end of the next one.
      · have hlater := (pairwise_cons.1 hrest).1 k hk
        omega

end Intv

/-! ## Dealing a list in equal pieces -/

/-- Piece `i` of a list dealt in pieces of `k` items. -/
def piece {α : Type*} (k i : Nat) (l : List α) : List α := (l.drop (i * k)).take k

theorem getElem_mem_piece_iff {α : Type*} {l : List α} (hnd : l.Nodup) {k i p : Nat}
    (hp : p < l.length) : l[p] ∈ piece k i l ↔ i * k ≤ p ∧ p < i * k + k := by
  rw [piece, mem_iff_getElem]
  simp only [getElem_take, getElem_drop, length_take, length_drop]
  constructor
  · rintro ⟨q, hq, hqp⟩
    have := (hnd.getElem_inj_iff).1 hqp
    omega
  · rintro ⟨h1, h2⟩
    refine ⟨p - i * k, by omega, ?_⟩
    congr 1
    omega

/-- With pieces of `k` items, `n` pieces hold every item of a list without repetition exactly once
if and only if they use up the list. -/
theorem existsUnique_piece_iff {α : Type*} {l : List α} (hnd : l.Nodup) {k n : Nat} (hk : k * n ≤ l.length) :
    (∀ a ∈ l, ∃! i, i < n ∧ a ∈ piece k i l) ↔ l.length = k * n := by
  constructor
  · -- The first item after the pieces is in none of them.
    intro h
    by_contra hne
    have hlt : k * n < l.length := by omega
    obtain ⟨i, ⟨hi, hmem⟩, -⟩ := h l[k * n] (getElem_mem hlt)
    have := ((getElem_mem_piece_iff hnd hlt).1 hmem).2
    have h1 : (i + 1) * k ≤ n * k := Nat.mul_le_mul_right k hi
    rw [Nat.mul_comm k n] at this
    rw [Nat.add_mul, Nat.one_mul] at h1
    omega
  · -- The item at place `p` is in piece `p / k`.
    intro hlen a ha
    obtain ⟨p, hp, rfl⟩ := getElem_of_mem ha
    have hpos : 0 < k := by
      rcases Nat.eq_zero_or_pos k with rfl | h
      · omega
      · exact h
    refine ⟨p / k, ⟨?_, ?_⟩, ?_⟩
    · rw [Nat.div_lt_iff_lt_mul hpos, Nat.mul_comm]
      omega
    · rw [getElem_mem_piece_iff hnd hp]
      exact ⟨Nat.div_mul_le_self p k, Nat.lt_div_mul_add hpos⟩
    · rintro i ⟨-, hi⟩
      rw [getElem_mem_piece_iff hnd hp] at hi
      refine (Nat.div_eq_of_lt_le hi.1 ?_).symm
      rw [Nat.add_mul, Nat.one_mul]
      exact hi.2

/-- Blocks of `w` numbers, one after the other, are one block. -/
theorem flatMap_range'_blocks (s w m : Nat) :
    (range m).flatMap (fun t => range' (s + t * w) w) = range' s (m * w) := by
  induction m with
  | zero => simp
  | succ m ih =>
    rw [range_succ, flatMap_append, ih, flatMap_singleton, range'_append_1, Nat.succ_mul]

end DataSpaces.Lib
