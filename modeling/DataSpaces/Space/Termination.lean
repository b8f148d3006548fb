import Mathlib.Logic.Relation
import DataSpaces.Geometry.SfcRing
import DataSpaces.Space.Sspace

/-!
# Termination of hashing

`ssd_alloc_v1` decomposes the domain with `bbox_to_intv`, and `ssd_hash_v1` decomposes every box of a put
or a get with `bbox_to_intv2`. Neither checks what it is given: the entry points bound the number of
dimensions and nothing else, and the side of the virtual cube is a power of two of up to 64 bits, or zero
when the shift drops its bit.

A decomposition that divides the virtual cube at all ends exactly when the box has no inverted side and
the cube a side of at most `2 ^ 31` (`decompositionEnds_iff`). An inverted box meets every cube around its
lower corner and includes none, down to the single cell, whose first half is the cell again. A side of
`2 ^ 32` makes the sum `n + 1` of `bbox_divide` overflow an `int`, and with a larger side the middle point
is truncated to `-1`, so that the last part of the cube is the cube itself.
-/

namespace DataSpaces.Space

open Lib Geometry List

/-! ## Ending -/

/-- The candidates that the loops take from their queue. -/
def Visited (bb root : Bbox) : Bbox → Prop :=
  Relation.ReflTransGen (fun b c => c ∈ candidateExpand bb b) root

/-- `bbox_divide` computes `n + 1` in `int` for every dimension; the sum must not exceed the largest
one. -/
def MidDefined (b : Bbox) : Prop := ∀ j < b.numDims, divideMid b j + 1 < 2 ^ 31

/-- The loops of `bbox_to_intv` and `bbox_to_intv2` end after some number of candidates, and no division
on the way is undefined. -/
structure DecompositionEnds (P : Platform) (bb : Bbox) (dimVirt : Nat) : Prop where
  queue : ∃ fuel good, Worklist.run (candidateEmit P bb (computeBits dimVirt)) (candidateExpand bb) fuel
    [virtualBox bb.numDims dimVirt] [] = some good
  ring : ∃ fuel iTab, bboxToIntv2Loop P bb (computeBits dimVirt) fuel
    (ringInit P (virtualBox bb.numDims dimVirt)) [] = some iTab
  midDefined : ∀ b, Visited bb (virtualBox bb.numDims dimVirt) b → bboxInclude bb b = false →
    bboxDoesIntersect bb b = true → MidDefined b

/-- The box includes the virtual cube, or misses it, or it has no inverted side and the cube is small
enough for the arithmetic of `bbox_divide`. -/
def Decomposable (bb : Bbox) (dimVirt : Nat) : Prop :=
  bboxInclude bb (virtualBox bb.numDims dimVirt) = true ∨
    bboxDoesIntersect bb (virtualBox bb.numDims dimVirt) = false ∨
    (bb.Wf ∧ dimVirt ≠ 0 ∧ dimVirt ≤ 2 ^ 31)

variable {P : Platform} {bb : Bbox} {dimVirt : Nat}

/-- The ring loop ends whenever the queue loop does. -/
theorem decompositionEnds_of_run (hd : bb.numDims ≤ bboxMaxNdim) {fuel : Nat} {good : List Intv}
    (hrun : Worklist.run (candidateEmit P bb (computeBits dimVirt)) (candidateExpand bb) fuel
      [virtualBox bb.numDims dimVirt] [] = some good)
    (hmid : ∀ b, Visited bb (virtualBox bb.numDims dimVirt) b → bboxInclude bb b = false →
      bboxDoesIntersect bb b = true → MidDefined b) : DecompositionEnds P bb dimVirt where
  queue := ⟨fuel, good, hrun⟩
  ring := by
    refine ⟨fuel, good, ?_⟩
    rw [bboxToIntv2Loop_eq_run _ _ _ [] (ringInit_represents hd _) (numDims_of_mem_virtualBox bb dimVirt)]
    exact hrun
  midDefined := hmid

/-- A box with candidates that are always divided again is never done. -/
theorem not_decompositionEnds_of_endless {I : Bbox → Prop}
    (hstep : ∀ b, I b → ∃ c ∈ candidateExpand bb b, I c) (hroot : I (virtualBox bb.numDims dimVirt)) :
    ¬ DecompositionEnds P bb dimVirt := by
  intro h
  obtain ⟨fuel, good, hrun⟩ := h.queue
  rw [Worklist.run_eq_none_of_endless _ hstep fuel _ _ ⟨_, mem_singleton_self _, hroot⟩] at hrun
  cases hrun

theorem candidateExpand_of_divided {b : Bbox} (hinc : bboxInclude bb b = false)
    (hint : bboxDoesIntersect bb b = true) : candidateExpand bb b = bboxDivide b := by
  rw [candidateExpand, if_neg (by simp [hinc]), if_pos hint]

/-! ## Boxes that are not divided -/

theorem decompositionEnds_of_leaf (hd : bb.numDims ≤ bboxMaxNdim)
    (hleaf : bboxInclude bb (virtualBox bb.numDims dimVirt) = true ∨
      bboxDoesIntersect bb (virtualBox bb.numDims dimVirt) = false) : DecompositionEnds P bb dimVirt := by
  have hnil : candidateExpand bb (virtualBox bb.numDims dimVirt) = [] := by
    rcases hleaf with hleaf | hleaf <;> simp [candidateExpand, hleaf]
  have hrun : Worklist.run (candidateEmit P bb (computeBits dimVirt)) (candidateExpand bb) 1
      [virtualBox bb.numDims dimVirt] [] =
      some (candidateEmit P bb (computeBits dimVirt) (virtualBox bb.numDims dimVirt)) := by
    simp [Worklist.run, hnil]
  apply decompositionEnds_of_run hd hrun
  intro b hb hinc hint
  rcases hb.cases_head with rfl | ⟨c, hc, -⟩
  · rcases hleaf with hleaf | hleaf
    · rw [hleaf] at hinc
      cases hinc
    · rw [hleaf] at hint
      cases hint
  · rw [hnil] at hc
    cases hc

/-! ## Well-formed boxes in a small cube -/

section

variable {K : Nat} (hK : K ≤ 31)

include hK

variable {b : Bbox} {x : Coord}

/-- Every visited candidate is an aligned cube. -/
theorem exists_isCube_of_visited (hwf : bb.Wf) (h : Visited bb (virtualBox bb.numDims (2 ^ K)) b) :
    b.numDims = bb.numDims ∧ ∃ k, IsCube K k b := by
  induction h with
  | refl => exact ⟨rfl, K, isCube_virtualBox hK⟩
  | tail _ hc ih =>
    obtain ⟨hd, k, hk⟩ := ih
    obtain ⟨hinc, hint, hmem⟩ := divided_of_mem_candidateExpand hc
    refine ⟨by rw [numDims_of_mem_bboxDivide hmem, hd], ?_⟩
    cases k with
    | zero =>
      rw [bboxInclude_of_intersect_cell hwf hd hk hint] at hinc
      cases hinc
    | succ k =>
      obtain ⟨i, -, rfl⟩ := mem_map.1 hmem
      exact ⟨k, hk.divideSub hK i⟩

theorem decompositionEnds_of_wf (hd : bb.numDims ≤ bboxMaxNdim) (hwf : bb.Wf) :
    DecompositionEnds P bb (2 ^ K) := by
  obtain ⟨good, hrun, -⟩ := exists_run_candidates (P := P) hK hwf
  have hbits : computeBits (2 ^ K) = K + 1 := computeBits_two_pow (by omega)
  rw [← hbits] at hrun
  refine decompositionEnds_of_run hd hrun fun b hb hinc hint j hj => ?_
  obtain ⟨hdims, k, hk⟩ := exists_isCube_of_visited hK hwf hb
  cases k with
  | zero =>
    rw [bboxInclude_of_intersect_cell hwf hdims hk hint] at hinc
    cases hinc
  -- The second half of a divided side starts inside the cube.
  | succ k =>
    have hside := hk.side j hj
    have hub := hk.ub_lt j hj
    have hpow : 2 ^ K ≤ 2 ^ 31 := Nat.pow_le_pow_right (by omega) hK
    have hpos := Nat.two_pow_pos k
    rw [pow_succ] at hside
    rw [divideMid_eq hK hk hj]
    omega

/-! ## Inverted boxes -/

/-- The first part of a single cell is the cell. -/
theorem isCube_divideSub_cell (h : IsCube K 0 b) (hx : x ∈ b) :
    IsCube K 0 (divideSub b 0) ∧ x ∈ divideSub b 0 := by
  have hpow : 2 ^ K ≤ 2 ^ 31 := Nat.pow_le_pow_right (by omega) hK
  have hsame : ∀ j < b.numDims, (divideSub b 0).lb j = b.lb j ∧ (divideSub b 0).ub j = b.ub j := by
    intro j hj
    have hside := h.side j hj
    have hub := h.ub_lt j hj
    rw [pow_zero] at hside
    have hmid : divideMid b j = (b.ub j : Int) := by
      rw [divideMid, toInt32_of_lt (by omega)]
      omega
    simp only [divideSub, if_pos hj, Nat.zero_testBit, Bool.false_eq_true, if_false, hmid]
    exact ⟨trivial, ofInt32_natCast (by omega)⟩
  constructor
  · refine ⟨h.le_top, fun j hj => ?_, fun j hj => ?_, fun j hj => ?_⟩
    · rw [(hsame j hj).1]
      exact h.dvd_lb j hj
    · rw [(hsame j hj).1, (hsame j hj).2]
      exact h.side j hj
    · rw [(hsame j hj).2]
      exact h.ub_lt j hj
  · intro j hj
    rw [(hsame j hj).1, (hsame j hj).2]
    exact hx j hj

/-- A cube has a part around each of its cells, also when it is a single cell. -/
theorem exists_part_around {k : Nat} (h : IsCube K k b) (hx : x ∈ b) :
    ∃ c ∈ bboxDivide b, (∃ k, IsCube K k c) ∧ x ∈ c := by
  cases k with
  | zero =>
    obtain ⟨hcube, hmem⟩ := isCube_divideSub_cell hK h hx
    exact ⟨_, mem_map.2 ⟨0, mem_range.2 (Nat.two_pow_pos _), rfl⟩, ⟨0, hcube⟩, hmem⟩
  | succ k =>
    obtain ⟨i, hi, hmem⟩ := exists_divideSub hK h hx
    exact ⟨_, mem_map.2 ⟨i, mem_range.2 hi, rfl⟩, ⟨k, h.divideSub hK i⟩, hmem⟩

/-- A box with an inverted side that meets the virtual cube is decomposed for ever: the cubes around its
lower corner meet it, and none of them lies inside it. -/
theorem not_decompositionEnds_of_inverted (hwf : ¬ bb.Wf)
    (hint : bboxDoesIntersect bb (virtualBox bb.numDims (2 ^ K)) = true) :
    ¬ DecompositionEnds P bb (2 ^ K) := by
  obtain ⟨d, hd, hinv⟩ : ∃ d, d < bb.numDims ∧ bb.ub d < bb.lb d := by
    simpa [Bbox.Wf] using hwf
  have hcorner : bb.lb ∈ virtualBox bb.numDims (2 ^ K) := by
    rw [mem_virtualBox hK]
    intro i hi
    have hmeet := bboxDoesIntersect_iff.1 hint i hi
    have hub := (isCube_virtualBox (n := bb.numDims) hK).ub_lt i hi
    have hlb : (virtualBox bb.numDims (2 ^ K)).lb i = 0 := rfl
    omega
  apply not_decompositionEnds_of_endless
    (I := fun b => b.numDims = bb.numDims ∧ (∃ k, IsCube K k b) ∧ bb.lb ∈ b)
  · rintro b ⟨hdims, ⟨k, hk⟩, hmem⟩
    have hdivided : candidateExpand bb b = bboxDivide b := by
      apply candidateExpand_of_divided
      · -- Along the inverted side the cube reaches beyond the upper end of the box.
        rw [← Bool.not_eq_true, bboxInclude_iff]
        intro hinc
        have h1 := hinc d hd
        have h2 := hmem d (by omega)
        omega
      · rw [bboxDoesIntersect_iff]
        intro i hi
        exact Or.inr (hmem i (by omega))
    obtain ⟨c, hc, hcube, hmem'⟩ := exists_part_around hK hk hmem
    refine ⟨c, hdivided ▸ hc, ?_, hcube, hmem'⟩
    rw [numDims_of_mem_bboxDivide hc, hdims]
  · exact ⟨rfl, ⟨K, isCube_virtualBox hK⟩, hcorner⟩

end

/-! ## Large cubes -/

/-- A number one below a multiple of `2 ^ 32` is `-1` as an `int`. -/
theorem toInt32_eq_neg_one {u m : Nat} (h : u + 1 = 2 ^ 32 * m) : toInt32 u = -1 := by
  unfold toInt32
  rw [Int.bmod_def]
  omega

/-- When the middle point is truncated to `-1`, the last part of the virtual cube is the cube. -/
theorem virtualBox_mem_bboxDivide {n m : Nat}
    (hhalf : ((dimVirt + 2 ^ 64 - 1) % 2 ^ 64) / 2 + 1 = 2 ^ 32 * m) :
    virtualBox n dimVirt ∈ bboxDivide (virtualBox n dimVirt) := by
  have hlast : 2 ^ n - 1 < 2 ^ n := by
    have := Nat.two_pow_pos n
    omega
  have hmid : ∀ j < n, divideMid (virtualBox n dimVirt) j = -1 := by
    intro j hj
    simp only [divideMid, virtualBox, if_pos hj, Nat.zero_add, Nat.mod_mod]
    exact toInt32_eq_neg_one hhalf
  refine mem_map.2 ⟨2 ^ n - 1, mem_range.2 hlast, ?_⟩
  have hlb : (divideSub (virtualBox n dimVirt) (2 ^ n - 1)).lb = (virtualBox n dimVirt).lb := by
    funext j
    by_cases hj : j < n
    · have hbit : (2 ^ n - 1).testBit j = true := by simp [Nat.testBit_two_pow_sub_one, hj]
      have hj' : j < (virtualBox n dimVirt).numDims := hj
      simp only [divideSub, if_pos hj', hbit, if_true, hmid j hj]
      rfl
    · exact if_neg hj
  have hub : (divideSub (virtualBox n dimVirt) (2 ^ n - 1)).ub = (virtualBox n dimVirt).ub := by
    funext j
    by_cases hj : j < n
    · have hbit : (2 ^ n - 1).testBit j = true := by simp [Nat.testBit_two_pow_sub_one, hj]
      have hj' : j < (virtualBox n dimVirt).numDims := hj
      simp only [divideSub, if_pos hj', hbit, if_true]
    · rw [divideSub, virtualBox]
      simp only [if_neg hj]
  exact Bbox.mk.injEq .. ▸ ⟨rfl, hlb, hub⟩

theorem not_decompositionEnds_of_truncated {m : Nat}
    (hhalf : ((dimVirt + 2 ^ 64 - 1) % 2 ^ 64) / 2 + 1 = 2 ^ 32 * m)
    (hinc : bboxInclude bb (virtualBox bb.numDims dimVirt) = false)
    (hint : bboxDoesIntersect bb (virtualBox bb.numDims dimVirt) = true) :
    ¬ DecompositionEnds P bb dimVirt := by
  apply not_decompositionEnds_of_endless (I := fun b => b = virtualBox bb.numDims dimVirt)
  · rintro b rfl
    exact ⟨_, candidateExpand_of_divided hinc hint ▸ virtualBox_mem_bboxDivide hhalf, rfl⟩
  · rfl

/-- The middle of a cube of side `2 ^ 32` is the largest `int`. -/
theorem not_decompositionEnds_two_pow_32 (hinc : bboxInclude bb (virtualBox bb.numDims (2 ^ 32)) = false)
    (hint : bboxDoesIntersect bb (virtualBox bb.numDims (2 ^ 32)) = true) :
    ¬ DecompositionEnds P bb (2 ^ 32) := by
  intro h
  have hpos : 0 < bb.numDims := by
    rcases Nat.eq_zero_or_pos bb.numDims with hzero | hpos
    · simp [bboxInclude, hzero] at hinc
    · exact hpos
  have hdef := h.midDefined _ Relation.ReflTransGen.refl hinc hint 0 hpos
  have hmid : divideMid (virtualBox bb.numDims (2 ^ 32)) 0 = 2 ^ 31 - 1 := by
    simp only [divideMid, virtualBox, if_pos hpos]
    decide
  rw [hmid] at hdef
  omega

/-! ## The exact condition -/

/-- Both decompositions of a box end exactly when it is `Decomposable`. -/
theorem decompositionEnds_iff (hd : bb.numDims ≤ bboxMaxNdim)
    (hV : dimVirt = 0 ∨ ∃ K, K < 64 ∧ dimVirt = 2 ^ K) :
    DecompositionEnds P bb dimVirt ↔ Decomposable bb dimVirt := by
  constructor
  · intro h
    cases hinc : bboxInclude bb (virtualBox bb.numDims dimVirt) with
    | true => exact Or.inl hinc
    | false =>
      cases hint : bboxDoesIntersect bb (virtualBox bb.numDims dimVirt) with
      | false => exact Or.inr (Or.inl hint)
      | true =>
        right
        right
        obtain rfl | ⟨K, hK, rfl⟩ := hV
        · exact absurd h (not_decompositionEnds_of_truncated (m := 2 ^ 31) (by decide) hinc hint)
        · rcases Nat.lt_trichotomy K 32 with hlt | rfl | hgt
          · refine ⟨?_, (Nat.two_pow_pos K).ne', Nat.pow_le_pow_right (by omega) (by omega)⟩
            by_contra hwf
            exact not_decompositionEnds_of_inverted (by omega) hwf hint h
          · exact absurd h (not_decompositionEnds_two_pow_32 hinc hint)
          · refine absurd h (not_decompositionEnds_of_truncated (m := 2 ^ (K - 33)) ?_ hinc hint)
            have hsplit : 2 ^ K = 2 ^ 33 * 2 ^ (K - 33) := by
              rw [← pow_add]
              congr 1
              omega
            have hlt : 2 ^ K < 2 ^ 64 := Nat.pow_lt_pow_right (by omega) hK
            have hpos := Nat.two_pow_pos (K - 33)
            omega
  · rintro (hinc | hint | ⟨hwf, hne, hle⟩)
    · exact decompositionEnds_of_leaf hd (Or.inl hinc)
    · exact decompositionEnds_of_leaf hd (Or.inr hint)
    · obtain rfl | ⟨K, -, rfl⟩ := hV
      · exact absurd rfl hne
      · exact decompositionEnds_of_wf ((Nat.pow_le_pow_iff_right (by omega)).1 hle) hd hwf

/-- The side of the virtual cube is a power of two that fits a word, or zero. -/
theorem virtualDim_eq_zero_or_pow {D : Bbox} (hpos : 0 < D.numDims) (hub : ∀ i < D.numDims, D.ub i < 2 ^ 64) :
    virtualDim D = 0 ∨ ∃ K, K < 64 ∧ virtualDim D = 2 ^ K := by
  obtain ⟨-, j, hj, hmax⟩ := maxUb_spec hpos
  have hlt := hub j hj
  rw [← hmax] at hlt
  have hpos' : 0 < if maxUb D = 0 then 1 else maxUb D := by split <;> omega
  obtain ⟨k, hk, heq, -, -⟩ := nextPow2Loop_spec hpos' 64 (by split <;> omega)
  have hdim : virtualDim D = 2 ^ (k + 1) % 2 ^ 64 := by
    rw [virtualDim, nextPow2, heq, ← pow_succ]
  rcases Nat.lt_or_ge (k + 1) 64 with hlt | hge
  · right
    refine ⟨k + 1, hlt, ?_⟩
    rw [hdim, Nat.mod_eq_of_lt (Nat.pow_lt_pow_right (by omega) hlt)]
  · left
    have hk' : k + 1 = 64 := by omega
    rw [hdim, hk', Nat.mod_self]

/-- `ssd_alloc_v1` ends on the domain, and `ssd_hash_v1` ends on the box. -/
def HashingTerminates (P : Platform) (D bb : Bbox) : Prop :=
  DecompositionEnds P D (virtualDim D) ∧ DecompositionEnds P bb (virtualDim D)

/-- Hashing a box in a domain with 64-bit sizes ends exactly when the domain and the box are decomposable
in the virtual cube of the domain. -/
theorem hashingTerminates_iff {D bb : Bbox} (hpos : 0 < D.numDims) (hD : D.numDims ≤ bboxMaxNdim)
    (hub : ∀ i < D.numDims, D.ub i < 2 ^ 64) (hbb : bb.numDims ≤ bboxMaxNdim) : HashingTerminates P D bb ↔
      Decomposable D (virtualDim D) ∧ Decomposable bb (virtualDim D) := by
  have hV := virtualDim_eq_zero_or_pow hpos hub
  rw [HashingTerminates, decompositionEnds_iff hD hV, decompositionEnds_iff hbb hV]

/-- A line of eight cells and the box of its cells `2` to `5`. -/
theorem hashingTerminates_line :
    HashingTerminates referencePlatform ⟨1, fun _ => 0, fun _ => 7⟩ ⟨1, fun _ => 2, fun _ => 5⟩ :=
  (hashingTerminates_iff (by decide) (by decide) (by decide) (by decide)).2
    ⟨Or.inr (Or.inr ⟨by decide, by decide, by decide⟩), Or.inr (Or.inr ⟨by decide, by decide, by decide⟩)⟩

/-- In the same line, a box with lower end `5` and upper end `2` is decomposed for ever. -/
theorem not_hashingTerminates_inverted :
    ¬ HashingTerminates referencePlatform ⟨1, fun _ => 0, fun _ => 7⟩ ⟨1, fun _ => 5, fun _ => 2⟩ := by
  have hdim : virtualDim ⟨1, fun _ => 0, fun _ => 7⟩ = 2 ^ 3 := by decide
  rintro ⟨-, hbox⟩
  rw [hdim] at hbox
  exact not_decompositionEnds_of_inverted (by decide) (by decide) (by decide) hbox

end DataSpaces.Space
