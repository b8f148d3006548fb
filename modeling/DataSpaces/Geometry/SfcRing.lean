import DataSpaces.Geometry.Sfc
import DataSpaces.Lib.GroupRing

/-!
# The ring-buffer decomposition

`bbox_to_intv2` of `bbox.c` is the decomposition that hashes query boxes. It keeps the candidates in a
ring buffer of boxes whose tail moves by the `2 ^ numDims` parts of a divided box, writes the parts in
place while it reads the divided box through a pointer into the same buffer, and enlarges the buffer
when the parts would run into the group of the head.

The ring is the queue of `bbox_to_intv` at every moment (`represents_iterate`), so for every box of at
most ten dimensions, terminating or not, the two functions return the same table
(`bboxToIntv2_eq_bboxToIntv`).
-/

namespace DataSpaces.Geometry

open Lib List Function

variable (P : Platform)

/-- The main loop of `bbox_to_intv2`, visiting at most `fuel` candidates. -/
def bboxToIntv2Loop (bb : Bbox) (bpd : Nat) :
    Nat → GroupRing Bbox → List Intv → Option (List Intv)
  | 0, ring, iTab => if ring.isEmpty then some iTab else none
  | fuel + 1, ring, iTab =>
    if ring.isEmpty then some iTab
    else if bboxInclude bb ring.front then
      bboxToIntv2Loop bb bpd fuel ring.advance (iTab ++ [bboxFlat P ring.front bpd])
    else if bboxDoesIntersect bb ring.front then
      let n := 2 ^ bb.numDims
      -- The division writes its boxes into the ring, so there must be room for all of them.
      let ring := if ring.isFull n then ring.grow n P.rawBbox else ring
      bboxToIntv2Loop bb bpd fuel (ring.push n divideSub).advance iTab
    else bboxToIntv2Loop bb bpd fuel ring.advance iTab

/-- What one iteration of the loop does to the ring. -/
def ringStep (bb : Bbox) (ring : GroupRing Bbox) : GroupRing Bbox :=
  if ring.isEmpty then ring
  else if bboxInclude bb ring.front then ring.advance
  else if bboxDoesIntersect bb ring.front then
    let n := 2 ^ bb.numDims
    let ring := if ring.isFull n then ring.grow n P.rawBbox else ring
    (ring.push n divideSub).advance
  else ring.advance

/-- The buffer before the first iteration: the virtual cube in the last of `4096` slots. -/
def ringInit (root : Bbox) : GroupRing Bbox where
  tab := update P.rawBbox 4095 root
  size := 4096
  head := 4095
  tail := 0

/-- `bbox_to_intv2`. Both functions visit at most the boxes of a full division. -/
def bboxToIntv2 (bb : Bbox) (dimVirt : Nat) : Option (List Intv) :=
  let bpd := computeBits dimVirt
  (bboxToIntv2Loop P bb bpd (2 ^ (bb.numDims * bpd))
    (ringInit P (virtualBox bb.numDims dimVirt)) []).map
      fun iTab => intvCompact P (qsortIntv iTab)

variable {P} {bb : Bbox}

theorem ringInit_represents (hd : bb.numDims ≤ bboxMaxNdim) (root : Bbox) :
    (ringInit P root).Represents (2 ^ bb.numDims) [root] := by
  have hpow : 2 ^ bb.numDims ≤ 2 ^ 10 := Nat.pow_le_pow_right (by omega) hd
  have hpos := Nat.two_pow_pos bb.numDims
  have hdvd : 2 ^ bb.numDims ∣ 4096 := by
    have : (4096 : Nat) = 2 ^ 12 := by norm_num
    rw [this]
    exact pow_dvd_pow 2 (le_trans hd (by decide))
  refine ⟨hpos, hdvd, dvd_zero _, ?_, ?_, ?_, Or.inr (by simp [ringInit]), ?_, ?_⟩
  · show 2 * 2 ^ bb.numDims ≤ 4096
    omega
  · show 4095 < 4096
    omega
  · show 0 < 4096
    omega
  · show 4095 % 2 ^ bb.numDims + 1 + 2 ^ bb.numDims ≤ 4096
    have := Nat.mod_lt 4095 hpos
    omega
  · intro i hi
    have hi0 : i = 0 := by simpa using hi
    subst hi0
    show update P.rawBbox 4095 root 4095 = root
    exact update_self ..

/-- One iteration of the loop: the ring takes a step, and the front may add an interval. -/
theorem bboxToIntv2Loop_succ (bb : Bbox) (bpd fuel : Nat) (ring : GroupRing Bbox) (iTab : List Intv)
    (hne : ring.isEmpty = false) : bboxToIntv2Loop P bb bpd (fuel + 1) ring iTab =
      bboxToIntv2Loop P bb bpd fuel (ringStep P bb ring) (iTab ++ candidateEmit P bb bpd ring.front) := by
  rw [bboxToIntv2Loop, ringStep, candidateEmit, hne]
  simp only [Bool.false_eq_true, if_false]
  split
  · rfl
  · split <;> simp

/-- One step of a ring that holds a queue of boxes gives the ring that holds the next queue. The division
is the only case that writes: it finds room, after growing if need be, and leaves the boxes of the queue
as they are. -/
theorem represents_ringStep {ring : GroupRing Bbox} {q : List Bbox} (h : ring.Represents (2 ^ bb.numDims) q)
    (hdims : ∀ b ∈ q, b.numDims = bb.numDims) :
    (ringStep P bb ring).Represents (2 ^ bb.numDims) (Worklist.next (candidateExpand bb) q) := by
  cases q with
  | nil =>
    rw [ringStep, if_pos (h.isEmpty_iff.2 rfl)]
    exact h
  | cons a q =>
    have hne : ¬ ring.isEmpty = true := fun he => by cases h.isEmpty_iff.1 he
    rw [ringStep, if_neg hne, Worklist.next, h.front_eq]
    obtain ⟨hinc | hint, he⟩ | ⟨hinc, hint, he⟩ := candidateExpand_cases bb a
    · rw [if_pos hinc, he, append_nil]
      exact h.advance
    · rw [if_neg (by simp [hint] : ¬ bboxDoesIntersect bb a = true), ite_self, he, append_nil]
      exact h.advance
    · have hsub : (range (2 ^ bb.numDims)).map (divideSub a) = bboxDivide a := by
        rw [bboxDivide, hdims a mem_cons_self]
      rw [if_neg (by simp [hinc]), if_pos hint, he, ← hsub]
      dsimp only
      cases hfull : ring.isFull (2 ^ bb.numDims) with
      | false =>
        rw [if_neg Bool.false_ne_true]
        exact (h.push hfull divideSub).advance
      | true =>
        rw [if_pos rfl]
        obtain ⟨hgrow, hfull'⟩ := h.grow hfull P.rawBbox
        exact (hgrow.push hfull' divideSub).advance

/-- Every pending box has the dimensions of the box that is decomposed. -/
theorem numDims_of_mem_next {q : List Bbox} (hdims : ∀ b ∈ q, b.numDims = bb.numDims) :
    ∀ b ∈ Worklist.next (candidateExpand bb) q, b.numDims = bb.numDims := by
  cases q with
  | nil => exact hdims
  | cons a q =>
    intro b hb
    rcases mem_append.1 hb with hb | hb
    · exact hdims b (mem_cons_of_mem _ hb)
    · rw [numDims_of_mem_candidateExpand hb, hdims a mem_cons_self]

/-- The ring holds the queue after any number of iterations. -/
theorem represents_iterate (k : Nat) : ∀ (ring : GroupRing Bbox) (q : List Bbox),
    ring.Represents (2 ^ bb.numDims) q → (∀ b ∈ q, b.numDims = bb.numDims) →
      ((ringStep P bb)^[k] ring).Represents (2 ^ bb.numDims)
        ((Worklist.next (candidateExpand bb))^[k] q) := by
  induction k with
  | zero => exact fun _ _ h _ => h
  | succ k ih =>
    intro ring q h hdims
    exact ih _ _ (represents_ringStep h hdims) (numDims_of_mem_next hdims)

/-- The loop over the ring is the loop over the queue that the ring holds. The induction is on the
number of candidates visited; every candidate has the dimensions of the box. -/
theorem bboxToIntv2Loop_eq_run {bpd : Nat} (fuel : Nat) :
    ∀ (ring : GroupRing Bbox) (q : List Bbox) (out : List Intv),
      ring.Represents (2 ^ bb.numDims) q → (∀ b ∈ q, b.numDims = bb.numDims) →
      bboxToIntv2Loop P bb bpd fuel ring out =
        Worklist.run (candidateEmit P bb bpd) (candidateExpand bb) fuel q out := by
  induction fuel with
  | zero =>
    intro ring q out h _
    cases q with
    | nil => rw [bboxToIntv2Loop, if_pos (h.isEmpty_iff.2 rfl), Worklist.run]
    | cons a q =>
      have hne : ¬ ring.isEmpty = true := fun he => by cases h.isEmpty_iff.1 he
      rw [bboxToIntv2Loop, if_neg hne, Worklist.run]
  | succ fuel ih =>
    intro ring q out h hdims
    cases q with
    | nil => rw [bboxToIntv2Loop, if_pos (h.isEmpty_iff.2 rfl), Worklist.run]
    | cons a q =>
      have hne : ring.isEmpty = false := by
        rw [← Bool.not_eq_true]
        exact fun he => by cases h.isEmpty_iff.1 he
      rw [bboxToIntv2Loop_succ _ _ _ _ _ hne, Worklist.run, h.front_eq]
      exact ih _ _ _ (represents_ringStep h hdims) (numDims_of_mem_next hdims)

theorem numDims_of_mem_virtualBox (bb : Bbox) (dimVirt : Nat) :
    ∀ b ∈ [virtualBox bb.numDims dimVirt], b.numDims = bb.numDims := by
  intro b hb
  rw [mem_singleton.1 hb, virtualBox]

/-- The two decompositions compute the same table, for every box, every virtual dimension and every
contents of fresh memory. -/
theorem bboxToIntv2_eq_bboxToIntv (hd : bb.numDims ≤ bboxMaxNdim) (dimVirt : Nat) :
    bboxToIntv2 P bb dimVirt = bboxToIntv P bb dimVirt := by
  rw [bboxToIntv2, bboxToIntv]
  rw [bboxToIntv2Loop_eq_run _ _ _ [] (ringInit_represents hd _) (numDims_of_mem_virtualBox bb dimVirt)]

/-- On a well-formed box both decompositions end with the same table, and at every moment the ring holds
the boxes that are pending in the queue, in the same order. -/
theorem bboxToIntv2_agrees {K : Nat} {bb : Bbox} (hd : bb.numDims ≤ 10) (hK : K ≤ 31) (hwf : bb.Wf) :
    (∃ tab, bboxToIntv P bb (2 ^ K) = some tab ∧ bboxToIntv2 P bb (2 ^ K) = some tab) ∧
      ∀ k, ((ringStep P bb)^[k] (ringInit P (virtualBox bb.numDims (2 ^ K)))).Represents
        (2 ^ bb.numDims) ((Worklist.next (candidateExpand bb))^[k] [virtualBox bb.numDims (2 ^ K)]) := by
  constructor
  · obtain ⟨tab, htab⟩ := exists_bboxToIntv (P := P) hK hwf
    exact ⟨tab, htab, by rw [bboxToIntv2_eq_bboxToIntv hd, htab]⟩
  · intro k
    exact represents_iterate k _ _ (ringInit_represents hd (virtualBox bb.numDims (2 ^ K)))
      (numDims_of_mem_virtualBox bb (2 ^ K))

/-- A plane box in a virtual cube of side `8`. -/
theorem bboxToIntv2_agrees_plane :
    (∃ tab, bboxToIntv referencePlatform ⟨2, fun _ => 1, fun _ => 6⟩ (2 ^ 3) = some tab ∧
        bboxToIntv2 referencePlatform ⟨2, fun _ => 1, fun _ => 6⟩ (2 ^ 3) = some tab) ∧
      ∀ k, ((ringStep referencePlatform ⟨2, fun _ => 1, fun _ => 6⟩)^[k]
        (ringInit referencePlatform (virtualBox 2 (2 ^ 3)))).Represents (2 ^ 2)
          ((Worklist.next (candidateExpand ⟨2, fun _ => 1, fun _ => 6⟩))^[k] [virtualBox 2 (2 ^ 3)]) :=
  bboxToIntv2_agrees (by decide) (by decide) (by decide)

end DataSpaces.Geometry
