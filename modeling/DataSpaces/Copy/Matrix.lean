import DataSpaces.Lib.MixedRadix
import DataSpaces.Lib.Writes
import DataSpaces.Store.Tables

/-!
# Copying between arrays

The copy routines of `ss_data.c`. `matrix_copy` is a nest of up to ten loops which is entered at the
loop of the outermost dimension of the array; the innermost two are one `memcpy` of a row. The loops
compute the offsets of a row in both arrays in unsigned 64-bit arithmetic. In the tenth loop the source
takes the offset of both arrays from the index of the destination.

`copyLoops_writes` says which bytes the loops write, round by round. `matrixCopy_eq` turns the fall
through to the tenth loop into the same loops with another view of the source.
-/

namespace DataSpaces.Copy

open Lib Geometry Store List Function

/-! ## The source -/

/-- `struct matrix_desc` with its `struct matrix_view`. -/
structure MatrixDesc where
  dist : Nat → Nat
  numDims : Nat
  sizeElem : Nat
  matStorage : StorageType
  lb : Nat → Nat
  ub : Nat → Nat

/-- Describe the part `bbLoc` of an array over `bbGlb`; what lies beyond the dimensions is cleared. -/
def matrixInit (st : StorageType) (bbGlb bbLoc : Bbox) (se : Nat) : MatrixDesc where
  dist := fun i => if i < bbGlb.numDims then bboxDist bbGlb i else 0
  numDims := bbGlb.numDims
  sizeElem := se
  matStorage := st
  -- Unsigned subtraction: the offset of the part within the whole array.
  lb := fun i => if i < bbGlb.numDims then (bbLoc.lb i + 2 ^ 64 - bbGlb.lb i) % 2 ^ 64 else 0
  ub := fun i => if i < bbGlb.numDims then (bbLoc.ub i + 2 ^ 64 - bbGlb.lb i) % 2 ^ 64 else 0

def memcpy (A : Mem) (dst : Nat) (B : Mem) (src n : Nat) : Mem :=
  fun p => if dst ≤ p ∧ p < dst + n then B (src + (p - dst)) else A p

/-- The loops over the dimensions `k` to `0`. The index of the outermost one takes the rounds
`a.lb k, …, a.ub k`, and the index into the source runs along. -/
def copyLoops (a b : MatrixDesc) (B : Mem) : Nat → Nat → Nat → Mem → Mem
  | 0, aloc1, bloc1, A =>
    let numelem := ((a.ub 0 + 2 ^ 64 - a.lb 0) % 2 ^ 64 + 1) % 2 ^ 64
    let aloc := (aloc1 + a.lb 0) % 2 ^ 64
    let bloc := (bloc1 + b.lb 0) % 2 ^ 64
    memcpy A (aloc * a.sizeElem % 2 ^ 64) B (bloc * a.sizeElem % 2 ^ 64) (a.sizeElem * numelem % 2 ^ 64)
  | k + 1, aloc, bloc, A =>
    (range (a.ub (k + 1) + 1 - a.lb (k + 1))).foldl (fun A t =>
      copyLoops a b B k ((aloc + (a.lb (k + 1) + t)) * a.dist k % 2 ^ 64)
        ((bloc + (b.lb (k + 1) + t)) * b.dist k % 2 ^ 64) A) A

/-- Copy the view `b` of `B` to the view `a` of `A`. Up to nine dimensions the loops are entered in the
middle, with zero offsets; any other number falls through to the tenth loop. -/
def matrixCopy (a : MatrixDesc) (A : Mem) (b : MatrixDesc) (B : Mem) : Mem :=
  if 1 ≤ a.numDims ∧ a.numDims ≤ 9 then copyLoops a b B (a.numDims - 1) 0 0 A
  else
    (range (a.ub 9 + 1 - a.lb 9)).foldl (fun A t =>
      let a9 := a.lb 9 + t
      -- Both offsets are computed from the index into the destination.
      copyLoops a b B 8 (a9 * a.dist 8 % 2 ^ 64) (a9 * b.dist 8 % 2 ^ 64) A) A

/-! ## What the loops write -/

theorem memcpy_writes (dst : Nat) (B : Mem) (src n : Nat) :
    Writes (fun A => memcpy A dst B src n) fun p v => ∃ r < n, p = dst + r ∧ v = B (src + r) where
  written := by
    rintro A p v ⟨r, hr, rfl, rfl⟩
    rw [memcpy, if_pos ⟨Nat.le_add_right dst r, Nat.add_lt_add_left hr dst⟩, Nat.add_sub_cancel_left]
  kept := by
    intro A p hp
    rw [memcpy, if_neg]
    rintro ⟨hle, hlt⟩
    refine hp _ ⟨p - dst, ?_, ?_, rfl⟩
    · omega
    · omega

/-- The number of rounds of the loop over a dimension. -/
def MatrixDesc.count (a : MatrixDesc) (i : Nat) : Nat := a.ub i + 1 - a.lb i

/-- The offset of the cell that the loops reach in the rounds `t k, …, t 0`. -/
def MatrixDesc.at (m : MatrixDesc) (k acc : Nat) (t : Nat → Nat) : Nat :=
  offset m.dist k acc fun i => m.lb i + t i

variable (m : MatrixDesc)

theorem MatrixDesc.at_succ (k acc : Nat) (t : Nat → Nat) :
    m.at (k + 1) acc t = m.at k ((acc + (m.lb (k + 1) + t (k + 1))) * m.dist k) t := rfl

theorem MatrixDesc.at_congr {k acc : Nat} {t t' : Nat → Nat}
    (h : ∀ i ≤ k, t i = t' i) : m.at k acc t = m.at k acc t' :=
  offset_congr (fun _ _ => rfl) fun i hi => by rw [h i hi]

/-- One more round at the outside. -/
theorem MatrixDesc.at_update (k acc s : Nat) (t : Nat → Nat) :
    m.at (k + 1) acc (Function.update t (k + 1) s) = m.at k ((acc + (m.lb (k + 1) + s)) * m.dist k) t := by
  rw [m.at_succ, update_self]
  apply m.at_congr
  intro i hi
  rw [update_of_ne (by omega)]

theorem mod_add_mul_mod (x d n m : Nat) : (x % m + d) * n % m = (x + d) * n % m := by
  rw [Nat.mul_mod, Nat.mod_add_mod, ← Nat.mul_mod]

/-- The accumulators count modulo `2 ^ 64` only. -/
theorem copyLoops_mod (a b : MatrixDesc) (B : Mem) (k aloc bloc : Nat) (A : Mem) :
    copyLoops a b B k (aloc % 2 ^ 64) (bloc % 2 ^ 64) A = copyLoops a b B k aloc bloc A := by
  cases k with
  | zero => simp only [copyLoops, Nat.mod_add_mod]
  | succ k => simp only [copyLoops, mod_add_mul_mod]

section

variable {a b : MatrixDesc} {B : Mem}

/-- The rounds of the loops over the dimensions up to `k`. -/
def MatrixDesc.Rounds (a : MatrixDesc) (k : Nat) (t : Nat → Nat) : Prop := ∀ i ≤ k, t i < a.count i

variable {k aloc bloc : Nat} {s acc p : Nat} {v : Option UInt8}

theorem MatrixDesc.Rounds.update {t : Nat → Nat} (ht : a.Rounds k t) (hs : s < a.count (k + 1)) :
    a.Rounds (k + 1) (Function.update t (k + 1) s) := by
  intro i hi
  by_cases hik : i = k + 1
  · rw [hik, update_self]
    exact hs
  · rw [update_of_ne hik]
    exact ht i (by omega)

/-- The bytes that the loops over the dimensions up to `k` write. -/
def CellWrites (a b : MatrixDesc) (B : Mem) (k aloc bloc p : Nat) (v : Option UInt8) : Prop :=
  ∃ t, a.Rounds k t ∧ ∃ r < a.sizeElem,
    p = a.sizeElem * a.at k aloc t + r ∧ v = B (a.sizeElem * b.at k bloc t + r)

/-- Every cell that the loops reach lies below `2 ^ 64` bytes. -/
def Addressable (a m : MatrixDesc) (k acc : Nat) : Prop :=
  ∀ t, a.Rounds k t → a.sizeElem * m.at k acc t + a.sizeElem < 2 ^ 64

/-- A row of cells is a block of bytes. -/
theorem row_writes (hview : a.lb 0 ≤ a.ub 0 ∧ a.ub 0 < 2 ^ 64) (hA : Addressable a a 0 aloc)
    (hB : Addressable a b 0 bloc) : Writes (copyLoops a b B 0 aloc bloc) (CellWrites a b B 0 aloc bloc) := by
  have hcount : ((a.ub 0 + 2 ^ 64 - a.lb 0) % 2 ^ 64 + 1) % 2 ^ 64 = a.count 0 % 2 ^ 64 := by
    rw [Nat.mod_add_mod, MatrixDesc.count,
      show a.ub 0 + 2 ^ 64 - a.lb 0 + 1 = a.ub 0 + 1 - a.lb 0 + 2 ^ 64 by omega, Nat.add_mod_right]
  have hpos : 0 < a.count 0 := by
    rw [MatrixDesc.count]
    omega
  -- Neither the two addresses nor the length wrap around.
  have hfirst : a.Rounds 0 fun _ => 0 := fun i hi => by rw [Nat.le_zero.1 hi]; exact hpos
  have hlast : a.Rounds 0 fun _ => a.count 0 - 1 := fun i hi => by
    rw [Nat.le_zero.1 hi]
    exact Nat.sub_lt hpos Nat.one_pos
  have hdst : (aloc + a.lb 0) % 2 ^ 64 * a.sizeElem % 2 ^ 64 = a.sizeElem * (aloc + a.lb 0) := by
    rw [Nat.mod_mul_mod, Nat.mul_comm]
    exact Nat.mod_eq_of_lt (Nat.lt_of_le_of_lt (Nat.le_add_right _ _) (hA _ hfirst))
  have hsrc : (bloc + b.lb 0) % 2 ^ 64 * a.sizeElem % 2 ^ 64 = a.sizeElem * (bloc + b.lb 0) := by
    rw [Nat.mod_mul_mod, Nat.mul_comm]
    exact Nat.mod_eq_of_lt (Nat.lt_of_le_of_lt (Nat.le_add_right _ _) (hB _ hfirst))
  have hlen : a.sizeElem * (a.count 0 % 2 ^ 64) % 2 ^ 64 = a.sizeElem * a.count 0 := by
    rw [Nat.mul_mod_mod]
    apply Nat.mod_eq_of_lt
    calc a.sizeElem * a.count 0 ≤ a.sizeElem * (aloc + (a.lb 0 + (a.count 0 - 1)) + 1) :=
          Nat.mul_le_mul_left _ (by omega)
      _ < 2 ^ 64 := hA _ hlast
  have hrow : copyLoops a b B 0 aloc bloc = fun A =>
      memcpy A (a.sizeElem * (aloc + a.lb 0)) B (a.sizeElem * (bloc + b.lb 0))
        (a.sizeElem * a.count 0) := by
    funext A
    rw [copyLoops, hcount, hdst, hsrc, hlen]
  rw [hrow]
  refine (memcpy_writes _ B _ _).congr fun p v => ?_
  constructor
  · -- Byte `s` of the block is byte `s % sizeElem` of cell `s / sizeElem`.
    rintro ⟨s, hs, rfl, rfl⟩
    have hse : 0 < a.sizeElem := Nat.pos_of_ne_zero fun h => by
      rw [h, Nat.zero_mul] at hs
      exact Nat.not_lt_zero s hs
    have hsplit := Nat.div_add_mod s a.sizeElem
    refine ⟨fun _ => s / a.sizeElem, fun i hi => ?_, s % a.sizeElem, Nat.mod_lt _ hse, ?_, ?_⟩
    · rw [Nat.le_zero.1 hi]
      exact Nat.div_lt_of_lt_mul hs
    · show _ = a.sizeElem * (aloc + (a.lb 0 + s / a.sizeElem)) + s % a.sizeElem
      rw [← Nat.add_assoc, Nat.mul_add _ (aloc + a.lb 0), Nat.add_assoc, hsplit]
    · show _ = B (a.sizeElem * (bloc + (b.lb 0 + s / a.sizeElem)) + s % a.sizeElem)
      rw [← Nat.add_assoc bloc, Nat.mul_add _ (bloc + b.lb 0), Nat.add_assoc (_ * (bloc + _)), hsplit]
  · rintro ⟨t, ht, r, hr, rfl, rfl⟩
    refine ⟨a.sizeElem * t 0 + r, ?_, ?_, ?_⟩
    · calc a.sizeElem * t 0 + r < a.sizeElem * t 0 + a.sizeElem := Nat.add_lt_add_left hr _
        _ = a.sizeElem * (t 0 + 1) := (Nat.mul_succ _ _).symm
        _ ≤ a.sizeElem * a.count 0 := Nat.mul_le_mul_left _ (ht 0 le_rfl)
    · show a.sizeElem * (aloc + (a.lb 0 + t 0)) + r = _
      ring
    · show B (a.sizeElem * (bloc + (b.lb 0 + t 0)) + r) = _
      congr 1
      ring

/-- Two rounds that write the same byte are the same round. -/
theorem CellWrites.agree {acc' bloc' : Nat} {v' : Option UInt8} (hin : ∀ i ≤ k, a.ub i < a.dist i)
    (hv : CellWrites a b B k (acc * a.dist k) (bloc * b.dist k) p v)
    (hv' : CellWrites a b B k (acc' * a.dist k) (bloc' * b.dist k) p v') :
    acc = acc' ∧ (bloc = bloc' → v = v') := by
  obtain ⟨t, ht, r, hr, rfl, rfl⟩ := hv
  obtain ⟨t', ht', r', hr', hp, rfl⟩ := hv'
  rw [Nat.mul_comm _ (a.at _ _ _), Nat.mul_comm _ (a.at _ _ _)] at hp
  obtain ⟨hat, rfl⟩ := eq_and_eq_of_mul_add_eq hr hr' hp
  have hindex : ∀ t, a.Rounds k t → ∀ i ≤ k, a.lb i + t i < a.dist i := by
    intro t ht i hi
    have hlt := ht i hi
    have hle := hin i hi
    rw [MatrixDesc.count] at hlt
    omega
  obtain ⟨hacc, hsame⟩ := offset_mul_injective (hindex t ht) (hindex t' ht') hat
  refine ⟨hacc, ?_⟩
  rintro rfl
  have hround : ∀ i ≤ k, t i = t' i := fun i hi => Nat.add_left_cancel (hsame i hi)
  rw [b.at_congr hround]

/-- The loops over the dimensions up to `k + 1` are a loop over the ones up to `k`. -/
theorem cellWrites_succ_iff : (∃ s ∈ range (a.count (k + 1)),
        CellWrites a b B k ((aloc + (a.lb (k + 1) + s)) * a.dist k)
          ((bloc + (b.lb (k + 1) + s)) * b.dist k) p v) ↔ CellWrites a b B (k + 1) aloc bloc p v := by
  constructor
  · rintro ⟨s, hs, t, ht, r, hr, rfl, rfl⟩
    refine ⟨Function.update t (k + 1) s, ht.update (mem_range.1 hs), r, hr, ?_, ?_⟩
    · rw [a.at_update]
    · rw [b.at_update]
  · rintro ⟨t, ht, r, hr, rfl, rfl⟩
    exact ⟨t (k + 1), mem_range.2 (ht (k + 1) le_rfl), t,
      fun i hi => ht i (Nat.le_succ_of_le hi), r, hr, rfl, rfl⟩

/-- One round of the loop over dimension `k + 1` stays addressable. -/
theorem Addressable.round {m : MatrixDesc} (h : Addressable a m (k + 1) acc)
    (hs : s < a.count (k + 1)) : Addressable a m k ((acc + (m.lb (k + 1) + s)) * m.dist k) := by
  intro t ht
  have hfits := h _ (ht.update hs)
  rw [m.at_update] at hfits
  exact hfits

/-- The loops write every cell of the view, and nothing else. -/
theorem copyLoops_writes (hview : ∀ i ≤ k, a.lb i ≤ a.ub i ∧ a.ub i < 2 ^ 64)
    (hin : ∀ i < k, a.ub i < a.dist i) (hA : Addressable a a k aloc) (hB : Addressable a b k bloc) :
    Writes (copyLoops a b B k aloc bloc) (CellWrites a b B k aloc bloc) := by
  induction k generalizing aloc bloc with
  | zero => exact row_writes (hview 0 le_rfl) hA hB
  | succ k ih =>
    have hin' : ∀ i ≤ k, a.ub i < a.dist i := fun i hi => hin i (Nat.lt_succ_of_le hi)
    have hround : ∀ s ∈ range (a.count (k + 1)),
        Writes (copyLoops a b B k ((aloc + (a.lb (k + 1) + s)) * a.dist k % 2 ^ 64)
            ((bloc + (b.lb (k + 1) + s)) * b.dist k % 2 ^ 64))
          (CellWrites a b B k ((aloc + (a.lb (k + 1) + s)) * a.dist k)
            ((bloc + (b.lb (k + 1) + s)) * b.dist k)) := by
      intro s hs
      have hs' := mem_range.1 hs
      have hwrites := ih (fun i hi => hview i (Nat.le_succ_of_le hi))
        (fun i hi => hin i (Nat.lt_succ_of_lt hi)) (hA.round hs') (hB.round hs')
      convert hwrites using 1
      funext A
      exact copyLoops_mod ..
    refine (Writes.foldl hround ?_).congr fun p v => cellWrites_succ_iff
    -- Rounds of different indices write different bytes.
    intro s _ s' _ p v v' hv hv'
    obtain ⟨hacc, hval⟩ := hv.agree hin' hv'
    have hss : s = s' := by omega
    exact hval (by rw [hss])

end

/-! ## Ten dimensions -/

/-- The view of the source that the loops read: in ten dimensions its outermost index is the one into
the destination. -/
def readView (a b : MatrixDesc) : MatrixDesc :=
  if a.numDims = 10 then { b with lb := Function.update b.lb 9 (a.lb 9) } else b

theorem copyLoops_congr {a b b' : MatrixDesc} {B : Mem} {k : Nat} (hdist : b.dist = b'.dist)
    (hlb : ∀ i ≤ k, b.lb i = b'.lb i) (aloc bloc : Nat) (A : Mem) :
    copyLoops a b B k aloc bloc A = copyLoops a b' B k aloc bloc A := by
  induction k generalizing aloc bloc A with
  | zero => rw [copyLoops, copyLoops, hlb 0 le_rfl]
  | succ k ih =>
    rw [copyLoops, copyLoops, hlb (k + 1) le_rfl, hdist]
    refine foldl_ext _ _ _ fun A t _ => ?_
    exact ih (fun i hi => hlb i (Nat.le_succ_of_le hi)) _ _ A

theorem matrixCopy_eq {a b : MatrixDesc} (hpos : 1 ≤ a.numDims) (hle : a.numDims ≤ 10) (A B : Mem) :
    matrixCopy a A b B = copyLoops a (readView a b) B (a.numDims - 1) 0 0 A := by
  unfold matrixCopy readView
  by_cases hten : a.numDims = 10
  · rw [if_neg (by omega), if_pos hten, hten, copyLoops]
    refine foldl_ext _ _ _ fun A t _ => ?_
    simp only [Nat.zero_add, Nat.reduceAdd, update_self]
    apply copyLoops_congr
    · rfl
    · intro i hi
      exact (update_of_ne (by omega) _ _).symm
  · rw [if_pos ⟨hpos, by omega⟩, if_neg hten]

end DataSpaces.Copy
