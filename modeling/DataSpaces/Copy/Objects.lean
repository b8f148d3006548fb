import DataSpaces.Copy.Matrix

/-!
# Copying between objects

`ssd_copy` copies the common part of two objects, `ssd_copy_list` the common parts with the objects of a
list. `ssdCopy_writes` says what a copy does in terms of cells: a cell of both boxes gets the value of
one cell of the source, `readCell`, and no other byte of the destination changes. Up to nine dimensions
`readCell` is the cell itself. In ten dimensions the source is read as if its box started where the
destination starts along the tenth one.
-/

namespace DataSpaces.Copy

open Lib Geometry Store List Function

/-- Copy the common part of two objects. -/
def ssdCopy (toObj fromObj : ObjData) : ObjData :=
  let bbcom := bboxIntersect toObj.objDesc.bb fromObj.objDesc.bb
  let fromMat := matrixInit fromObj.objDesc.st fromObj.objDesc.bb bbcom fromObj.objDesc.size
  let toMat := matrixInit toObj.objDesc.st toObj.objDesc.bb bbcom toObj.objDesc.size
  { toObj with data := matrixCopy toMat toObj.data fromMat fromObj.data }

/-- Copy from a list of objects, in the order of the list. -/
def ssdCopyList (toObj : ObjData) (odList : List ObjData) : ObjData := odList.foldl ssdCopy toObj

/-! ## Cells of an array -/

/-- The number of the cell `x` in an array over the box. -/
def cellOffset (bb : Bbox) (x : Coord) : Nat :=
  offset (bboxDist bb) (bb.numDims - 1) 0 fun i => x i - bb.lb i

/-- Byte `r` of the cell `x` of an object. -/
def cellByte (od : ObjData) (x : Coord) (r : Nat) : Option UInt8 :=
  od.data (od.objDesc.size * cellOffset od.objDesc.bb x + r)

/-- The cell of the array over `src` that a copy reads for the cell `x` of the array over `dst`. -/
def readCell (dst src : Bbox) (x : Coord) : Coord :=
  if dst.numDims = 10 then update x 9 (src.lb 9 + (x 9 - dst.lb 9)) else x

variable {dst src bb : Bbox} {x y : Coord}

theorem readCell_of_ne (h : dst.numDims ≠ 10) (x : Coord) : readCell dst src x = x :=
  if_neg h

/-- The cell that is read lies in the source, except along the outermost dimension. -/
theorem readCell_bounds (hdims : src.numDims = dst.numDims) (hx : x ∈ src) :
    (∀ i < src.numDims, src.lb i ≤ readCell dst src x i) ∧
      ∀ i < src.numDims - 1, readCell dst src x i ≤ src.ub i := by
  unfold readCell
  split
  · next hten =>
    constructor
    · intro i hi
      by_cases hi9 : i = 9
      · rw [hi9, update_self]
        exact Nat.le_add_right _ _
      · rw [update_of_ne hi9]
        exact (hx i hi).1
    · intro i hi
      rw [update_of_ne (by omega)]
      exact (hx i (by omega)).2
  · exact ⟨fun i hi => (hx i hi).1, fun i hi => (hx i (by omega)).2⟩

theorem readCell_congr (h : ∀ i < dst.numDims, x i = y i) :
    ∀ i < dst.numDims, readCell dst src x i = readCell dst src y i := by
  intro i hi
  unfold readCell
  split
  · next hten =>
    by_cases hi9 : i = 9
    · rw [hi9, update_self, update_self, h 9 (by omega)]
    · rw [update_of_ne hi9, update_of_ne hi9, h i hi]
  · exact h i hi

theorem cellOffset_congr (hpos : 0 < bb.numDims) (h : ∀ i < bb.numDims, x i = y i) :
    cellOffset bb x = cellOffset bb y :=
  offset_congr (fun _ _ => rfl) fun i hi => by rw [h i (by omega)]

/-- The next cells along the innermost dimension have the next numbers. -/
theorem cellOffset_update_zero (hy : bb.lb 0 ≤ y 0) (j : Nat) :
    cellOffset bb (update y 0 (y 0 + j)) = cellOffset bb y + j := by
  rw [cellOffset, cellOffset, ← offset_update_zero]
  apply offset_congr (fun _ _ => rfl)
  intro i _
  by_cases hi : i = 0
  · subst hi
    rw [update_self, update_self]
    omega
  · rw [update_of_ne hi, update_of_ne hi]

theorem bboxDist_eq {i : Nat} (hle : bb.lb i ≤ bb.ub i) (hlt : bb.ub i + 1 < 2 ^ 64) :
    bboxDist bb i = bb.ub i + 1 - bb.lb i := by
  rw [bboxDist, coordDist, show bb.ub i + 2 ^ 64 - bb.lb i + 1 = bb.ub i + 1 - bb.lb i + 2 ^ 64 by omega,
    Nat.add_mod_right]
  exact Nat.mod_eq_of_lt (by omega)

/-- The number determines the cell, also if the second cell lies beyond the box along the outermost
dimension. -/
theorem eq_of_cellOffset_eq (hub : ∀ i < bb.numDims, bb.ub i + 1 < 2 ^ 64) (hx : x ∈ bb)
    (hlb : ∀ i < bb.numDims, bb.lb i ≤ y i) (hinner : ∀ i < bb.numDims - 1, y i ≤ bb.ub i)
    (h : cellOffset bb x = cellOffset bb y) : ∀ i < bb.numDims, x i = y i := by
  have hdist : ∀ i < bb.numDims, bboxDist bb i = bb.ub i + 1 - bb.lb i := fun i hi =>
    bboxDist_eq (Bbox.wf_of_mem hx i hi) (hub i hi)
  have hsame := offset_injective
    (fun i hi => by
      have hxi := hx i (by omega)
      rw [hdist i (by omega)]
      omega)
    (fun i hi => by
      have hyi := hinner i hi
      have hle := hlb i (by omega)
      rw [hdist i (by omega)]
      omega) h
  intro i hi
  have hdiff := hsame i (by omega)
  have hxi := hx i hi
  have hyi := hlb i hi
  omega

/-! ## One copy -/

/-- The two boxes have the same number of dimensions and a common cell, and the bytes of the common
cells have 64-bit addresses in both arrays. -/
structure Copyable (dst src : Bbox) (se : Nat) : Prop where
  dims_pos : 0 < dst.numDims
  dims_le : dst.numDims ≤ bboxMaxNdim
  dims_eq : src.numDims = dst.numDims
  dst_lt : ∀ i < dst.numDims, dst.ub i + 1 < 2 ^ 64
  src_lt : ∀ i < dst.numDims, src.ub i + 1 < 2 ^ 64
  meet : ∃ x, x ∈ dst ∧ x ∈ src
  dst_fits : ∀ x, x ∈ dst → x ∈ src → se * cellOffset dst x + se < 2 ^ 64
  src_fits : ∀ x, x ∈ dst → x ∈ src → se * cellOffset src (readCell dst src x) + se < 2 ^ 64

namespace Copyable

variable {dst src : Bbox} {se : Nat} {i : Nat}

/-- The bounds of the common box in one dimension. -/
theorem bounds (h : Copyable dst src se) (hi : i < dst.numDims) :
    dst.lb i ≤ (bboxIntersect dst src).lb i ∧ src.lb i ≤ (bboxIntersect dst src).lb i ∧
      (bboxIntersect dst src).lb i ≤ (bboxIntersect dst src).ub i ∧
      (bboxIntersect dst src).ub i ≤ dst.ub i ∧ (bboxIntersect dst src).ub i ≤ src.ub i := by
  obtain ⟨x, hx, hx'⟩ := h.meet
  have h1 := hx i hi
  have h2 := hx' i (by rw [h.dims_eq]; exact hi)
  simp only [bboxIntersect]
  split_ifs <;> omega

variable (st : StorageType)

/-- Views that start inside the array do not wrap around. -/
theorem view_eq {glb loc : Bbox} (hi : i < glb.numDims) (hlb : glb.lb i ≤ loc.lb i)
    (hle : loc.lb i ≤ loc.ub i) (hlt : loc.ub i < 2 ^ 64) :
    (matrixInit st glb loc se).lb i = loc.lb i - glb.lb i ∧
      (matrixInit st glb loc se).ub i = loc.ub i - glb.lb i := by
  simp only [matrixInit, if_pos hi]
  constructor
  · rw [show loc.lb i + 2 ^ 64 - glb.lb i = loc.lb i - glb.lb i + 2 ^ 64 by omega, Nat.add_mod_right]
    exact Nat.mod_eq_of_lt (by omega)
  · rw [show loc.ub i + 2 ^ 64 - glb.lb i = loc.ub i - glb.lb i + 2 ^ 64 by omega, Nat.add_mod_right]
    exact Nat.mod_eq_of_lt (by omega)

variable (h : Copyable dst src se)

include h

theorem dst_view (hi : i < dst.numDims) :
    (matrixInit st dst (bboxIntersect dst src) se).lb i = (bboxIntersect dst src).lb i - dst.lb i ∧
      (matrixInit st dst (bboxIntersect dst src) se).ub i = (bboxIntersect dst src).ub i - dst.lb i := by
  have hb := h.bounds hi
  have hlt := h.dst_lt i hi
  exact view_eq st hi hb.1 hb.2.2.1 (by omega)

theorem src_view (hi : i < dst.numDims) (se' : Nat) :
    (matrixInit st src (bboxIntersect dst src) se').lb i = (bboxIntersect dst src).lb i - src.lb i := by
  have hb := h.bounds hi
  have hlt := h.src_lt i hi
  exact (view_eq st (by rw [h.dims_eq]; exact hi) hb.2.1 hb.2.2.1 (by omega)).1

theorem mem_common {x : Coord} :
    x ∈ bboxIntersect dst src ↔ x ∈ dst ∧ x ∈ src := mem_bboxIntersect h.dims_eq.symm

/-- The rounds of the loops are the cells of the common box. -/
theorem rounds_iff {t : Nat → Nat} :
    (matrixInit st dst (bboxIntersect dst src) se).Rounds (dst.numDims - 1) t ↔
      (fun i => (bboxIntersect dst src).lb i + t i) ∈ bboxIntersect dst src := by
  have hpos := h.dims_pos
  constructor
  · intro ht i hi
    have hti := ht i (by rw [bboxIntersect_numDims] at hi; omega)
    have hb := h.bounds hi
    rw [MatrixDesc.count, (h.dst_view st hi).1, (h.dst_view st hi).2] at hti
    constructor
    · exact Nat.le_add_right _ _
    · show (bboxIntersect dst src).lb i + t i ≤ _
      omega
  · intro hx i hi
    have hi' : i < dst.numDims := by omega
    have hxi : (bboxIntersect dst src).lb i + t i ≤ (bboxIntersect dst src).ub i := (hx i hi').2
    have hb := h.bounds hi'
    rw [MatrixDesc.count, (h.dst_view st hi').1, (h.dst_view st hi').2]
    omega

/-- The loops reach a cell of the destination at its number. -/
theorem dst_at (t : Nat → Nat) : (matrixInit st dst (bboxIntersect dst src) se).at (dst.numDims - 1) 0 t =
      cellOffset dst fun i => (bboxIntersect dst src).lb i + t i := by
  have hpos := h.dims_pos
  apply offset_congr
  · intro i hi
    exact if_pos (by omega)
  · intro i hi
    have hi' : i < dst.numDims := by omega
    have hb := h.bounds hi'
    rw [(h.dst_view st hi').1]
    show _ = (bboxIntersect dst src).lb i + t i - dst.lb i
    omega

/-- In the source they are at the number of the cell that is read. -/
theorem src_at (st' : StorageType) (se' : Nat) {t : Nat → Nat} :
    (readView (matrixInit st dst (bboxIntersect dst src) se)
        (matrixInit st' src (bboxIntersect dst src) se')).at (dst.numDims - 1) 0 t =
      cellOffset src (readCell dst src fun i => (bboxIntersect dst src).lb i + t i) := by
  have hpos := h.dims_pos
  have hinner : ∀ i < dst.numDims,
      (matrixInit st' src (bboxIntersect dst src) se').lb i + t i =
        (bboxIntersect dst src).lb i + t i - src.lb i := by
    intro i hi
    have hb := h.bounds hi
    rw [h.src_view st' hi]
    omega
  rw [cellOffset, h.dims_eq, readView, readCell]
  -- The tenth loop takes the index of the destination for the source as well.
  by_cases hten : dst.numDims = 10
  · rw [if_pos hten, if_pos (show (matrixInit st dst _ se).numDims = 10 from hten)]
    apply offset_congr
    · intro i hi
      exact if_pos (by rw [h.dims_eq]; omega)
    · intro i hi
      by_cases hi9 : i = 9
      · subst hi9
        have hb := h.bounds (i := 9) (by omega)
        simp only [update_self, (h.dst_view st (i := 9) (by omega)).1]
        omega
      · simp only [update_of_ne hi9]
        exact hinner i (by omega)
  · rw [if_neg hten, if_neg (show ¬ (matrixInit st dst _ se).numDims = 10 from hten)]
    apply offset_congr
    · intro i hi
      exact if_pos (by rw [h.dims_eq]; omega)
    · intro i hi
      exact hinner i (by omega)

end Copyable

/-! ## Arrays that fit into memory -/

/-- An array with elements of `se` bytes over the box has 64-bit addresses. -/
structure ArrayFits (G : Bbox) (se : Nat) : Prop where
  dims_pos : 0 < G.numDims
  dims_le : G.numDims ≤ bboxMaxNdim
  coord_lt : ∀ i < G.numDims, G.ub i + 1 < 2 ^ 64
  bytes_lt : se * ∏ i ∈ Finset.range G.numDims, (G.ub i + 1 - G.lb i) < 2 ^ 64

namespace ArrayFits

variable {G b : Bbox} {se : Nat}

section

variable (h : ArrayFits G se)

include h

theorem ub_lt (hb : b.Inside G) : ∀ i < b.numDims, b.ub i + 1 < 2 ^ 64 := by
  intro i hi
  rw [hb.numDims_eq] at hi
  have hG := h.coord_lt i hi
  have hbi := hb.bounds i hi
  omega

/-- The side of a part is at most that of the whole. -/
theorem dist_le (hb : b.Inside G) (hwf : b.Wf) {i : Nat} (hi : i < b.numDims) :
    bboxDist b i ≤ G.ub i + 1 - G.lb i := by
  rw [bboxDist_eq (hwf i hi) (h.ub_lt hb i hi)]
  rw [hb.numDims_eq] at hi
  have hbi := hb.bounds i hi
  omega

/-- The number of a cell of a part, also if the cell lies beyond the part. -/
theorem cell_fits (hb : b.Inside G) (hwf : b.Wf) {y : Coord}
    (hy : ∀ i < b.numDims, y i - b.lb i < G.ub i + 1 - G.lb i) : se * cellOffset b y + se < 2 ^ 64 := by
  have hpos := h.dims_pos
  rw [← hb.numDims_eq] at hpos
  have hlt := offset_lt (k := b.numDims - 1) (v := fun i => y i - b.lb i)
    (fun i hi => h.dist_le hb hwf (i := i) (by omega)) fun i hi => hy i (by omega)
  rw [Nat.sub_add_cancel hpos, hb.numDims_eq] at hlt
  calc se * cellOffset b y + se = se * (cellOffset b y + 1) := (Nat.mul_succ _ _).symm
    _ ≤ se * ∏ i ∈ Finset.range G.numDims, (G.ub i + 1 - G.lb i) := by
        rw [cellOffset, hb.numDims_eq]
        exact Nat.mul_le_mul_left _ hlt
    _ < 2 ^ 64 := h.bytes_lt

theorem copyable {dst src : Bbox} (hdst : dst.Inside G) (hsrc : src.Inside G) (hmeet : ∃ x, x ∈ dst ∧ x ∈ src) :
    Copyable dst src se := by
  obtain ⟨z, hz, hz'⟩ := hmeet
  have hdims : src.numDims = dst.numDims := hsrc.numDims_eq.trans hdst.numDims_eq.symm
  refine ⟨hdst.numDims_eq ▸ h.dims_pos, hdst.numDims_eq ▸ h.dims_le, hdims, h.ub_lt hdst,
    fun i hi => h.ub_lt hsrc i (hdims ▸ hi), ⟨z, hz, hz'⟩, fun x hx hx' => ?_, fun x hx hx' => ?_⟩
  · apply h.cell_fits hdst (Bbox.wf_of_mem hz)
    intro i hi
    have hxi := hx i hi
    have hb := hdst.bounds i (hdst.numDims_eq ▸ hi)
    omega
  · apply h.cell_fits hsrc (Bbox.wf_of_mem hz')
    intro i hi
    have hxi := hx i (hdims ▸ hi)
    have hxi' := hx' i hi
    have hb := hdst.bounds i (hsrc.numDims_eq ▸ hi)
    have hb' := hsrc.bounds i (hsrc.numDims_eq ▸ hi)
    -- Along the tenth dimension the index is the one into the destination.
    unfold readCell
    split
    · by_cases hi9 : i = 9
      · subst hi9
        rw [update_self]
        omega
      · rw [update_of_ne hi9]
        omega
    · omega

end

variable {d : ObjDescriptor} (h : ArrayFits G d.size) (hb : d.bb.Inside G)

include h hb

/-- The product of the descriptor does not wrap around, since that of the whole array does not. -/
theorem objDataSize_eq (hwf : d.bb.Wf) :
    objDataSize d = d.size * ∏ i ∈ Finset.range d.bb.numDims, bboxDist d.bb i := by
  have hprod : ∏ i ∈ Finset.range d.bb.numDims, bboxDist d.bb i ≤
      ∏ i ∈ Finset.range G.numDims, (G.ub i + 1 - G.lb i) := by
    rw [← hb.numDims_eq]
    exact Finset.prod_le_prod' fun i hi => h.dist_le hb hwf (Finset.mem_range.1 hi)
  rw [objDataSize, bboxVolume_eq_prod_mod, Nat.mul_mod_mod, ← Finset.prod_range]
  exact Nat.mod_eq_of_lt (Nat.lt_of_le_of_lt (Nat.mul_le_mul_left _ hprod) h.bytes_lt)

/-- The bytes of a cell lie inside the object. -/
theorem cell_end_le_objDataSize {x : Coord} (hx : x ∈ d.bb) :
    d.size * (cellOffset d.bb x + 1) ≤ objDataSize d := by
  have hpos := h.dims_pos
  rw [← hb.numDims_eq] at hpos
  have hwf := Bbox.wf_of_mem hx
  -- The number of a cell is a number in mixed radix, below the product of the extents.
  have hindex : ∀ i ≤ d.bb.numDims - 1, x i - d.bb.lb i < bboxDist d.bb i := by
    intro i hi
    have hxi := hx i (by omega)
    rw [bboxDist_eq (hwf i (by omega)) (h.ub_lt hb i (by omega))]
    omega
  have hlt := offset_lt (fun _ _ => le_rfl) hindex
  rw [Nat.sub_add_cancel hpos] at hlt
  rw [h.objDataSize_eq hb hwf]
  exact Nat.mul_le_mul_left _ hlt

theorem cell_lt_objDataSize {x : Coord} (hx : x ∈ d.bb) {r : Nat} (hr : r < d.size) :
    d.size * cellOffset d.bb x + r < objDataSize d :=
  calc d.size * cellOffset d.bb x + r < d.size * cellOffset d.bb x + d.size := Nat.add_lt_add_left hr _
    _ = d.size * (cellOffset d.bb x + 1) := (Nat.mul_succ _ _).symm
    _ ≤ objDataSize d := h.cell_end_le_objDataSize hb hx

/-- Every byte of an array belongs to a cell. -/
theorem exists_cell_of_lt (hwf : d.bb.Wf) {p : Nat} (hp : p < objDataSize d) :
    ∃ x, x ∈ d.bb ∧ ∃ r < d.size, p = d.size * cellOffset d.bb x + r := by
  have hpos := h.dims_pos
  rw [← hb.numDims_eq] at hpos
  rw [h.objDataSize_eq hb hwf, ← Nat.sub_add_cancel hpos] at hp
  have hse : 0 < d.size := Nat.pos_of_ne_zero fun hzero => by simp [hzero] at hp
  obtain ⟨v, hv, hoff⟩ := exists_offset_eq (Nat.div_lt_of_lt_mul hp)
  refine ⟨fun i => d.bb.lb i + v i, fun i hi => ?_, p % d.size, Nat.mod_lt _ hse, ?_⟩
  · have hvi := hv i (by omega)
    rw [bboxDist_eq (hwf i hi) (h.ub_lt hb i hi)] at hvi
    show d.bb.lb i ≤ d.bb.lb i + v i ∧ d.bb.lb i + v i ≤ d.bb.ub i
    omega
  · have hcell : cellOffset d.bb (fun i => d.bb.lb i + v i) = p / d.size := by
      rw [cellOffset, ← hoff]
      exact offset_congr (fun _ _ => rfl) fun i _ => Nat.add_sub_cancel_left _ _
    rw [hcell, Nat.div_add_mod]

end ArrayFits

/-- The bytes that a copy writes: for every common cell the bytes of the cell that is read. -/
def CopiesCells (dst src : Bbox) (se : Nat) (B : Mem) (p : Nat) (v : Option UInt8) : Prop :=
  ∃ x, x ∈ dst ∧ x ∈ src ∧ ∃ r < se,
    p = se * cellOffset dst x + r ∧ v = B (se * cellOffset src (readCell dst src x) + r)

theorem matrixCopy_writes {se : Nat} (h : Copyable dst src se) (st st' : StorageType) (se' : Nat) (B : Mem) :
    Writes (fun A => matrixCopy (matrixInit st dst (bboxIntersect dst src) se) A
      (matrixInit st' src (bboxIntersect dst src) se') B) (CopiesCells dst src se B) := by
  let a := matrixInit st dst (bboxIntersect dst src) se
  let b := matrixInit st' src (bboxIntersect dst src) se'
  have hpos := h.dims_pos
  have hle : dst.numDims ≤ 10 := h.dims_le
  have heq : (fun A => matrixCopy a A b B) = copyLoops a (readView a b) B (dst.numDims - 1) 0 0 := by
    funext A
    exact matrixCopy_eq (a := a) hpos hle A B
  have hcell : ∀ {t}, a.Rounds (dst.numDims - 1) t →
      (fun i => (bboxIntersect dst src).lb i + t i) ∈ dst ∧
        (fun i => (bboxIntersect dst src).lb i + t i) ∈ src := fun ht =>
    h.mem_common.1 ((h.rounds_iff st).1 ht)
  have hwrites : Writes (copyLoops a (readView a b) B (dst.numDims - 1) 0 0)
      (CellWrites a (readView a b) B (dst.numDims - 1) 0 0) := by
    apply copyLoops_writes
    · intro i hi
      have hi' : i < dst.numDims := by omega
      have hb := h.bounds hi'
      have hlt := h.dst_lt i hi'
      rw [(h.dst_view st hi').1, (h.dst_view st hi').2]
      omega
    · intro i hi
      have hi' : i < dst.numDims := by omega
      have hb := h.bounds hi'
      have hdist : a.dist i = dst.ub i + 1 - dst.lb i :=
        (if_pos hi').trans (bboxDist_eq (by omega) (h.dst_lt i hi'))
      rw [(h.dst_view st hi').2, hdist]
      omega
    · intro t ht
      rw [h.dst_at st]
      exact h.dst_fits _ (hcell ht).1 (hcell ht).2
    · intro t ht
      rw [h.src_at st]
      exact h.src_fits _ (hcell ht).1 (hcell ht).2
  rw [heq]
  refine hwrites.congr fun p v => ?_
  constructor
  · rintro ⟨t, ht, r, hr, rfl, rfl⟩
    rw [h.dst_at st, h.src_at st]
    exact ⟨_, (hcell ht).1, (hcell ht).2, r, hr, rfl, rfl⟩
  · rintro ⟨x, hx, hx', r, hr, rfl, rfl⟩
    -- The round of a common cell.
    let t : Nat → Nat := fun i => x i - (bboxIntersect dst src).lb i
    have hcom : x ∈ bboxIntersect dst src := h.mem_common.2 ⟨hx, hx'⟩
    have hxt : ∀ i < dst.numDims, (bboxIntersect dst src).lb i + t i = x i := fun i hi =>
      Nat.add_sub_cancel' (hcom i hi).1
    have hround : a.Rounds (dst.numDims - 1) t := by
      refine (h.rounds_iff st).2 fun i hi => ?_
      show _ ≤ (bboxIntersect dst src).lb i + t i ∧ (bboxIntersect dst src).lb i + t i ≤ _
      rw [hxt i hi]
      exact hcom i hi
    refine ⟨t, hround, r, hr, ?_, ?_⟩
    · rw [h.dst_at st, cellOffset_congr hpos hxt]
      rfl
    · rw [h.src_at st, cellOffset_congr (by rw [h.dims_eq]; exact hpos)]
      · rfl
      · rw [h.dims_eq]
        exact readCell_congr fun i hi => (hxt i hi).symm

section Objects

variable {toObj fromObj : ObjData}

@[simp] theorem ssdCopy_objDesc (toObj fromObj : ObjData) :
    (ssdCopy toObj fromObj).objDesc = toObj.objDesc := rfl

theorem ssdCopy_writes (h : Copyable toObj.objDesc.bb fromObj.objDesc.bb toObj.objDesc.size) :
    Writes (fun A => (ssdCopy { toObj with data := A } fromObj).data)
      (CopiesCells toObj.objDesc.bb fromObj.objDesc.bb toObj.objDesc.size fromObj.data) :=
  matrixCopy_writes h toObj.objDesc.st fromObj.objDesc.st fromObj.objDesc.size fromObj.data

variable {x : Coord} {r : Nat}

/-- A common cell gets the value of the cell that is read. -/
theorem cellByte_ssdCopy_of_mem (h : Copyable toObj.objDesc.bb fromObj.objDesc.bb toObj.objDesc.size)
    (hx : x ∈ toObj.objDesc.bb) (hx' : x ∈ fromObj.objDesc.bb) (hr : r < toObj.objDesc.size) :
    cellByte (ssdCopy toObj fromObj) x r = fromObj.data (toObj.objDesc.size * cellOffset fromObj.objDesc.bb
        (readCell toObj.objDesc.bb fromObj.objDesc.bb x) + r) :=
  (ssdCopy_writes h).written toObj.data _ _ ⟨x, hx, hx', r, hr, rfl, rfl⟩

/-- A cell that is not in both boxes keeps its value; it may lie beyond the destination along the
outermost dimension. -/
theorem cellByte_ssdCopy_of_not_mem (h : Copyable toObj.objDesc.bb fromObj.objDesc.bb toObj.objDesc.size)
    {y : Coord} (hlb : ∀ i < toObj.objDesc.bb.numDims, toObj.objDesc.bb.lb i ≤ y i)
    (hinner : ∀ i < toObj.objDesc.bb.numDims - 1, y i ≤ toObj.objDesc.bb.ub i)
    (hy : ¬ (y ∈ toObj.objDesc.bb ∧ y ∈ fromObj.objDesc.bb)) (hr : r < toObj.objDesc.size) :
    cellByte (ssdCopy toObj fromObj) y r = cellByte toObj y r := by
  apply (ssdCopy_writes h).kept toObj.data
  rintro v ⟨x, hx, hx', r', hr', hp, -⟩
  rw [ssdCopy_objDesc, Nat.mul_comm _ (cellOffset _ y), Nat.mul_comm _ (cellOffset _ x)] at hp
  obtain ⟨hoff, -⟩ := eq_and_eq_of_mul_add_eq hr hr' hp
  -- The byte belongs to one cell only.
  have hsame := eq_of_cellOffset_eq h.dst_lt hx hlb hinner hoff.symm
  refine hy ⟨fun i hi => ?_, fun i hi => ?_⟩
  · rw [← hsame i hi]
    exact hx i hi
  · rw [← hsame i (by rw [← h.dims_eq]; exact hi)]
    exact hx' i hi

/-! ## Exact copies -/

/-- Every common cell has the value of the source at the same coordinates, and no other byte of the
destination has changed. -/
structure ExactCopy (toObj fromObj : ObjData) : Prop where
  common : ∀ x, x ∈ toObj.objDesc.bb → x ∈ fromObj.objDesc.bb → ∀ r < toObj.objDesc.size,
    cellByte (ssdCopy toObj fromObj) x r = cellByte fromObj x r
  other : ∀ p, (∀ x, x ∈ toObj.objDesc.bb → x ∈ fromObj.objDesc.bb → ∀ r < toObj.objDesc.size,
    p ≠ toObj.objDesc.size * cellOffset toObj.objDesc.bb x + r) →
      (ssdCopy toObj fromObj).data p = toObj.data p

/-- A copy reads the cell itself unless the tenth dimension starts elsewhere in the two boxes. -/
theorem readCell_eq_iff {dst src : Bbox} (hx : x ∈ dst) :
    (∀ i < dst.numDims, readCell dst src x i = x i) ↔ dst.numDims ≠ 10 ∨ dst.lb 9 = src.lb 9 := by
  by_cases hten : dst.numDims = 10
  · have hread : readCell dst src x = update x 9 (src.lb 9 + (x 9 - dst.lb 9)) := if_pos hten
    have hle := (hx 9 (by omega)).1
    rw [hread]
    constructor
    · intro hsame
      have hnine := hsame 9 (by omega)
      rw [update_self] at hnine
      exact Or.inr (by omega)
    · rintro (hne | hlb) i -
      · exact absurd hten hne
      · by_cases hi9 : i = 9
        · rw [hi9, update_self]
          omega
        · rw [update_of_ne hi9]
  · simp [readCell_of_ne hten, hten]

/-- The bytes outside of the common cells never change. -/
theorem data_ssdCopy_of_ne (h : Copyable toObj.objDesc.bb fromObj.objDesc.bb toObj.objDesc.size) {p : Nat}
    (hp : ∀ x, x ∈ toObj.objDesc.bb → x ∈ fromObj.objDesc.bb → ∀ r < toObj.objDesc.size,
      p ≠ toObj.objDesc.size * cellOffset toObj.objDesc.bb x + r) :
    (ssdCopy toObj fromObj).data p = toObj.data p := by
  apply (ssdCopy_writes h).kept toObj.data
  rintro v ⟨x, hx, hx', r, hr, rfl, -⟩
  exact hp x hx hx' r hr rfl

/-- The copy is exact for all contents if and only if the boxes have fewer than ten dimensions or start
at the same place along the tenth one (or the elements have no bytes). -/
theorem ssdCopy_exact_iff (d d' : ObjDescriptor) (rc rc' : Nat) (hsize : d'.size = d.size)
    (h : Copyable d.bb d'.bb d.size) : (∀ A B : Mem, ExactCopy ⟨d, A, rc⟩ ⟨d', B, rc'⟩) ↔
      (d.bb.numDims ≠ 10 ∨ d.bb.lb 9 = d'.bb.lb 9) ∨ d.size = 0 := by
  constructor
  · intro hexact
    rw [or_iff_not_imp_right]
    intro hpos
    obtain ⟨x, hx, hx'⟩ := h.meet
    rw [← readCell_eq_iff hx]
    -- A source with one marked byte: the first one of the cell `x`.
    let B : Mem := fun p => if p = d.size * cellOffset d'.bb x then some 1 else none
    have hcopied : cellByte (ssdCopy ⟨d, fun _ => none, rc⟩ ⟨d', B, rc'⟩) x 0 = some 1 := by
      rw [(hexact (fun _ => none) B).common x hx hx' 0 (Nat.pos_of_ne_zero hpos)]
      show B (d'.size * cellOffset d'.bb x) = some 1
      rw [hsize]
      exact if_pos rfl
    rw [cellByte_ssdCopy_of_mem h hx hx' (Nat.pos_of_ne_zero hpos)] at hcopied
    have hread : d.size * cellOffset d'.bb (readCell d.bb d'.bb x) = d.size * cellOffset d'.bb x := by
      by_contra hne
      exact absurd ((if_neg hne).symm.trans hcopied) nofun
    have hoff := Nat.eq_of_mul_eq_mul_left (Nat.pos_of_ne_zero hpos) hread
    -- The number of a cell of the source determines the cell.
    have hbounds := readCell_bounds h.dims_eq hx'
    have hsame := eq_of_cellOffset_eq (fun i hi => h.src_lt i (h.dims_eq ▸ hi)) hx' hbounds.1 hbounds.2
      hoff.symm
    exact fun i hi => (hsame i (h.dims_eq ▸ hi)).symm
  · intro hcond A B
    refine ⟨fun x hx hx' r hr => ?_, fun p hp => data_ssdCopy_of_ne h hp⟩
    rcases hcond with hcond | hzero
    · have hread := (readCell_eq_iff hx).2 hcond
      rw [cellByte_ssdCopy_of_mem h hx hx' hr, cellByte]
      dsimp only
      rw [hsize, cellOffset_congr (h.dims_eq ▸ h.dims_pos) fun i hi => hread i (h.dims_eq ▸ hi)]
    · exact absurd hr (hzero ▸ Nat.not_lt_zero r)

/-- Cells `lo` to `hi` along the tenth dimension, one cell along each other. -/
def tenthDim (lo hi : Nat) : Bbox := ⟨10, fun i => if i = 9 then lo else 0, fun i => if i = 9 then hi else 0⟩

def tenthDesc (lo hi : Nat) : ObjDescriptor := ⟨"field", .columnMajor, 0, 1, tenthDim lo hi, 1⟩

theorem tenthDim_fits : ArrayFits (tenthDim 0 2) 1 where
  dims_pos := by decide
  dims_le := by decide
  coord_lt := by decide
  bytes_lt := by decide

theorem tenthDim_inside : (tenthDim 0 1).Inside (tenthDim 0 2) ∧ (tenthDim 1 2).Inside (tenthDim 0 2) := by
  refine ⟨⟨rfl, ?_⟩, ⟨rfl, ?_⟩⟩
  · decide
  · decide

theorem ssdCopy_exact_same_start :
    (tenthDesc 0 2).size = (tenthDesc 0 1).size ∧ Copyable (tenthDim 0 1) (tenthDim 0 2) 1 ∧
      ∀ A B : Mem, ExactCopy ⟨tenthDesc 0 1, A, 0⟩ ⟨tenthDesc 0 2, B, 0⟩ := by
  have hcopyable : Copyable (tenthDim 0 1) (tenthDim 0 2) 1 :=
    tenthDim_fits.copyable tenthDim_inside.1 ⟨rfl, by decide⟩ ⟨fun _ => 0, by decide, by decide⟩
  exact ⟨rfl, hcopyable,
    (ssdCopy_exact_iff (tenthDesc 0 1) (tenthDesc 0 2) 0 0 rfl hcopyable).2 (Or.inl (Or.inr rfl))⟩

/-- A source that starts one cell later along the tenth dimension: the common cell gets the value of
the next one. -/
theorem ssdCopy_inexact_tenth : Copyable (tenthDim 0 1) (tenthDim 1 2) 1 ∧
      ¬ ExactCopy ⟨tenthDesc 0 1, fun _ => none, 0⟩ ⟨tenthDesc 1 2, fun p => some p.toUInt8, 0⟩ := by
  have hx : (fun i => if i = 9 then 1 else 0 : Coord) ∈ tenthDim 0 1 := by decide
  have hx' : (fun i => if i = 9 then 1 else 0 : Coord) ∈ tenthDim 1 2 := by decide
  refine ⟨tenthDim_fits.copyable tenthDim_inside.1 tenthDim_inside.2 ⟨_, hx, hx'⟩, fun hexact => ?_⟩
  exact absurd (hexact.common _ hx hx' 0 Nat.one_pos) (by decide)

/-! ## Assembly from a list of pieces -/

theorem ssdCopyList_append_singleton (toObj : ObjData) (l : List ObjData) (od : ObjData) :
    ssdCopyList toObj (l ++ [od]) = ssdCopy (ssdCopyList toObj l) od := by
  rw [ssdCopyList, foldl_append]
  rfl

@[simp] theorem ssdCopyList_objDesc (toObj : ObjData) (l : List ObjData) :
    (ssdCopyList toObj l).objDesc = toObj.objDesc := by
  induction l using reverseRecOn with
  | nil => rfl
  | append_singleton l od ih =>
    rw [ssdCopyList_append_singleton]
    exact ih

/-- A cell of the destination ends with the value from the last piece of the list that covers it. -/
theorem cellByte_ssdCopyList {l : List ObjData}
    (h : ∀ od ∈ l, Copyable toObj.objDesc.bb od.objDesc.bb toObj.objDesc.size) (hx : x ∈ toObj.objDesc.bb)
    (hr : r < toObj.objDesc.size) :
    cellByte (ssdCopyList toObj l) x r = match l.reverse.find? fun od => decide (x ∈ od.objDesc.bb) with
      | none => cellByte toObj x r
      | some od => od.data (toObj.objDesc.size * cellOffset od.objDesc.bb
          (readCell toObj.objDesc.bb od.objDesc.bb x) + r) := by
  induction l using reverseRecOn with
  | nil => rfl
  | append_singleton l od ih =>
    have hod := h od (mem_append_right _ (mem_singleton_self od))
    rw [ssdCopyList_append_singleton, reverse_append, reverse_singleton, singleton_append]
    -- The list so far has the descriptor of the destination.
    have hdesc := ssdCopyList_objDesc toObj l
    have hod' : Copyable (ssdCopyList toObj l).objDesc.bb od.objDesc.bb
        (ssdCopyList toObj l).objDesc.size := by rw [hdesc]; exact hod
    have hr' : r < (ssdCopyList toObj l).objDesc.size := by rw [hdesc]; exact hr
    have hx' : x ∈ (ssdCopyList toObj l).objDesc.bb := by rw [hdesc]; exact hx
    by_cases hcov : x ∈ od.objDesc.bb
    · rw [find?_cons_of_pos (by simpa using hcov), cellByte_ssdCopy_of_mem hod' hx' hcov hr', hdesc]
    · rw [find?_cons_of_neg (by simpa using hcov), ← ih fun od' hod' => h od' (mem_append_left _ hod')]
      exact cellByte_ssdCopy_of_not_mem hod' (fun i hi => (hx' i hi).1) (fun i hi => (hx' i (by omega)).2)
        (fun hboth => hcov hboth.2) hr'

end Objects

end DataSpaces.Copy
