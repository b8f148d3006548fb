import DataSpaces.Copy.Objects

/-!
# Reading a part of an object

A DIMES client reads the part of an object that it needs from the memory of the client which has it, into
a buffer over that part (`dimes_client.c`). If the part is contiguous in the array of the object and the
object is on another client, this is one read at an offset (`calculate_offset_for_remote_data`). Otherwise
it is one read for each row, by the same loops as `matrix_copy` (`schedule_rdma_reads`). The part is then
copied to the buffer of the query with `ssd_copy`.

`readPart_data` says what a cell of the query gets from a part if the object starts along the tenth
dimension where the query does, or there is no tenth dimension: the value of the same cell of the object.
`readPart_data_owner` is about the reads by rows in general.
-/

namespace DataSpaces.Dimes

open Lib Geometry Store Copy List Function

/-! ## The source -/

/-- Same name and same box. -/
def objDescEqualsNoOwner (odsc1 odsc2 : ObjDescriptor) : Bool :=
  decide (odsc1.name = odsc2.name) && bboxEquals odsc1.bb odsc2.bb

/-- The view of the source that both functions below work with. -/
def remoteView (srcOdsc dstOdsc : ObjDescriptor) : MatrixDesc :=
  matrixInit srcOdsc.st srcOdsc.bb (bboxIntersect dstOdsc.bb srcOdsc.bb) srcOdsc.size

/-- The part takes the whole source along all but the last dimension. -/
def isRemoteDataContiguousInMemory (srcOdsc dstOdsc : ObjDescriptor) : Bool :=
  decide (srcOdsc.bb.numDims = dstOdsc.bb.numDims) &&
    let fromMat := remoteView srcOdsc dstOdsc
    (range (fromMat.numDims - 1)).all fun i =>
      decide (((fromMat.ub i + 2 ^ 64 - fromMat.lb i) % 2 ^ 64 + 1) % 2 ^ 64 = fromMat.dist i)

def calculateOffsetForRemoteData (srcOdsc dstOdsc : ObjDescriptor) : Nat :=
  let fromMat := remoteView srcOdsc dstOdsc
  let numElem := (range (fromMat.numDims - 1)).foldl (fun n i => n * fromMat.dist i % 2 ^ 64) 1
  numElem * fromMat.lb (fromMat.numDims - 1) % 2 ^ 64 * fromMat.sizeElem % 2 ^ 64

/-- The loops of `matrix_rdma_copy` are those of `matrix_copy`, with a read in place of each `memcpy` of
a row. The reads are done here as they are scheduled; for a part of an object every other order gives the same
(`performReads_fetchReads`). -/
def matrixRdmaCopy (a b : MatrixDesc) (src dst : Mem) : Mem := matrixCopy a dst b src

def scheduleRdmaReads (srcOdsc dstOdsc : ObjDescriptor) (src dst : Mem) : Mem :=
  -- The whole object is one read, a part of it is read row by row.
  if objDescEqualsNoOwner srcOdsc dstOdsc then memcpy dst 0 src 0 (objDataSize dstOdsc)
  else
    let bbcom := bboxIntersect dstOdsc.bb srcOdsc.bb
    let fromMat := matrixInit srcOdsc.st srcOdsc.bb bbcom srcOdsc.size
    let toMat := matrixInit dstOdsc.st dstOdsc.bb bbcom dstOdsc.size
    matrixRdmaCopy toMat fromMat src dst

/-- The part of an object that a query asks for. -/
def partOf (q : ObjDescriptor) (srcOdsc : ObjDescriptor) : ObjDescriptor :=
  { srcOdsc with bb := bboxIntersect q.bb srcOdsc.bb }

/-- The reads that client `self` makes in one block. -/
def readsBlock (self : Nat) (srcOdsc dstOdsc : ObjDescriptor) : Bool :=
  decide (srcOdsc.owner ≠ self) && isRemoteDataContiguousInMemory srcOdsc dstOdsc

/-- The buffer with the part, which `dimes_memory_alloc` has not cleared. -/
def readPart (self : Nat) (srcOdsc dstOdsc : ObjDescriptor) (src : Mem) : Mem :=
  if readsBlock self srcOdsc dstOdsc then
    memcpy (fun _ => none) 0 src (calculateOffsetForRemoteData srcOdsc dstOdsc) (objDataSize dstOdsc)
  else scheduleRdmaReads srcOdsc dstOdsc src fun _ => none

/-! ## Blocks -/

section

variable {srcOdsc dstOdsc : ObjDescriptor} {G : Bbox}

/-- The offset of the block, up to a multiple of `2 ^ 64`. -/
theorem calculateOffset_eq (srcOdsc dstOdsc : ObjDescriptor) : calculateOffsetForRemoteData srcOdsc dstOdsc =
      srcOdsc.size * ((remoteView srcOdsc dstOdsc).lb (srcOdsc.bb.numDims - 1) *
        ∏ i ∈ Finset.range (srcOdsc.bb.numDims - 1), bboxDist srcOdsc.bb i) % 2 ^ 64 := by
  have hfold : ∀ n ≤ srcOdsc.bb.numDims,
      (range n).foldl (fun n i => n * (remoteView srcOdsc dstOdsc).dist i % 2 ^ 64) 1 % 2 ^ 64 =
        (∏ i ∈ Finset.range n, bboxDist srcOdsc.bb i) % 2 ^ 64 := by
    intro n
    induction n with
    | zero => intro _; rfl
    | succ n ih =>
      intro hn
      have hdist : (remoteView srcOdsc dstOdsc).dist n = bboxDist srcOdsc.bb n := if_pos hn
      rw [range_succ, foldl_append, foldl_cons, foldl_nil, Nat.mod_mod, hdist,
        Nat.mul_mod, ih (Nat.le_of_succ_le hn), ← Nat.mul_mod, Finset.prod_range_succ]
  have hinner : _ ≡ _ [MOD 2 ^ 64] := hfold (srcOdsc.bb.numDims - 1) (Nat.sub_le _ _)
  have houter := (hinner.mul_right ((remoteView srcOdsc dstOdsc).lb (srcOdsc.bb.numDims - 1))).mul_right
    srcOdsc.size
  show _ * _ % 2 ^ 64 * srcOdsc.size % 2 ^ 64 = _
  rw [Nat.mod_mul_mod, Nat.mul_comm srcOdsc.size, Nat.mul_comm _ (∏ i ∈ _, _)]
  exact houter

/-- A part inside its object. -/
structure PartInside (srcOdsc dstOdsc : ObjDescriptor) (G : Bbox) : Prop where
  fits : ArrayFits G srcOdsc.size
  size_eq : dstOdsc.size = srcOdsc.size
  src_inside : srcOdsc.bb.Inside G
  inside : dstOdsc.bb.Inside srcOdsc.bb
  wf : dstOdsc.bb.Wf

namespace PartInside

variable (h : PartInside srcOdsc dstOdsc G)

include h

theorem dims_pos : 0 < srcOdsc.bb.numDims := h.src_inside.numDims_eq ▸ h.fits.dims_pos

theorem dst_inside : dstOdsc.bb.Inside G where
  numDims_eq := h.inside.numDims_eq.trans h.src_inside.numDims_eq
  bounds := by
    intro i hi
    have h1 := h.src_inside.bounds i hi
    have h2 := h.inside.bounds i (h.src_inside.numDims_eq ▸ hi)
    omega

variable {i : Nat} {x : Coord}

/-- The common box of the part and the object is the part. -/
theorem common (hi : i < srcOdsc.bb.numDims) : (bboxIntersect dstOdsc.bb srcOdsc.bb).lb i = dstOdsc.bb.lb i ∧
      (bboxIntersect dstOdsc.bb srcOdsc.bb).ub i = dstOdsc.bb.ub i := by
  have hb := h.inside.bounds i hi
  have hle := h.wf i (by rw [h.inside.numDims_eq]; exact hi)
  simp only [bboxIntersect]
  split_ifs <;> omega

/-- The view is the part, relative to the object. -/
theorem view (hi : i < srcOdsc.bb.numDims) :
    (remoteView srcOdsc dstOdsc).lb i = dstOdsc.bb.lb i - srcOdsc.bb.lb i ∧
      (remoteView srcOdsc dstOdsc).ub i = dstOdsc.bb.ub i - srcOdsc.bb.lb i := by
  have hb := h.inside.bounds i hi
  have hle := h.wf i (by rw [h.inside.numDims_eq]; exact hi)
  have hlt := h.fits.ub_lt h.src_inside i hi
  obtain ⟨hlb, hub⟩ := h.common hi
  have hview : (remoteView srcOdsc dstOdsc).lb i = _ ∧ (remoteView srcOdsc dstOdsc).ub i = _ :=
    Copyable.view_eq srcOdsc.st hi (by omega) (by omega) (by omega)
  rwa [hlb, hub] at hview

theorem dist (hi : i < srcOdsc.bb.numDims) :
    bboxDist srcOdsc.bb i = srcOdsc.bb.ub i + 1 - srcOdsc.bb.lb i := by
  have hb := h.inside.bounds i hi
  have hle := h.wf i (by rw [h.inside.numDims_eq]; exact hi)
  exact bboxDist_eq (by omega) (h.fits.ub_lt h.src_inside i hi)

variable (hc : isRemoteDataContiguousInMemory srcOdsc dstOdsc = true)

include hc

/-- A contiguous part has the bounds of its object along all but the last dimension. -/
theorem bounds_of_contiguous (hi : i < srcOdsc.bb.numDims - 1) :
    dstOdsc.bb.lb i = srcOdsc.bb.lb i ∧ dstOdsc.bb.ub i = srcOdsc.bb.ub i := by
  have hi' : i < srcOdsc.bb.numDims := by omega
  rw [isRemoteDataContiguousInMemory, Bool.and_eq_true] at hc
  have hside := all_eq_true.1 hc.2 i (mem_range.2 hi)
  have hb := h.inside.bounds i hi'
  have hle := h.wf i (by rw [h.inside.numDims_eq]; exact hi')
  have hlt := h.fits.ub_lt h.src_inside i hi'
  rw [decide_eq_true_eq, (h.view hi').1, (h.view hi').2,
    show (remoteView srcOdsc dstOdsc).dist i = bboxDist srcOdsc.bb i from if_pos hi', h.dist hi'] at hside
  rw [show dstOdsc.bb.ub i - srcOdsc.bb.lb i + 2 ^ 64 - (dstOdsc.bb.lb i - srcOdsc.bb.lb i) =
      dstOdsc.bb.ub i - dstOdsc.bb.lb i + 2 ^ 64 by omega, Nat.add_mod_right, Nat.mod_add_mod,
    Nat.mod_eq_of_lt (by omega)] at hside
  omega

/-- The cells of a contiguous part are a block of the object. -/
theorem cellOffset_of_contiguous (hx : x ∈ dstOdsc.bb) :
    cellOffset srcOdsc.bb x = (remoteView srcOdsc dstOdsc).lb (srcOdsc.bb.numDims - 1) *
      ∏ i ∈ Finset.range (srcOdsc.bb.numDims - 1), bboxDist srcOdsc.bb i + cellOffset dstOdsc.bb x := by
  have hpos := h.dims_pos
  have hdims := h.inside.numDims_eq
  have hdist : ∀ i < srcOdsc.bb.numDims - 1, bboxDist srcOdsc.bb i = bboxDist dstOdsc.bb i := by
    intro i hi
    obtain ⟨hlb, hub⟩ := h.bounds_of_contiguous hc hi
    rw [bboxDist, bboxDist, coordDist, coordDist, hlb, hub]
  have hsame : cellOffset dstOdsc.bb x = offset (bboxDist srcOdsc.bb) (srcOdsc.bb.numDims - 1) 0
      fun i => x i - dstOdsc.bb.lb i := by
    rw [cellOffset, hdims]
    exact offset_congr (fun i hi => (hdist i hi).symm) fun _ _ => rfl
  rw [hsame, cellOffset]
  apply offset_shift
  · intro i hi
    rw [(h.bounds_of_contiguous hc hi).1]
  · have htop := h.inside.bounds (srcOdsc.bb.numDims - 1) (by omega)
    have hxt := hx (srcOdsc.bb.numDims - 1) (by omega)
    rw [(h.view (by omega)).1]
    omega

/-- One read at the offset brings every cell of the part. -/
theorem block_data (src : Mem) (hx : x ∈ dstOdsc.bb) {r : Nat} (hr : r < srcOdsc.size) :
    memcpy (fun _ => none) 0 src (calculateOffsetForRemoteData srcOdsc dstOdsc) (objDataSize dstOdsc)
        (srcOdsc.size * cellOffset dstOdsc.bb x + r) = src (srcOdsc.size * cellOffset srcOdsc.bb x + r) := by
  have hin : srcOdsc.size * cellOffset dstOdsc.bb x + r < objDataSize dstOdsc := by
    have hlt := ArrayFits.cell_lt_objDataSize (h.size_eq ▸ h.fits) h.dst_inside hx (h.size_eq ▸ hr)
    rwa [h.size_eq] at hlt
  have hoff := h.cellOffset_of_contiguous hc hx
  have hxs : x ∈ srcOdsc.bb := h.inside.mem hx
  have hfit : srcOdsc.size * cellOffset srcOdsc.bb x + srcOdsc.size < 2 ^ 64 := by
    apply h.fits.cell_fits h.src_inside (Bbox.wf_of_mem hxs)
    intro i hi
    have hxi := hxs i hi
    have hb := h.src_inside.bounds i (h.src_inside.numDims_eq ▸ hi)
    omega
  rw [memcpy, if_pos ⟨Nat.zero_le _, by omega⟩, calculateOffset_eq, Nat.sub_zero]
  rw [hoff, Nat.mul_add] at hfit ⊢
  rw [Nat.mod_eq_of_lt (by omega), Nat.add_assoc]

end PartInside

end

/-! ## The part of a query -/

/-- Going through an array in between reads the same cell. -/
theorem readCell_readCell {dst mid : Bbox} (src : Bbox) (h : mid.numDims = dst.numDims) (x : Coord) :
    readCell mid src (readCell dst mid x) = readCell dst src x := by
  unfold readCell
  rw [h]
  split
  · rw [update_self, update_idem]
    congr 1
    omega
  · rfl

theorem cellOffset_of_bboxEquals {b c : Bbox} (hpos : 0 < b.numDims) (h : bboxEquals b c = true)
    (x : Coord) : cellOffset b x = cellOffset c x := by
  obtain ⟨hdims, hbounds⟩ := bboxEquals_iff.1 h
  rw [cellOffset, cellOffset, ← hdims]
  apply offset_congr
  · intro i hi
    obtain ⟨hlb, hub⟩ := hbounds i (by omega)
    rw [bboxDist, bboxDist, coordDist, coordDist, hlb, hub]
  · intro i hi
    rw [(hbounds i (by omega)).1]

/-- An object of the array over `G` that shares a cell with a query of the array. -/
structure QueryMeets (q srcOdsc : ObjDescriptor) (G : Bbox) : Prop where
  fits : ArrayFits G q.size
  size_eq : srcOdsc.size = q.size
  query_inside : q.bb.Inside G
  src_inside : srcOdsc.bb.Inside G
  meet : ∃ x, x ∈ q.bb ∧ x ∈ srcOdsc.bb

namespace QueryMeets

variable {q srcOdsc : ObjDescriptor} {G : Bbox} (h : QueryMeets q srcOdsc G)

include h

theorem dims_eq : srcOdsc.bb.numDims = q.bb.numDims :=
  h.src_inside.numDims_eq.trans h.query_inside.numDims_eq.symm

theorem dims_pos : 0 < q.bb.numDims := h.query_inside.numDims_eq ▸ h.fits.dims_pos

theorem mem_part {x : Coord} : x ∈ (partOf q srcOdsc).bb ↔ x ∈ q.bb ∧ x ∈ srcOdsc.bb :=
  mem_bboxIntersect h.dims_eq.symm

theorem partInside : PartInside srcOdsc (partOf q srcOdsc) G where
  fits := h.size_eq ▸ h.fits
  size_eq := rfl
  src_inside := h.src_inside
  inside := bboxIntersect_inside h.dims_eq.symm
  wf := by
    obtain ⟨x, hx⟩ := h.meet
    exact Bbox.wf_of_mem (h.mem_part.2 hx)

/-- The part can be copied to the buffer of the query. -/
theorem copyable : Copyable q.bb (partOf q srcOdsc).bb q.size := by
  obtain ⟨x, hx⟩ := h.meet
  exact h.fits.copyable h.query_inside h.partInside.dst_inside ⟨x, hx.1, h.mem_part.2 hx⟩

theorem copyable_rows : Copyable (partOf q srcOdsc).bb srcOdsc.bb q.size := by
  obtain ⟨x, hx⟩ := h.meet
  exact h.fits.copyable h.partInside.dst_inside h.src_inside ⟨x, h.mem_part.2 hx, hx.2⟩

variable {x : Coord} (hx : x ∈ q.bb) (hx' : x ∈ srcOdsc.bb) {r : Nat} (hr : r < q.size) (src : Mem)

include hx hx' hr

/-- Reads by rows: the query gets the value of the cell that one copy from the object would read, or
nothing if that cell lies beyond the part. -/
theorem scheduleRdmaReads_data :
    let y := readCell q.bb (partOf q srcOdsc).bb x
    let v := scheduleRdmaReads srcOdsc (partOf q srcOdsc) src (fun _ => none)
      (q.size * cellOffset (partOf q srcOdsc).bb y + r)
    let w := src (q.size * cellOffset srcOdsc.bb (readCell q.bb srcOdsc.bb x) + r)
    (y ∈ (partOf q srcOdsc).bb → v = w) ∧ (v = none ∨ v = w) := by
  intro y v w
  have hdims : (partOf q srcOdsc).bb.numDims = q.bb.numDims := rfl
  have hpart : x ∈ (partOf q srcOdsc).bb := h.mem_part.2 ⟨hx, hx'⟩
  have hsize : (partOf q srcOdsc).size = q.size := h.size_eq
  by_cases heq : objDescEqualsNoOwner srcOdsc (partOf q srcOdsc) = true
  · -- One block: the part is the object.
    have hbox : bboxEquals srcOdsc.bb (partOf q srcOdsc).bb = true := by
      rw [objDescEqualsNoOwner, Bool.and_eq_true] at heq
      exact heq.2
    have hread : readCell q.bb srcOdsc.bb x = y := by
      show _ = readCell q.bb (partOf q srcOdsc).bb x
      unfold readCell
      split
      · next hten => rw [((bboxEquals_iff.1 hbox).2 9 (by rw [h.dims_eq, hten]; decide)).1]
      · rfl
    have hw : w = src (q.size * cellOffset (partOf q srcOdsc).bb y + r) := by
      show src _ = _
      rw [hread, cellOffset_of_bboxEquals (h.dims_eq ▸ h.dims_pos) hbox]
    have hv : v = if q.size * cellOffset (partOf q srcOdsc).bb y + r < objDataSize (partOf q srcOdsc)
        then w else none := by
      show scheduleRdmaReads _ _ _ _ _ = _
      rw [scheduleRdmaReads, if_pos heq, memcpy, hw]
      simp
    constructor
    · intro hy
      rw [hv, if_pos]
      rw [← hsize] at hr ⊢
      exact ArrayFits.cell_lt_objDataSize (hsize ▸ h.fits) h.partInside.dst_inside hy hr
    · rw [hv]
      split
      · exact Or.inr rfl
      · exact Or.inl rfl
  · -- Row by row, as `ssd_copy` does it.
    have hv : v = cellByte (ssdCopy (objDataAlloc (partOf q srcOdsc)) ⟨srcOdsc, src, 0⟩) y r := by
      show scheduleRdmaReads _ _ _ _ _ = _
      rw [scheduleRdmaReads, if_neg heq, cellByte, ← h.size_eq]
      rfl
    have hcopy : Copyable (objDataAlloc (partOf q srcOdsc)).objDesc.bb (⟨srcOdsc, src, 0⟩ : ObjData).objDesc.bb
        (objDataAlloc (partOf q srcOdsc)).objDesc.size := by
      show Copyable (partOf q srcOdsc).bb srcOdsc.bb srcOdsc.size
      rw [h.size_eq]
      exact h.copyable_rows
    obtain ⟨hlb, hinner⟩ := readCell_bounds hdims hpart
    by_cases hy : y ∈ (partOf q srcOdsc).bb
    · have hys : y ∈ srcOdsc.bb := h.partInside.inside.mem hy
      have hvw : v = w := by
        rw [hv, cellByte_ssdCopy_of_mem hcopy hy hys (hsize ▸ hr)]
        show src (srcOdsc.size * cellOffset srcOdsc.bb (readCell (partOf q srcOdsc).bb srcOdsc.bb y) + r) = w
        rw [readCell_readCell srcOdsc.bb hdims, h.size_eq]
      exact ⟨fun _ => hvw, Or.inr hvw⟩
    · have hnone : v = none := by
        rw [hv, cellByte_ssdCopy_of_not_mem hcopy hlb hinner (fun hboth => hy hboth.1) (hsize ▸ hr)]
        rfl
      exact ⟨fun hyp => absurd hyp hy, Or.inl hnone⟩

/-- If one copy from the object reads the cell itself, the query gets its value. -/
theorem readPart_data (hself : ∀ i < q.bb.numDims, readCell q.bb srcOdsc.bb x i = x i) (self : Nat) :
    readPart self srcOdsc (partOf q srcOdsc) src
        (q.size * cellOffset (partOf q srcOdsc).bb (readCell q.bb (partOf q srcOdsc).bb x) + r) =
      src (q.size * cellOffset srcOdsc.bb x + r) := by
  have hpart : x ∈ (partOf q srcOdsc).bb := h.mem_part.2 ⟨hx, hx'⟩
  -- The part starts where the query starts, too.
  have hy : ∀ i < q.bb.numDims, readCell q.bb (partOf q srcOdsc).bb x i = x i := by
    rw [readCell_eq_iff hx] at hself ⊢
    refine hself.imp_right fun hlb => ?_
    simp only [partOf, bboxIntersect, hlb]
    split_ifs <;> rfl
  have hmem : readCell q.bb (partOf q srcOdsc).bb x ∈ (partOf q srcOdsc).bb := by
    intro i hi
    rw [hy i hi]
    exact hpart i hi
  by_cases hblock : readsBlock self srcOdsc (partOf q srcOdsc) = true
  · rw [readPart, if_pos hblock, @cellOffset_congr (partOf q srcOdsc).bb _ _ h.dims_pos hy]
    rw [readsBlock, Bool.and_eq_true] at hblock
    rw [← h.size_eq] at hr ⊢
    exact h.partInside.block_data hblock.2 src hpart hr
  · rw [readPart, if_neg hblock, (h.scheduleRdmaReads_data hx hx' hr src).1 hmem,
      cellOffset_congr (h.dims_eq ▸ h.dims_pos) (h.dims_eq ▸ hself)]

/-- The owner of the object reads by rows. -/
theorem readPart_data_owner :
    let v := readPart srcOdsc.owner srcOdsc (partOf q srcOdsc) src
      (q.size * cellOffset (partOf q srcOdsc).bb (readCell q.bb (partOf q srcOdsc).bb x) + r)
    v = none ∨ v = src (q.size * cellOffset srcOdsc.bb (readCell q.bb srcOdsc.bb x) + r) := by
  intro v
  have hrows : readsBlock srcOdsc.owner srcOdsc (partOf q srcOdsc) = false := by simp [readsBlock]
  have hv := (h.scheduleRdmaReads_data hx hx' hr src).2
  show readPart _ _ _ _ _ = none ∨ readPart _ _ _ _ _ = _
  rw [readPart, hrows]
  exact hv

end QueryMeets

end DataSpaces.Dimes
