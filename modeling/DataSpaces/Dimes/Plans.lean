import DataSpaces.Dimes.Reads

/-!
# Read plans

A DIMES client schedules RDMA reads before it performs them. A read moves a block of bytes from an offset
in the memory of the object to an offset in the buffer of the part. There are three plans: the whole
object if the part is the object, one block if the part is contiguous in it, and one read for each row,
scheduled by the loops of `matrix_rdma_copy`.

`ExactPlan` is about the reads themselves: their destinations, listed one after the other, are the bytes of
the part, each once and in order; no read leaves the object; and every byte of a cell comes from the same
byte of the cell in the object. In at most nine dimensions all three plans are exact whenever they may be
used (`plans_exact`).

`dart_rdma_schedule_read` puts every read in front of the list of its transaction, the transports start from
the front and complete the reads in any order. Since no byte of the buffer is written twice, performing them
in any order is `readPart` (`performReads_fetchReads`).
-/

namespace DataSpaces.Dimes

open Lib Geometry Store Copy List Function

/-! ## The source -/

/-- What `dart_rdma_schedule_read` is called with. -/
structure RdmaRead where
  srcOffset : Nat
  dstOffset : Nat
  bytes : Nat
deriving DecidableEq, Repr

/-- The reads that the loops of `matrix_rdma_copy` over the dimensions `k` to `0` schedule. -/
def rowReads (a b : MatrixDesc) : Nat → Nat → Nat → List RdmaRead
  | 0, aloc1, bloc1 =>
    let n := ((a.ub 0 + 2 ^ 64 - a.lb 0) % 2 ^ 64 + 1) % 2 ^ 64
    let aloc := (aloc1 + a.lb 0) % 2 ^ 64
    let bloc := (bloc1 + b.lb 0) % 2 ^ 64
    [{ srcOffset := bloc * a.sizeElem % 2 ^ 64
       dstOffset := aloc * a.sizeElem % 2 ^ 64
       bytes := n * a.sizeElem % 2 ^ 64 }]
  | k + 1, aloc, bloc =>
    (range (a.ub (k + 1) + 1 - a.lb (k + 1))).flatMap fun t =>
      rowReads a b k ((aloc + (a.lb (k + 1) + t)) * a.dist k % 2 ^ 64)
        ((bloc + (b.lb (k + 1) + t)) * b.dist k % 2 ^ 64)

/-- The reads of `matrix_rdma_copy`, which is entered in the middle as `matrix_copy` is. -/
def matrixRdmaReads (a b : MatrixDesc) : List RdmaRead :=
  if 1 ≤ a.numDims ∧ a.numDims ≤ 9 then rowReads a b (a.numDims - 1) 0 0
  else
    (range (a.ub 9 + 1 - a.lb 9)).flatMap fun t =>
      let a9 := a.lb 9 + t
      -- Both offsets are computed from the index into the buffer.
      rowReads a b 8 (a9 * a.dist 8 % 2 ^ 64) (a9 * b.dist 8 % 2 ^ 64)

/-- One read of the whole object. -/
def wholePlan (dstOdsc : ObjDescriptor) : List RdmaRead := [⟨0, 0, objDataSize dstOdsc⟩]

/-- One read at an offset. -/
def blockPlan (srcOdsc dstOdsc : ObjDescriptor) : List RdmaRead :=
  [⟨calculateOffsetForRemoteData srcOdsc dstOdsc, 0, objDataSize dstOdsc⟩]

/-- The view of the buffer. -/
def bufferView (srcOdsc dstOdsc : ObjDescriptor) : MatrixDesc :=
  matrixInit dstOdsc.st dstOdsc.bb (bboxIntersect dstOdsc.bb srcOdsc.bb) dstOdsc.size

/-- One read for each row. -/
def rowPlan (srcOdsc dstOdsc : ObjDescriptor) : List RdmaRead :=
  matrixRdmaReads (bufferView srcOdsc dstOdsc) (remoteView srcOdsc dstOdsc)

/-- The reads of `schedule_rdma_reads`. -/
def scheduledReads (srcOdsc dstOdsc : ObjDescriptor) : List RdmaRead :=
  if objDescEqualsNoOwner srcOdsc dstOdsc then wholePlan dstOdsc else rowPlan srcOdsc dstOdsc

/-- The reads of `dimes_fetch_data` for one part. -/
def fetchReads (self : Nat) (srcOdsc dstOdsc : ObjDescriptor) : List RdmaRead :=
  if readsBlock self srcOdsc dstOdsc then blockPlan srcOdsc dstOdsc else scheduledReads srcOdsc dstOdsc

/-- Perform reads, in the order of the list. -/
def performReads (src : Mem) (reads : List RdmaRead) (dst : Mem) : Mem :=
  reads.foldl (fun dst rd => memcpy dst rd.dstOffset src rd.srcOffset rd.bytes) dst

/-! ## Performing a plan -/

theorem performReads_rowReads (a b : MatrixDesc) (src : Mem) (k aloc bloc : Nat) (dst : Mem) :
    performReads src (rowReads a b k aloc bloc) dst = copyLoops a b src k aloc bloc dst := by
  induction k generalizing aloc bloc dst with
  | zero =>
    simp only [performReads, rowReads, copyLoops, foldl_cons, foldl_nil, Nat.mul_comm _ a.sizeElem]
  | succ k ih =>
    rw [performReads, rowReads, copyLoops, foldl_flatMap]
    congr 1
    funext dst t
    exact ih _ _ dst

theorem performReads_rowPlan (srcOdsc dstOdsc : ObjDescriptor) (src dst : Mem) :
    performReads src (rowPlan srcOdsc dstOdsc) dst =
      matrixRdmaCopy (bufferView srcOdsc dstOdsc) (remoteView srcOdsc dstOdsc) src dst := by
  rw [rowPlan, matrixRdmaCopy, matrixCopy, matrixRdmaReads]
  split
  · exact performReads_rowReads ..
  · rw [performReads, foldl_flatMap]
    congr 1
    funext dst t
    exact performReads_rowReads ..

/-- Performing the reads of a part as they are scheduled fills its buffer as `readPart` does. -/
theorem performReads_scheduled (self : Nat) (srcOdsc dstOdsc : ObjDescriptor) (src : Mem) :
    performReads src (fetchReads self srcOdsc dstOdsc) (fun _ => none) =
      readPart self srcOdsc dstOdsc src := by
  rw [fetchReads, readPart]
  split
  · rfl
  · rw [scheduledReads, scheduleRdmaReads]
    split
    · rfl
    · exact performReads_rowPlan ..

/-! ## Exact plans -/

/-- The bytes of the buffer that a read writes. -/
def RdmaRead.dstBytes (rd : RdmaRead) : List Nat := range' rd.dstOffset rd.bytes

/-- The plan fills the buffer of the part with its cells. -/
structure ExactPlan (srcOdsc dstOdsc : ObjDescriptor) (plan : List RdmaRead) : Prop where
  /-- Every byte of the buffer is written exactly once, and nothing else. -/
  once : plan.flatMap RdmaRead.dstBytes = range (objDataSize dstOdsc)
  /-- No read leaves the object. -/
  inside : ∀ rd ∈ plan, rd.srcOffset + rd.bytes ≤ objDataSize srcOdsc
  /-- The byte of a cell comes from that of the same cell in the object. -/
  moves : ∀ rd ∈ plan, ∀ x, x ∈ dstOdsc.bb → ∀ r < dstOdsc.size,
    dstOdsc.size * cellOffset dstOdsc.bb x + r ∈ rd.dstBytes →
      rd.srcOffset + (dstOdsc.size * cellOffset dstOdsc.bb x + r - rd.dstOffset) =
        srcOdsc.size * cellOffset srcOdsc.bb x + r

theorem RdmaRead.mem_dstBytes {rd : RdmaRead} {p : Nat} :
    p ∈ rd.dstBytes ↔ rd.dstOffset ≤ p ∧ p < rd.dstOffset + rd.bytes := by
  rw [dstBytes, mem_range'_1]

/-- If no byte is written twice, the order of the reads does not matter. -/
theorem performReads_perm {reads reads' : List RdmaRead} (hperm : reads.Perm reads')
    (hnodup : (reads.flatMap RdmaRead.dstBytes).Nodup) (src dst : Mem) :
    performReads src reads dst = performReads src reads' dst := by
  refine hperm.foldl_eq' (fun rd hrd rd' hrd' dst => ?_) dst
  by_cases heq : rd = rd'
  · rw [heq]
  · have hsymm : Std.Symm (onFun List.Disjoint RdmaRead.dstBytes) := ⟨fun _ _ hd => hd.symm⟩
    have hdisjoint := (nodup_flatMap.1 hnodup).2.forall hrd hrd' heq
    funext p
    have hp : ¬ (p ∈ rd.dstBytes ∧ p ∈ rd'.dstBytes) := fun hp => hdisjoint hp.1 hp.2
    rw [RdmaRead.mem_dstBytes, RdmaRead.mem_dstBytes] at hp
    simp only [memcpy]
    split_ifs <;> first | rfl | tauto

section

variable {a b : MatrixDesc}

/-- Where the rows go does not depend on where they come from. -/
theorem dstBytes_rowReads_congr {k aloc : Nat} (bloc bloc' : Nat) :
    (rowReads a b k aloc bloc).flatMap RdmaRead.dstBytes =
      (rowReads a b k aloc bloc').flatMap RdmaRead.dstBytes := by
  induction k generalizing aloc bloc bloc' with
  | zero => rfl
  | succ k ih =>
    rw [rowReads, rowReads, flatMap_assoc, flatMap_assoc]
    exact flatMap_congr fun t _ => ih _ _

/-- The accumulators count modulo `2 ^ 64` only. -/
theorem rowReads_mod (a b : MatrixDesc) (k aloc bloc : Nat) :
    rowReads a b k (aloc % 2 ^ 64) (bloc % 2 ^ 64) = rowReads a b k aloc bloc := by
  cases k with
  | zero => simp only [rowReads, Nat.mod_add_mod]
  | succ k => simp only [rowReads, mod_add_mul_mod]

/-- When the view of the buffer is all of it, the rows follow each other. -/
theorem rowReads_dstBytes {k : Nat} (hlb : ∀ i ≤ k, a.lb i = 0) (hub : ∀ i ≤ k, a.ub i + 1 = a.dist i)
    {aloc : Nat} (bloc : Nat) (hfits : a.sizeElem * (aloc * ∏ i ∈ Finset.range k, a.dist i) +
      a.sizeElem * ∏ i ∈ Finset.range (k + 1), a.dist i < 2 ^ 64) :
    (rowReads a b k aloc bloc).flatMap RdmaRead.dstBytes =
      range' (a.sizeElem * (aloc * ∏ i ∈ Finset.range k, a.dist i))
        (a.sizeElem * ∏ i ∈ Finset.range (k + 1), a.dist i) := by
  induction k generalizing aloc bloc with
  | zero =>
    have hside := hub 0 le_rfl
    simp only [Finset.range_zero, Finset.prod_empty, Nat.mul_one, Nat.zero_add,
      Finset.prod_range_one] at hfits ⊢
    have hoff : (aloc + a.lb 0) % 2 ^ 64 * a.sizeElem % 2 ^ 64 = a.sizeElem * aloc := by
      rw [hlb 0 le_rfl, Nat.add_zero, Nat.mod_mul_mod, Nat.mul_comm, Nat.mod_eq_of_lt (by omega)]
    have hbytes : ((a.ub 0 + 2 ^ 64 - a.lb 0) % 2 ^ 64 + 1) % 2 ^ 64 * a.sizeElem % 2 ^ 64 =
        a.sizeElem * a.dist 0 := by
      rw [hlb 0 le_rfl, Nat.sub_zero, Nat.add_mod_right, Nat.mod_add_mod, hside, Nat.mod_mul_mod,
        Nat.mul_comm, Nat.mod_eq_of_lt (by omega)]
    simp only [rowReads, flatMap_cons, flatMap_nil, append_nil, RdmaRead.dstBytes, hoff, hbytes]
  | succ k ih =>
    have hcount : a.ub (k + 1) + 1 - a.lb (k + 1) = a.dist (k + 1) := by
      rw [hlb (k + 1) le_rfl, Nat.sub_zero, hub (k + 1) le_rfl]
    have hstep : ∀ t < a.dist (k + 1),
        (rowReads a b k ((aloc + (a.lb (k + 1) + t)) * a.dist k % 2 ^ 64)
            ((bloc + (b.lb (k + 1) + t)) * b.dist k % 2 ^ 64)).flatMap RdmaRead.dstBytes =
          range' (a.sizeElem * (aloc * ∏ i ∈ Finset.range (k + 1), a.dist i) +
            t * (a.sizeElem * ∏ i ∈ Finset.range (k + 1), a.dist i))
            (a.sizeElem * ∏ i ∈ Finset.range (k + 1), a.dist i) := by
      intro t ht
      have hstart : a.sizeElem * ((aloc + t) * a.dist k * ∏ i ∈ Finset.range k, a.dist i) =
          a.sizeElem * (aloc * ∏ i ∈ Finset.range (k + 1), a.dist i) +
            t * (a.sizeElem * ∏ i ∈ Finset.range (k + 1), a.dist i) := by
        rw [Finset.prod_range_succ]
        ring
      rw [rowReads_mod, hlb (k + 1) le_rfl, Nat.zero_add,
        ih (fun i hi => hlb i (Nat.le_succ_of_le hi)) (fun i hi => hub i (Nat.le_succ_of_le hi)), hstart]
      rw [hstart]
      -- This round ends before the last one does.
      have hround : t * (a.sizeElem * ∏ i ∈ Finset.range (k + 1), a.dist i) +
          a.sizeElem * ∏ i ∈ Finset.range (k + 1), a.dist i ≤
            a.sizeElem * ∏ i ∈ Finset.range (k + 1 + 1), a.dist i := by
        rw [Finset.prod_range_succ _ (k + 1), ← Nat.succ_mul, Nat.mul_left_comm, Nat.mul_comm _ (a.dist _)]
        exact Nat.mul_le_mul_left _ (Nat.mul_le_mul_right _ ht)
      omega
    rw [rowReads, hcount, flatMap_assoc,
      flatMap_congr fun t ht => hstep t (mem_range.1 ht), flatMap_range'_blocks,
      Finset.prod_range_succ _ (k + 1)]
    congr 1
    ring

/-- Every read is a row: it starts at the first cell of the row in both arrays. -/
theorem exists_row_of_mem_rowReads {k : Nat} (hview : a.lb 0 ≤ a.ub 0 ∧ a.ub 0 < 2 ^ 64)
    {aloc bloc : Nat} {rd : RdmaRead} (h : rd ∈ rowReads a b k aloc bloc) :
    ∃ t, a.Rounds k t ∧ t 0 = 0 ∧ rd.srcOffset = a.sizeElem * b.at k bloc t % 2 ^ 64 ∧
      rd.dstOffset = a.sizeElem * a.at k aloc t % 2 ^ 64 ∧ rd.bytes = a.sizeElem * a.count 0 % 2 ^ 64 := by
  induction k generalizing aloc bloc with
  | zero =>
    obtain rfl := mem_singleton.1 h
    have hcount : a.ub 0 + 2 ^ 64 - a.lb 0 + 1 = a.count 0 + 2 ^ 64 := by
      rw [MatrixDesc.count]
      omega
    refine ⟨fun _ => 0, fun i hi => ?_, rfl, ?_, ?_, ?_⟩
    · show 0 < a.count i
      rw [Nat.le_zero.1 hi, MatrixDesc.count]
      omega
    · show (bloc + b.lb 0) % 2 ^ 64 * a.sizeElem % 2 ^ 64 = a.sizeElem * (bloc + (b.lb 0 + 0)) % 2 ^ 64
      rw [Nat.mod_mul_mod, Nat.mul_comm, Nat.add_zero]
    · show (aloc + a.lb 0) % 2 ^ 64 * a.sizeElem % 2 ^ 64 = a.sizeElem * (aloc + (a.lb 0 + 0)) % 2 ^ 64
      rw [Nat.mod_mul_mod, Nat.mul_comm, Nat.add_zero]
    · show ((a.ub 0 + 2 ^ 64 - a.lb 0) % 2 ^ 64 + 1) % 2 ^ 64 * a.sizeElem % 2 ^ 64 = _
      rw [Nat.mod_add_mod, hcount, Nat.add_mod_right, Nat.mod_mul_mod, Nat.mul_comm]
  | succ k ih =>
    rw [rowReads] at h
    obtain ⟨s, hs, hrd⟩ := mem_flatMap.1 h
    rw [rowReads_mod] at hrd
    obtain ⟨t, ht, ht0, hsrc, hdst, hbytes⟩ := ih hrd
    refine ⟨update t (k + 1) s, ht.update (mem_range.1 hs), ?_, ?_, ?_, hbytes⟩
    · rw [update_of_ne (Nat.succ_ne_zero k).symm]
      exact ht0
    · rw [b.at_update]
      exact hsrc
    · rw [a.at_update]
      exact hdst

end

section

variable {srcOdsc dstOdsc : ObjDescriptor}

section

variable (h : PartInside srcOdsc dstOdsc srcOdsc.bb)

include h

/-- One block with all the bytes of the part, which are at `off` in the object. -/
theorem exactPlan_of_block {off : Nat}
    (hcell : ∀ x, x ∈ dstOdsc.bb →
      off + srcOdsc.size * cellOffset dstOdsc.bb x = srcOdsc.size * cellOffset srcOdsc.bb x) :
    ExactPlan srcOdsc dstOdsc [⟨off, 0, objDataSize dstOdsc⟩] where
  once := by
    rw [flatMap_singleton, range_eq_range']
    rfl
  inside := by
    intro rd hrd
    obtain rfl := mem_singleton.1 hrd
    show off + objDataSize dstOdsc ≤ objDataSize srcOdsc
    have hend : ∀ x, x ∈ dstOdsc.bb → srcOdsc.size * cellOffset srcOdsc.bb x + srcOdsc.size ≤
        objDataSize srcOdsc := fun x hx =>
      h.fits.cell_end_le_objDataSize h.src_inside (h.inside.mem hx)
    rcases Nat.eq_zero_or_pos (objDataSize dstOdsc) with hzero | hpos
    · have hlb : dstOdsc.bb.lb ∈ dstOdsc.bb := fun i hi => ⟨le_rfl, h.wf i hi⟩
      have hoff := hcell _ hlb
      have hle := hend _ hlb
      omega
    · -- The last byte of the part is a byte of some cell.
      obtain ⟨x, hx, r, hr, hlast⟩ := ArrayFits.exists_cell_of_lt (h.size_eq ▸ h.fits) h.dst_inside h.wf
        (Nat.sub_lt hpos Nat.one_pos)
      have hoff := hcell x hx
      have hle := hend x hx
      rw [h.size_eq] at hr hlast
      omega
  moves := by
    intro rd hrd x hx r _ _
    obtain rfl := mem_singleton.1 hrd
    have hoff := hcell x hx
    rw [h.size_eq]
    show off + (_ - 0) = _
    omega

theorem wholePlan_exact (hguard : objDescEqualsNoOwner srcOdsc dstOdsc = true) :
    ExactPlan srcOdsc dstOdsc (wholePlan dstOdsc) := by
  rw [objDescEqualsNoOwner, Bool.and_eq_true] at hguard
  apply exactPlan_of_block h
  intro x _
  rw [Nat.zero_add, cellOffset_of_bboxEquals h.dims_pos hguard.2]

theorem blockPlan_exact (hguard : isRemoteDataContiguousInMemory srcOdsc dstOdsc = true) :
    ExactPlan srcOdsc dstOdsc (blockPlan srcOdsc dstOdsc) := by
  apply exactPlan_of_block h
  intro x hx
  have hoff := h.cellOffset_of_contiguous hguard hx
  have hend := h.fits.cell_end_le_objDataSize h.src_inside (h.inside.mem hx)
  have hlt : objDataSize srcOdsc < 2 ^ 64 := Nat.mod_lt _ (by decide)
  rw [hoff, Nat.mul_succ, Nat.mul_add] at hend
  rw [calculateOffset_eq, hoff, Nat.mul_add, Nat.mod_eq_of_lt (by omega)]

end

variable {G b : Bbox} {y : Coord}

theorem PartInside.copyable (h : PartInside srcOdsc dstOdsc G) :
    Copyable dstOdsc.bb srcOdsc.bb dstOdsc.size := by
  have hlb : dstOdsc.bb.lb ∈ dstOdsc.bb := fun i hi => ⟨le_rfl, h.wf i hi⟩
  rw [h.size_eq]
  exact h.fits.copyable h.dst_inside h.src_inside ⟨_, hlb, h.inside.mem hlb⟩

/-- Up to nine dimensions the loops start at the outermost dimension. -/
theorem rowPlan_eq (hpos : 1 ≤ dstOdsc.bb.numDims) (hle : dstOdsc.bb.numDims ≤ 9) : rowPlan srcOdsc dstOdsc =
      rowReads (bufferView srcOdsc dstOdsc) (remoteView srcOdsc dstOdsc) (dstOdsc.bb.numDims - 1) 0 0 :=
  if_pos ⟨hpos, hle⟩

/-- The view of the buffer is all of it. -/
theorem PartInside.bufferView_bounds (h : PartInside srcOdsc dstOdsc G) {i : Nat}
    (hi : i < dstOdsc.bb.numDims) : (bufferView srcOdsc dstOdsc).lb i = 0 ∧
      (bufferView srcOdsc dstOdsc).ub i + 1 = dstOdsc.bb.ub i + 1 - dstOdsc.bb.lb i := by
  obtain ⟨hlb, hub⟩ := h.copyable.dst_view dstOdsc.st hi
  obtain ⟨hclb, hcub⟩ := h.common (h.inside.numDims_eq ▸ hi)
  have hwf := h.wf i hi
  rw [bufferView, hlb, hub, hclb, hcub]
  omega

/-- The cells of the row that starts at `y`. -/
theorem row_cell_mem (hy : y ∈ b) (hstart : y 0 = b.lb 0) {j : Nat}
    (hj : j < b.ub 0 + 1 - b.lb 0) : update y 0 (y 0 + j) ∈ b := by
  intro i hi
  by_cases hi0 : i = 0
  · subst hi0
    rw [update_self]
    omega
  · rw [update_of_ne hi0]
    exact hy i hi

/-- A row lies inside an array that has all its cells. -/
theorem PartInside.row_end_le {d : ObjDescriptor} (hfits : ArrayFits G d.size)
    (hd : d.bb.Inside G) (hb : b.Inside d.bb) (hy : y ∈ b) (hstart : y 0 = b.lb 0) :
    d.size * cellOffset d.bb y + d.size * (b.ub 0 + 1 - b.lb 0) ≤ objDataSize d := by
  have hpos : 0 < d.bb.numDims := hd.numDims_eq ▸ hfits.dims_pos
  have hy0 := hy 0 (hb.numDims_eq ▸ hpos)
  have hlast := row_cell_mem hy hstart (j := b.ub 0 - b.lb 0) (by omega)
  have hend := hfits.cell_end_le_objDataSize hd (hb.mem hlast)
  rw [cellOffset_update_zero (hb.mem hy 0 hpos).1, Nat.add_assoc, Nat.mul_add] at hend
  rwa [Nat.succ_sub (by omega)]

/-- A read of the row that starts at the cell `y`. -/
structure ReadsRow (srcOdsc dstOdsc : ObjDescriptor) (rd : RdmaRead) (y : Coord) : Prop where
  mem : y ∈ dstOdsc.bb
  start : y 0 = dstOdsc.bb.lb 0
  src : rd.srcOffset = srcOdsc.size * cellOffset srcOdsc.bb y
  dst : rd.dstOffset = srcOdsc.size * cellOffset dstOdsc.bb y
  bytes : rd.bytes = srcOdsc.size * (dstOdsc.bb.ub 0 + 1 - dstOdsc.bb.lb 0)

section

variable (h : PartInside srcOdsc dstOdsc srcOdsc.bb)

include h

/-- Also in ten dimensions the rows go where the nested loops put them. -/
theorem dstBytes_rowPlan : (rowPlan srcOdsc dstOdsc).flatMap RdmaRead.dstBytes =
    (rowReads (bufferView srcOdsc dstOdsc) (remoteView srcOdsc dstOdsc) (dstOdsc.bb.numDims - 1) 0 0).flatMap
      RdmaRead.dstBytes := by
  have hpos := h.copyable.dims_pos
  rcases Nat.lt_or_ge 9 dstOdsc.bb.numDims with hten | hle
  · have hdims : dstOdsc.bb.numDims = 10 := by
      have hmax : srcOdsc.bb.numDims ≤ 10 := h.fits.dims_le
      rw [← h.inside.numDims_eq] at hmax
      omega
    have hneg : ¬ (1 ≤ (bufferView srcOdsc dstOdsc).numDims ∧ (bufferView srcOdsc dstOdsc).numDims ≤ 9) := by
      show ¬ (1 ≤ dstOdsc.bb.numDims ∧ dstOdsc.bb.numDims ≤ 9)
      omega
    rw [rowPlan, matrixRdmaReads, if_neg hneg, hdims, rowReads, flatMap_assoc, flatMap_assoc]
    refine flatMap_congr fun t _ => ?_
    rw [Nat.zero_add]
    exact dstBytes_rowReads_congr _ _
  · rw [rowPlan_eq hpos hle]

/-- The reads of the rows, one after the other, fill the buffer. -/
theorem rowPlan_once : (rowPlan srcOdsc dstOdsc).flatMap RdmaRead.dstBytes = range (objDataSize dstOdsc) := by
  have hpos := h.copyable.dims_pos
  have hdist : ∀ i < dstOdsc.bb.numDims, (bufferView srcOdsc dstOdsc).dist i = bboxDist dstOdsc.bb i :=
    fun i hi => if_pos hi
  have hub : ∀ i ≤ dstOdsc.bb.numDims - 1,
      (bufferView srcOdsc dstOdsc).ub i + 1 = (bufferView srcOdsc dstOdsc).dist i := by
    intro i hi
    have hi' : i < dstOdsc.bb.numDims := by omega
    rw [(h.bufferView_bounds hi').2, hdist i hi', bboxDist_eq (h.wf i hi') (h.copyable.dst_lt i hi')]
  have hsize : (bufferView srcOdsc dstOdsc).sizeElem *
      ∏ i ∈ Finset.range (dstOdsc.bb.numDims - 1 + 1), (bufferView srcOdsc dstOdsc).dist i =
        objDataSize dstOdsc := by
    rw [ArrayFits.objDataSize_eq (h.size_eq ▸ h.fits) h.dst_inside h.wf, Nat.sub_add_cancel hpos]
    exact congrArg _ (Finset.prod_congr rfl fun i hi => hdist i (Finset.mem_range.1 hi))
  have hlt : objDataSize dstOdsc < 2 ^ 64 := Nat.mod_lt _ (by decide)
  rw [dstBytes_rowPlan h, rowReads_dstBytes (fun i hi => (h.bufferView_bounds (by omega)).1) hub, hsize,
    Nat.zero_mul, Nat.mul_zero, range_eq_range']
  rw [hsize, Nat.zero_mul, Nat.mul_zero, Nat.zero_add]
  exact hlt

variable (hdims : dstOdsc.bb.numDims ≤ 9)

include hdims

theorem exists_readsRow {rd : RdmaRead} (hrd : rd ∈ rowPlan srcOdsc dstOdsc) :
    ∃ y, ReadsRow srcOdsc dstOdsc rd y := by
  have hcopy := h.copyable
  have hten : dstOdsc.bb.numDims ≠ 10 := by omega
  have hview := h.bufferView_bounds hcopy.dims_pos
  have hlt := hcopy.dst_lt 0 hcopy.dims_pos
  have hwf := h.wf 0 hcopy.dims_pos
  rw [rowPlan_eq hcopy.dims_pos hdims] at hrd
  obtain ⟨t, ht, ht0, hsrc, hdst, hbytes⟩ := exists_row_of_mem_rowReads (by omega) hrd
  obtain ⟨hy, hy'⟩ := hcopy.mem_common.1 ((hcopy.rounds_iff dstOdsc.st).1 ht)
  have hstart : (bboxIntersect dstOdsc.bb srcOdsc.bb).lb 0 + t 0 = dstOdsc.bb.lb 0 := by
    rw [(h.common h.dims_pos).1, ht0, Nat.add_zero]
  have hat := hcopy.src_at dstOdsc.st srcOdsc.st srcOdsc.size (t := t)
  rw [readView, if_neg (show ¬ (matrixInit dstOdsc.st dstOdsc.bb _ _).numDims = 10 from hten),
    readCell_of_ne hten] at hat
  -- The row lies inside both arrays, so no offset wraps around.
  have hsrcEnd := PartInside.row_end_le h.fits h.src_inside h.inside hy hstart
  have hdstEnd := PartInside.row_end_le (h.size_eq ▸ h.fits) h.dst_inside (Bbox.Inside.refl _) hy hstart
  have hsrcLt : objDataSize srcOdsc < 2 ^ 64 := Nat.mod_lt _ (by decide)
  have hdstLt : objDataSize dstOdsc < 2 ^ 64 := Nat.mod_lt _ (by decide)
  have hse : (bufferView srcOdsc dstOdsc).sizeElem = srcOdsc.size := h.size_eq
  have hcount : (bufferView srcOdsc dstOdsc).count 0 = dstOdsc.bb.ub 0 + 1 - dstOdsc.bb.lb 0 := by
    rw [MatrixDesc.count, hview.1, hview.2]
    rfl
  rw [hse, remoteView, hat, Nat.mod_eq_of_lt (by omega)] at hsrc
  rw [hse, bufferView, hcopy.dst_at, Nat.mod_eq_of_lt (by rw [← h.size_eq]; omega)] at hdst
  rw [hse, hcount, Nat.mod_eq_of_lt (by omega)] at hbytes
  exact ⟨_, hy, hstart, hsrc, hdst, hbytes⟩

theorem rowPlan_exact : ExactPlan srcOdsc dstOdsc (rowPlan srcOdsc dstOdsc) where
  once := rowPlan_once h
  inside := by
    intro rd hrd
    obtain ⟨y, hrow⟩ := exists_readsRow h hdims hrd
    rw [hrow.src, hrow.bytes]
    exact PartInside.row_end_le h.fits h.src_inside h.inside hrow.mem hrow.start
  moves := by
    intro rd hrd x hx r hr hp
    obtain ⟨y, hrow⟩ := exists_readsRow h hdims hrd
    have hpos := h.copyable.dims_pos
    have hylb := (hrow.mem 0 hpos).1
    have hylb' := (h.inside.mem hrow.mem 0 h.dims_pos).1
    rw [RdmaRead.mem_dstBytes, hrow.dst, hrow.bytes, ← Nat.mul_add] at hp
    rw [h.size_eq] at hr hp ⊢
    -- The byte belongs to the cell `j` steps after the start of the row, which is `x`.
    have hle : cellOffset dstOdsc.bb y ≤ cellOffset dstOdsc.bb x :=
      Nat.lt_succ_iff.1 (Nat.lt_of_mul_lt_mul_left (a := srcOdsc.size) (by rw [Nat.mul_succ]; omega))
    have hlt := Nat.lt_of_mul_lt_mul_left (a := srcOdsc.size) (lt_of_le_of_lt (Nat.le_add_right _ r) hp.2)
    obtain ⟨j, hj⟩ := Nat.exists_eq_add_of_le hle
    have hcell := row_cell_mem hrow.mem hrow.start (j := j) (by omega)
    have hsame : ∀ i < dstOdsc.bb.numDims, x i = update y 0 (y 0 + j) i := by
      apply eq_of_cellOffset_eq h.copyable.dst_lt hx (fun i hi => (hcell i hi).1)
        (fun i hi => (hcell i (by omega)).2)
      rw [cellOffset_update_zero hylb, hj]
    have hsrc : cellOffset srcOdsc.bb x = cellOffset srcOdsc.bb y + j := by
      rw [cellOffset_congr h.dims_pos (h.inside.numDims_eq ▸ hsame), cellOffset_update_zero hylb']
    rw [hrow.src, hrow.dst, hj, hsrc, Nat.mul_add, Nat.mul_add]
    omega

end

/-- Performing the reads of a part of an object in any order fills its buffer as `readPart` does. -/
theorem performReads_fetchReads (h : PartInside srcOdsc dstOdsc srcOdsc.bb) (self : Nat) (src : Mem)
    {reads : List RdmaRead} (hreads : reads.Perm (fetchReads self srcOdsc dstOdsc)) :
    performReads src reads (fun _ => none) = readPart self srcOdsc dstOdsc src := by
  have honce : (fetchReads self srcOdsc dstOdsc).flatMap RdmaRead.dstBytes = range (objDataSize dstOdsc) := by
    rw [fetchReads, scheduledReads, range_eq_range']
    split
    · exact flatMap_singleton ..
    · split
      · exact flatMap_singleton ..
      · rw [rowPlan_once h, range_eq_range']
  rw [← performReads_scheduled, performReads_perm hreads.symm (by rw [honce]; exact nodup_range)]

/-- Each of the three plans is exact whenever it may be used. -/
structure ExactPlans (srcOdsc dstOdsc : ObjDescriptor) : Prop where
  whole : objDescEqualsNoOwner srcOdsc dstOdsc = true → ExactPlan srcOdsc dstOdsc (wholePlan dstOdsc)
  block : isRemoteDataContiguousInMemory srcOdsc dstOdsc = true →
    ExactPlan srcOdsc dstOdsc (blockPlan srcOdsc dstOdsc)
  rows : ExactPlan srcOdsc dstOdsc (rowPlan srcOdsc dstOdsc)

/-- The part is the common box of the object and a query, with elements of the same size. -/
theorem plans_exact (q : Bbox) (hfits : ArrayFits srcOdsc.bb srcOdsc.size) (hle : srcOdsc.bb.numDims ≤ 9)
    (hdims : q.numDims = srcOdsc.bb.numDims) (hmeet : ∃ x, x ∈ q ∧ x ∈ srcOdsc.bb)
    (hbb : dstOdsc.bb = bboxIntersect q srcOdsc.bb) (hsize : dstOdsc.size = srcOdsc.size) :
    ExactPlans srcOdsc dstOdsc := by
  have h : PartInside srcOdsc dstOdsc srcOdsc.bb := by
    refine ⟨hfits, hsize, Bbox.Inside.refl _, ?_, ?_⟩
    · rw [hbb]
      exact bboxIntersect_inside hdims
    · obtain ⟨x, hx⟩ := hmeet
      rw [hbb]
      exact Bbox.wf_of_mem ((mem_bboxIntersect hdims).2 hx)
  exact ⟨wholePlan_exact h, blockPlan_exact h, rowPlan_exact h (h.inside.numDims_eq ▸ hle)⟩

/-- A square of sixteen cells of eight bytes. -/
def planeObject : ObjDescriptor :=
  ⟨"field", .columnMajor, 0, 1, ⟨2, fun _ => 0, fun _ => 3⟩, 8⟩

/-- The upper half of the square: one block, or two rows. -/
theorem plans_exact_plane :
    let q : Bbox := ⟨2, fun i => if i = 0 then 0 else 2, fun _ => 5⟩
    let part : ObjDescriptor := { planeObject with bb := bboxIntersect q planeObject.bb }
    ExactPlans planeObject part ∧ isRemoteDataContiguousInMemory planeObject part = true ∧
      blockPlan planeObject part = [⟨64, 0, 64⟩] ∧
      rowPlan planeObject part = [⟨64, 0, 32⟩, ⟨96, 32, 32⟩] := by
  intro q part
  refine ⟨plans_exact q ?_ (by decide) rfl ⟨fun _ => 3, by decide, by decide⟩ rfl rfl, by decide +kernel,
    by decide +kernel, by decide +kernel⟩
  exact ⟨by decide, by decide, by decide, by decide⟩

/-- The two rows of that half, the last one first. -/
theorem performReads_fetchReads_plane :
    let part : ObjDescriptor := { planeObject with bb := ⟨2, fun i => if i = 0 then 0 else 2, fun _ => 3⟩ }
    let src : Mem := fun p => some (UInt8.ofNat p)
    performReads src [⟨96, 32, 32⟩, ⟨64, 0, 32⟩] (fun _ => none) = readPart 0 planeObject part src := by
  intro part src
  have hreads : fetchReads 0 planeObject part = [⟨64, 0, 32⟩, ⟨96, 32, 32⟩] := by decide +kernel
  have hpart : PartInside planeObject part planeObject.bb :=
    ⟨⟨by decide, by decide, by decide, by decide⟩, rfl, Bbox.Inside.refl _, ⟨rfl, by decide⟩, by decide⟩
  exact performReads_fetchReads hpart 0 src (hreads ▸ Perm.swap ..)

end

end DataSpaces.Dimes
