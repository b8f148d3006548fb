import DataSpaces.Copy.Objects

/-!
# Assembling an object from pieces

`ssd_copy_list` copies the pieces of a list one after the other. Up to nine dimensions a copy reads the
cell that it writes, so a cell ends with the value of the last piece that covers it, and nothing but the
covered cells changes. Pieces that do not overlap can come in any order, since the copies have one effect
then (`ssdCopyList_perm`), and an array that was cut into pieces with `ssd_copy` is put together again
(`data_ssdCopyList_copyOut`).
-/

namespace DataSpaces.Copy

open Lib Geometry Store List

/-- Pieces with the element size of the destination, each of which meets its box. -/
def Pieces (toObj : ObjData) (l : List ObjData) : Prop :=
  ∀ od ∈ l, od.objDesc.size = toObj.objDesc.size ∧
    Copyable toObj.objDesc.bb od.objDesc.bb toObj.objDesc.size

/-- No two pieces have a common cell. -/
def DisjointPieces (l : List ObjData) : Prop :=
  l.Pairwise fun od od' => ∀ x, ¬ (x ∈ od.objDesc.bb ∧ x ∈ od'.objDesc.bb)

/-- The last piece of the list that covers the cell, or the destination if there is none. -/
def lastCovering (toObj : ObjData) (l : List ObjData) (x : Coord) : ObjData :=
  (l.reverse.find? fun od => decide (x ∈ od.objDesc.bb)).getD toObj

/-- The byte belongs to a cell of the destination that a piece covers. -/
def CoveredByte (toObj : ObjData) (l : List ObjData) (p : Nat) : Prop :=
  ∃ od ∈ l, ∃ x, x ∈ toObj.objDesc.bb ∧ x ∈ od.objDesc.bb ∧ ∃ r < toObj.objDesc.size,
    p = toObj.objDesc.size * cellOffset toObj.objDesc.bb x + r

/-- A piece that `ssd_copy` cuts out of an object, in a buffer that was not cleared. -/
def copyOut (original : ObjData) (b : Bbox) : ObjData :=
  ssdCopy (objDataAlloc { original.objDesc with bb := b }) original

variable {toObj : ObjData}

/-! ## The last piece wins -/

theorem cellByte_ssdCopyList_lastCovering (hdims : toObj.objDesc.bb.numDims ≤ 9) {l : List ObjData}
    (h : Pieces toObj l) {x : Coord} (hx : x ∈ toObj.objDesc.bb) {r : Nat} (hr : r < toObj.objDesc.size) :
    cellByte (ssdCopyList toObj l) x r = cellByte (lastCovering toObj l x) x r := by
  rw [cellByte_ssdCopyList (fun od hod => (h od hod).2) hx hr, lastCovering]
  cases hf : l.reverse.find? fun od => decide (x ∈ od.objDesc.bb) with
  | none => rfl
  | some od =>
    have hod := h od (mem_reverse.1 (mem_of_find?_eq_some hf))
    have hten : toObj.objDesc.bb.numDims ≠ 10 := by omega
    simp only [Option.getD_some, cellByte, hod.1, readCell_of_ne hten]

theorem data_ssdCopyList_of_not_covered {l : List ObjData} (h : Pieces toObj l) {p : Nat}
    (hp : ¬ CoveredByte toObj l p) : (ssdCopyList toObj l).data p = toObj.data p := by
  induction l using reverseRecOn with
  | nil => rfl
  | append_singleton l od ih =>
    have hl : Pieces toObj l := fun od' hod' => h od' (mem_append_left _ hod')
    have hod := (h od (mem_append_right _ (mem_singleton_self od))).2
    have hdesc := ssdCopyList_objDesc toObj l
    rw [ssdCopyList_append_singleton, ← ih hl fun hcov => hp ?_]
    · apply data_ssdCopy_of_ne (by rw [hdesc]; exact hod)
      rw [hdesc]
      rintro x hx hx' r hr rfl
      exact hp ⟨od, mem_append_right _ (mem_singleton_self od), x, hx, hx', r, hr, rfl⟩
    · obtain ⟨od', hod', hcell⟩ := hcov
      exact ⟨od', mem_append_left _ hod', hcell⟩

/-! ## Order -/

/-- A copy from a list is a loop over the data of the destination. -/
theorem ssdCopyList_eq (toObj : ObjData) (l : List ObjData) :
    ssdCopyList toObj l =
      { toObj with
        data := l.foldl (fun A od => (ssdCopy { toObj with data := A } od).data) toObj.data } := by
  induction l using reverseRecOn with
  | nil => rfl
  | append_singleton l od ih =>
    rw [ssdCopyList_append_singleton, ih, foldl_append]
    rfl

/-- Two copied cells at one byte are the same cell. -/
theorem CopiesCells.same_cell {dst src src' : Bbox} {se p : Nat} {B B' : Mem} {v v' : Option UInt8}
    (hlt : ∀ i < dst.numDims, dst.ub i + 1 < 2 ^ 64) (hv : CopiesCells dst src se B p v)
    (hv' : CopiesCells dst src' se B' p v') :
    ∃ x y : Coord, (∀ i < dst.numDims, x i = y i) ∧ x ∈ src ∧ y ∈ src' ∧ ∃ r,
      v = B (se * cellOffset src (readCell dst src x) + r) ∧
      v' = B' (se * cellOffset src' (readCell dst src' y) + r) := by
  obtain ⟨x, hx, hxs, r, hr, rfl, rfl⟩ := hv
  obtain ⟨y, hy, hys, r', hr', hp, rfl⟩ := hv'
  rw [Nat.mul_comm _ (cellOffset _ x), Nat.mul_comm _ (cellOffset _ y)] at hp
  obtain ⟨hoff, rfl⟩ := eq_and_eq_of_mul_add_eq hr hr' hp
  exact ⟨x, y, eq_of_cellOffset_eq hlt hx (fun i hi => (hy i hi).1) (fun i hi => (hy i (by omega)).2) hoff,
    hxs, hys, r, rfl, rfl⟩

/-- Disjoint pieces write different bytes, so their copies have one effect together. -/
theorem ssdCopyList_writes {l : List ObjData} (h : Pieces toObj l) (hdisj : DisjointPieces l) :
    Writes (fun A => l.foldl (fun A od => (ssdCopy { toObj with data := A } od).data) A) fun p v =>
      ∃ od ∈ l, CopiesCells toObj.objDesc.bb od.objDesc.bb toObj.objDesc.size od.data p v := by
  apply Writes.foldl
  · exact fun od hod => ssdCopy_writes (h od hod).2
  · intro od hod od' hod' p v v' hv hv'
    have hcopy := (h od hod).2
    obtain ⟨x, y, hxy, hx, hy, r, rfl, rfl⟩ := hv.same_cell hcopy.dst_lt hv'
    have hy' : y ∈ od.objDesc.bb := by
      intro i hi
      rw [← hxy i (hcopy.dims_eq ▸ hi)]
      exact hx i hi
    have hsame : od = od' := by
      by_contra hne
      have : Std.Symm fun od od' : ObjData => ∀ x, ¬ (x ∈ od.objDesc.bb ∧ x ∈ od'.objDesc.bb) :=
        ⟨fun _ _ hno x hx => hno x hx.symm⟩
      exact Pairwise.forall hdisj hod hod' hne y ⟨hy', hy⟩
    subst hsame
    rw [cellOffset_congr (hcopy.dims_eq ▸ hcopy.dims_pos) fun i hi =>
      readCell_congr hxy i (hcopy.dims_eq ▸ hi)]

/-- The order of disjoint pieces does not matter. -/
theorem ssdCopyList_perm {l l' : List ObjData} (h : Pieces toObj l) (hdisj : DisjointPieces l)
    (hperm : l.Perm l') : ssdCopyList toObj l = ssdCopyList toObj l' := by
  have h' : Pieces toObj l' := fun od hod => h od (hperm.mem_iff.2 hod)
  have hdisj' : DisjointPieces l' := hperm.pairwise hdisj fun hno x hx => hno x hx.symm
  have hsame : ∀ p v,
      (∃ od ∈ l', CopiesCells toObj.objDesc.bb od.objDesc.bb toObj.objDesc.size od.data p v) ↔
        ∃ od ∈ l, CopiesCells toObj.objDesc.bb od.objDesc.bb toObj.objDesc.size od.data p v :=
    fun p v => by simp only [hperm.mem_iff]
  have heq := Writes.unique (ssdCopyList_writes h hdisj) ((ssdCopyList_writes h' hdisj').congr hsame)
  rw [ssdCopyList_eq, ssdCopyList_eq, congrFun heq toObj.data]

/-! ## Cutting and assembling -/

/-- A piece that was cut out has the values of the original. -/
theorem cellByte_copyOut {original : ObjData} {b : Bbox} (hdims : b.numDims ≤ 9)
    (h : Copyable b original.objDesc.bb original.objDesc.size) {x : Coord} (hx : x ∈ b)
    (hx' : x ∈ original.objDesc.bb) {r : Nat} (hr : r < original.objDesc.size) :
    cellByte (copyOut original b) x r = cellByte original x r := by
  have hcopied : cellByte (ssdCopy (objDataAlloc { original.objDesc with bb := b }) original) x r = _ :=
    cellByte_ssdCopy_of_mem h hx hx' hr
  have hread : readCell b original.objDesc.bb x = x := readCell_of_ne (by omega) x
  rw [copyOut, hcopied]
  show original.data (original.objDesc.size * cellOffset _ (readCell b original.objDesc.bb x) + r) = _
  rw [hread]
  rfl

/-- An array that is cut into pieces is put together again, over any buffer of the same shape. -/
theorem data_ssdCopyList_copyOut (hdims : toObj.objDesc.bb.numDims ≤ 9) {original : ObjData}
    (hdesc : original.objDesc = toObj.objDesc)
    (hfits : ArrayFits toObj.objDesc.bb toObj.objDesc.size) (hwf : toObj.objDesc.bb.Wf) {bs : List Bbox}
    (hin : ∀ b ∈ bs, b.Inside toObj.objDesc.bb ∧ b.Wf)
    (hcover : ∀ x, x ∈ toObj.objDesc.bb → ∃ b ∈ bs, x ∈ b) {p : Nat} (hp : p < objDataSize toObj.objDesc) :
    (ssdCopyList toObj (bs.map (copyOut original))).data p = original.data p := by
  have hself := Bbox.Inside.refl toObj.objDesc.bb
  have hpieces : Pieces toObj (bs.map (copyOut original)) := by
    intro od hod
    obtain ⟨b, hb, rfl⟩ := mem_map.1 hod
    have hmeet := (hin b hb).2.lb_mem
    refine ⟨by rw [copyOut, ssdCopy_objDesc, objDataAlloc, hdesc], ?_⟩
    exact hfits.copyable hself (hin b hb).1 ⟨b.lb, (hin b hb).1.mem hmeet, hmeet⟩
  obtain ⟨x, hx, r, hr, rfl⟩ := hfits.exists_cell_of_lt (Bbox.Inside.refl _) hwf hp
  have hbyte := cellByte_ssdCopyList_lastCovering hdims hpieces hx hr
  rw [cellByte, ssdCopyList_objDesc] at hbyte
  rw [hbyte, lastCovering]
  -- The last piece over the cell is one of those that were cut out.
  obtain ⟨b, hb, hxb⟩ := hcover x hx
  have hsome : ((bs.map (copyOut original)).reverse.find? fun od => decide (x ∈ od.objDesc.bb)).isSome := by
    rw [find?_isSome]
    refine ⟨copyOut original b, mem_reverse.2 (mem_map.2 ⟨b, hb, rfl⟩), ?_⟩
    exact decide_eq_true hxb
  obtain ⟨od, hod⟩ := Option.isSome_iff_exists.1 hsome
  obtain ⟨c, hc, rfl⟩ := mem_map.1 (mem_reverse.1 (mem_of_find?_eq_some hod))
  have hfound := find?_some hod
  have hxc : x ∈ c := of_decide_eq_true hfound
  have hcopy : Copyable c original.objDesc.bb original.objDesc.size := by
    rw [hdesc]
    exact hfits.copyable (hin c hc).1 hself ⟨x, hxc, hx⟩
  have hcdims : c.numDims ≤ 9 := by rw [(hin c hc).1.numDims_eq]; exact hdims
  rw [hod, Option.getD_some, cellByte_copyOut hcdims hcopy hxc (hdesc ▸ hx) (hdesc ▸ hr), cellByte, hdesc]

/-! ## Assembly -/

/-- What `ssd_copy_list` does in at most nine dimensions. -/
structure Assembles (toObj : ObjData) : Prop where
  /-- Every cell has the value of the last piece that covers it. -/
  last : ∀ l, Pieces toObj l → ∀ x, x ∈ toObj.objDesc.bb → ∀ r < toObj.objDesc.size,
    cellByte (ssdCopyList toObj l) x r = cellByte (lastCovering toObj l x) x r
  /-- Everything else is unchanged. -/
  other : ∀ l, Pieces toObj l → ∀ p, ¬ CoveredByte toObj l p →
    (ssdCopyList toObj l).data p = toObj.data p
  /-- Disjoint pieces may come in any order. -/
  order : ∀ l l', Pieces toObj l → DisjointPieces l → l.Perm l' →
    ssdCopyList toObj l = ssdCopyList toObj l'
  /-- An array of this shape that is cut into disjoint pieces is put together again. -/
  split : ∀ original, original.objDesc = toObj.objDesc →
    ArrayFits toObj.objDesc.bb toObj.objDesc.size → toObj.objDesc.bb.Wf →
    ∀ bs : List Bbox, (∀ b ∈ bs, b.Inside toObj.objDesc.bb ∧ b.Wf) →
      (bs.Pairwise fun b c => ∀ x, ¬ (x ∈ b ∧ x ∈ c)) →
      (∀ x, x ∈ toObj.objDesc.bb → ∃ b ∈ bs, x ∈ b) →
      ∀ p < objDataSize toObj.objDesc,
        (ssdCopyList toObj (bs.map (copyOut original))).data p = original.data p

theorem ssdCopyList_assembles (toObj : ObjData) (hdims : toObj.objDesc.bb.numDims ≤ 9) :
    Assembles toObj where
  last := fun _ h _ hx _ hr => cellByte_ssdCopyList_lastCovering hdims h hx hr
  other := fun _ h _ hp => data_ssdCopyList_of_not_covered h hp
  order := fun _ _ h hdisj hperm => ssdCopyList_perm h hdisj hperm
  split := fun _ hdesc hfits hwf _ hin _ hcover _ hp =>
    data_ssdCopyList_copyOut hdims hdesc hfits hwf hin hcover hp

/-- Cells `lo` to `hi` of a line, with elements of eight bytes. -/
def linePiece (lo hi : Nat) : ObjDescriptor :=
  ⟨"field", .columnMajor, 0, 1, ⟨1, fun _ => lo, fun _ => hi⟩, 8⟩

/-- A line of four cells is cut in the middle and put together again. -/
theorem ssdCopyList_assembles_line : Assembles (objDataAlloc (linePiece 0 3)) ∧
    ∀ original, original.objDesc = linePiece 0 3 → ∀ p < 32, (ssdCopyList (objDataAlloc (linePiece 0 3))
        ([(linePiece 2 3).bb, (linePiece 0 1).bb].map (copyOut original))).data p = original.data p := by
  have hassembles := ssdCopyList_assembles (objDataAlloc (linePiece 0 3)) (by decide)
  refine ⟨hassembles, fun original hdesc p hp => ?_⟩
  apply hassembles.split original hdesc
  · exact ⟨by decide, by decide, by decide, by decide⟩
  · decide
  · simp only [forall_mem_cons]
    exact ⟨⟨⟨rfl, by decide⟩, by decide⟩, ⟨⟨rfl, by decide⟩, by decide⟩, by simp⟩
  · simp only [pairwise_cons, forall_mem_cons]
    refine ⟨⟨fun x hx => ?_, by simp⟩, by simp⟩
    have h1 := hx.1 0 (by decide)
    have h2 := hx.2 0 (by decide)
    simp only [linePiece] at h1 h2
    omega
  · intro x hx
    have h1 := hx 0 (by decide)
    simp only [objDataAlloc, linePiece] at h1
    rcases Nat.lt_or_ge (x 0) 2 with hlt | hge
    · refine ⟨_, mem_cons_of_mem _ mem_cons_self, fun i hi => ?_⟩
      obtain rfl : i = 0 := by simpa [linePiece] using hi
      simp only [linePiece]
      omega
    · refine ⟨_, mem_cons_self, fun i hi => ?_⟩
      obtain rfl : i = 0 := by simpa [linePiece] using hi
      simp only [linePiece]
      omega
  · exact hp

end DataSpaces.Copy
