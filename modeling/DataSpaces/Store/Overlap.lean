import DataSpaces.Store.Retention

/-!
# Overlapping puts

What a put of a box does to the cells outside it. A cell of a name and version is reachable if
`dht_find_entry_all` finds a descriptor and `ls_find` an object that cover it
(`CellReachable`). The put displaces at most one descriptor and one object, chosen by name and
intersection only; the rest of a displaced box goes with it. `overlapping_put_keeps_cells_iff` says
when a put makes no cell outside its box unreachable.
-/

namespace DataSpaces.Store

open Lib Geometry List Function

/-- The box of a single cell. -/
def cellBox (n : Nat) (x : Coord) : Bbox := ⟨n, x, x⟩

/-- The query for one cell under the name and version of a descriptor. -/
def cellQuery (o : ObjDescriptor) (x : Coord) : ObjDescriptor :=
  { o with bb := cellBox o.bb.numDims x }

/-- Both look-ups for the cell find an item that covers it. -/
def CellReachable (srv : DsServer) (o : ObjDescriptor) (x : Coord) : Prop :=
  (∃ d ∈ dhtFindEntryAll srv.entSelf (cellQuery o x), x ∈ d.bb) ∧
    ∃ od, lsFind srv.ls (cellQuery o x) = some od ∧ x ∈ od.objDesc.bb

/-- Well-formed boxes of `n` dimensions, in objects as `obj_data_alloc` makes them. -/
def PutsIn (n : Nat) (puts : List ObjData) : Prop :=
  ∀ od ∈ puts, od.objDesc.bb.Wf ∧ od.objDesc.bb.numDims = n ∧ od.refcnt = 0

/-- The descriptor covers the cell under the name and version of `o`. -/
def Covers (o : ObjDescriptor) (x : Coord) (d : ObjDescriptor) : Prop :=
  d.name = o.name ∧ d.version = o.version ∧ x ∈ d.bb

/-! ## Single cells -/

theorem cellBox_wf (n : Nat) (x : Coord) : (cellBox n x).Wf := fun _ _ => le_rfl

theorem mem_cellBox_iff {n : Nat} {b : Bbox} (hd : b.numDims = n) {x y : Coord}
    (hy : y ∈ cellBox n x) : y ∈ b ↔ x ∈ b := by
  have heq : ∀ i < n, y i = x i := fun i hi => le_antisymm (hy i hi).2 (hy i hi).1
  simp only [mem_iff, hd]
  constructor
  · intro h i hi
    rw [← heq i hi]
    exact h i hi
  · intro h i hi
    rw [heq i hi]
    exact h i hi

/-- The intersection tests with a single cell are membership. -/
theorem intersect_cellBox_iff {b : Bbox} (hb : b.Wf) (x : Coord) :
    (bboxDoesIntersect (cellBox b.numDims x) b = true ↔ x ∈ b) ∧
      (bboxDoesIntersect b (cellBox b.numDims x) = true ↔ x ∈ b) := by
  have hcell : x ∈ cellBox b.numDims x := fun _ _ => ⟨le_rfl, le_rfl⟩
  have hshare : (∃ y, y ∈ cellBox b.numDims x ∧ y ∈ b) ↔ x ∈ b := by
    constructor
    · rintro ⟨y, hy, hyb⟩
      exact (mem_cellBox_iff rfl hy).1 hyb
    · intro hx
      exact ⟨x, hcell, hx⟩
  constructor
  · rw [bboxDoesIntersect_iff_exists_mem (cellBox_wf _ x) hb rfl, hshare]
  · rw [bboxDoesIntersect_iff_exists_mem hb (cellBox_wf _ x) rfl, ← hshare]
    exact exists_congr fun y => and_comm

section Reachable

variable {n m : Nat} {puts : List ObjData} {o : ObjDescriptor}

theorem mem_of_mem_lsRun (hputs : PutsIn n puts) {i : Nat} {od : ObjData}
    (h : od ∈ (lsRun m puts).objHash i) : od ∈ puts := by
  rw [lsRun_objHash m fun od hod => (hputs od hod).2.2] at h
  exact mem_of_mem_binRun (fun _ _ _ => mem_lsPlace) h

theorem mem_of_mem_dhtRun {ds : List ObjDescriptor} {i : Nat} {d : ObjDescriptor}
    (h : d ∈ (dhtRun m ds).odscHash i) : d ∈ ds := by
  rw [dhtRun_odscHash] at h
  exact mem_of_mem_binRun (fun _ _ _ => mem_dhtPlace) h

/-- A cell is reachable exactly when both lists of its version hold an item that covers it. -/
theorem cellReachable_iff (hputs : PutsIn n puts) (ho : o.bb.numDims = n) (x : Coord) :
    CellReachable (putRun m puts) o x ↔
      (∃ d ∈ (dhtRun m (puts.map (·.objDesc))).odscHash (o.version.toNat % m), Covers o x d) ∧
        ∃ od ∈ (lsRun m puts).objHash (o.version.toNat % m), Covers o x od.objDesc := by
  have hbin : ∀ od ∈ puts, od.objDesc.bb.Wf ∧ od.objDesc.bb.numDims = o.bb.numDims :=
    fun od hod => ⟨(hputs od hod).1, (hputs od hod).2.1.trans ho.symm⟩
  rw [putRun_eq, CellReachable]
  refine and_congr ⟨?_, ?_⟩ ⟨?_, ?_⟩
  · rintro ⟨d, hd, hx⟩
    obtain ⟨hmem, htest⟩ := mem_dhtFindEntryAll.1 hd
    obtain ⟨hname, hver, -⟩ := objDescEqualsIntersect_iff.1 htest
    rw [OdscTable.index, dhtRun_odscSize] at hmem
    exact ⟨d, hmem, hname, hver, hx⟩
  · rintro ⟨d, hmem, hname, hver, hx⟩
    obtain ⟨od, hod, rfl⟩ := mem_map.1 (mem_of_mem_dhtRun hmem)
    obtain ⟨hwf, hdims⟩ := hbin od hod
    refine ⟨od.objDesc, mem_dhtFindEntryAll.2 ⟨?_, ?_⟩, hx⟩
    · rw [OdscTable.index, dhtRun_odscSize]
      exact hmem
    · refine objDescEqualsIntersect_iff.2 ⟨hname, hver, ?_⟩
      rw [cellQuery, ← hdims]
      exact (intersect_cellBox_iff hwf x).2.2 hx
  · rintro ⟨od, hfind, hx⟩
    obtain ⟨hmem, htest⟩ := lsFind_some hfind
    obtain ⟨hname, hver, -⟩ := objDescEqualsIntersect_iff.1 htest
    rw [SsStorage.index, lsRun_sizeHash] at hmem
    exact ⟨od, hmem, hname.symm, hver.symm, hx⟩
  · -- The object that is found may be another one, but it covers the cell as well.
    rintro ⟨od, hmem, hname, hver, hx⟩
    obtain ⟨hwf, hdims⟩ := hbin od (mem_of_mem_lsRun hputs hmem)
    have hsome : (lsFind (lsRun m puts) (cellQuery o x)).isSome = true := by
      refine lsFind_isSome_iff.2 ⟨od, ?_, ?_⟩
      · rw [SsStorage.index, lsRun_sizeHash]
        exact hmem
      · refine objDescEqualsIntersect_iff.2 ⟨hname.symm, hver.symm, ?_⟩
        rw [cellQuery, ← hdims]
        exact (intersect_cellBox_iff hwf x).1.2 hx
    obtain ⟨od', hfind⟩ := Option.isSome_iff_exists.1 hsome
    obtain ⟨hmem', htest⟩ := lsFind_some hfind
    obtain ⟨hwf', hdims'⟩ := hbin od' (mem_of_mem_lsRun hputs hmem')
    refine ⟨od', hfind, (intersect_cellBox_iff hwf' x).1.1 ?_⟩
    rw [hdims']
    exact (objDescEqualsIntersect_iff.1 htest).2.2

end Reachable

/-! ## One put -/

/-- The descriptors in the list of `o` without the one that `dht_find_match` returns. -/
def otherDescriptors (de : OdscTable) (o : ObjDescriptor) : List ObjDescriptor :=
  (de.odscHash (de.index o.version)).eraseP fun e => objDescByNameIntersect o e

/-- The objects in the list of `o` without the one that `ls_find_no_version` returns. -/
def otherObjects (ls : SsStorage) (o : ObjDescriptor) : List ObjData :=
  (ls.objHash (ls.index o.version)).eraseP fun e => objDescByNameIntersect o e.objDesc

/-- The put makes no cell outside its box unreachable. -/
def KeepsCells (m : Nat) (puts : List ObjData) (od : ObjData) : Prop :=
  ∀ x, x ∉ od.objDesc.bb → CellReachable (putRun m puts) od.objDesc x →
    CellReachable (putRun m (puts ++ [od])) od.objDesc x

/-- What the put displaces is not needed: every reachable cell outside the box of the put that the
displaced descriptor covers is covered by another descriptor, and the same for the displaced object. -/
def DisplacedSpared (srv : DsServer) (o : ObjDescriptor) : Prop :=
  ∀ x, x ∉ o.bb → CellReachable srv o x →
    (∀ d, dhtFindMatch srv.entSelf o = some d → Covers o x d →
      ∃ d' ∈ otherDescriptors srv.entSelf o, Covers o x d') ∧
    (∀ e, lsFindNoVersion srv.ls o = some e → Covers o x e.objDesc →
      ∃ e' ∈ otherObjects srv.ls o, Covers o x e'.objDesc)

section Step

variable {n m : Nat} {puts : List ObjData} {od : ObjData} {x : Coord}

/-- The descriptors that cover a cell outside the box of the put are those that were not displaced. -/
theorem exists_covers_dhtAddEntry (de : OdscTable) (o : ObjDescriptor) (hx : x ∉ o.bb)
    (hbefore : ∃ d ∈ de.odscHash (de.index o.version), Covers o x d) :
    (∃ d ∈ (dhtAddEntry de o).odscHash (de.index o.version), Covers o x d) ↔
      ∀ d, dhtFindMatch de o = some d → Covers o x d → ∃ d' ∈ otherDescriptors de o, Covers o x d' := by
  rw [dhtAddEntry_odscHash, update_self, dhtFindMatch]
  by_cases hv : o.version = versionUnset
  · rw [if_pos hv, if_pos hv]
    obtain ⟨d, hd, hcov⟩ := hbefore
    exact ⟨fun _ _ hnone => (Option.some_ne_none _ hnone.symm).elim, fun _ => ⟨d, mem_cons_of_mem _ hd, hcov⟩⟩
  · rw [if_neg hv, if_neg hv, otherDescriptors, ← exists_mem_eraseP_iff hbefore]
    constructor
    · rintro ⟨d, hd, hcov⟩
      rcases mem_upsert.1 hd with rfl | hd
      · exact absurd hcov.2.2 hx
      · exact ⟨d, hd, hcov⟩
    · rintro ⟨d, hd, hcov⟩
      exact ⟨d, mem_upsert.2 (Or.inr hd), hcov⟩

/-- The objects that cover a cell outside the box of the put are those that were not displaced. -/
theorem exists_covers_lsAddObj (ls : SsStorage) (od : ObjData)
    (hr : ∀ e ∈ ls.objHash (ls.index od.objDesc.version), e.refcnt = 0) (hx : x ∉ od.objDesc.bb)
    (hbefore : ∃ e ∈ ls.objHash (ls.index od.objDesc.version), Covers od.objDesc x e.objDesc) :
    (∃ e ∈ (lsAddObj ls od).objHash (ls.index od.objDesc.version), Covers od.objDesc x e.objDesc) ↔
      ∀ e, lsFindNoVersion ls od.objDesc = some e → Covers od.objDesc x e.objDesc →
        ∃ e' ∈ otherObjects ls od.objDesc, Covers od.objDesc x e'.objDesc := by
  rw [lsAddObj_objHash ls od hr, update_self, otherObjects, lsFindNoVersion]
  refine Iff.trans ⟨?_, ?_⟩ (exists_mem_eraseP_iff hbefore)
  · rintro ⟨e, he, hcov⟩
    rcases mem_cons.1 he with rfl | he
    · exact absurd hcov.2.2 hx
    · exact ⟨e, he, hcov⟩
  · rintro ⟨e, he, hcov⟩
    exact ⟨e, mem_cons_of_mem _ he, hcov⟩

end Step

/-- After any sequence of puts, a further put keeps all cells outside its box reachable exactly when
the descriptor and the object that it displaces are not needed for them. -/
theorem overlapping_put_keeps_cells_iff (n m : Nat) (puts : List ObjData) (od : ObjData)
    (hputs : PutsIn n (puts ++ [od])) :
    KeepsCells m puts od ↔ DisplacedSpared (putRun m puts) od.objDesc := by
  have hold : PutsIn n puts := fun e he => hputs e (mem_append_left _ he)
  have hdims : od.objDesc.bb.numDims = n :=
    (hputs od (mem_append_right _ (mem_singleton_self od))).2.1
  have hr : ∀ i, ∀ e ∈ (lsRun m puts).objHash i, e.refcnt = 0 :=
    fun i e he => (hold e (mem_of_mem_lsRun hold he)).2.2
  unfold KeepsCells DisplacedSpared
  -- Cell by cell: the new put displaces at most one descriptor and one object, in one bin.
  refine forall_congr' fun x => forall_congr' fun hx => forall_congr' fun hreach => ?_
  obtain ⟨hdht, hls⟩ := (cellReachable_iff hold hdims x).1 hreach
  have hindex : od.objDesc.version.toNat % m =
      (dhtRun m (puts.map (·.objDesc))).index od.objDesc.version := by
    rw [OdscTable.index, dhtRun_odscSize]
  have hindex' : od.objDesc.version.toNat % m = (lsRun m puts).index od.objDesc.version := by
    rw [SsStorage.index, lsRun_sizeHash]
  rw [cellReachable_iff hputs hdims, putRun_eq, map_append, map_singleton,
    dhtRun_append_singleton, lsRun_append_singleton]
  rw [hindex] at hdht
  rw [hindex'] at hls
  refine and_congr ?_ ?_
  · rw [hindex]
    exact exists_covers_dhtAddEntry _ _ hx hdht
  · rw [hindex']
    exact exists_covers_lsAddObj _ _ (hr _) hx hls

/-- An object over the cells `lo` to `hi` of a line. -/
def segmentObj (lo hi : Nat) : ObjData :=
  objDataAlloc ⟨"temperature", .rowMajor, 0, 1, ⟨1, fun _ => lo, fun _ => hi⟩, 8⟩

theorem putsIn_segmentObj (segments : List (Nat × Nat)) (h : ∀ s ∈ segments, s.1 ≤ s.2) :
    PutsIn 1 (segments.map fun s => segmentObj s.1 s.2) := by
  intro od hod
  obtain ⟨s, hs, rfl⟩ := mem_map.1 hod
  exact ⟨fun _ _ => h s hs, rfl, rfl⟩

/-- A second segment next to the first one. -/
theorem overlapping_put_keeps_cells_adjacent : KeepsCells 1 [segmentObj 0 3] (segmentObj 4 7) ↔
      DisplacedSpared (putRun 1 [segmentObj 0 3]) (segmentObj 4 7).objDesc :=
  overlapping_put_keeps_cells_iff 1 1 [segmentObj 0 3] (segmentObj 4 7)
    (putsIn_segmentObj [(0, 3), (4, 7)] (by decide))

/-- Two puts of one version: the second one, of the cells `2` to `5`, makes the cell `0` of the first
one unreachable. -/
theorem overlapping_put_loses_cell :
    CellReachable (putRun 1 [segmentObj 0 3]) (segmentObj 2 5).objDesc (fun _ => 0) ∧
      ¬ CellReachable (putRun 1 [segmentObj 0 3, segmentObj 2 5]) (segmentObj 2 5).objDesc (fun _ => 0) ∧
      ¬ KeepsCells 1 [segmentObj 0 3] (segmentObj 2 5) := by
  have hbefore : CellReachable (putRun 1 [segmentObj 0 3]) (segmentObj 2 5).objDesc (fun _ => 0) :=
    ⟨⟨(segmentObj 0 3).objDesc, mem_cons_self, by decide⟩, segmentObj 0 3, rfl, by decide⟩
  have hafter : ¬ CellReachable (putRun 1 [segmentObj 0 3, segmentObj 2 5])
      (segmentObj 2 5).objDesc (fun _ => 0) := by
    rintro ⟨⟨d, hd, -⟩, -⟩
    have hempty : (dhtFindEntryAll (putRun 1 [segmentObj 0 3, segmentObj 2 5]).entSelf
        (cellQuery (segmentObj 2 5).objDesc fun _ => 0)).isEmpty = true := by decide
    rw [List.isEmpty_iff.1 hempty] at hd
    cases hd
  exact ⟨hbefore, hafter, fun hkeep => hafter (hkeep (fun _ => 0) (by decide) hbefore)⟩

end DataSpaces.Store
