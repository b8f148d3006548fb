import DataSpaces.Cluster.Complete
import DataSpaces.Dimes.Get

/-!
# What a successful DIMES get has written

A DIMES get counts answers and fetches what was located. `dimes_get_complete_iff` says when every get of
a query that returns `0` has filled all cells of the query from located objects, whatever the data, the
client and the order of answers and reads: the locations at the servers of the query have to cover it.
In ten dimensions they also have to start where the query starts along the tenth one, because of the
offset in `matrix_copy` and `matrix_rdma_copy`.
-/

namespace DataSpaces.Dimes

open Lib Geometry Store Copy Client List Cluster

/-! ## The statement -/

/-- The locations that server `t` returns for a query. -/
def locationsAt (servers : Nat → MetadataStorage) (q : ObjDescriptor) (t : Nat) : List HdrDimesPut :=
  (metadataSFindObjLocation (servers t) q).1

/-- The memory of an object with the given bytes; beyond its size there are none. -/
def bytesOf (bytes : HdrDimesPut → Nat → UInt8) (hdr : HdrDimesPut) : Mem :=
  fun p => if p < objDataSize hdr.odsc then some (bytes hdr p) else none

/-- A get by the client of `R`: the servers answer in the order `arrival`, and the reads of the fetch
table are done in the order `order`. -/
def getResult (servers : Nat → MetadataStorage) (bytes : HdrDimesPut → Nat → UInt8) (R : Reader)
    (q : ObjDescriptor) (arrival order : List Nat) : DimesResult :=
  dimesObjGet R (bytesOf bytes) (objDataAlloc q) arrival.length
    (arrival.map fun t => locateData (servers t) q) order

/-- The entries of the fetch list of such a get. -/
def getEntries (servers : Nat → MetadataStorage) (q : ObjDescriptor) (arrival : List Nat) :
    List FetchEntry :=
  fetchEntries q (arrival.flatMap (locationsAt servers q))

/-- A cell of the buffer has the value of a located object of the queried name and version. -/
def CellFetched (S : SharedSpace) (servers : Nat → MetadataStorage) (bytes : HdrDimesPut → Nat → UInt8)
    (q : ObjDescriptor) (data : Mem) (x : Coord) : Prop :=
  ∃ t ∈ S.peers q.bb, ∃ hdr ∈ locationsAt servers q t,
    hdr.odsc.name = q.name ∧ hdr.odsc.version = q.version ∧ x ∈ hdr.odsc.bb ∧
      ∀ r < q.size, ∃ v, data (q.size * cellOffset q.bb x + r) = some v ∧
        bytesOf bytes hdr (q.size * cellOffset hdr.odsc.bb x + r) = some v

/-- Every get of the query that returns `0` has filled every cell from a located object. -/
def CompleteFetch (S : SharedSpace) (servers : Nat → MetadataStorage) (q : ObjDescriptor) : Prop :=
  ∀ bytes R arrival order data, arrival.Perm (S.peers q.bb) →
    R.Completes (getEntries servers q arrival) order →
    getResult servers bytes R q arrival order = .done data →
    ∀ x ∈ q.bb, CellFetched S servers bytes q data x

/-- The locations at the servers of the query cover it and, in ten dimensions, start where it starts
along the tenth one. -/
structure LocationsCover (S : SharedSpace) (servers : Nat → MetadataStorage) (q : ObjDescriptor) :
    Prop where
  cover : ∀ x ∈ q.bb, ∃ t ∈ S.peers q.bb, ∃ hdr ∈ locationsAt servers q t, x ∈ hdr.odsc.bb
  tenth : q.bb.numDims = 10 → ∀ t ∈ S.peers q.bb, ∀ hdr ∈ locationsAt servers q t,
    hdr.odsc.bb.lb 9 = q.bb.lb 9

/-- The additions to the servers of the queried variable are parts of one array over `G`, which fits into
memory, and the query lies in it. -/
structure OneDimesArray (adds : Nat → List HdrDimesPut) (q : ObjDescriptor) (G : Bbox) : Prop where
  fits : ArrayFits G q.size
  size_pos : 0 < q.size
  query_wf : q.bb.Wf
  query_inside : q.bb.Inside G
  wf : ∀ t, ∀ hdr ∈ adds t, hdr.odsc.name = q.name → hdr.odsc.bb.Wf
  inside : ∀ t, ∀ hdr ∈ adds t, hdr.odsc.name = q.name → hdr.odsc.bb.Inside G
  size_eq : ∀ t, ∀ hdr ∈ adds t, hdr.odsc.name = q.name → hdr.odsc.size = q.size

/-! ## Locations of reachable servers -/

/-- The storages of the servers after additions to each of them. -/
def storagesOf (maxVersions : Nat) (adds : Nat → List HdrDimesPut) (t : Nat) : MetadataStorage :=
  afterAdditions maxVersions (adds t)

section Locations

variable {m : Nat} {adds : Nat → List HdrDimesPut} {q : ObjDescriptor} {G : Bbox} {t : Nat}
  {hdr : HdrDimesPut}

theorem mem_locationsAt : hdr ∈ locationsAt (storagesOf m adds) q t ↔
      Survives (displacesIn m) (adds t) hdr ∧ objDescEqualsIntersect q hdr.odsc = true := mem_find_iff

variable (ha : OneDimesArray adds q G)

include ha

/-- A location that is returned shares a cell with the query. -/
theorem queryMeets_of_mem (hmem : hdr ∈ locationsAt (storagesOf m adds) q t) : QueryMeets q hdr.odsc G := by
  obtain ⟨hsurv, hmatch⟩ := mem_locationsAt.1 hmem
  obtain ⟨hname, -, hint⟩ := objDescEqualsIntersect_iff.1 hmatch
  have hin := ha.inside t hdr hsurv.mem hname.symm
  have hmeet := (bboxDoesIntersect_iff_exists_mem ha.query_wf (ha.wf t hdr hsurv.mem hname.symm)
    (ha.query_inside.numDims_eq.trans hin.numDims_eq.symm)).1 hint
  exact ⟨ha.fits, ha.size_eq t hdr hsurv.mem hname.symm, ha.query_inside, hin, hmeet⟩

theorem queryMeets_of_mem_flatMap (arrival : List Nat) :
    ∀ hdr ∈ arrival.flatMap (locationsAt (storagesOf m adds) q), QueryMeets q hdr.odsc G := by
  intro hdr hhdr
  obtain ⟨t, -, hmem⟩ := mem_flatMap.1 hhdr
  exact queryMeets_of_mem ha hmem

/-- A server has at most one location with a cell. -/
theorem find?_locationsAt (hmem : hdr ∈ locationsAt (storagesOf m adds) q t) {x : Coord}
    (hx : x ∈ hdr.odsc.bb) :
    (locationsAt (storagesOf m adds) q t).find? (fun hdr => decide (x ∈ hdr.odsc.bb)) = some hdr := by
  -- The list is in the order of the additions, and no addition meets one before it.
  have hpair : (locationsAt (storagesOf m adds) q t).Pairwise
      fun older newer => displaces newer older = false := by
    show (List.filter _ (objLocationListLookup _ q.version q.name).1).reverse.Pairwise _
    rw [pairwise_reverse, objLocationListLookup_fst, storagesOf, afterAdditions_locations]
    exact (pairwise_foldl_evictAll displaces _).filter _
  obtain ⟨before, after, heq⟩ := append_of_mem hmem
  rw [heq] at hpair ⊢
  refine find?_eq_some_iff_append.2 ⟨decide_eq_true hx, before, after, rfl, fun older hold => ?_⟩
  rw [Bool.not_eq_true', decide_eq_false_iff_not]
  intro hxo
  have hmem' : older ∈ locationsAt (storagesOf m adds) q t := by
    rw [heq]
    exact mem_append_left _ hold
  have hno := (pairwise_append.1 hpair).2.2 older hold hdr mem_cons_self
  obtain ⟨hsurv, hmatch⟩ := mem_locationsAt.1 hmem
  obtain ⟨hsurv', hmatch'⟩ := mem_locationsAt.1 hmem'
  have hname := (objDescEqualsIntersect_iff.1 hmatch).1
  have hname' := (objDescEqualsIntersect_iff.1 hmatch').1
  have hdims : hdr.odsc.bb.numDims = older.odsc.bb.numDims :=
    (queryMeets_of_mem ha hmem).dims_eq.trans (queryMeets_of_mem ha hmem').dims_eq.symm
  have hyes : displaces hdr older = true := by
    refine objDescByNameIntersect_iff.2 ⟨hname.symm.trans hname', ?_⟩
    exact (bboxDoesIntersect_iff_exists_mem (ha.wf t hdr hsurv.mem hname.symm)
      (ha.wf t older hsurv'.mem hname'.symm) hdims).2 ⟨x, hx, hxo⟩
  rw [hno] at hyes
  cases hyes

end Locations

/-! ## The buffer of a get -/

section

variable {servers : Nat → MetadataStorage} {bytes : HdrDimesPut → Nat → UInt8} {R : Reader}
  {q : ObjDescriptor} {arrival order : List Nat}

theorem getResult_eq_done_iff {data : Mem} : getResult servers bytes R q arrival order = .done data ↔
      (arrival ≠ [] ∧ R.CanFetch (getEntries servers q arrival)) ∧
        data = fetched R (bytesOf bytes) q (arrival.flatMap (locationsAt servers q)) order := by
  have hlocated : located (arrival.map fun t => locateData (servers t) q) =
      arrival.flatMap (locationsAt servers q) := by
    rw [located, flatMap_map]
    congr 1
    funext t
    exact locateData_table (servers t) q
  rw [getResult, dimesObjGet_eq_done_iff R (bytesOf bytes) (objDataAlloc q) (length_map _) order,
    hlocated, Ne, map_eq_nil_iff]
  rfl

/-- A client with enough memory, which reads one part after the other. -/
def ampleReader (self : Nat) : Reader := ⟨self, 2 ^ 64, 1, fun _ => true, fun _ _ => true⟩

variable (self : Nat) (l : List FetchEntry)

theorem canFetch_ampleReader : (ampleReader self).CanFetch l := by
  refine ⟨fun f _ => ?_, fun f _ => ?_⟩
  · exact le_of_lt (Nat.mod_lt _ (by norm_num))
  · split
    · rfl
    · exact ite_self true

/-- Its reads, one after the other. -/
def ampleOrder (self : Nat) (l : List FetchEntry) : List Nat :=
  range (l.filter (ampleReader self).inFetchTab).length

theorem completes_ampleReader :
    (ampleReader self).Completes l (ampleOrder self l) := by
  refine ⟨Perm.refl _, fun t e he => ?_⟩
  rw [ampleOrder, List.getElem?_eq_some_iff] at he
  obtain ⟨ht, rfl⟩ := he
  rw [getElem_range]
  exact Nat.lt_succ_self t

/-- The buffer that such a client gets. -/
theorem getResult_ampleReader (harr : arrival ≠ []) :
    getResult servers bytes (ampleReader self) q arrival (ampleOrder self (getEntries servers q arrival)) =
      .done (fetched (ampleReader self) (bytesOf bytes) q (arrival.flatMap (locationsAt servers q))
        (ampleOrder self (getEntries servers q arrival))) :=
  getResult_eq_done_iff.2 ⟨⟨harr, canFetch_ampleReader self _⟩, rfl⟩

/-- If the client that has a located object gets, and the server with this location answers first, the
cells come from this object. -/
theorem fetched_first_server {m : Nat} {adds : Nat → List HdrDimesPut} {G : Bbox}
    (ha : OneDimesArray adds q G) {t : Nat} {hdr : HdrDimesPut}
    (hmem : hdr ∈ locationsAt (storagesOf m adds) q t) {contents : HdrDimesPut → Mem} {x : Coord}
    (hx : x ∈ q.bb) (hxh : x ∈ hdr.odsc.bb) {rest : List Nat} {r : Nat} (hr : r < q.size) :
    fetched (ampleReader hdr.odsc.owner) contents q ((t :: rest).flatMap (locationsAt (storagesOf m adds) q))
        (ampleOrder hdr.odsc.owner (getEntries (storagesOf m adds) q (t :: rest)))
        (q.size * cellOffset q.bb x + r) = partByte (ampleReader hdr.odsc.owner) contents q hdr x r := by
  refine fetched_from_first (queryMeets_of_mem_flatMap ha _) (completes_ampleReader _ _) hx ?_ rfl hr
  rw [flatMap_cons, find?_append, find?_locationsAt ha hmem hxh]
  rfl

end

/-! ## Sufficiency -/

section

variable {S : SharedSpace} {m : Nat} {adds : Nat → List HdrDimesPut} {q : ObjDescriptor} {G : Bbox}
  {x : Coord}

/-- Inside an object all bytes are there. -/
theorem bytesOf_cell {bytes : HdrDimesPut → Nat → UInt8} {hdr : HdrDimesPut} (hm : QueryMeets q hdr.odsc G)
    (hx : x ∈ hdr.odsc.bb) {r : Nat} (hr : r < q.size) :
    bytesOf bytes hdr (q.size * cellOffset hdr.odsc.bb x + r) =
      some (bytes hdr (q.size * cellOffset hdr.odsc.bb x + r)) := by
  refine if_pos ?_
  rw [← hm.size_eq] at hr ⊢
  exact ArrayFits.cell_lt_objDataSize (hm.size_eq ▸ hm.fits) hm.src_inside hx hr

theorem completeFetch_of_cover (ha : OneDimesArray adds q G)
    (hcond : S.peers q.bb ≠ [] → LocationsCover S (storagesOf m adds) q) :
    CompleteFetch S (storagesOf m adds) q := by
  intro bytes R arrival order data hperm hcompletes hdone x hx
  obtain ⟨⟨harr, -⟩, rfl⟩ := getResult_eq_done_iff.1 hdone
  have hcover := hcond fun hnil => harr (perm_nil.1 (hnil ▸ hperm))
  have hmeets := queryMeets_of_mem_flatMap (m := m) ha arrival
  obtain ⟨t₀, ht₀, hdr₀, hmem₀, hx₀⟩ := hcover.cover x hx
  obtain ⟨hdr, hhdr, hxh, hbyte⟩ := exists_fetched_from (bytesOf bytes) hmeets hcompletes hx
    ⟨hdr₀, mem_flatMap.2 ⟨t₀, hperm.mem_iff.2 ht₀, hmem₀⟩, hx₀⟩
  obtain ⟨t, ht, hmem⟩ := mem_flatMap.1 hhdr
  have hpeer := hperm.mem_iff.1 ht
  have hm := hmeets hdr hhdr
  obtain ⟨-, hmatch⟩ := mem_locationsAt.1 hmem
  obtain ⟨hname, hver, -⟩ := objDescEqualsIntersect_iff.1 hmatch
  refine ⟨t, hpeer, hdr, hmem, hname.symm, hver.symm, hxh, fun r hr => ?_⟩
  -- The copies read the cell itself.
  have hself : ∀ i < q.bb.numDims, readCell q.bb hdr.odsc.bb x i = x i := by
    rw [readCell_eq_iff hx]
    by_cases hten : q.bb.numDims = 10
    · exact Or.inr (hcover.tenth hten t hpeer hdr hmem).symm
    · exact Or.inl hten
  refine ⟨_, ?_, bytesOf_cell hm hxh hr⟩
  rw [hbyte r hr, partByte, hm.readPart_data hx hxh hr _ hself]
  exact bytesOf_cell hm hxh hr

/-! ## Necessity -/

/-- If every get is complete, then with bytes that mark a cell the buffer has the mark. -/
theorem marked_of_completeFetch (ha : OneDimesArray adds q G) (hall : CompleteFetch S (storagesOf m adds) q)
    (hx : x ∈ q.bb) {arrival : List Nat} (hperm : arrival.Perm (S.peers q.bb)) (harr : arrival ≠ [])
    (self : Nat) : fetched (ampleReader self) (bytesOf fun hdr => marker x hdr.odsc) q
        (arrival.flatMap (locationsAt (storagesOf m adds) q))
        (ampleOrder self (getEntries (storagesOf m adds) q arrival)) (q.size * cellOffset q.bb x + 0) =
      some 1 := by
  obtain ⟨t, -, hdr, hmem, -, -, hxh, hbytes⟩ := hall (fun hdr => marker x hdr.odsc) (ampleReader self)
    arrival _ _ hperm (completes_ampleReader self _) (getResult_ampleReader self harr) x hx
  obtain ⟨v, hdata, hbyte⟩ := hbytes 0 ha.size_pos
  have hm := queryMeets_of_mem ha hmem
  have hpos : 0 < hdr.odsc.size := hm.size_eq ▸ ha.size_pos
  rw [bytesOf_cell hm hxh ha.size_pos, ← hm.size_eq, marker_self hxh hpos] at hbyte
  rw [hdata, ← hbyte]

/-- Where an object has the mark, there is the marked cell. -/
theorem readCell_eq_of_marked {hdr : HdrDimesPut} (hm : QueryMeets q hdr.odsc G) (hpos : 0 < q.size)
    (hxh : x ∈ hdr.odsc.bb) (hread : bytesOf (fun hdr => marker x hdr.odsc) hdr
      (q.size * cellOffset hdr.odsc.bb (readCell q.bb hdr.odsc.bb x) + 0) = some 1) :
    ∀ i < q.bb.numDims, readCell q.bb hdr.odsc.bb x i = x i := by
  rw [← hm.size_eq] at hread hpos
  obtain ⟨-, hoff⟩ : x ∈ hdr.odsc.bb ∧ cellOffset hdr.odsc.bb x =
      cellOffset hdr.odsc.bb (readCell q.bb hdr.odsc.bb x) :=
    cellOffset_eq_of_marked ⟨hdr.odsc, fun _ => none, 0⟩ hpos hread
  obtain ⟨hlb, hinner⟩ : (∀ i < hdr.odsc.bb.numDims, _ ≤ readCell q.bb hdr.odsc.bb x i) ∧
      ∀ i < hdr.odsc.bb.numDims - 1, readCell q.bb hdr.odsc.bb x i ≤ _ := readCell_bounds hm.dims_eq hxh
  have hsame := eq_of_cellOffset_eq (hm.fits.ub_lt hm.src_inside) hxh hlb hinner hoff
  exact fun i hi => (hsame i (hm.dims_eq ▸ hi)).symm

theorem cover_of_completeFetch (ha : OneDimesArray adds q G)
    (hall : CompleteFetch S (storagesOf m adds) q) (hpeers : S.peers q.bb ≠ []) :
    LocationsCover S (storagesOf m adds) q where
  cover := by
    intro x hx
    obtain ⟨t, ht, hdr, hmem, -, -, hxh, -⟩ := hall (fun _ _ => 0) (ampleReader 0) (S.peers q.bb) _ _
      (Perm.refl _) (completes_ampleReader 0 _) (getResult_ampleReader 0 hpeers) x hx
    exact ⟨t, ht, hdr, hmem, hxh⟩
  tenth := by
    intro hten t ht hdr hmem
    have hm := queryMeets_of_mem ha hmem
    obtain ⟨x, hx, hxh⟩ := hm.meet
    -- The client that has the object gets, and the answer of this server arrives first.
    have hperm : (t :: (S.peers q.bb).erase t).Perm (S.peers q.bb) := (perm_cons_erase ht).symm
    have hmark := marked_of_completeFetch ha hall hx hperm (cons_ne_nil _ _) hdr.odsc.owner
    rw [fetched_first_server ha hmem hx hxh ha.size_pos] at hmark
    -- What was read has the mark, so it is the cell itself.
    rcases hm.readPart_data_owner hx hxh ha.size_pos (bytesOf (fun hdr => marker x hdr.odsc) hdr)
      with hnone | hsome
    · exact absurd (hnone.symm.trans hmark) nofun
    · have hself := readCell_eq_of_marked hm ha.size_pos hxh (hsome.symm.trans hmark)
      rcases (readCell_eq_iff hx).1 hself with hne | hlb9
      · exact absurd hten hne
      · exact hlb9.symm

end

/-- Every get of the query that returns `0` is complete exactly when, if the query hashes to some server,
the locations there cover it. -/
theorem dimes_get_complete_iff (S : SharedSpace) (m : Nat) (adds : Nat → List HdrDimesPut)
    (q : ObjDescriptor) (G : Bbox) (ha : OneDimesArray adds q G) : CompleteFetch S (storagesOf m adds) q ↔
      (S.peers q.bb ≠ [] → LocationsCover S (storagesOf m adds) q) :=
  ⟨cover_of_completeFetch ha, completeFetch_of_cover ha⟩

/-! ## The line: one location of all cells, and no location -/

/-- An object over cells `lo` to `hi` of the line, with client `5`. -/
def segmentHdr (lo hi : Nat) : HdrDimesPut := ⟨⟨5, 0⟩, (ownedBy 5 (segmentObj lo hi)).objDesc⟩

theorem oneDimesArray_line {adds : Nat → List HdrDimesPut} (h : ∀ t, ∀ hdr ∈ adds t, hdr = segmentHdr 0 3) :
    OneDimesArray adds (segmentObj 0 3).objDesc lineBox where
  fits := arrayFits_line
  size_pos := by decide
  query_wf := by decide
  query_inside := ⟨rfl, fun _ _ => ⟨le_rfl, le_rfl⟩⟩
  wf := by
    intro t hdr hhdr _
    rw [h t hdr hhdr]
    decide
  inside := by
    intro t hdr hhdr _
    rw [h t hdr hhdr]
    exact ⟨rfl, fun _ _ => ⟨le_rfl, le_rfl⟩⟩
  size_eq := by
    intro t hdr hhdr _
    rw [h t hdr hhdr]
    rfl

/-- The whole line is located at every server. -/
theorem dimes_get_complete_line :
    CompleteFetch lineSpace (storagesOf 1 fun _ => [segmentHdr 0 3]) (segmentObj 0 3).objDesc := by
  refine (dimes_get_complete_iff lineSpace 1 (fun _ => [segmentHdr 0 3]) (segmentObj 0 3).objDesc lineBox
    (oneDimesArray_line fun t hdr hhdr => mem_singleton.1 hhdr)).2 fun _ => ⟨fun x hx => ?_, nofun⟩
  refine ⟨0, by decide, segmentHdr 0 3, ?_, hx⟩
  exact mem_locationsAt.2 ⟨⟨[], [], rfl, fun x hx => (not_mem_nil hx).elim⟩, by decide⟩

/-- Nothing was put, and a get of the line returns `0` with an empty buffer. -/
theorem dimes_get_of_nothing :
    getResult (storagesOf 1 fun _ => []) (fun _ _ => 0) (ampleReader 0) (segmentObj 0 3).objDesc
        (lineSpace.peers (segmentObj 0 3).objDesc.bb) [] = .done (fun _ => none) ∧
      (∀ t, locationsAt (storagesOf 1 fun _ => []) (segmentObj 0 3).objDesc t = []) ∧
      (fun _ => 0 : Coord) ∈ (segmentObj 0 3).objDesc.bb ∧
      ¬ CompleteFetch lineSpace (storagesOf 1 fun _ => []) (segmentObj 0 3).objDesc := by
  have hnone : ∀ t, locationsAt (storagesOf 1 fun _ => []) (segmentObj 0 3).objDesc t = [] := fun _ => rfl
  refine ⟨by rfl, hnone, by decide, fun hall => ?_⟩
  have hcover := (cover_of_completeFetch (oneDimesArray_line fun t hdr hhdr =>
    (not_mem_nil hhdr).elim) hall (by decide)).cover (fun _ => 0) (by decide)
  obtain ⟨t, -, hdr, hhdr, -⟩ := hcover
  exact not_mem_nil hhdr

end DataSpaces.Dimes
