import DataSpaces.Client.Get
import DataSpaces.Cluster.Contents
import DataSpaces.Cluster.Exactness
import DataSpaces.Store.Overlap

/-!
# What a successful get has written

A get succeeds when its counters say so: all peers answered with descriptors and all pieces were served.
Nothing in it checks that the pieces cover the query. `get_complete_iff` gives the condition under which
every successful get of a query fills every cell with the value of a stored object, whatever the data
that was put and the order of the answers: for every cell some peer knows a piece that covers it, and
the first such piece of each peer is served from an object that contains the cell.
-/

namespace DataSpaces.Cluster

open Lib Geometry Space Store Client Copy List Function

/-! ## The statement -/

/-- A cell of the buffer has the value of a stored object of the queried name and version that covers
the cell. -/
def CellFilled (c : State) (q : ObjDescriptor) (data : Mem) (x : Coord) : Prop :=
  ∃ s i, ∃ od ∈ (c.servers s).ls.objHash i,
    od.objDesc.name = q.name ∧ od.objDesc.version = q.version ∧ x ∈ od.objDesc.bb ∧
      ∀ r < q.size, ∃ v, data (q.size * cellOffset q.bb x + r) = some v ∧ cellByte od x r = some v

/-- Every get of the query that returns `0` has filled every cell, for every order in which the peers
and the owners of the pieces answer. The buffer has no contents before the get. -/
def CompleteGet (S : SharedSpace) (c : State) (q : ObjDescriptor) : Prop :=
  ∀ order parts data, order.Perm (S.peers q.bb) →
    parts.Perm (range (pieces (answered (descReplies c q order))).length) →
    dcgObjGet c.servers (objDataAlloc q) (S.peers q.bb).length (descReplies c q order) parts =
      .done data →
    ∀ x ∈ q.bb, CellFilled c q data x

/-- The get returns `0`: the query has peers, all of them have descriptors, and the owners have the
objects. -/
def Answers (S : SharedSpace) (c : State) (q : ObjDescriptor) : Prop :=
  S.peers q.bb ≠ [] ∧ ∀ t ∈ S.peers q.bb, dhtFindEntryAll (c.servers t).entSelf q ≠ [] ∧
    ∀ o ∈ dhtFindEntryAll (c.servers t).entSelf q,
      (lsFind (c.servers o.owner).ls (clip q o)).isSome = true

/-- The first descriptor in the answer of server `t` whose box contains the cell. -/
def firstCovering (c : State) (q : ObjDescriptor) (t : Nat) (x : Coord) : Option ObjDescriptor :=
  (dhtFindEntryAll (c.servers t).entSelf q).find? fun o => decide (x ∈ o.bb)

/-- The object that serves the piece of a descriptor contains the cell, and the two copies, from the
object to the piece and from the piece to the buffer, read this cell. -/
def ServesCell (c : State) (q : ObjDescriptor) (x : Coord) (o : ObjDescriptor) : Prop :=
  ∀ od, lsFind (c.servers o.owner).ls (clip q o) = some od →
    let y := readCell q.bb (clip q o).bb x
    (y ∈ (clip q o).bb ∧ y ∈ od.objDesc.bb) ∧
      ∀ i < q.bb.numDims, readCell (clip q o).bb od.objDesc.bb y i = x i

/-- Every cell of the query is covered, and the piece that covers it first is served with it. -/
def PiecesCover (S : SharedSpace) (c : State) (q : ObjDescriptor) : Prop :=
  ∀ x ∈ q.bb, (∃ t ∈ S.peers q.bb, (firstCovering c q t x).isSome = true) ∧
    ∀ t ∈ S.peers q.bb, ∀ o, firstCovering c q t x = some o → ServesCell c q x o

/-- The object with other bytes; beyond its size there are none. -/
def withBytes (bytes : ObjDescriptor → Nat → UInt8) (od : ObjData) : ObjData :=
  { od with data := fun p => if p < objDataSize od.objDesc then some (bytes od.objDesc p) else none }

theorem changesData_withBytes (bytes : ObjDescriptor → Nat → UInt8) : ChangesData (withBytes bytes) where
  objDesc := fun _ => rfl
  refcnt := fun _ => rfl

/-- The puts of the queried name are parts of one array over `G`, which fits into memory, and the query
lies in it. -/
structure OneArray (h : List ObjData) (q : ObjDescriptor) (G : Bbox) : Prop where
  fits : ArrayFits G q.size
  size_pos : 0 < q.size
  query_inside : q.bb.Inside G
  wf : ∀ od ∈ h, od.objDesc.name = q.name → od.objDesc.bb.Wf
  inside : ∀ od ∈ h, od.objDesc.name = q.name → od.objDesc.bb.Inside G
  size_eq : ∀ od ∈ h, od.objDesc.name = q.name → od.objDesc.size = q.size

/-! ## Pieces and objects -/

section

variable {h : List ObjData} {c : State} {q : ObjDescriptor} {G : Bbox}

/-- What the directory answers are descriptors of puts that meet the query. -/
structure QueryPiece (q : ObjDescriptor) (G : Bbox) (o : ObjDescriptor) : Prop where
  name_eq : o.name = q.name
  version_eq : o.version = q.version
  size_eq : o.size = q.size
  inside : o.bb.Inside G
  meet : ∃ x, x ∈ q.bb ∧ x ∈ o.bb

theorem queryPiece_of_mem (hh : FromHistory h c) (ha : OneArray h q G) (hwf : q.bb.Wf) {t : Nat}
    {o : ObjDescriptor} (ho : o ∈ dhtFindEntryAll (c.servers t).entSelf q) : QueryPiece q G o := by
  obtain ⟨hmem, htest⟩ := mem_dhtFindEntryAll.1 ho
  obtain ⟨hname, hver, hint⟩ := objDescEqualsIntersect_iff.1 htest
  obtain ⟨od, hod, rfl⟩ := mem_map.1 (hh.table t _ o hmem)
  have hin := ha.inside od hod hname
  obtain ⟨x, hx, hxq⟩ := (bboxDoesIntersect_iff_exists_mem (ha.wf od hod hname) hwf
    (hin.numDims_eq.trans ha.query_inside.numDims_eq.symm)).1 hint
  exact ⟨hname, hver, ha.size_eq od hod hname, hin, x, hxq, hx⟩

namespace QueryPiece

variable {o : ObjDescriptor} (hp : QueryPiece q G o) (hq : q.bb.Inside G)

include hp hq

theorem mem_clip {x : Coord} : x ∈ (clip q o).bb ↔ x ∈ q.bb ∧ x ∈ o.bb :=
  mem_bboxIntersect (hq.numDims_eq.trans hp.inside.numDims_eq.symm)

theorem clip_inside : (clip q o).bb.Inside G where
  numDims_eq := hq.numDims_eq
  bounds := by
    intro i hi
    have h1 := hq.bounds i hi
    have h2 := hp.inside.bounds i hi
    simp only [clip, bboxIntersect]
    split_ifs <;> omega

theorem clip_wf : (clip q o).bb.Wf := by
  obtain ⟨x, hxq, hxo⟩ := hp.meet
  exact Bbox.wf_of_mem ((hp.mem_clip hq).2 ⟨hxq, hxo⟩)

/-- A piece can be copied to the buffer. -/
theorem copyable (hfits : ArrayFits G q.size) : Copyable q.bb (clip q o).bb q.size := by
  obtain ⟨x, hxq, hxo⟩ := hp.meet
  exact hfits.copyable hq (hp.clip_inside hq) ⟨x, hxq, (hp.mem_clip hq).2 ⟨hxq, hxo⟩⟩

end QueryPiece

/-- What an owner finds for a piece is a put that meets it. -/
structure ServingObject (q : ObjDescriptor) (G : Bbox) (p : ObjDescriptor) (od : ObjData) : Prop where
  name_eq : od.objDesc.name = q.name
  version_eq : od.objDesc.version = q.version
  size_eq : od.objDesc.size = q.size
  inside : od.objDesc.bb.Inside G
  meet : ∃ x, x ∈ p.bb ∧ x ∈ od.objDesc.bb

theorem servingObject_of_lsFind (hh : FromHistory h c) (ha : OneArray h q G) {o : ObjDescriptor}
    (hp : QueryPiece q G o) {s : Nat} {od : ObjData}
    (hfind : lsFind (c.servers s).ls (clip q o) = some od) : ServingObject q G (clip q o) od := by
  obtain ⟨hmem, htest⟩ := lsFind_some hfind
  obtain ⟨hname, hver, hint⟩ := objDescEqualsIntersect_iff.1 htest
  have hname' : od.objDesc.name = q.name := hname.symm.trans hp.name_eq
  have hod := hh.store s _ od hmem
  have hin := ha.inside od hod hname'
  have hmeet := (bboxDoesIntersect_iff_exists_mem (hp.clip_wf ha.query_inside) (ha.wf od hod hname')
    ((hp.clip_inside ha.query_inside).numDims_eq.trans hin.numDims_eq.symm)).1 hint
  exact ⟨hname', hver.symm.trans hp.version_eq, ha.size_eq od hod hname', hin, hmeet⟩

/-- The first answered piece that covers a cell comes from the first peer that knows one. -/
theorem find?_answered (hh : FromHistory h c) (ha : OneArray h q G) {x : Coord} (hx : x ∈ q.bb)
    (order : List Nat) : (answered (descReplies c q order)).find? (fun p => decide (x ∈ p.bb)) =
      order.findSome? fun t => (firstCovering c q t x).map (clip q) := by
  rw [answered, descReplies, flatMap_map, find?_flatMap]
  congr 1
  funext t
  rw [dsgrpcObjGetDesc_table, find?_map, firstCovering]
  congr 1
  apply find?_congr
  intro o ho
  have hp := queryPiece_of_mem hh ha (Bbox.wf_of_mem hx) ho
  rw [comp_apply, decide_eq_decide, hp.mem_clip ha.query_inside]
  exact and_iff_right hx

/-! ## When the get returns data -/

theorem lsFind_congr (ls : SsStorage) {p p' : ObjDescriptor} (hname : p.name = p'.name)
    (hver : p.version = p'.version) (hbox : bboxEquals p.bb p'.bb = true) : lsFind ls p = lsFind ls p' := by
  unfold lsFind objDescEqualsIntersect
  simp only [hname, hver, bboxDoesIntersect_congr hbox]

/-- All kept pieces are served exactly when all answered ones are. -/
theorem forall_pieces_served_iff (hh : FromHistory h c) (ha : OneArray h q G) (hwf : q.bb.Wf)
    (order : List Nat) :
    (∀ p ∈ pieces (answered (descReplies c q order)), (served c.servers q.version p).isSome = true) ↔
      ∀ t ∈ order, ∀ o ∈ dhtFindEntryAll (c.servers t).entSelf q,
        (lsFind (c.servers o.owner).ls (clip q o)).isSome = true := by
  have hserved : ∀ {t o}, o ∈ dhtFindEntryAll (c.servers t).entSelf q →
      (served c.servers q.version (clip q o)).isSome =
        (lsFind (c.servers o.owner).ls (clip q o)).isSome := by
    intro t o ho
    have hver : (clip q o).version = q.version := (queryPiece_of_mem hh ha hwf ho).version_eq
    rw [served, ← hver, dsgrpcObjGet, Option.isSome_map]
    rfl
  constructor
  · intro hall t ht o ho
    -- The kept piece with the same owner and box is looked up alike.
    have hans : clip q o ∈ answered (descReplies c q order) := mem_answered_iff.2 ⟨t, ht, o, ho, rfl⟩
    obtain ⟨p, hp, hkey⟩ := exists_mem_foldl_addNew objDescEquals_iff_pieceKey hans
    obtain ⟨t', -, o', ho', rfl⟩ := mem_answered_iff.1 (mem_of_mem_foldl_addNew hp)
    have hpo := queryPiece_of_mem hh ha hwf ho
    have hpo' := queryPiece_of_mem hh ha hwf ho'
    have hsome := hall _ hp
    rw [hserved ho'] at hsome
    have howner : o'.owner = o.owner := congrArg Prod.fst hkey
    have hname : (clip q o').name = (clip q o).name := hpo'.name_eq.trans hpo.name_eq.symm
    have hver : (clip q o').version = (clip q o).version := hpo'.version_eq.trans hpo.version_eq.symm
    have hbox : bboxEquals (clip q o').bb (clip q o).bb = true := corners_eq_iff.1 (congrArg Prod.snd hkey)
    rw [howner, lsFind_congr _ hname hver hbox] at hsome
    exact hsome
  · intro hall p hp
    obtain ⟨t, ht, o, ho, rfl⟩ := mem_answered_iff.1 (mem_of_mem_foldl_addNew hp)
    rw [hserved ho]
    exact hall t ht o ho

/-- The get returns data when the query is answered, and it has assembled the pieces. -/
theorem dcgObjGet_eq_done (S : SharedSpace) (hh : FromHistory h c) (ha : OneArray h q G)
    (hwf : q.bb.Wf) {order parts : List Nat} (hperm : order.Perm (S.peers q.bb))
    (hparts : parts.Perm (range (pieces (answered (descReplies c q order))).length)) {data : Mem} :
    dcgObjGet c.servers (objDataAlloc q) (S.peers q.bb).length (descReplies c q order) parts = .done data ↔
      Answers S c q ∧
        data = (ssdCopyList (objDataAlloc q) (assembled c.servers q (descReplies c q order))).data := by
  have hst : ∀ reply ∈ descReplies c q order, ∀ o ∈ reply.table, o.st = q.st := by
    intro reply hreply o ho
    obtain ⟨t, -, rfl⟩ := mem_map.1 hreply
    exact st_of_mem_table ho
  have hlen : (descReplies c q order).length = (S.peers q.bb).length := by
    rw [descReplies, length_map, hperm.length_eq]
  have hnil : descReplies c q order ≠ [] ↔ S.peers q.bb ≠ [] := by
    rw [← length_pos_iff, hlen, length_pos_iff]
  have hfound : (∀ reply ∈ descReplies c q order, reply.isNotFound = false) ↔
      ∀ t ∈ S.peers q.bb, dhtFindEntryAll (c.servers t).entSelf q ≠ [] := by
    simp only [descReplies, forall_mem_map, dsgrpcObjGetDesc_isNotFound, isEmpty_eq_false_iff, hperm.mem_iff]
  rw [dcgObjGet_eq_done_iff hst hlen hparts, hnil, hfound]
  refine and_congr_left fun _ => ?_
  have hserved := forall_pieces_served_iff hh ha hwf order
  simp only [hperm.mem_iff] at hserved
  constructor
  · rintro ⟨hpeers, hall, -, hparts⟩
    exact ⟨hpeers, fun t ht => ⟨hall t ht, hserved.1 hparts t ht⟩⟩
  · rintro ⟨hpeers, hall⟩
    refine ⟨hpeers, fun t ht => (hall t ht).1, ?_, hserved.2 fun t ht => (hall t ht).2⟩
    -- Some peer has answered with some descriptor.
    obtain ⟨t, ht⟩ := exists_mem_of_ne_nil _ hpeers
    obtain ⟨o, ho⟩ := exists_mem_of_ne_nil _ (hall t ht).1
    have hans : clip q o ∈ answered (descReplies c q order) :=
      mem_answered_iff.2 ⟨t, hperm.mem_iff.2 ht, o, ho, rfl⟩
    obtain ⟨p, hp, -⟩ := exists_mem_foldl_addNew objDescEquals_iff_pieceKey hans
    exact ne_nil_of_mem hp

/-! ## The value of a cell -/

section

variable (hh : FromHistory h c) (ha : OneArray h q G) {x : Coord} (hx : x ∈ q.bb) {r : Nat}
  (hr : r < q.size) {order : List Nat}

include hh ha hx hr

theorem cellByte_assembled_eq :
    (ssdCopyList (objDataAlloc q) (assembled c.servers q (descReplies c q order))).data
        (q.size * cellOffset q.bb x + r) =
      match order.findSome? fun t => (firstCovering c q t x).map (clip q) with
      | none => none
      | some p => (part c.servers q.version p).data
          (q.size * cellOffset p.bb (readCell q.bb p.bb x) + r) := by
  have hcopy : ∀ p ∈ pieces (answered (descReplies c q order)), Copyable q.bb p.bb q.size := by
    intro p hp
    obtain ⟨t, -, o, ho, rfl⟩ := mem_answered_iff.1 (mem_of_mem_foldl_addNew hp)
    exact (queryPiece_of_mem hh ha (Bbox.wf_of_mem hx) ho).copyable ha.query_inside ha.fits
  rw [← find?_answered hh ha hx]
  have hbyte := cellByte_assembled c.servers hcopy hx hr
  rw [cellByte, ssdCopyList_objDesc] at hbyte
  exact hbyte

/-- The cell comes from the object that serves the piece, if the cell that is read lies in both. -/
theorem cellByte_of_first {t : Nat} {o : ObjDescriptor} {od : ObjData}
    (hmem : o ∈ dhtFindEntryAll (c.servers t).entSelf q) (hxo : x ∈ o.bb)
    (hfirst : order.findSome? (fun t => (firstCovering c q t x).map (clip q)) = some (clip q o))
    (hfind : lsFind (c.servers o.owner).ls (clip q o) = some od) :
    (ssdCopyList (objDataAlloc q) (assembled c.servers q (descReplies c q order))).data
        (q.size * cellOffset q.bb x + r) = if readCell q.bb (clip q o).bb x ∈ (clip q o).bb ∧
          readCell q.bb (clip q o).bb x ∈ od.objDesc.bb then od.data (q.size * cellOffset od.objDesc.bb
          (readCell (clip q o).bb od.objDesc.bb (readCell q.bb (clip q o).bb x)) + r) else none := by
  have hp := queryPiece_of_mem hh ha (Bbox.wf_of_mem hx) hmem
  have hserve := servingObject_of_lsFind hh ha hp hfind
  have hsize : (clip q o).size = q.size := hp.size_eq
  have hclip : x ∈ (clip q o).bb := (hp.mem_clip ha.query_inside).2 ⟨hx, hxo⟩
  have hver : (clip q o).version = q.version := hp.version_eq
  have hdims : (clip q o).bb.numDims = q.bb.numDims := rfl
  obtain ⟨hlb, hinner⟩ := readCell_bounds hdims hclip
  -- The server copied the part out of an object that is a part of the same array.
  have hcopy : Copyable (clip q o).bb od.objDesc.bb (clip q o).size := by
    rw [hsize]
    exact ha.fits.copyable (hp.clip_inside ha.query_inside) hserve.inside hserve.meet
  have hpart := part_data c.servers hver hfind hcopy hlb hinner (hsize ▸ hr)
  -- The first part that covers the cell decides, and this one is the first.
  rw [cellByte_assembled_eq hh ha hx hr, hfirst]
  rw [hsize] at hpart
  exact hpart

end

end

/-! ## The condition does not depend on the data -/

section

variable {f : ObjData → ObjData} (hf : ChangesData f) {c : State} {q : ObjDescriptor}

include hf

theorem lsFind_servers_mapObj (s : Nat) (p : ObjDescriptor) :
    lsFind ((c.mapObj f).servers s).ls p = (lsFind (c.servers s).ls p).map f :=
  lsFind_mapObj hf _ p

theorem answers_mapObj_iff (S : SharedSpace) : Answers S (c.mapObj f) q ↔ Answers S c q := by
  simp only [Answers, lsFind_servers_mapObj hf, Option.isSome_map]
  rfl

theorem servesCell_mapObj_iff {x : Coord} {o : ObjDescriptor} :
    ServesCell (c.mapObj f) q x o ↔ ServesCell c q x o := by
  simp only [ServesCell, lsFind_servers_mapObj hf, Option.map_eq_some_iff]
  constructor
  · intro h od hod
    have hread := h (f od) ⟨od, hod, rfl⟩
    rwa [hf.objDesc] at hread
  · rintro h _ ⟨od, hod, rfl⟩
    rw [hf.objDesc]
    exact h od hod

theorem piecesCover_mapObj_iff (S : SharedSpace) : PiecesCover S (c.mapObj f) q ↔ PiecesCover S c q := by
  simp only [PiecesCover, servesCell_mapObj_iff hf]
  rfl

omit hf in
/-- The stored objects of the state with other bytes. -/
theorem exists_withBytes {bytes : ObjDescriptor → Nat → UInt8} {s i : Nat} {od : ObjData}
    (hod : od ∈ ((c.mapObj (withBytes bytes)).servers s).ls.objHash i) : ∃ od₀, withBytes bytes od₀ = od := by
  obtain ⟨od₀, -, rfl⟩ := mem_map.1 hod
  exact ⟨od₀, rfl⟩

end

theorem OneArray.mapObj {h : List ObjData} {q : ObjDescriptor} {G : Bbox} (ha : OneArray h q G)
    {f : ObjData → ObjData} (hf : ChangesData f) : OneArray (h.map f) q G where
  fits := ha.fits
  size_pos := ha.size_pos
  query_inside := ha.query_inside
  wf := by
    intro od hod
    obtain ⟨od₀, hod₀, rfl⟩ := mem_map.1 hod
    rw [hf.objDesc]
    exact ha.wf od₀ hod₀
  inside := by
    intro od hod
    obtain ⟨od₀, hod₀, rfl⟩ := mem_map.1 hod
    rw [hf.objDesc]
    exact ha.inside od₀ hod₀
  size_eq := by
    intro od hod
    obtain ⟨od₀, hod₀, rfl⟩ := mem_map.1 hod
    rw [hf.objDesc]
    exact ha.size_eq od₀ hod₀

/-- Inside an object all bytes are there. -/
theorem cellByte_withBytes {G : Bbox} {bytes : ObjDescriptor → Nat → UInt8} {od : ObjData}
    (hfits : ArrayFits G od.objDesc.size) (hin : od.objDesc.bb.Inside G) {x : Coord}
    (hx : x ∈ od.objDesc.bb) {r : Nat} (hr : r < od.objDesc.size) : cellByte (withBytes bytes od) x r =
      some (bytes od.objDesc (od.objDesc.size * cellOffset od.objDesc.bb x + r)) :=
  if_pos (hfits.cell_lt_objDataSize hin hx hr)

/-! ## Sufficiency -/

/-- If the copies read the cell itself, the object contains it. -/
theorem mem_of_readCell_eq {dst mid src : Bbox} (hmid : mid.numDims = dst.numDims)
    (hsrc : src.numDims = dst.numDims) (hlb : ∀ i < dst.numDims, dst.lb i ≤ mid.lb i) {x : Coord}
    (hx : x ∈ dst) (hy : readCell dst mid x ∈ src)
    (hz : ∀ i < dst.numDims, readCell mid src (readCell dst mid x) i = x i) : x ∈ src := by
  intro i hi
  rw [hsrc] at hi
  have hyi := hy i (by rw [hsrc]; exact hi)
  have hzi := hz i hi
  have hxi := hx i hi
  have hli := hlb i hi
  unfold readCell at hyi hzi
  rw [hmid] at hzi
  by_cases hten : dst.numDims = 10
  · simp only [if_pos hten] at hyi hzi
    by_cases hi9 : i = 9
    · -- The index is the same in all three arrays.
      subst hi9
      simp only [update_self] at hyi hzi
      omega
    · rw [update_of_ne hi9] at hyi
      exact hyi
  · simp only [if_neg hten] at hyi
    exact hyi

section

variable {S : SharedSpace} {h : List ObjData} {c : State} {q : ObjDescriptor} {G : Bbox} {order : List Nat}
  {x : Coord}

theorem cellFilled_of_piecesCover (hh : FromHistory h c) (ha : OneArray h q G)
    (hfull : ∀ s i, ∀ od ∈ (c.servers s).ls.objHash i, od.objDesc.name = q.name →
      ∀ x ∈ od.objDesc.bb, ∀ r < od.objDesc.size, ∃ v, cellByte od x r = some v)
    (hans : Answers S c q) (hcover : PiecesCover S c q)
    (hperm : order.Perm (S.peers q.bb)) (hx : x ∈ q.bb) : CellFilled c q
      (ssdCopyList (objDataAlloc q) (assembled c.servers q (descReplies c q order))).data x := by
  obtain ⟨⟨t, ht, hsome⟩, hserves⟩ := hcover x hx
  cases hfirst : order.findSome? fun t => (firstCovering c q t x).map (clip q) with
  -- Some peer has a descriptor that covers the cell.
  | none =>
    have hno := findSome?_eq_none_iff.1 hfirst t (hperm.mem_iff.2 ht)
    rw [Option.map_eq_none_iff.1 hno] at hsome
    cases hsome
  -- The peer whose reply comes first serves the cell from an object that has all its bytes.
  | some p =>
    obtain ⟨u, hu, hmap⟩ := exists_of_findSome?_eq_some hfirst
    obtain ⟨o, ho, rfl⟩ := Option.map_eq_some_iff.1 hmap
    have hpeer := hperm.mem_iff.1 hu
    have hmem : o ∈ dhtFindEntryAll (c.servers u).entSelf q := mem_of_find?_eq_some ho
    have hxo : x ∈ o.bb := by simpa using find?_some ho
    obtain ⟨od, hfind⟩ := Option.isSome_iff_exists.1 ((hans.2 u hpeer).2 o hmem)
    obtain ⟨hboth, hread⟩ := hserves u hpeer o ho od hfind
    have hp := queryPiece_of_mem hh ha (Bbox.wf_of_mem hx) hmem
    have hserve := servingObject_of_lsFind hh ha hp hfind
    have hdims : od.objDesc.bb.numDims = q.bb.numDims :=
      hserve.inside.numDims_eq.trans ha.query_inside.numDims_eq.symm
    have hlb : ∀ i < q.bb.numDims, q.bb.lb i ≤ (clip q o).bb.lb i := by
      intro i _
      simp only [clip, bboxIntersect]
      split_ifs <;> omega
    have hmid : (clip q o).bb.numDims = q.bb.numDims := rfl
    have hxod : x ∈ od.objDesc.bb := mem_of_readCell_eq hmid hdims hlb hx hboth.2 hread
    obtain ⟨hstored, -⟩ := lsFind_some hfind
    refine ⟨o.owner, _, od, hstored, hserve.name_eq, hserve.version_eq, hxod, fun r hr => ?_⟩
    obtain ⟨v, hv⟩ := hfull _ _ od hstored hserve.name_eq x hxod r (hserve.size_eq ▸ hr)
    refine ⟨v, ?_, hv⟩
    have hpos : 0 < od.objDesc.bb.numDims := hserve.inside.numDims_eq ▸ ha.fits.dims_pos
    rw [cellByte_of_first hh ha hx hr hmem hxo hfirst hfind, if_pos hboth,
      cellOffset_congr hpos (hdims ▸ hread), ← hv, cellByte, hserve.size_eq]

/-! ## Necessity -/

/-- Bytes that tell a cell from the other cells of every object. -/
def marker (x : Coord) (d : ObjDescriptor) (p : Nat) : UInt8 :=
  if x ∈ d.bb ∧ p / d.size = cellOffset d.bb x then 1 else 0

theorem marker_self {d : ObjDescriptor} (hx : x ∈ d.bb) (hpos : 0 < d.size) :
    marker x d (d.size * cellOffset d.bb x + 0) = 1 := by
  rw [marker, if_pos]
  rw [Nat.add_zero, Nat.mul_div_cancel_left _ hpos]
  exact ⟨hx, rfl⟩

/-- Where an object has the mark, there is the marked cell. -/
theorem cellOffset_eq_of_marked (od : ObjData) {n : Nat} (hpos : 0 < od.objDesc.size)
    (h : (withBytes (marker x) od).data (od.objDesc.size * n + 0) = some 1) :
    x ∈ od.objDesc.bb ∧ cellOffset od.objDesc.bb x = n := by
  simp only [withBytes, marker, Nat.add_zero, Nat.mul_div_cancel_left _ hpos] at h
  split at h
  · rw [Option.some.injEq] at h
    split at h
    · next hmarked => exact ⟨hmarked.1, hmarked.2.symm⟩
    · cases h
  · cases h

/-- If every get is complete, then with the bytes that mark a cell it has put the mark into the
buffer. -/
theorem marked_of_complete (hh : FromHistory h c) (ha : OneArray h q G) (hans : Answers S c q)
    (hx : x ∈ q.bb) (hcomplete : CompleteGet S (c.mapObj (withBytes (marker x))) q)
    (hperm : order.Perm (S.peers q.bb)) :
    (ssdCopyList (objDataAlloc q) (assembled (c.mapObj (withBytes (marker x))).servers q
      (descReplies (c.mapObj (withBytes (marker x))) q order))).data
        (q.size * cellOffset q.bb x + 0) = some 1 := by
  have hf := changesData_withBytes (marker x)
  have hdone := (dcgObjGet_eq_done S (hh.mapObj hf) (ha.mapObj hf) (Bbox.wf_of_mem hx) hperm
    (Perm.refl _)).2 ⟨(answers_mapObj_iff hf S).2 hans, rfl⟩
  obtain ⟨s, i, od, hod, hname, -, hxod, hbytes⟩ := hcomplete order _ _ hperm (Perm.refl _) hdone x hx
  obtain ⟨v, hdata, hbyte⟩ := hbytes 0 ha.size_pos
  have hput := (hh.mapObj hf).store s i od hod
  have hsize := (ha.mapObj hf).size_eq od hput hname
  have hin := (ha.mapObj hf).inside od hput hname
  obtain ⟨od₀, rfl⟩ := exists_withBytes hod
  have hin₀ : od₀.objDesc.bb.Inside G := hin
  have hx₀ : x ∈ od₀.objDesc.bb := hxod
  have hpos : 0 < od₀.objDesc.size := hsize ▸ ha.size_pos
  rw [cellByte_withBytes (hsize ▸ ha.fits) hin₀ hx₀ hpos, marker_self hx₀ hpos] at hbyte
  rw [hdata, ← hbyte]

theorem piecesCover_of_complete (hh : FromHistory h c) (ha : OneArray h q G)
    (hall : ∀ bytes, CompleteGet S (c.mapObj (withBytes bytes)) q) (hans : Answers S c q) :
    PiecesCover S c q := by
  intro x hx
  have hf := changesData_withBytes (marker x)
  have hmark := fun (order : List Nat) (hperm : order.Perm (S.peers q.bb)) =>
    marked_of_complete hh ha hans hx (hall (marker x)) hperm
  constructor
  · -- Without a piece for the cell its bytes stay as they were.
    by_contra hno
    have hnone : (S.peers q.bb).findSome? (fun t =>
        (firstCovering (c.mapObj (withBytes (marker x))) q t x).map (clip q)) = none := by
      rw [findSome?_eq_none_iff]
      intro t ht
      cases hfirst : firstCovering c q t x with
      | none =>
        have hfirst' : firstCovering (c.mapObj (withBytes (marker x))) q t x = none := hfirst
        rw [hfirst']
        rfl
      | some o => exact absurd ⟨t, ht, by rw [hfirst]; rfl⟩ hno
    have hbyte := hmark _ (Perm.refl _)
    rw [cellByte_assembled_eq (hh.mapObj hf) (ha.mapObj hf) hx ha.size_pos, hnone] at hbyte
    cases hbyte
  · -- Let the answer of this peer arrive first.
    intro t ht o hfirst od hfind
    have hperm : (t :: (S.peers q.bb).erase t).Perm (S.peers q.bb) := (perm_cons_erase ht).symm
    have hmem : o ∈ dhtFindEntryAll (c.servers t).entSelf q := mem_of_find?_eq_some hfirst
    have hxo : x ∈ o.bb := by simpa using find?_some hfirst
    have hp := queryPiece_of_mem hh ha (Bbox.wf_of_mem hx) hmem
    have hserve := servingObject_of_lsFind hh ha hp hfind
    have hfirst' : (t :: (S.peers q.bb).erase t).findSome? (fun t =>
        (firstCovering (c.mapObj (withBytes (marker x))) q t x).map (clip q)) = some (clip q o) := by
      have hsame : firstCovering (c.mapObj (withBytes (marker x))) q t x = some o := hfirst
      rw [findSome?_cons, hsame]
      rfl
    have hfind' : lsFind ((c.mapObj (withBytes (marker x))).servers o.owner).ls (clip q o) =
        some (withBytes (marker x) od) := by
      rw [lsFind_servers_mapObj hf, hfind]
      rfl
    have hbyte := hmark _ hperm
    rw [cellByte_of_first (hh.mapObj hf) (ha.mapObj hf) hx ha.size_pos hmem hxo hfirst' hfind'] at hbyte
    split at hbyte
    · next hboth =>
      refine ⟨hboth, ?_⟩
      rw [← hserve.size_eq] at hbyte
      obtain ⟨hxod, hoff⟩ := cellOffset_eq_of_marked _ (hserve.size_eq ▸ ha.size_pos) hbyte
      -- The marked byte belongs to one cell only.
      have hdims : od.objDesc.bb.numDims = (clip q o).bb.numDims :=
        hserve.inside.numDims_eq.trans ha.query_inside.numDims_eq.symm
      obtain ⟨hlb, hinner⟩ := readCell_bounds hdims hboth.2
      have hsame := eq_of_cellOffset_eq (ha.fits.ub_lt hserve.inside) hxod hlb hinner hoff
      intro i hi
      exact (hsame i (hdims ▸ hi)).symm
    · cases hbyte

end

/-- A get of the query is complete for all data exactly when, if it is answered at all, its pieces cover
the query. -/
theorem get_complete_iff (S : SharedSpace) (m : Nat) (events : List Event) (q : ObjDescriptor) (G : Bbox)
    (ha : OneArray (history events) q G) :
    (∀ bytes, CompleteGet S (run S m (events.map (Event.mapObj (withBytes bytes)))) q) ↔
      (Answers S (run S m events) q → PiecesCover S (run S m events) q) := by
  have hh := fromHistory_run S m events
  simp only [run_mapObj (changesData_withBytes _)]
  constructor
  · exact piecesCover_of_complete hh ha
  · intro hcond bytes order parts data hperm hparts hdone x hx
    have hf := changesData_withBytes bytes
    obtain ⟨hans, rfl⟩ := (dcgObjGet_eq_done S (hh.mapObj hf) (ha.mapObj hf) (Bbox.wf_of_mem hx) hperm
      hparts).1 hdone
    have hcover := hcond ((answers_mapObj_iff hf S).1 hans)
    refine cellFilled_of_piecesCover (hh.mapObj hf) (ha.mapObj hf) ?_ hans
      ((piecesCover_mapObj_iff hf S).2 hcover) hperm hx
    intro s i od hod hname x hx r hr
    have hput := (hh.mapObj hf).store s i od hod
    have hsize := (ha.mapObj hf).size_eq od hput hname
    have hin := (ha.mapObj hf).inside od hput hname
    obtain ⟨od₀, rfl⟩ := exists_withBytes hod
    exact ⟨_, cellByte_withBytes (hsize ▸ ha.fits) hin hx hr⟩

/-! ## The line: a put of all cells, and puts of the first and the last one -/

/-- The cells of the line. -/
def lineBox : Bbox := ⟨1, fun _ => 0, fun _ => 3⟩

theorem arrayFits_line : ArrayFits lineBox 8 where
  dims_pos := by decide
  dims_le := by decide
  coord_lt := by decide
  bytes_lt := by decide

theorem oneArray_line {h : List ObjData} (hh : ∀ od ∈ h, ∃ s lo hi, lo ≤ hi ∧ hi ≤ 3 ∧
    od = ownedBy s (segmentObj lo hi)) : OneArray h (segmentObj 0 3).objDesc lineBox := by
  have hput : ∀ od ∈ h, od.objDesc.bb.Wf ∧ od.objDesc.bb.Inside lineBox ∧ od.objDesc.size = 8 := by
    intro od hod
    obtain ⟨s, lo, hi, hle, hhi, rfl⟩ := hh od hod
    exact ⟨fun _ _ => hle, ⟨rfl, fun _ _ => ⟨Nat.zero_le _, hhi⟩⟩, rfl⟩
  exact ⟨arrayFits_line, by decide, ⟨rfl, fun _ _ => ⟨le_rfl, le_rfl⟩⟩, fun od hod _ => (hput od hod).1,
    fun od hod _ => (hput od hod).2.1, fun od hod _ => (hput od hod).2.2⟩

/-- The state after a put of the whole line to server `0`. -/
def wholeState : State := run lineSpace 1 (lineEvents (segmentObj 0 3))

theorem wholeState_table {t : Nat} (ht : t ∈ [0, 1]) :
    dhtFindEntryAll (wholeState.servers t).entSelf (segmentObj 0 3).objDesc =
      [(ownedBy 0 (segmentObj 0 3)).objDesc] := by
  rcases mem_cons.1 ht with rfl | ht
  · rfl
  · rw [mem_singleton.1 ht]
    rfl

theorem wholeState_find : lsFind (wholeState.servers 0).ls
        (clip (segmentObj 0 3).objDesc (ownedBy 0 (segmentObj 0 3)).objDesc) =
      some (ownedBy 0 (segmentObj 0 3)) := by rfl

theorem answers_wholeState : Answers lineSpace wholeState (segmentObj 0 3).objDesc := by
  have hpeers : lineSpace.peers (segmentObj 0 3).objDesc.bb = [0, 1] := by decide
  rw [Answers, hpeers]
  refine ⟨cons_ne_nil _ _, fun t ht => ?_⟩
  rw [wholeState_table ht]
  refine ⟨cons_ne_nil _ _, fun o ho => ?_⟩
  rw [mem_singleton.1 ho]
  exact congrArg Option.isSome wholeState_find

/-- After a put of the whole line a get of it is answered, and every get is complete. -/
theorem get_complete_line : Answers lineSpace wholeState (segmentObj 0 3).objDesc ∧
      ∀ bytes, CompleteGet lineSpace
        (run lineSpace 1 ((lineEvents (segmentObj 0 3)).map (Event.mapObj (withBytes bytes))))
        (segmentObj 0 3).objDesc := by
  refine ⟨answers_wholeState, ?_⟩
  refine (get_complete_iff lineSpace 1 (lineEvents (segmentObj 0 3)) (segmentObj 0 3).objDesc lineBox
    (oneArray_line ?_)).2 fun _ x hx => ?_
  · intro od hod
    exact ⟨0, 0, 3, by decide, by decide, mem_singleton.1 hod⟩
  · -- Both servers know the descriptor of the one object, which server `0` stores.
    have hpeers : lineSpace.peers (segmentObj 0 3).objDesc.bb = [0, 1] := by decide
    have hfirst : ∀ t ∈ [0, 1], firstCovering wholeState (segmentObj 0 3).objDesc t x =
        some (ownedBy 0 (segmentObj 0 3)).objDesc := by
      intro t ht
      rw [firstCovering, wholeState_table ht]
      exact find?_cons_of_pos (decide_eq_true hx)
    rw [hpeers]
    refine ⟨⟨0, mem_cons_self, ?_⟩, fun t ht o ho od hod => ?_⟩
    · show (firstCovering wholeState _ 0 x).isSome = true
      rw [hfirst 0 mem_cons_self]
      rfl
    · have heq := (hfirst t ht).symm.trans ho
      rw [Option.some.injEq] at heq
      subst heq
      have hod' := wholeState_find.symm.trans hod
      rw [Option.some.injEq] at hod'
      subst hod'
      exact ⟨⟨hx, hx⟩, fun _ _ => rfl⟩

/-- The first cell of the line is put to server `0`, the last one to server `1`. -/
def endsEvents : List Event :=
  [.put 0 (segmentObj 0 0), .complete 0 0, .put 1 (segmentObj 3 3), .complete 1 0]

/-- The state after these puts of objects whose bytes are all `7`. -/
def endsState : State := run lineSpace 1 (endsEvents.map (Event.mapObj (withBytes fun _ _ => 7)))

/-- A get of the whole line returns `0` although the cells in the middle were never put; their bytes in
the buffer are not written. -/
theorem get_of_ends_incomplete : ∃ data, dcgObjGet endsState.servers (objDataAlloc (segmentObj 0 3).objDesc)
        (lineSpace.peers (segmentObj 0 3).objDesc.bb).length
        (descReplies endsState (segmentObj 0 3).objDesc [0, 1]) [0, 1] = .done data ∧
      (fun _ => 1 : Coord) ∈ (segmentObj 0 3).objDesc.bb ∧ data 8 = none ∧
      ¬ CellFilled endsState (segmentObj 0 3).objDesc data fun _ => 1 := by
  have hnone : (ssdCopyList (objDataAlloc (segmentObj 0 3).objDesc) (assembled endsState.servers
      (segmentObj 0 3).objDesc (descReplies endsState (segmentObj 0 3).objDesc [0, 1]))).data 8 = none := by
    decide
  refine ⟨_, by rfl, by decide, hnone, ?_⟩
  rintro ⟨s, i, od, -, -, -, -, hfilled⟩
  obtain ⟨v, hv, -⟩ := hfilled 0 (by decide)
  exact absurd (hnone.symm.trans hv) nofun

end DataSpaces.Cluster
