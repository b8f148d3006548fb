import DataSpaces.Dimes.Get
import DataSpaces.Dimes.Storage
import DataSpaces.Space.Lookup

/-!
# Checkpoint and restart of the storage of a DIMES client

`dimes_client_shmem_checkpoint_storage` writes one record for each group and one for each object of its
lists, and `dimes_client_shmem_restart_storage` inserts the objects again. Both go through the lists from
the front, and every insertion puts a group or an object in front, so a restart reverses the groups and
every list. A group comes back with its first object in shared memory. The name in a group record has 256
bytes and the number of objects is written behind it, over the end of a name of the full length.

A restart also fills `node_local_obj_index`, which is empty until then, with the objects of the other clients
of the node.

`restartStorage_eq` describes the storage after a restart. `storage_roundTrip_iff` says when it is the
storage of the checkpoint: every group has an object and a name that its record can hold, all objects are in
shared memory, a group has at most one object of a version, no query copies objects of two groups to one
cell, and the storage covers the objects of the other clients.
-/

namespace DataSpaces.Dimes.Cr

open Lib Geometry Store Copy Client Space List Function

/-! ## The source -/

/-- `struct dimes_cr_mem_obj_info`: what a checkpoint keeps of a `struct dimes_memory_obj`. The id, which a
restart gives anew, is not in it, and nothing here reads it. -/
structure CrMemObjInfo where
  objDesc : ObjDescriptor
  gdim : GlobalDimension
  /-- `shmem_desc.size` -/
  size : Nat
  /-- `shmem_desc.offset` -/
  offset : Nat
  /-- `rdma_handle.mem_type` -/
  memType : DartMemoryType

/-- `obj_desc.version`. -/
def CrMemObjInfo.version (o : CrMemObjInfo) : UInt32 := o.objDesc.version

/-- A group with these objects; the name is a C string without its end. -/
abbrev StorageGroup := DimesStorageGroup (List UInt8) CrMemObjInfo

/-- `struct dimes_cr_group_info`. -/
structure CrGroupInfo where
  name : List UInt8
  numObj : Nat

/-- The record of a group: `strcpy` copies the name with its end, and `num_obj`, written after it, starts
at byte 256. -/
def groupInfo (maxVersions : Nat) (g : StorageGroup) : CrGroupInfo :=
  ⟨(g.name ++ [0]).take 256, (g.objects maxVersions).length⟩

/-- The restart buffer: the records of the groups, each with the records of its objects. -/
def dimesClientShmemCheckpointStorage (maxVersions : Nat) (storage : List StorageGroup) :
    List (CrGroupInfo × List CrMemObjInfo) :=
  storage.map fun g => (groupInfo maxVersions g, g.objects maxVersions)

/-- The bytes of a `uint32_t`, the lowest one first. -/
def uint32Bytes (n : Nat) : List UInt8 :=
  [UInt8.ofNat n, UInt8.ofNat (n / 2 ^ 8), UInt8.ofNat (n / 2 ^ 16), UInt8.ofNat (n / 2 ^ 24)]

/-- `group_info->name` read as a C string: it goes on to the first zero, which may stand behind the name;
`after` are the bytes of the buffer behind the record. -/
def CrGroupInfo.groupName (info : CrGroupInfo) (after : List UInt8) : List UInt8 :=
  (info.name ++ (uint32Bytes info.numObj ++ after)).takeWhile (· ≠ 0)

/-- The object of a record belongs to client `cid`. -/
def CrMemObjInfo.withOwner (cid : Nat) (objInfo : CrMemObjInfo) : CrMemObjInfo :=
  { objInfo with objDesc := { objInfo.objDesc with owner := cid } }

/-- Insert the object of a record. An object that was not in shared memory has an "unknown"
`dart_memory_type` and is dropped; the error code is ignored. Registering the memory succeeds. -/
def restartStorageInsertMemObj (maxVersions cid : Nat) (groupName : List UInt8)
    (storage : List StorageGroup) (objInfo : CrMemObjInfo) : List StorageGroup :=
  if objInfo.memType.inShmem then
    insertMemObj maxVersions CrMemObjInfo.version groupName storage (objInfo.withOwner cid)
  else storage

/-- Insert the object of another client of the node. Its `mem_type` is not set, and nothing reads it; that of
the record is kept here. -/
def nodeLocalObjIndexInsertMemObj (maxVersions owner : Nat) (groupName : List UInt8)
    (index : List StorageGroup) (objInfo : CrMemObjInfo) : List StorageGroup :=
  insertMemObj maxVersions CrMemObjInfo.version groupName index (objInfo.withOwner owner)

/-- The inner loop over the records of a group. -/
def loadGroup (insert : List UInt8 → List StorageGroup → CrMemObjInfo → List StorageGroup)
    (after : CrGroupInfo → List UInt8) (groups : List StorageGroup)
    (record : CrGroupInfo × List CrMemObjInfo) : List StorageGroup :=
  record.2.foldl (insert (record.1.groupName (after record.1))) groups

def dimesClientShmemRestartStorage (maxVersions cid : Nat) (after : CrGroupInfo → List UInt8)
    (restartBuf : List (CrGroupInfo × List CrMemObjInfo)) : List StorageGroup :=
  restartBuf.foldl (loadGroup (restartStorageInsertMemObj maxVersions cid) after) []

def buildNodeLocalObjIndex (maxVersions owner : Nat) (after : CrGroupInfo → List UInt8)
    (index : List StorageGroup) (restartBuf : List (CrGroupInfo × List CrMemObjInfo)) : List StorageGroup :=
  restartBuf.foldl (loadGroup (nodeLocalObjIndexInsertMemObj maxVersions owner) after) index

/-- `struct fetch_entry` of a search on the node. -/
structure LocalFetch where
  src : CrMemObjInfo
  dstOdsc : ObjDescriptor

def localFetch (q : ObjDescriptor) (memObj : CrMemObjInfo) : LocalFetch := ⟨memObj, partOf q memObj.objDesc⟩

/-- `qt_find_obj_d`: the same owner and part. -/
def sameFetch (f g : LocalFetch) : Bool := objDescEquals f.dstOdsc g.dstOdsc

def localSearchMemObjList (q : ObjDescriptor) (fetchList : List LocalFetch) (memObjList : List CrMemObjInfo) :
    List LocalFetch :=
  memObjList.foldl (fun fetchList memObj =>
    if objDescEqualsIntersect memObj.objDesc q then addNew sameFetch fetchList (localFetch q memObj)
    else fetchList) fetchList

def localSearchGroupList (maxVersions : Nat) (q : ObjDescriptor) (fetchList : List LocalFetch)
    (groupList : List StorageGroup) : List LocalFetch :=
  groupList.foldl (fun fetchList p =>
    localSearchMemObjList q fetchList (p.versionTab (unsignedIdx maxVersions q.version))) fetchList

/-- The fetch list of `dimes_obj_get_local`: the storage is searched first, then the objects of the other
clients on the node. -/
def localFetchList (maxVersions : Nat) (storage nodeLocalObjIndex : List StorageGroup) (q : ObjDescriptor) :
    List LocalFetch :=
  localSearchGroupList maxVersions q (localSearchGroupList maxVersions q [] storage) nodeLocalObjIndex

/-- Assemble the parts in the order of the fetch list, as `dimes_fetch_data` does with objects on the node.
`none` is the error of a get that finds nothing. -/
def dimesObjGetLocal (maxVersions : Nat) (storage nodeLocalObjIndex : List StorageGroup)
    (contents : CrMemObjInfo → Mem) (od : ObjData) : Option ObjData :=
  match localFetchList maxVersions storage nodeLocalObjIndex od.objDesc with
  | [] => none
  | f :: rest => some (ssdCopyList od ((f :: rest).map fun f =>
      ⟨f.dstOdsc, scheduleRdmaReads f.src.objDesc f.dstOdsc (contents f.src) fun _ => none, 0⟩))

/-! ## States and the property -/

/-- A query of `dimes_client_shmem_get_local`, which clears the corners before it copies the bounds. -/
def CornersCleared (q : ObjDescriptor) : Prop :=
  ∀ i, q.bb.numDims ≤ i → q.bb.lb i = 0 ∧ q.bb.ub i = 0

/-- Object `o` is copied to cell `x` of a query. -/
def Copied (q : ObjDescriptor) (x : Coord) (o : CrMemObjInfo) : Prop :=
  objDescEqualsIntersect o.objDesc q = true ∧ x ∈ (partOf q o.objDesc).bb

/-- Objects `o` and `o'` are copied to the same cell of some query. -/
def Collide (o o' : CrMemObjInfo) : Prop :=
  ∃ (q : ObjDescriptor) (x : Coord), CornersCleared q ∧ Copied q x o ∧ Copied q x o'

/-- All objects of a storage. -/
def objectsOf (maxVersions : Nat) (groups : List StorageGroup) : List CrMemObjInfo :=
  groups.flatMap (DimesStorageGroup.objects maxVersions)

/-- The objects of a version, in the order of their list. -/
def ofVersion (maxVersions : Nat) (version : UInt32) (g : StorageGroup) : List CrMemObjInfo :=
  (g.versionTab (unsignedIdx maxVersions version)).filter fun o => decide (o.version = version)

/-- The storage of client `cid`: one group for each name, names of at most `STORAGE_GROUP_NAME_MAXLEN`
bytes, every object in the list of its version, and no two objects at one place of the shared memory. -/
structure ClientStorage (maxVersions cid : Nat) where
  groups : List StorageGroup
  maxVersions_pos : 1 ≤ maxVersions
  nodup : (groups.map DimesStorageGroup.name).Nodup
  name_length : ∀ g ∈ groups, g.name.length ≤ 256
  name_ne_zero : ∀ g ∈ groups, ∀ c ∈ g.name, c ≠ 0
  placed : ∀ g ∈ groups, ∀ i, ∀ o ∈ g.versionTab i, i = unsignedIdx maxVersions o.version
  owned : ∀ o ∈ objectsOf maxVersions groups, o.objDesc.owner = cid
  apart : (((objectsOf maxVersions groups).filter fun o => o.memType.inShmem).map CrMemObjInfo.offset).Nodup

/-- A client and its storage. -/
abbrev NodeClient (maxVersions : Nat) := (cid : Nat) × ClientStorage maxVersions cid

/-- `node_local_obj_index` after a restart, from the checkpoints of the other clients of the node. -/
def restartIndex (maxVersions : Nat) (after : Nat → CrGroupInfo → List UInt8)
    (others : List (NodeClient maxVersions)) : List StorageGroup :=
  others.foldl (fun index other => buildNodeLocalObjIndex maxVersions other.1 (after other.1) index
    (dimesClientShmemCheckpointStorage maxVersions other.2.groups)) []

/-- Where the cells of a query come from; `none` is the error of a get that finds nothing. -/
def localAnswer (maxVersions : Nat) (storage nodeLocalObjIndex : List StorageGroup) (q : ObjDescriptor) :
    Option (Coord → Option CrMemObjInfo) :=
  match localFetchList maxVersions storage nodeLocalObjIndex q with
  | [] => none
  | f :: rest => some fun x =>
      ((f :: rest).reverse.find? fun f => decide (x ∈ f.dstOdsc.bb)).map LocalFetch.src

/-- All objects that a query finds are parts of an array over `G`, and so is the query. -/
def FindsArray (G : Bbox) (storage : List StorageGroup) (q : ObjDescriptor) : Prop :=
  ∀ g ∈ storage, ∀ i, ∀ o ∈ g.versionTab i, objDescEqualsIntersect o.objDesc q = true →
    QueryMeets q o.objDesc G

/-- The storage after a restart is the one of the checkpoint: the same groups, for each group and version the
same objects in the same order, and the same answer to every query on the node, where `index` is what the
restart has put into the empty `node_local_obj_index`. For queries and objects of one array, the buffers of
the gets have the same bytes, whatever the shared memory contains. -/
structure RoundTrip (maxVersions : Nat) (before after index : List StorageGroup) : Prop where
  groups : ∀ name, (∃ g ∈ after, g.name = name) ↔ ∃ g ∈ before, g.name = name
  objects : ∀ g ∈ before, ∀ g' ∈ after, g'.name = g.name → ∀ version,
    ofVersion maxVersions version g' = ofVersion maxVersions version g
  answers : ∀ q, CornersCleared q → localAnswer maxVersions after index q = localAnswer maxVersions before [] q
  bytes : ∀ G (od : ObjData) contents, CornersCleared od.objDesc →
    FindsArray G (before ++ index) od.objDesc → ∀ x ∈ od.objDesc.bb, ∀ r < od.objDesc.size,
      (dimesObjGetLocal maxVersions after index contents od).map (cellByte · x r) =
        (dimesObjGetLocal maxVersions before [] contents od).map (cellByte · x r)

/-- The part of an object that a query asks for is in the storage as well. -/
def Covered (maxVersions : Nat) (groups : List StorageGroup) (o : CrMemObjInfo) : Prop :=
  ∀ q, CornersCleared q → objDescEqualsIntersect o.objDesc q = true →
    (∃ o' ∈ objectsOf maxVersions groups, objDescEqualsIntersect o'.objDesc q = true) ∧
      ∀ x ∈ (partOf q o.objDesc).bb, ∃ o' ∈ objectsOf maxVersions groups, Copied q x o'

/-- The condition for that. -/
structure Restorable {maxVersions : Nat} (groups : List StorageGroup) (others : List (NodeClient maxVersions)) :
    Prop where
  name_fits : ∀ g ∈ groups, g.name.length < 256 ∨ (g.objects maxVersions).length % 256 = 0
  nonempty : ∀ g ∈ groups, g.objects maxVersions ≠ []
  inShmem : ∀ o ∈ objectsOf maxVersions groups, o.memType.inShmem = true
  single : ∀ g ∈ groups, ∀ version, (ofVersion maxVersions version g).length ≤ 1
  apart : ∀ g ∈ groups, ∀ g' ∈ groups, g.name ≠ g'.name → ∀ o ∈ g.objects maxVersions,
    ∀ o' ∈ g'.objects maxVersions, ¬ Collide o o'
  covered : ∀ other ∈ others, ∀ o ∈ objectsOf maxVersions other.2.groups, Covered maxVersions groups o

/-! ## What a search finds -/

/-- The objects that match a query, in the order of the search. -/
def found (maxVersions : Nat) (groupList : List StorageGroup) (q : ObjDescriptor) : List CrMemObjInfo :=
  (groupList.flatMap fun p => p.versionTab (unsignedIdx maxVersions q.version)).filter
    fun o => objDescEqualsIntersect o.objDesc q

theorem localSearchMemObjList_eq (q : ObjDescriptor) (fetchList : List LocalFetch) (l : List CrMemObjInfo) :
    localSearchMemObjList q fetchList l =
      ((l.filter fun o => objDescEqualsIntersect o.objDesc q).map (localFetch q)).foldl
        (addNew sameFetch) fetchList := by
  rw [foldl_map, foldl_filter]
  rfl

theorem localSearchGroupList_eq (m : Nat) (q : ObjDescriptor) (fetchList : List LocalFetch)
    (groupList : List StorageGroup) : localSearchGroupList m q fetchList groupList =
      ((found m groupList q).map (localFetch q)).foldl (addNew sameFetch) fetchList := by
  induction groupList generalizing fetchList with
  | nil => rfl
  | cons p groupList ih =>
    have hstep : localSearchGroupList m q fetchList (p :: groupList) = localSearchGroupList m q
        (localSearchMemObjList q fetchList (p.versionTab (unsignedIdx m q.version))) groupList := rfl
    have hfound : found m (p :: groupList) q = (p.versionTab (unsignedIdx m q.version)).filter
        (fun o => objDescEqualsIntersect o.objDesc q) ++ found m groupList q := by
      simp only [found, flatMap_cons, filter_append]
    rw [hstep, ih, localSearchMemObjList_eq, hfound, map_append, foldl_append]

theorem found_append (m : Nat) (storage index : List StorageGroup) (q : ObjDescriptor) :
    found m (storage ++ index) q = found m storage q ++ found m index q := by
  rw [found, flatMap_append, filter_append]
  rfl

variable {m : Nat} {storage : List StorageGroup} {l : List CrMemObjInfo} {q : ObjDescriptor}
  {o o' : CrMemObjInfo} {index : List StorageGroup} {name : List UInt8} {p : CrMemObjInfo → Bool}

theorem localFetchList_eq : localFetchList m storage index q =
    ((found m (storage ++ index) q).map (localFetch q)).foldl (addNew sameFetch) [] := by
  rw [localFetchList, localSearchGroupList_eq, localSearchGroupList_eq, found_append, map_append,
    foldl_append]

theorem mem_found {groupList : List StorageGroup} :
    o ∈ found m groupList q ↔ (∃ p ∈ groupList, o ∈ p.versionTab (unsignedIdx m q.version)) ∧
      objDescEqualsIntersect o.objDesc q = true := by
  simp only [found, mem_filter, mem_flatMap]

/-- A cell of a query comes from the first object of the search that covers it. -/
def firstCovering (l : List CrMemObjInfo) (q : ObjDescriptor) (x : Coord) : Option CrMemObjInfo :=
  l.find? fun o => decide (x ∈ (partOf q o.objDesc).bb)

def fetchKey (f : LocalFetch) : Nat × List (Nat × Nat) := pieceKey f.dstOdsc

theorem sameFetch_iff (f g : LocalFetch) : sameFetch f g = true ↔ fetchKey f = fetchKey g :=
  objDescEquals_iff_pieceKey _ _

theorem find?_localFetchList (x : Coord) :
    (localFetchList m storage index q).reverse.find? (fun f => decide (x ∈ f.dstOdsc.bb)) =
      (firstCovering (found m (storage ++ index) q) q x).map (localFetch q) := by
  have hkey : ∀ f g : LocalFetch, fetchKey f = fetchKey g →
      decide (x ∈ f.dstOdsc.bb) = decide (x ∈ g.dstOdsc.bb) := by
    intro f g hk
    have hbox := corners_eq_iff.1 (congrArg Prod.snd hk)
    exact decide_eq_decide.2 (mem_congr_of_bboxEquals hbox)
  rw [localFetchList_eq, find?_reverse_foldl_addNew sameFetch_iff hkey, find?_map]
  rfl

theorem localFetchList_eq_nil_iff :
    localFetchList m storage index q = [] ↔ found m (storage ++ index) q = [] := by
  rw [localFetchList_eq]
  constructor
  · intro hnil
    by_contra hne
    obtain ⟨o, ho⟩ := exists_mem_of_ne_nil _ hne
    obtain ⟨f, hf, -⟩ := exists_mem_foldl_addNew sameFetch_iff (mem_map_of_mem (f := localFetch q) ho)
    rw [hnil] at hf
    exact not_mem_nil hf
  · intro hnil
    rw [hnil]
    rfl

theorem localAnswer_eq : localAnswer m storage index q =
    if found m (storage ++ index) q = [] then none
    else some (firstCovering (found m (storage ++ index) q) q) := by
  simp only [← localFetchList_eq_nil_iff]
  unfold localAnswer
  cases hlist : localFetchList m storage index q with
  | nil => rfl
  | cons f rest =>
    rw [if_neg (cons_ne_nil f rest)]
    refine congrArg some (funext fun x => ?_)
    rw [← hlist, find?_localFetchList, Option.map_map]
    exact Option.map_id_apply

/-- The byte of a cell of the buffer, from the object that is copied to the cell. -/
def byteFrom (contents : CrMemObjInfo → Mem) (od : ObjData) (x : Coord) (r : Nat) :
    Option CrMemObjInfo → Option UInt8
  | none => cellByte od x r
  | some o => scheduleRdmaReads o.objDesc (partOf od.objDesc o.objDesc) (contents o) (fun _ => none)
      (od.objDesc.size * cellOffset (partOf od.objDesc o.objDesc).bb
        (readCell od.objDesc.bb (partOf od.objDesc o.objDesc).bb x) + r)

theorem cellByte_dimesObjGetLocal {G : Bbox} {od : ObjData}
    (hfinds : FindsArray G (storage ++ index) od.objDesc) (contents : CrMemObjInfo → Mem) {x : Coord}
    (hx : x ∈ od.objDesc.bb) {r : Nat} (hr : r < od.objDesc.size) :
    (dimesObjGetLocal m storage index contents od).map (cellByte · x r) =
      (localAnswer m storage index od.objDesc).map fun answer => byteFrom contents od x r (answer x) := by
  unfold dimesObjGetLocal localAnswer
  cases hlist : localFetchList m storage index od.objDesc with
  | nil => rfl
  | cons f rest =>
    -- Every entry is the part of an object that was found, so all copies are exact.
    have hcopy : ∀ piece ∈ (f :: rest).map (fun f : LocalFetch => (⟨f.dstOdsc, scheduleRdmaReads
        f.src.objDesc f.dstOdsc (contents f.src) fun _ => none, 0⟩ : ObjData)),
        Copyable od.objDesc.bb piece.objDesc.bb od.objDesc.size := by
      intro piece hpiece
      obtain ⟨g, hg, rfl⟩ := mem_map.1 hpiece
      rw [← hlist, localFetchList_eq] at hg
      obtain ⟨o, ho, rfl⟩ := mem_map.1 (mem_of_mem_foldl_addNew hg)
      obtain ⟨⟨p, hp, hin⟩, hmatch⟩ := mem_found.1 ho
      exact (hfinds p hp _ o hin hmatch).copyable
    rw [Option.map_some, Option.map_some, cellByte_ssdCopyList hcopy hx hr, ← map_reverse, find?_map, ← hlist]
    have hcov : ((fun piece : ObjData => decide (x ∈ piece.objDesc.bb)) ∘ fun f : LocalFetch =>
        (⟨f.dstOdsc, scheduleRdmaReads f.src.objDesc f.dstOdsc (contents f.src) fun _ => none, 0⟩ : ObjData))
        = fun f => decide (x ∈ f.dstOdsc.bb) := rfl
    simp only [hcov, find?_localFetchList]
    cases firstCovering (found m (storage ++ index) od.objDesc) od.objDesc x with
    | none => rfl
    | some o => rfl

/-! ## The storage after a restart -/

/-- The group of a list of inserted objects: the last one is in front. -/
def binned (m : Nat) (name : List UInt8) (objs : List CrMemObjInfo) : StorageGroup :=
  ⟨name, fun i => (objs.filter fun o => decide (unsignedIdx m o.version = i)).reverse⟩

theorem binned_append_singleton (m : Nat) (name : List UInt8) (objs : List CrMemObjInfo) (o : CrMemObjInfo) :
    binned m name (objs ++ [o]) = (binned m name objs).memObjListAdd (unsignedIdx m o.version) o := by
  refine congrArg (DimesStorageGroup.mk name) (funext fun i => ?_)
  by_cases hi : unsignedIdx m o.version = i
  · subst hi
    simp [binned]
  · simp [binned, hi, update_of_ne (Ne.symm hi)]

/-- The first insertion creates the group in front. -/
theorem insertMemObj_new (hnew : ∀ p ∈ storage, p.name ≠ name) (o : CrMemObjInfo) :
    insertMemObj m CrMemObjInfo.version name storage o = binned m name [o] :: storage := by
  have hnone : storageLookupGroup storage name = none := by
    refine find?_eq_none.2 fun p hp => ?_
    simpa using hnew p hp
  have hany : (storage.any fun p => decide (p.name = name)) = false := by
    refine any_eq_false.2 fun p hp => ?_
    simpa using hnew p hp
  have hgroup : binned m name [o] =
      (DimesStorageGroup.empty name).memObjListAdd (unsignedIdx m o.version) o :=
    binned_append_singleton m name [] o
  rw [insertMemObj, hnone, Option.getD_none, upsert, hany, hgroup]
  rfl

/-- The other ones find it there. -/
theorem insertMemObj_head (m : Nat) (name : List UInt8) (objs : List CrMemObjInfo)
    (storage : List StorageGroup) (o : CrMemObjInfo) :
    insertMemObj m CrMemObjInfo.version name (binned m name objs :: storage) o =
      binned m name (objs ++ [o]) :: storage := by
  have hname : (binned m name objs).name = name := rfl
  have hsome : storageLookupGroup (binned m name objs :: storage) name = some (binned m name objs) :=
    find?_cons_of_pos (by rw [hname]; exact decide_eq_true rfl)
  rw [insertMemObj, hsome, Option.getD_some, binned_append_singleton]
  simp [upsert, overwriteFirst, hname]

theorem foldl_insertMemObj_head (m : Nat) (name : List UInt8) (objs before : List CrMemObjInfo)
    (storage : List StorageGroup) :
    objs.foldl (insertMemObj m CrMemObjInfo.version name) (binned m name before :: storage) =
      binned m name (before ++ objs) :: storage := by
  induction objs generalizing before with
  | nil => rw [append_nil]; rfl
  | cons o objs ih => rw [foldl_cons, insertMemObj_head, ih, append_cons before o objs]

theorem foldl_insertMemObj (hnew : ∀ p ∈ storage, p.name ≠ name) {objs : List CrMemObjInfo}
    (hne : objs ≠ []) :
    objs.foldl (insertMemObj m CrMemObjInfo.version name) storage = binned m name objs :: storage := by
  cases objs with
  | nil => exact absurd rfl hne
  | cons o objs =>
    rw [foldl_cons, insertMemObj_new hnew, foldl_insertMemObj_head]
    rfl

/-- The name under which a group comes back. -/
def restoredName (m : Nat) (after : CrGroupInfo → List UInt8) (g : StorageGroup) : List UInt8 :=
  (groupInfo m g).groupName (after (groupInfo m g))

/-- What a restart makes of a group: every list is reversed and has lost the objects outside of the shared
memory. -/
def restoredGroup (m : Nat) (after : CrGroupInfo → List UInt8) (g : StorageGroup) : Option StorageGroup :=
  if (g.objects m).filter (fun o => o.memType.inShmem) = [] then none
  else some ⟨restoredName m after g, fun i => ((g.versionTab i).filter fun o => o.memType.inShmem).reverse⟩

section Groups

variable {m cid : Nat} (after : CrGroupInfo → List UInt8)

/-- One list of the array, from all of them. -/
theorem flatMap_ite_eq {is : List Int} (his : is.Nodup) (i : Int) (l : List CrMemObjInfo) :
    (is.flatMap fun j => if j = i then l else []) = if i ∈ is then l else [] := by
  induction is with
  | nil => rfl
  | cons j is ih =>
    obtain ⟨hj, his⟩ := nodup_cons.1 his
    rw [flatMap_cons, ih his]
    by_cases hji : j = i
    · subst hji
      simp [hj]
    · simp [hji, Ne.symm hji]

theorem sublist_objects (hm : 1 ≤ m) (version : UInt32) (g : StorageGroup) :
    (g.versionTab (unsignedIdx m version)).Sublist (g.objects m) :=
  sublist_flatten_of_mem (mem_map.2 ⟨_, mem_allIdx.2 (isBin_unsignedIdx hm version), rfl⟩)

theorem nodup_allIdx (m : Nat) : (allIdx m).Nodup := nodup_range.map fun _ _ => Int.ofNat_inj.1

/-- The objects of a group that belong into a list are those in the list. -/
theorem filter_objects (hm : 1 ≤ m) {g : StorageGroup}
    (hplaced : ∀ i, ∀ o ∈ g.versionTab i, i = unsignedIdx m o.version) (i : Int) :
    ((g.objects m).filter fun o => decide (unsignedIdx m o.version = i)) = g.versionTab i := by
  have hbin : ∀ j, ((g.versionTab j).filter fun o => decide (unsignedIdx m o.version = i)) =
      if j = i then g.versionTab i else [] := by
    intro j
    by_cases hj : j = i
    · subst hj
      rw [if_pos rfl, filter_eq_self]
      exact fun o ho => decide_eq_true (hplaced j o ho).symm
    · rw [if_neg hj, filter_eq_nil_iff]
      intro o ho hi
      exact hj ((hplaced j o ho).trans (of_decide_eq_true hi))
  simp only [DimesStorageGroup.objects, filter_flatMap, hbin, flatMap_ite_eq (nodup_allIdx m)]
  by_cases hi : i ∈ allIdx m
  · rw [if_pos hi]
  · rw [if_neg hi]
    symm
    refine eq_nil_iff_forall_not_mem.2 fun o ho => hi ?_
    rw [hplaced i o ho]
    exact mem_allIdx.2 (isBin_unsignedIdx hm _)

theorem withOwner_eq_self {o : CrMemObjInfo} (h : o.objDesc.owner = cid) : o.withOwner cid = o := by
  subst h
  rfl

variable {after}

/-- The inner loop of a restart, for a group whose name is not in the storage yet. -/
theorem loadGroup_eq (hm : 1 ≤ m) {g : StorageGroup}
    (hplaced : ∀ i, ∀ o ∈ g.versionTab i, i = unsignedIdx m o.version)
    (howned : ∀ o ∈ g.objects m, o.objDesc.owner = cid) {storage : List StorageGroup}
    (hnew : ∀ p ∈ storage, p.name ≠ restoredName m after g) :
    loadGroup (restartStorageInsertMemObj m cid) after storage (groupInfo m g, g.objects m) =
      (restoredGroup m after g).toList ++ storage := by
  have hinsert : loadGroup (restartStorageInsertMemObj m cid) after storage (groupInfo m g, g.objects m) =
      (((g.objects m).filter fun o => o.memType.inShmem).map (CrMemObjInfo.withOwner cid)).foldl
        (insertMemObj m CrMemObjInfo.version (restoredName m after g)) storage := by
    rw [foldl_map, foldl_filter]
    rfl
  have hsame : ((g.objects m).filter fun o => o.memType.inShmem).map (CrMemObjInfo.withOwner cid) =
      (g.objects m).filter fun o => o.memType.inShmem := by
    refine (map_congr_left fun o ho => ?_).trans (map_id _)
    exact withOwner_eq_self (howned o (mem_filter.1 ho).1)
  rw [hinsert, hsame, restoredGroup]
  by_cases hnil : ((g.objects m).filter fun o => o.memType.inShmem) = []
  · rw [if_pos hnil, hnil]
    rfl
  · rw [if_neg hnil, foldl_insertMemObj hnew hnil, Option.toList_some, singleton_append, binned]
    congr 2
    funext i
    rw [filter_filter, ← filter_objects hm hplaced i, filter_filter]
    simp only [Bool.and_comm]

/-- The whole loop, for groups with names of their own. -/
theorem foldl_loadGroup (hm : 1 ≤ m) (groups storage : List StorageGroup)
    (hplaced : ∀ g ∈ groups, ∀ i, ∀ o ∈ g.versionTab i, i = unsignedIdx m o.version)
    (howned : ∀ g ∈ groups, ∀ o ∈ g.objects m, o.objDesc.owner = cid)
    (hnodup : (groups.map (restoredName m after)).Nodup)
    (hnew : ∀ g ∈ groups, ∀ p ∈ storage, p.name ≠ restoredName m after g) :
    (dimesClientShmemCheckpointStorage m groups).foldl
        (loadGroup (restartStorageInsertMemObj m cid) after) storage =
      (groups.filterMap (restoredGroup m after)).reverse ++ storage := by
  induction groups generalizing storage with
  | nil => rfl
  | cons g groups ih =>
    rw [map_cons, nodup_cons] at hnodup
    have hhead := loadGroup_eq hm (hplaced g mem_cons_self) (howned g mem_cons_self) (hnew g mem_cons_self)
    have hstep : (dimesClientShmemCheckpointStorage m (g :: groups)).foldl
        (loadGroup (restartStorageInsertMemObj m cid) after) storage =
          (dimesClientShmemCheckpointStorage m groups).foldl
            (loadGroup (restartStorageInsertMemObj m cid) after)
            ((restoredGroup m after g).toList ++ storage) := by
      rw [← hhead]
      rfl
    rw [hstep, ih]
    · cases hg : restoredGroup m after g with
      | none => simp [hg]
      | some p => simp [hg]
    · exact fun g' hg' => hplaced g' (mem_cons_of_mem _ hg')
    · exact fun g' hg' => howned g' (mem_cons_of_mem _ hg')
    · exact hnodup.2
    · intro g' hg' p hp
      rcases mem_append.1 hp with hp | hp
      · -- The group that was just added has the name of `g`.
        have hsome := Option.mem_toList.1 hp
        rw [restoredGroup] at hsome
        split at hsome
        · cases hsome
        · cases hsome
          intro heq
          exact hnodup.1 (mem_map.2 ⟨g', hg', heq.symm⟩)
      · exact hnew g' (mem_cons_of_mem _ hg') p hp

end Groups

/-! ## Names -/

section

variable {m : Nat} (after : CrGroupInfo → List UInt8) {g : StorageGroup} (hzero : ∀ c ∈ g.name, c ≠ 0)

include hzero

/-- A name with room for its end is read back. -/
theorem restoredName_of_lt (hlen : g.name.length < 256) : restoredName m after g = g.name := by
  have hrec : (g.name ++ [0]).take 256 = g.name ++ [0] :=
    take_of_length_le (by rw [length_append, length_singleton]; omega)
  have hall : ∀ c ∈ g.name, decide (c ≠ 0) = true := fun c hc => decide_eq_true (hzero c hc)
  rw [restoredName, CrGroupInfo.groupName, groupInfo, hrec, append_assoc, takeWhile_append_of_pos hall]
  simp

/-- Behind a name of the full length the string goes on with the number of objects. -/
theorem restoredName_of_eq (hlen : g.name.length = 256) : ∃ junk, restoredName m after g = g.name ++ junk ∧
    (junk = [] ↔ (g.objects m).length % 256 = 0) := by
  have hrec : (g.name ++ [0]).take 256 = g.name := by
    rw [← hlen]
    exact take_left
  have hall : ∀ c ∈ g.name, decide (c ≠ 0) = true := fun c hc => decide_eq_true (hzero c hc)
  refine ⟨_, by rw [restoredName, CrGroupInfo.groupName, groupInfo, hrec, takeWhile_append_of_pos hall], ?_⟩
  have hfirst : UInt8.ofNat (g.objects m).length = 0 ↔ (g.objects m).length % 256 = 0 := by
    rw [← UInt8.toNat_inj, UInt8.toNat_ofNat']
    rfl
  rw [← hfirst, uint32Bytes, cons_append, takeWhile_cons]
  by_cases hz : UInt8.ofNat (g.objects m).length = 0
  · simp [hz]
  · simp [hz]

theorem take_restoredName (hlen : g.name.length ≤ 256) : (restoredName m after g).take 256 = g.name := by
  rcases hlen.lt_or_eq with hlt | heq
  · rw [restoredName_of_lt after hzero hlt]
    exact take_of_length_le hlt.le
  · obtain ⟨junk, hjunk, -⟩ := restoredName_of_eq (m := m) after hzero heq
    rw [hjunk, ← heq]
    exact take_left

/-- A name is read back if and only if its record has room for its end, or the lowest byte of the number
behind it is zero. -/
theorem restoredName_eq_iff (hlen : g.name.length ≤ 256) : restoredName m after g = g.name ↔
    g.name.length < 256 ∨ (g.objects m).length % 256 = 0 := by
  rcases hlen.lt_or_eq with hlt | heq
  · exact iff_of_true (restoredName_of_lt after hzero hlt) (Or.inl hlt)
  · obtain ⟨junk, hjunk, hiff⟩ := restoredName_of_eq (m := m) after hzero heq
    rw [hjunk, or_iff_right (by omega), ← hiff]
    exact append_right_eq_self

end

/-! ## The round trip -/

namespace ClientStorage

variable {m cid : Nat} (s : ClientStorage m cid) (after : CrGroupInfo → List UInt8)

theorem group_eq_of_name {g g' : StorageGroup} (hg : g ∈ s.groups) (hg' : g' ∈ s.groups)
    (h : g.name = g'.name) : g = g' :=
  inj_on_of_nodup_map s.nodup hg hg' h

theorem restoredName_inj {g g' : StorageGroup} (hg : g ∈ s.groups) (hg' : g' ∈ s.groups)
    (h : restoredName m after g = restoredName m after g') : g = g' := by
  refine s.group_eq_of_name hg hg' ?_
  rw [← take_restoredName (m := m) after (s.name_ne_zero g hg) (s.name_length g hg), h,
    take_restoredName after (s.name_ne_zero g' hg') (s.name_length g' hg')]

/-- The storage after a restart: the groups that still have an object, in reverse order. -/
theorem restartStorage_eq :
    dimesClientShmemRestartStorage m cid after (dimesClientShmemCheckpointStorage m s.groups) =
      (s.groups.filterMap (restoredGroup m after)).reverse := by
  have hnodup : (s.groups.map (restoredName m after)).Nodup :=
    (Nodup.of_map _ s.nodup).map_on fun g hg g' hg' => s.restoredName_inj after hg hg'
  have howned : ∀ g ∈ s.groups, ∀ o ∈ g.objects m, o.objDesc.owner = cid :=
    fun g hg o ho => s.owned o (mem_flatMap.2 ⟨g, hg, ho⟩)
  rw [dimesClientShmemRestartStorage, foldl_loadGroup s.maxVersions_pos s.groups [] s.placed howned
    hnodup fun _ _ p hp => absurd hp not_mem_nil, append_nil]

theorem mem_ofVersion {g : StorageGroup} (hg : g ∈ s.groups) {version : UInt32} {o : CrMemObjInfo} :
    o ∈ ofVersion m version g ↔ o ∈ g.objects m ∧ o.version = version := by
  rw [ofVersion, mem_filter, decide_eq_true_eq, DimesStorageGroup.objects, mem_flatMap]
  refine and_congr_left fun hversion => ?_
  subst hversion
  constructor
  · intro ho
    exact ⟨_, mem_allIdx.2 (isBin_unsignedIdx s.maxVersions_pos _), ho⟩
  · rintro ⟨i, -, ho⟩
    rw [← s.placed g hg i o ho]
    exact ho

/-- A search finds the objects that match. -/
theorem mem_found_iff {q : ObjDescriptor} {o : CrMemObjInfo} :
    o ∈ found m s.groups q ↔ o ∈ objectsOf m s.groups ∧ objDescEqualsIntersect o.objDesc q = true := by
  rw [mem_found, objectsOf, mem_flatMap]
  refine and_congr_left fun hmatch => exists_congr fun g => and_congr_right fun hg => ?_
  have hversion : o.version = q.version := (objDescEqualsIntersect_iff.1 hmatch).2.1
  have hof : o ∈ ofVersion m q.version g ↔ _ := s.mem_ofVersion hg
  rw [ofVersion, mem_filter, decide_eq_true_eq, and_iff_left hversion, and_iff_left hversion] at hof
  exact hof

/-- The objects of a storage in shared memory are at different places. -/
theorem nodup_objectsOf (hshmem : ∀ o ∈ objectsOf m s.groups, o.memType.inShmem = true) :
    (objectsOf m s.groups).Nodup := by
  have hapart := s.apart
  rw [filter_eq_self.2 hshmem] at hapart
  exact Nodup.of_map _ hapart

end ClientStorage

theorem reverse_eq_self_of_length_le_one (h : l.length ≤ 1) : l.reverse = l := by
  rcases l with _ | ⟨o, _ | ⟨o', l⟩⟩
  · rfl
  · rfl
  · simp at h

theorem eq_of_mem_of_length_le_one (h : l.length ≤ 1) (ho : o ∈ l) (ho' : o' ∈ l) : o = o' := by
  rcases l with _ | ⟨a, _ | ⟨b, l⟩⟩
  · cases ho
  · rw [mem_singleton.1 ho, mem_singleton.1 ho']
  · simp at h

/-- In a list without repetitions the first item is the last one only if there are no others. -/
theorem length_le_one_of_head?_reverse (hnodup : l.Nodup) (h : l.reverse.head? = l.head?) : l.length ≤ 1 := by
  rcases l with _ | ⟨o, l⟩
  · exact Nat.zero_le 1
  · rcases l.eq_nil_or_concat with rfl | ⟨l, o', rfl⟩
    · exact le_rfl
    · rw [concat_eq_append, reverse_cons, reverse_append, reverse_singleton,
        singleton_append, cons_append, head?_cons, head?_cons, Option.some.injEq] at h
      rw [h, nodup_cons, concat_eq_append] at hnodup
      exact absurd (mem_append_right l (mem_singleton_self o)) hnodup.1

theorem find?_reverse_of_unique
    (h : ∀ o ∈ l, ∀ o' ∈ l, p o = true → p o' = true → o = o') : l.reverse.find? p = l.find? p := by
  cases hfind : l.find? p with
  | none =>
    rw [find?_eq_none] at hfind ⊢
    exact fun o ho => hfind o (mem_reverse.1 ho)
  | some o =>
    have ho := mem_of_find?_eq_some hfind
    have hp := find?_some hfind
    exact find?_eq_some_of_unique (mem_reverse.2 ho) hp fun o' ho' hp' => h o' (mem_reverse.1 ho') o ho hp' hp

/-- If a search from the front and one from the end find the same object, it is the only one. -/
theorem unique_of_find?_reverse (hnodup : l.Nodup) (h : l.reverse.find? p = l.find? p) (ho : o ∈ l)
    (ho' : o' ∈ l) (hp : p o = true) (hp' : p o' = true) : o = o' := by
  rw [← head?_filter, ← head?_filter, filter_reverse] at h
  have hlen := length_le_one_of_head?_reverse (hnodup.filter p) h
  exact eq_of_mem_of_length_le_one hlen (mem_filter.2 ⟨ho, hp⟩) (mem_filter.2 ⟨ho', hp'⟩)

/-! ## The index of the other clients -/

/-- What holds after a loop, if every step adds something. -/
theorem foldl_iff_or_exists {σ α : Type*} {f : σ → α → σ} {P : σ → Prop} {Q : α → Prop}
    (hstep : ∀ st x, P (f st x) ↔ P st ∨ Q x) (xs : List α) (st : σ) :
    P (xs.foldl f st) ↔ P st ∨ ∃ x ∈ xs, Q x := by
  induction xs generalizing st with
  | nil => simp
  | cons x xs ih => rw [foldl_cons, ih, hstep, exists_mem_cons_iff, or_assoc]

theorem stored_buildNodeLocalObjIndex {owner : Nat} {after : CrGroupInfo → List UInt8} {i : Int}
    (restartBuf : List (CrGroupInfo × List CrMemObjInfo)) (index : List StorageGroup) :
    Stored (buildNodeLocalObjIndex m owner after index restartBuf) i o ↔ Stored index i o ∨
      ∃ record ∈ restartBuf, ∃ info ∈ record.2, o = info.withOwner owner ∧ i = unsignedIdx m info.version := by
  refine foldl_iff_or_exists (P := fun index => Stored index i o) (fun index record => ?_) restartBuf index
  exact foldl_iff_or_exists (P := fun index => Stored index i o) (fun index info => stored_insertMemObj)
    record.2 index

theorem mem_found_restartIndex {after : Nat → CrGroupInfo → List UInt8} {others : List (NodeClient m)} :
    o ∈ found m (restartIndex m after others) q ↔
      ∃ other ∈ others, o ∈ objectsOf m other.2.groups ∧ objDescEqualsIntersect o.objDesc q = true := by
  have hstored : Stored (restartIndex m after others) (unsignedIdx m q.version) o ↔
      Stored ([] : List StorageGroup) (unsignedIdx m q.version) o ∨
      ∃ other ∈ others, ∃ record ∈ dimesClientShmemCheckpointStorage m other.2.groups,
        ∃ info ∈ record.2, o = info.withOwner other.1 ∧ unsignedIdx m q.version = unsignedIdx m info.version :=
    foldl_iff_or_exists (P := fun index => Stored index (unsignedIdx m q.version) o)
      (Q := fun other : NodeClient m => ∃ record ∈ dimesClientShmemCheckpointStorage m other.2.groups,
        ∃ info ∈ record.2, o = info.withOwner other.1 ∧ unsignedIdx m q.version = unsignedIdx m info.version)
      (fun index other => stored_buildNodeLocalObjIndex _ index) others []
  rw [mem_found, ← Stored, hstored, or_iff_right (by rintro ⟨p, hp, -⟩; exact not_mem_nil hp)]
  constructor
  · rintro ⟨⟨other, hother, record, hrecord, info, hinfo, rfl, -⟩, hmatch⟩
    obtain ⟨g, hg, rfl⟩ := mem_map.1 hrecord
    have hin : info ∈ objectsOf m other.2.groups := mem_flatMap.2 ⟨g, hg, hinfo⟩
    rw [withOwner_eq_self (other.2.owned info hin)] at hmatch ⊢
    exact ⟨other, hother, hin, hmatch⟩
  · rintro ⟨other, hother, hin, hmatch⟩
    obtain ⟨g, hg, hinfo⟩ := mem_flatMap.1 hin
    have hversion : o.version = q.version := (objDescEqualsIntersect_iff.1 hmatch).2.1
    refine ⟨⟨other, hother, _, mem_map.2 ⟨g, hg, rfl⟩, o, hinfo, ?_, by rw [hversion]⟩, hmatch⟩
    exact (withOwner_eq_self (other.2.owned o hin)).symm

namespace ClientStorage

variable {m cid : Nat} (s : ClientStorage m cid) (after : CrGroupInfo → List UInt8)

/-! ## The round trip -/

/-- A group with its lists reversed. -/
def reversed (g : StorageGroup) : StorageGroup := ⟨g.name, fun i => (g.versionTab i).reverse⟩

/-- If all objects and all names come back, a restart reverses the groups and their lists. -/
theorem restartStorage_eq_reverse
    (hnames : ∀ g ∈ s.groups, g.name.length < 256 ∨ (g.objects m).length % 256 = 0)
    (hnonempty : ∀ g ∈ s.groups, g.objects m ≠ [])
    (hshmem : ∀ o ∈ objectsOf m s.groups, o.memType.inShmem = true) :
    dimesClientShmemRestartStorage m cid after (dimesClientShmemCheckpointStorage m s.groups) =
      (s.groups.map reversed).reverse := by
  have hgroup : ∀ g ∈ s.groups, restoredGroup m after g = some (reversed g) := by
    intro g hg
    have hobjects : ((g.objects m).filter fun o => o.memType.inShmem) = g.objects m :=
      filter_eq_self.2 fun o ho => hshmem o (mem_flatMap.2 ⟨g, hg, ho⟩)
    have hlists : ∀ i, ((g.versionTab i).filter fun o => o.memType.inShmem) = g.versionTab i := by
      intro i
      refine filter_eq_self.2 fun o ho => hshmem o (mem_flatMap.2 ⟨g, hg, mem_flatMap.2 ⟨i, ?_, ho⟩⟩)
      rw [s.placed g hg i o ho]
      exact mem_allIdx.2 (isBin_unsignedIdx s.maxVersions_pos _)
    have hname : restoredName m after g = g.name :=
      (restoredName_eq_iff after (s.name_ne_zero g hg) (s.name_length g hg)).2 (hnames g hg)
    rw [restoredGroup, hobjects, if_neg (hnonempty g hg), hname]
    simp only [hlists]
    rfl
  rw [s.restartStorage_eq, filterMap_congr hgroup, filterMap_eq_map']

/-- A search of the reversed storage is reversed. -/
theorem found_reverse (q : ObjDescriptor) :
    found m (s.groups.map reversed).reverse q = (found m s.groups q).reverse := by
  rw [found, found, ← map_reverse, flatMap_map, ← filter_reverse, reverse_flatMap]
  rfl

/-- Two objects that cover a cell of a query are the same one. -/
theorem unique_of_restorable {others : List (NodeClient m)} (h : Restorable s.groups others)
    {q : ObjDescriptor} (hq : CornersCleared q) {x : Coord} {o o' : CrMemObjInfo} (ho : o ∈ found m s.groups q)
    (ho' : o' ∈ found m s.groups q) (hx : x ∈ (partOf q o.objDesc).bb) (hx' : x ∈ (partOf q o'.objDesc).bb) :
    o = o' := by
  obtain ⟨hin, hmatch⟩ := s.mem_found_iff.1 ho
  obtain ⟨hin', hmatch'⟩ := s.mem_found_iff.1 ho'
  obtain ⟨g, hg, hin⟩ := mem_flatMap.1 hin
  obtain ⟨g', hg', hin'⟩ := mem_flatMap.1 hin'
  by_cases hname : g.name = g'.name
  · cases s.group_eq_of_name hg hg' hname
    have hversion := (objDescEqualsIntersect_iff.1 hmatch).2.1
    have hversion' := (objDescEqualsIntersect_iff.1 hmatch').2.1
    exact eq_of_mem_of_length_le_one (h.single g hg q.version) ((s.mem_ofVersion hg).2 ⟨hin, hversion⟩)
      ((s.mem_ofVersion hg).2 ⟨hin', hversion'⟩)
  · exact absurd ⟨q, x, hq, ⟨hmatch, hx⟩, hmatch', hx'⟩ (h.apart g hg g' hg' hname o hin o' hin')

/-- What the storage covers adds nothing to an answer. -/
theorem localAnswer_reverse {others : List (NodeClient m)} (h : Restorable s.groups others)
    {q : ObjDescriptor} (hq : CornersCleared q) (hcovered : ∀ o ∈ found m index q, Covered m s.groups o) :
    localAnswer m (s.groups.map reversed).reverse index q = localAnswer m s.groups [] q := by
  have hmatch : ∀ o ∈ found m index q, objDescEqualsIntersect o.objDesc q = true :=
    fun o ho => (mem_found.1 ho).2
  have hnil : (found m s.groups q).reverse ++ found m index q = [] ↔ found m s.groups q = [] := by
    rw [append_eq_nil_iff, reverse_eq_nil_iff]
    refine and_iff_left_of_imp fun hown => eq_nil_iff_forall_not_mem.2 fun o ho => ?_
    obtain ⟨⟨o', hin, hmatch'⟩, -⟩ := hcovered o ho q hq (hmatch o ho)
    exact ne_nil_of_mem (s.mem_found_iff.2 ⟨hin, hmatch'⟩) hown
  have hfirst : firstCovering ((found m s.groups q).reverse ++ found m index q) q =
      firstCovering (found m s.groups q) q := by
    funext x
    have hunique : (found m s.groups q).reverse.find? (fun o => decide (x ∈ (partOf q o.objDesc).bb)) =
        (found m s.groups q).find? fun o => decide (x ∈ (partOf q o.objDesc).bb) := by
      refine find?_reverse_of_unique fun o ho o' ho' hx hx' => ?_
      exact s.unique_of_restorable h hq ho ho' (of_decide_eq_true hx) (of_decide_eq_true hx')
    rw [firstCovering, firstCovering, find?_append, hunique]
    cases hfind : (found m s.groups q).find? fun o => decide (x ∈ (partOf q o.objDesc).bb) with
    | some o => rfl
    | none =>
      refine find?_eq_none.2 fun o ho hx => ?_
      obtain ⟨-, hcells⟩ := hcovered o ho q hq (hmatch o ho)
      obtain ⟨o', hin, hmatch', hx'⟩ := hcells x (of_decide_eq_true hx)
      exact find?_eq_none.1 hfind o' (s.mem_found_iff.2 ⟨hin, hmatch'⟩) (decide_eq_true hx')
  rw [localAnswer_eq, localAnswer_eq, found_append, s.found_reverse, hfirst, append_nil]
  simp only [hnil]

theorem roundTrip_of_restorable {others : List (NodeClient m)} (h : Restorable s.groups others)
    (afters : Nat → CrGroupInfo → List UInt8) : RoundTrip m s.groups
      (dimesClientShmemRestartStorage m cid after (dimesClientShmemCheckpointStorage m s.groups))
      (restartIndex m afters others) := by
  rw [s.restartStorage_eq_reverse after h.name_fits h.nonempty h.inShmem]
  have hanswer : ∀ q, CornersCleared q → localAnswer m (s.groups.map reversed).reverse
      (restartIndex m afters others) q = localAnswer m s.groups [] q := by
    refine fun q hq => s.localAnswer_reverse h hq fun o ho => ?_
    obtain ⟨other, hother, hin, -⟩ := mem_found_restartIndex.1 ho
    exact h.covered other hother o hin
  refine ⟨fun name => ?_, fun g hg g' hg' hname version => ?_, hanswer,
    fun G od contents hq hfinds x hx r hr => ?_⟩
  · simp only [mem_reverse, mem_map, exists_exists_and_eq_and]
    rfl
  · obtain ⟨p, hp, rfl⟩ := mem_map.1 (mem_reverse.1 hg')
    cases s.group_eq_of_name hp hg hname
    rw [ofVersion, reversed, filter_reverse, ← ofVersion]
    exact reverse_eq_self_of_length_le_one (h.single g hg version)
  · have hbefore : FindsArray G (s.groups ++ []) od.objDesc := by
      intro g hg
      exact hfinds g (mem_append_left _ (by simpa using hg))
    have hafter :
        FindsArray G ((s.groups.map reversed).reverse ++ restartIndex m afters others) od.objDesc := by
      intro g hg i o ho
      rcases mem_append.1 hg with hg | hg
      · obtain ⟨p, hp, rfl⟩ := mem_map.1 (mem_reverse.1 hg)
        exact hfinds p (mem_append_left _ hp) i o (mem_reverse.1 ho)
      · exact hfinds g (mem_append_right _ hg) i o ho
    rw [cellByte_dimesObjGetLocal hafter contents hx hr, cellByte_dimesObjGetLocal hbefore contents hx hr,
      hanswer _ hq]

/-- Every group comes back, under its name and with its objects. -/
theorem restoredGroup_of_roundTrip {s : ClientStorage m cid} {after : CrGroupInfo → List UInt8}
    (h : RoundTrip m s.groups
      (dimesClientShmemRestartStorage m cid after (dimesClientShmemCheckpointStorage m s.groups)) index)
    {g : StorageGroup} (hg : g ∈ s.groups) :
    (g.objects m).filter (fun o => o.memType.inShmem) ≠ [] ∧ restoredName m after g = g.name ∧
      ∀ version,
        ((ofVersion m version g).filter fun o => o.memType.inShmem).reverse = ofVersion m version g := by
  obtain ⟨p, hp, hpname⟩ := (h.groups g.name).2 ⟨g, hg, rfl⟩
  have hversions := h.objects g hg p hp hpname
  rw [s.restartStorage_eq, mem_reverse, mem_filterMap] at hp
  obtain ⟨g', hg', hrestored⟩ := hp
  rw [restoredGroup] at hrestored
  split at hrestored
  · cases hrestored
  · next hne =>
    cases hrestored
    -- A restored name says which group it was.
    have hsame : g' = g := by
      refine s.group_eq_of_name hg' hg ?_
      rw [← take_restoredName (m := m) after (s.name_ne_zero g' hg') (s.name_length g' hg')]
      exact (congrArg (take 256) hpname).trans (take_of_length_le (s.name_length g hg))
    subst hsame
    refine ⟨hne, hpname, fun version => ?_⟩
    refine Eq.trans ?_ (hversions version)
    simp only [ofVersion, filter_reverse, filter_filter, Bool.and_comm]

section Converse

variable {s} {q : ObjDescriptor}
  (h : localAnswer m (s.groups.map reversed).reverse index q = localAnswer m s.groups [] q)

include h

/-- If an answer stays the same, the cells of the query come from the same objects. -/
theorem firstCovering_of_answer_eq (hfound : (found m s.groups q).reverse ++ found m index q ≠ []) :
    found m s.groups q ≠ [] ∧ firstCovering ((found m s.groups q).reverse ++ found m index q) q =
      firstCovering (found m s.groups q) q := by
  rw [localAnswer_eq, localAnswer_eq, found_append, s.found_reverse, if_neg hfound, append_nil] at h
  by_cases hown : found m s.groups q = []
  · rw [if_pos hown] at h
    cases h
  · rw [if_neg hown] at h
    exact ⟨hown, Option.some.inj h⟩

/-- The storage is reversed, so a cell comes from the last object that covers it. -/
theorem eq_of_answer_eq (hnodup : (found m s.groups q).Nodup) {o o' : CrMemObjInfo} {x : Coord}
    (ho : o ∈ found m s.groups q) (ho' : o' ∈ found m s.groups q) (hx : x ∈ (partOf q o.objDesc).bb)
    (hx' : x ∈ (partOf q o'.objDesc).bb) : o = o' := by
  have hfind := congrFun (firstCovering_of_answer_eq h (by simp [ne_nil_of_mem ho])).2 x
  rw [firstCovering, firstCovering, find?_append, Option.or_of_isSome
    (find?_isSome.2 ⟨o, mem_reverse.2 ho, decide_eq_true hx⟩)] at hfind
  exact unique_of_find?_reverse hnodup hfind ho ho' (decide_eq_true hx) (decide_eq_true hx')

/-- What the index has for the query is in the storage as well. -/
theorem covered_of_answer_eq {o : CrMemObjInfo} (ho : o ∈ found m index q) :
    (∃ o' ∈ objectsOf m s.groups, objDescEqualsIntersect o'.objDesc q = true) ∧
      ∀ x ∈ (partOf q o.objDesc).bb, ∃ o' ∈ objectsOf m s.groups, Copied q x o' := by
  obtain ⟨hown, hfirst⟩ := firstCovering_of_answer_eq h (by simp [ne_nil_of_mem ho])
  obtain ⟨o', ho'⟩ := exists_mem_of_ne_nil _ hown
  refine ⟨⟨o', s.mem_found_iff.1 ho'⟩, fun x hx => ?_⟩
  have hsome : (firstCovering ((found m s.groups q).reverse ++ found m index q) q x).isSome :=
    find?_isSome.2 ⟨o, mem_append_right _ ho, decide_eq_true hx⟩
  rw [hfirst, firstCovering, find?_isSome] at hsome
  obtain ⟨o', ho', hx'⟩ := hsome
  obtain ⟨hin, hmatch'⟩ := s.mem_found_iff.1 ho'
  exact ⟨o', hin, hmatch', of_decide_eq_true hx'⟩

end Converse

theorem restorable_of_roundTrip {s : ClientStorage m cid} {after : CrGroupInfo → List UInt8}
    {others : List (NodeClient m)} {afters : Nat → CrGroupInfo → List UInt8} (h : RoundTrip m s.groups
      (dimesClientShmemRestartStorage m cid after (dimesClientShmemCheckpointStorage m s.groups))
      (restartIndex m afters others)) : Restorable s.groups others := by
  have hgroups := fun g (hg : g ∈ s.groups) => restoredGroup_of_roundTrip h hg
  have hnames : ∀ g ∈ s.groups, g.name.length < 256 ∨ (g.objects m).length % 256 = 0 := fun g hg =>
    (restoredName_eq_iff after (s.name_ne_zero g hg) (s.name_length g hg)).1 (hgroups g hg).2.1
  have hnonempty : ∀ g ∈ s.groups, g.objects m ≠ [] := by
    intro g hg hnil
    refine (hgroups g hg).1 ?_
    rw [hnil]
    rfl
  have hshmem : ∀ o ∈ objectsOf m s.groups, o.memType.inShmem = true := by
    intro o ho
    obtain ⟨g, hg, ho⟩ := mem_flatMap.1 ho
    have hof := (s.mem_ofVersion hg).2 ⟨ho, rfl⟩
    rw [← (hgroups g hg).2.2, mem_reverse] at hof
    exact (mem_filter.1 hof).2
  have hnodup := s.nodup_objectsOf hshmem
  have hsingle : ∀ g ∈ s.groups, ∀ version, (ofVersion m version g).length ≤ 1 := by
    intro g hg version
    have hrev := (hgroups g hg).2.2 version
    rw [filter_eq_self.2 fun o ho => hshmem o (mem_flatMap.2 ⟨g, hg, ((s.mem_ofVersion hg).1 ho).1⟩)] at hrev
    refine length_le_one_of_head?_reverse ?_ (by rw [hrev])
    exact (((nodup_flatMap.1 hnodup).1 g hg).sublist (sublist_objects s.maxVersions_pos version g)).filter _
  have hanswer := h.answers
  rw [s.restartStorage_eq_reverse after hnames hnonempty hshmem] at hanswer
  refine ⟨hnames, hnonempty, hshmem, hsingle, fun g hg g' hg' hne o ho o' ho' => ?_,
    fun other hother o ho q hq hmatch =>
      covered_of_answer_eq (hanswer q hq) (mem_found_restartIndex.2 ⟨other, hother, ho, hmatch⟩)⟩
  rintro ⟨q, x, hq, ⟨hmatch, hx⟩, hmatch', hx'⟩
  have hfound : (found m s.groups q).Nodup := by
    refine (hnodup.sublist ?_).filter _
    exact Sublist.flatMap_right _ fun g _ => sublist_objects s.maxVersions_pos q.version g
  have heq : o = o' := eq_of_answer_eq (hanswer q hq) hfound
    (s.mem_found_iff.2 ⟨mem_flatMap.2 ⟨g, hg, ho⟩, hmatch⟩)
    (s.mem_found_iff.2 ⟨mem_flatMap.2 ⟨g', hg', ho'⟩, hmatch'⟩) hx hx'
  subst heq
  -- One object is not in the lists of two groups.
  have hsymm : Std.Symm (onFun List.Disjoint fun g : StorageGroup => g.objects m) := ⟨fun _ _ hd => hd.symm⟩
  exact (nodup_flatMap.1 hnodup).2.forall hg hg' (fun heq => hne (by rw [heq])) ho ho'

end ClientStorage

/-- For every storage of a client and of the other clients of its node, checkpoint and restart give the same
storage back if and only if the condition holds. -/
theorem storage_roundTrip_iff {m cid : Nat} (s : ClientStorage m cid) (others : List (NodeClient m))
    (after : Nat → CrGroupInfo → List UInt8) :
    RoundTrip m s.groups
        (dimesClientShmemRestartStorage m cid (after cid) (dimesClientShmemCheckpointStorage m s.groups))
        (restartIndex m after others) ↔
      Restorable s.groups others :=
  ⟨ClientStorage.restorable_of_roundTrip, fun h => s.roundTrip_of_restorable (after cid) h after⟩

/-- Ten bytes of version 1 of a variable, at a place of the shared memory. -/
def tenBytesAt (offset : Nat) : CrMemObjInfo where
  objDesc := ⟨"v", .columnMajor, 7, 1, ⟨1, fun _ => 0, fun i => if i = 0 then 9 else 0⟩, 1⟩
  gdim := ⟨1, fun _ => 10⟩
  size := 10
  offset := offset
  memType := .shmemRdma

/-- Client 7 has put the ten bytes twice into one group. -/
def putTwice : ClientStorage 1 7 where
  groups := [⟨[103], fun i => if i = 0 then [tenBytesAt 16, tenBytesAt 0] else []⟩]
  maxVersions_pos := le_rfl
  nodup := by decide
  name_length := by decide
  name_ne_zero := by simp
  placed := by
    intro g hg i o ho
    rw [mem_singleton] at hg
    subst hg
    by_cases hi : i = 0
    · simp [unsignedIdx, Nat.mod_one, hi]
    · simp [hi] at ho
  owned := by decide
  apart := by decide

/-- After a restart a query gets the bytes of the first put, where it got those of the second one before. A
name of 256 bytes comes back with another byte, the number of the objects of the group. A client of the node
that has put nothing gets an answer, where it got an error before. -/
theorem restart_reverses : ¬ RoundTrip 1 putTwice.groups
      (dimesClientShmemRestartStorage 1 7 (fun _ => []) (dimesClientShmemCheckpointStorage 1 putTwice.groups))
      (restartIndex 1 (fun _ _ => []) []) ∧
    (localAnswer 1 putTwice.groups [] (tenBytesAt 0).objDesc).map
      (fun answer => (answer fun _ => 3).map CrMemObjInfo.offset) = some (some 16) ∧
    (localAnswer 1 (dimesClientShmemRestartStorage 1 7 (fun _ => [])
        (dimesClientShmemCheckpointStorage 1 putTwice.groups)) [] (tenBytesAt 0).objDesc).map
      (fun answer => (answer fun _ => 3).map CrMemObjInfo.offset) = some (some 0) ∧
    restoredName 1 (fun _ => []) ⟨replicate 256 103, fun i => if i = 0 then [tenBytesAt 0] else []⟩ ≠
      replicate 256 103 ∧
    (localAnswer 1 [] [] (tenBytesAt 0).objDesc).isNone ∧
    (localAnswer 1 [] (restartIndex 1 (fun _ _ => []) [⟨7, putTwice⟩]) (tenBytesAt 0).objDesc).isSome := by
  refine ⟨?_, by decide, by decide, ?_, by decide, by decide⟩
  · intro h
    have hcorners : CornersCleared (tenBytesAt 0).objDesc := fun i hi => ⟨rfl, if_neg (Nat.ne_of_gt hi)⟩
    have hanswer := h.answers (tenBytesAt 0).objDesc hcorners
    have hoffset := congrArg (Option.map fun answer => (answer fun _ => 3).map CrMemObjInfo.offset) hanswer
    exact absurd hoffset (by decide)
  · intro hname
    have hzero : ∀ c ∈ replicate 256 (103 : UInt8), c ≠ 0 := by
      intro c hc
      rw [eq_of_mem_replicate hc]
      decide
    have hlen : (replicate 256 (103 : UInt8)).length = 256 := length_replicate
    rcases (restoredName_eq_iff (fun _ => []) hzero hlen.le).1 hname with hlt | hmod
    · exact absurd hlt (by rw [hlen]; decide)
    · exact absurd hmod (by decide)

end DataSpaces.Dimes.Cr
