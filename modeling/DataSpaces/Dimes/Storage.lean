import DataSpaces.Dimes.Bins

/-!
# The memory objects of a DIMES client

A client keeps what it put in groups, and in each group in an array of `max_versions` lists. All functions
compute the index of a list from the version, some of them from an `unsigned int` and one,
`storage_lookup_obj`, from an `int`; freeing and checkpointing go through all lists.

`binsConsistent_iff` says for which versions the indices agree, here and at the servers: all below `2 ^ 31`,
and above it only multiples of a `max_versions` that is a power of two. A client finds an object of its own
again in the same cases (`isSome_storageLookupObj_storageAddObj`).
-/

namespace DataSpaces.Dimes

open Lib Store List

/-! ## Indices -/

/-- `version % max_versions` for an `unsigned int` version, as in `storage_add_obj`,
`restart_storage_insert_mem_obj`, `node_local_obj_index_insert_mem_obj` and `local_search_group_list`. -/
def unsignedIdx (maxVersions : Nat) (version : UInt32) : Int := ((version.toNat % maxVersions : Nat) : Int)

/-- `version % max_versions` for an `int` version, as in `storage_lookup_obj` and
`obj_location_list_lookup`. -/
def signedIdx (maxVersions : Nat) (version : UInt32) : Int := version.toInt32.toInt.tmod maxVersions

/-- The indices of a loop over all lists. -/
def allIdx (maxVersions : Nat) : List Int := (range maxVersions).map fun i : Nat => (i : Int)

/-! ## The source -/

/-- `enum dart_memory_type`. -/
inductive DartMemoryType where
  | nonRdma
  | rdma
  | shmemNonRdma
  | shmemRdma
deriving DecidableEq, Repr

/-- The types of objects in the shared memory segment of the client. -/
def DartMemoryType.inShmem : DartMemoryType → Bool
  | .shmemNonRdma | .shmemRdma => true
  | .nonRdma | .rdma => false

/-- `use_rdma_memory`. -/
def DartMemoryType.useRdmaMemory : DartMemoryType → Bool
  | .rdma | .shmemRdma => true
  | .nonRdma | .shmemNonRdma => false

/-- `struct dimes_memory_obj`, without the place of the data. -/
structure DimesMemoryObj where
  objId : DimesObjId
  objDesc : ObjDescriptor

/-- `struct dimes_storage_group`, with any type of names and of objects. -/
structure DimesStorageGroup (ν μ : Type) where
  name : ν
  versionTab : Int → List μ

section

variable {ν μ : Type} [DecidableEq ν]

/-- A new group. -/
def DimesStorageGroup.empty (name : ν) : DimesStorageGroup ν μ := ⟨name, fun _ => []⟩

def DimesStorageGroup.memObjListAdd (p : DimesStorageGroup ν μ) (tabIdx : Int) (memObj : μ) :
    DimesStorageGroup ν μ :=
  { p with versionTab := Function.update p.versionTab tabIdx (memObj :: p.versionTab tabIdx) }

def storageLookupGroup (storage : List (DimesStorageGroup ν μ)) (groupName : ν) :
    Option (DimesStorageGroup ν μ) :=
  storage.find? fun p => p.name = groupName

/-- Add an object to a group, which is created in front if there is none. -/
def insertMemObj (maxVersions : Nat) (version : μ → UInt32) (groupName : ν)
    (storage : List (DimesStorageGroup ν μ)) (memObj : μ) : List (DimesStorageGroup ν μ) :=
  let p := (storageLookupGroup storage groupName).getD (.empty groupName)
  upsert (fun p => p.name = groupName)
    (p.memObjListAdd (unsignedIdx maxVersions (version memObj)) memObj) storage

end

/-- Add an object to the current group. -/
def storageAddObj (maxVersions : Nat) (storage : List (DimesStorageGroup String DimesMemoryObj))
    (currentGroupName : String) (memObj : DimesMemoryObj) : List (DimesStorageGroup String DimesMemoryObj) :=
  insertMemObj maxVersions (fun memObj => memObj.objDesc.version) currentGroupName storage memObj

/-- Look for an object in the lists of its version; the version is an `int` here. -/
def storageLookupObj (maxVersions : Nat) (storage : List (DimesStorageGroup String DimesMemoryObj))
    (oid : DimesObjId) (version : UInt32) : Option DimesMemoryObj :=
  storage.findSome? fun p =>
    (p.versionTab (signedIdx maxVersions version)).find? fun memObj => memObj.objId = oid

/-- The objects of a group, list by list: those that `storage_free_group` frees and that
`dimes_client_shmem_checkpoint_storage` writes. -/
def DimesStorageGroup.objects {ν μ : Type} (maxVersions : Nat) (p : DimesStorageGroup ν μ) : List μ :=
  (allIdx maxVersions).flatMap p.versionTab

/-- Unlink a group. The objects that are freed are returned. -/
def putSyncGroup (maxVersions : Nat) (storage : List (DimesStorageGroup String DimesMemoryObj))
    (groupName : String) : List DimesMemoryObj × List (DimesStorageGroup String DimesMemoryObj) :=
  match storageLookupGroup storage groupName with
  | some p => (p.objects maxVersions, storage.eraseP fun p => p.name = groupName)
  | none => ([], storage)

/-! ## When the indices agree -/

/-- The list of a version is in the array, both at the servers and at the client, and it is the one that
is searched: by a query and by a look-up in the storage, by a search on the node, and by the loops that
free and checkpoint. -/
structure BinsConsistent (m : Nat) (version : UInt32) : Prop where
  location_isBin : IsBin m ((metadataSAlloc m).index version)
  object_isBin : IsBin m (unsignedIdx m version)
  lookup_eq : signedIdx m version = unsignedIdx m version
  swept : unsignedIdx m version ∈ allIdx m

variable {m : Nat} {i : Int}

theorem mem_allIdx : i ∈ allIdx m ↔ IsBin m i := by
  unfold allIdx IsBin
  simp only [mem_map, mem_range]
  constructor
  · rintro ⟨k, hk, rfl⟩
    omega
  · rintro ⟨h0, hlt⟩
    exact ⟨i.toNat, by omega, by omega⟩

theorem isBin_unsignedIdx (hm : 1 ≤ m) (version : UInt32) : IsBin m (unsignedIdx m version) :=
  ⟨Int.natCast_nonneg _, Int.ofNat_lt.2 (Nat.mod_lt _ hm)⟩

/-- For a version with its highest bit set both remainders have to be 0. -/
theorem signedIdx_eq_unsignedIdx_iff {version : UInt32} (h : 2 ^ 31 ≤ version.toNat) :
    signedIdx m version = unsignedIdx m version ↔ m ∣ 2 ^ 32 ∧ m ∣ version.toNat := by
  have hle : version.toNat ≤ 2 ^ 32 := version.toNat_lt.le
  have hsigned : signedIdx m version = -(((2 ^ 32 - version.toNat) % m : Nat) : Int) := index_eq_neg_mod m h
  have hzero : signedIdx m version = unsignedIdx m version ↔
      m ∣ 2 ^ 32 - version.toNat ∧ m ∣ version.toNat := by
    rw [hsigned, unsignedIdx, Nat.dvd_iff_mod_eq_zero, Nat.dvd_iff_mod_eq_zero]
    omega
  rw [hzero]
  refine and_congr_left fun hver => ?_
  exact Nat.dvd_sub_iff_left hle hver

/-- The indices agree and are in the array if and only if the version is below `2 ^ 31`, or it is a multiple
of `max_versions` and `max_versions` is a power of two. -/
theorem binsConsistent_iff {m : Nat} (hm : 1 ≤ m) (version : UInt32) : BinsConsistent m version ↔
      version.toNat < 2 ^ 31 ∨ (m ∣ 2 ^ 32 ∧ m ∣ version.toNat) := by
  have hobject := isBin_unsignedIdx hm version
  have hiff : BinsConsistent m version ↔
      IsBin m ((metadataSAlloc m).index version) ∧ signedIdx m version = unsignedIdx m version :=
    ⟨fun h => ⟨h.location_isBin, h.lookup_eq⟩, fun h => ⟨h.1, hobject, h.2, mem_allIdx.2 hobject⟩⟩
  rw [hiff, isBin_index_iff hm]
  by_cases h : version.toNat < 2 ^ 31
  · exact iff_of_true ⟨Or.inl h, index_eq_mod m h⟩ (Or.inl h)
  · rw [signedIdx_eq_unsignedIdx_iff (not_lt.1 h), or_iff_right h, or_iff_right h]
    refine ⟨fun hboth => hboth.2, fun hboth => ⟨?_, hboth⟩⟩
    exact Nat.dvd_sub hboth.1 hboth.2

/-- Version 5 with three lists, and version `2 ^ 31 + 4` with four. -/
theorem binsConsistent_five : BinsConsistent 3 5 ∧ BinsConsistent 4 0x80000004 :=
  ⟨(binsConsistent_iff (by decide) 5).2 (by decide), (binsConsistent_iff (by decide) 0x80000004).2 (by decide)⟩

/-- With ten lists an object of version `2 ^ 31 + 1` is added to list 9 and looked up in list `-7`, and so
are its locations. -/
theorem bins_differ : ¬ BinsConsistent 10 0x80000001 ∧ unsignedIdx 10 0x80000001 = 9 ∧
    signedIdx 10 0x80000001 = -7 ∧ (metadataSAlloc 10).index 0x80000001 = -7 := by
  refine ⟨fun h => absurd h.lookup_eq (by decide), by decide, by decide, by decide⟩

/-! ## What the functions find -/

section

variable {ν μ : Type} [DecidableEq ν] {storage : List (DimesStorageGroup ν μ)} {name : ν} {new memObj : μ}

/-- An object is in list `i` of a group. -/
def Stored (storage : List (DimesStorageGroup ν μ)) (i : Int) (memObj : μ) : Prop :=
  ∃ p ∈ storage, memObj ∈ p.versionTab i

omit [DecidableEq ν] in
theorem mem_memObjListAdd {p : DimesStorageGroup ν μ} {tabIdx : Int} :
    memObj ∈ (p.memObjListAdd tabIdx new).versionTab i ↔
      (memObj = new ∧ i = tabIdx) ∨ memObj ∈ p.versionTab i := mem_update_cons

/-- An insertion adds the object and keeps all others. -/
theorem stored_insertMemObj {version : μ → UInt32} :
    Stored (insertMemObj m version name storage new) i memObj ↔
      Stored storage i memObj ∨ (memObj = new ∧ i = unsignedIdx m (version new)) := by
  constructor
  · rintro ⟨p, hp, hmem⟩
    rcases mem_upsert.1 hp with rfl | hp
    · rcases mem_memObjListAdd.1 hmem with hnew | hmem
      · exact Or.inr hnew
      · cases hgroup : storageLookupGroup storage name with
        | none =>
          rw [hgroup] at hmem
          exact (not_mem_nil hmem).elim
        | some g =>
          rw [hgroup] at hmem
          exact Or.inl ⟨g, mem_of_find?_eq_some hgroup, hmem⟩
    · exact Or.inl ⟨p, mem_of_mem_eraseP hp, hmem⟩
  · rintro (⟨p, hp, hmem⟩ | hnew)
    · rcases mem_eraseP_or_find? hp with herase | hfind
      · exact ⟨p, mem_upsert.2 (Or.inr herase), hmem⟩
      · -- The group was replaced by one with its objects.
        refine ⟨_, mem_upsert.2 (Or.inl rfl), mem_memObjListAdd.2 (Or.inr ?_)⟩
        rw [storageLookupGroup, hfind]
        exact hmem
    · exact ⟨_, mem_upsert.2 (Or.inl rfl), mem_memObjListAdd.2 (Or.inl hnew)⟩

end

/-- The object of a new id is found again if and only if the two indices of its version agree. -/
theorem isSome_storageLookupObj_storageAddObj {storage : List (DimesStorageGroup String DimesMemoryObj)}
    {name : String} {new : DimesMemoryObj}
    (hnew : ∀ i memObj, Stored storage i memObj → memObj.objId ≠ new.objId) :
    (storageLookupObj m (storageAddObj m storage name new) new.objId new.objDesc.version).isSome = true ↔
      signedIdx m new.objDesc.version = unsignedIdx m new.objDesc.version := by
  have hlookup : (storageLookupObj m (storageAddObj m storage name new) new.objId
      new.objDesc.version).isSome = true ↔ ∃ memObj, Stored (storageAddObj m storage name new)
        (signedIdx m new.objDesc.version) memObj ∧ memObj.objId = new.objId := by
    simp only [storageLookupObj, Stored, findSome?_isSome_iff, find?_isSome, decide_eq_true_eq]
    constructor
    · rintro ⟨p, hp, memObj, hmem, hid⟩
      exact ⟨memObj, ⟨p, hp, hmem⟩, hid⟩
    · rintro ⟨memObj, ⟨p, hp, hmem⟩, hid⟩
      exact ⟨p, hp, memObj, hmem, hid⟩
  rw [hlookup]
  constructor
  · rintro ⟨memObj, hstored, hid⟩
    rcases stored_insertMemObj.1 hstored with hold | ⟨-, heq⟩
    · exact absurd hid (hnew _ memObj hold)
    · exact heq
  · intro heq
    exact ⟨new, stored_insertMemObj.2 (Or.inr ⟨rfl, heq⟩), rfl⟩

theorem putSyncGroup_snd (m : Nat) (storage : List (DimesStorageGroup String DimesMemoryObj)) (name : String) :
    (putSyncGroup m storage name).2 = storage.eraseP fun p => p.name = name := by
  unfold putSyncGroup
  split
  · rfl
  · next hfind => exact (eraseP_of_forall_not (find?_eq_none.1 hfind)).symm

end DataSpaces.Dimes
