import DataSpaces.Geometry.Bbox
import DataSpaces.Lib.MatchList

/-!
# Descriptor tables and object stores

The two tables of a server: the object store `ss_storage`, which holds the data of the objects put to
the server, and the descriptor table of its DHT entry, which says where objects are. Both are arrays
of lists, and an item lives in the list at its version modulo the size of the array (`max_versions`).

A new item displaces the first item of its list with the same name whose box passes the intersection
test, whatever the version. The store unlinks that item and puts the new one in front (`lsAddObj`);
the descriptor table overwrites it in place (`dhtAddEntry`), except for the version `(unsigned) -1`,
which `dht_find_match` refuses to look up. `lsAddObj_objHash` and `dhtAddEntry_odscHash` state this in
terms of the two policies of `Lib.MatchList`.
-/

namespace DataSpaces.Store

open Lib Geometry List Function

/-! ## Object descriptors -/

inductive StorageType where
  | rowMajor
  | columnMajor
deriving DecidableEq, Repr

/-- `struct obj_descriptor`. The owner is the rank of a server; the `-1` of a client request is never
read. -/
structure ObjDescriptor where
  name : String
  st : StorageType
  owner : Nat
  version : UInt32
  bb : Bbox
  size : Nat

/-- Same owner and same box. -/
def objDescEquals (odsc1 odsc2 : ObjDescriptor) : Bool :=
  decide (odsc1.owner = odsc2.owner) && bboxEquals odsc1.bb odsc2.bb

/-- Same name and version, and the boxes intersect. -/
def objDescEqualsIntersect (odsc1 odsc2 : ObjDescriptor) : Bool :=
  decide (odsc1.name = odsc2.name) && decide (odsc1.version = odsc2.version) &&
    bboxDoesIntersect odsc1.bb odsc2.bb

/-- Same name, and the boxes intersect. -/
def objDescByNameIntersect (odsc1 odsc2 : ObjDescriptor) : Bool :=
  decide (odsc1.name = odsc2.name) && bboxDoesIntersect odsc1.bb odsc2.bb

/-- Memory contents by byte offset; `none` is a byte that was never written. -/
abbrev Mem := Nat → Option UInt8

/-- `struct obj_data`, without the flag `f_free`, which nothing reads. -/
structure ObjData where
  objDesc : ObjDescriptor
  data : Mem
  refcnt : Nat

/-- Number of bytes of an object, in unsigned 64-bit arithmetic. -/
def objDataSize (odsc : ObjDescriptor) : Nat := odsc.size * bboxVolume odsc.bb % 2 ^ 64

/-- `obj_data_alloc` clears the structure, so the reference count is `0`; the data is not cleared. -/
def objDataAlloc (odsc : ObjDescriptor) : ObjData := ⟨odsc, fun _ => none, 0⟩

/-! ## The object store -/

/-- `struct ss_storage`. -/
structure SsStorage where
  numObj : Int
  sizeHash : Nat
  objHash : Nat → List ObjData

def lsAlloc (maxVersions : Nat) : SsStorage := ⟨0, maxVersions, fun _ => []⟩

/-- The index of the list for a version. -/
def SsStorage.index (ls : SsStorage) (version : UInt32) : Nat := version.toNat % ls.sizeHash

/-- The first object in the list of `odsc` with its name and an intersecting box, of any version. -/
def lsFindNoVersion (ls : SsStorage) (odsc : ObjDescriptor) : Option ObjData :=
  (ls.objHash (ls.index odsc.version)).find? fun od => objDescByNameIntersect odsc od.objDesc

/-- `ls_remove` of the object that `ls_find_no_version` found. -/
def lsRemoveNoVersion (ls : SsStorage) (odsc : ObjDescriptor) : SsStorage :=
  let index := ls.index odsc.version
  { ls with
    numObj := ls.numObj - 1
    objHash := update ls.objHash index
      ((ls.objHash index).eraseP fun od => objDescByNameIntersect odsc od.objDesc) }

/-- Add an object; an existing object that it displaces is kept while it is referenced. -/
def lsAddObj (ls : SsStorage) (od : ObjData) : SsStorage :=
  let ls' := match lsFindNoVersion ls od.objDesc with
    | some odExisting => if odExisting.refcnt = 0 then lsRemoveNoVersion ls od.objDesc else ls
    | none => ls
  let index := ls'.index od.objDesc.version
  -- The new object comes first in the list.
  { ls' with
    numObj := ls'.numObj + 1
    objHash := update ls'.objHash index (od :: ls'.objHash index) }

/-- The first object with the name and version of `odsc` and an intersecting box. -/
def lsFind (ls : SsStorage) (odsc : ObjDescriptor) : Option ObjData :=
  (ls.objHash (ls.index odsc.version)).find? fun od => objDescEqualsIntersect odsc od.objDesc

/-- The test of `dsgrpc_remove_service`. -/
def removeMatches (name : String) (version : UInt32) (od : ObjData) : Bool :=
  decide (od.objDesc.version = version) && decide (od.objDesc.name = name)

/-- Unlink the objects with the given name and version from list number `i`. -/
def lsRemoveFrom (name : String) (version : UInt32) (ls : SsStorage) (i : Nat) : SsStorage :=
  let keep := (ls.objHash i).filter fun od => !removeMatches name version od
  { ls with
    numObj := ls.numObj - ((ls.objHash i).length - keep.length : Nat)
    objHash := update ls.objHash i keep }

/-- The loop of `dsgrpc_remove_service` over all lists. -/
def lsRemoveAll (ls : SsStorage) (name : String) (version : UInt32) : SsStorage :=
  (range ls.sizeHash).foldl (lsRemoveFrom name version) ls

/-! ## The descriptor table -/

/-- The descriptor table of a `struct dht_entry`. -/
structure OdscTable where
  odscSize : Nat
  odscNum : Nat
  odscHash : Nat → List ObjDescriptor

def odscTableAlloc (maxVersions : Nat) : OdscTable := ⟨maxVersions, 0, fun _ => []⟩

def OdscTable.index (de : OdscTable) (version : UInt32) : Nat := version.toNat % de.odscSize

/-- The version `(unsigned int) -1`, which the source takes for one that is not set. -/
def versionUnset : UInt32 := 0xFFFFFFFF

/-- The first descriptor in the list of `odsc` with its name and an intersecting box. -/
def dhtFindMatch (de : OdscTable) (odsc : ObjDescriptor) : Option ObjDescriptor :=
  if odsc.version = versionUnset then none
  else (de.odscHash (de.index odsc.version)).find? fun odscl => objDescByNameIntersect odsc odscl

/-- Add a descriptor; one that it matches is overwritten in place. -/
def dhtAddEntry (de : OdscTable) (odsc : ObjDescriptor) : OdscTable :=
  let n := de.index odsc.version
  match dhtFindMatch de odsc with
  -- The first descriptor of the name that meets the new one is overwritten, whatever its version.
  | some _ =>
    { de with
      odscHash := update de.odscHash n
        (overwriteFirst (fun odscl => objDescByNameIntersect odsc odscl) odsc (de.odscHash n)) }
  | none =>
    { de with
      odscNum := de.odscNum + 1
      odscHash := update de.odscHash n (odsc :: de.odscHash n) }

/-- All descriptors with the name and version of the query and an intersecting box. -/
def dhtFindEntryAll (de : OdscTable) (qOdsc : ObjDescriptor) : List ObjDescriptor :=
  (de.odscHash (de.index qOdsc.version)).filter fun odscl => objDescEqualsIntersect odscl qOdsc

/-- The versions that match a query by name and box: the first match of every list. -/
def dhtFindVersions (de : OdscTable) (qOdsc : ObjDescriptor) : List UInt32 :=
  (range de.odscSize).filterMap fun i =>
    ((de.odscHash i).find? fun odscl => objDescByNameIntersect odscl qOdsc).map (·.version)

/-! ## Servers -/

/-- The two tables of a server. -/
structure DsServer where
  ls : SsStorage
  entSelf : OdscTable

def dsServerAlloc (maxVersions : Nat) : DsServer := ⟨lsAlloc maxVersions, odscTableAlloc maxVersions⟩

/-- A put to a server that is itself the DHT entry of the box: `obj_put_update_dht` adds the descriptor
and `obj_put_completion` the object. -/
def DsServer.put (srv : DsServer) (od : ObjData) : DsServer :=
  ⟨lsAddObj srv.ls od, dhtAddEntry srv.entSelf od.objDesc⟩

/-- A sequence of puts to a fresh server. -/
def putRun (maxVersions : Nat) (puts : List ObjData) : DsServer :=
  puts.foldl DsServer.put (dsServerAlloc maxVersions)

/-! ## The tests -/

variable {o1 o2 q : ObjDescriptor} {ls : SsStorage} {i : Nat}

theorem objDescEquals_iff :
    objDescEquals o1 o2 = true ↔ o1.owner = o2.owner ∧ bboxEquals o1.bb o2.bb = true := by
  simp [objDescEquals]

theorem objDescEqualsIntersect_iff : objDescEqualsIntersect o1 o2 = true ↔
      o1.name = o2.name ∧ o1.version = o2.version ∧ bboxDoesIntersect o1.bb o2.bb = true := by
  simp [objDescEqualsIntersect, and_assoc]

theorem objDescByNameIntersect_iff :
    objDescByNameIntersect o1 o2 = true ↔ o1.name = o2.name ∧ bboxDoesIntersect o1.bb o2.bb = true := by
  simp [objDescByNameIntersect]

/-! ## Look-ups -/

variable {od e : ObjData}

theorem lsFind_some (h : lsFind ls q = some od) :
    od ∈ ls.objHash (ls.index q.version) ∧ objDescEqualsIntersect q od.objDesc = true :=
  ⟨mem_of_find?_eq_some h, by simpa using find?_some h⟩

theorem lsFind_isSome_iff : (lsFind ls q).isSome = true ↔
      ∃ od ∈ ls.objHash (ls.index q.version), objDescEqualsIntersect q od.objDesc = true := by
  rw [lsFind, find?_isSome]

theorem mem_dhtFindEntryAll {de : OdscTable} {o : ObjDescriptor} : o ∈ dhtFindEntryAll de q ↔
      o ∈ de.odscHash (de.index q.version) ∧ objDescEqualsIntersect o q = true := mem_filter

/-! ## What the operations do to the lists -/

variable (m : Nat) (de : OdscTable) (odsc : ObjDescriptor)

@[simp] theorem lsAlloc_objHash (i : Nat) : (lsAlloc m).objHash i = [] := rfl

@[simp] theorem lsAlloc_sizeHash : (lsAlloc m).sizeHash = m := rfl

@[simp] theorem odscTableAlloc_odscHash (i : Nat) : (odscTableAlloc m).odscHash i = [] := rfl

@[simp] theorem odscTableAlloc_odscSize : (odscTableAlloc m).odscSize = m := rfl

@[simp] theorem lsAddObj_sizeHash (ls : SsStorage) (od : ObjData) :
    (lsAddObj ls od).sizeHash = ls.sizeHash := by
  unfold lsAddObj
  cases lsFindNoVersion ls od.objDesc with
  | none => rfl
  | some odExisting =>
    simp only
    split
    · rfl
    · rfl

@[simp] theorem dhtAddEntry_odscSize :
    (dhtAddEntry de odsc).odscSize = de.odscSize := by
  unfold dhtAddEntry
  cases dhtFindMatch de odsc with
  | none => rfl
  | some _ => rfl

/-- Without references to stored objects, adding one evicts the first match and prepends. -/
theorem lsAddObj_objHash (ls : SsStorage) (od : ObjData)
    (hr : ∀ e ∈ ls.objHash (ls.index od.objDesc.version), e.refcnt = 0) :
    (lsAddObj ls od).objHash = update ls.objHash (ls.index od.objDesc.version)
      (evictCons (fun e => objDescByNameIntersect od.objDesc e.objDesc) od
        (ls.objHash (ls.index od.objDesc.version))) := by
  unfold lsAddObj evictCons
  cases hf : lsFindNoVersion ls od.objDesc with
  | none =>
    have hnone : ∀ e ∈ ls.objHash (ls.index od.objDesc.version),
        ¬ objDescByNameIntersect od.objDesc e.objDesc = true := find?_eq_none.1 hf
    rw [eraseP_of_forall_not hnone]
  | some e =>
    have hzero : e.refcnt = 0 := hr e (mem_of_find?_eq_some hf)
    simp only [hzero, if_true, lsRemoveNoVersion, SsStorage.index, update_idem, update_self]

theorem mem_lsRemoveNoVersion {odsc : ObjDescriptor}
    (h : e ∈ (lsRemoveNoVersion ls odsc).objHash i) : e ∈ ls.objHash i := by
  simp only [lsRemoveNoVersion, update_apply] at h
  split at h
  · next hi => exact hi ▸ mem_of_mem_eraseP h
  · exact h

/-- The new object is in the list of its version, and the others were there before. -/
theorem mem_lsAddObj (h : e ∈ (lsAddObj ls od).objHash i) :
    (e = od ∧ i = ls.index od.objDesc.version) ∨ e ∈ ls.objHash i := by
  unfold lsAddObj at h
  cases hfind : lsFindNoVersion ls od.objDesc with
  | none =>
    rw [hfind] at h
    exact mem_update_cons.1 h
  | some odExisting =>
    rw [hfind] at h
    simp only at h
    split at h
    · exact (mem_update_cons.1 h).imp_right mem_lsRemoveNoVersion
    · exact mem_update_cons.1 h

/-- Adding a descriptor upserts it, except for the unset version, which is always prepended. -/
theorem dhtAddEntry_odscHash :
    (dhtAddEntry de odsc).odscHash = update de.odscHash (de.index odsc.version)
      (if odsc.version = versionUnset then odsc :: de.odscHash (de.index odsc.version)
        else upsert (fun o => objDescByNameIntersect odsc o) odsc (de.odscHash (de.index odsc.version))) := by
  unfold dhtAddEntry dhtFindMatch upsert
  by_cases hv : odsc.version = versionUnset
  · simp only [hv, if_true]
  · simp only [hv, if_false]
    cases hf : (de.odscHash (de.index odsc.version)).find?
        fun odscl => objDescByNameIntersect odsc odscl with
    | none =>
      have hany : ((de.odscHash (de.index odsc.version)).any
          fun o => objDescByNameIntersect odsc o) = false := by
        rw [any_eq_false]
        exact find?_eq_none.1 hf
      simp only [hany, Bool.false_eq_true, if_false]
    | some e =>
      have hany : ((de.odscHash (de.index odsc.version)).any fun o => objDescByNameIntersect odsc o) = true :=
        any_eq_true.2 ⟨e, mem_of_find?_eq_some hf, find?_some hf⟩
      simp only [hany, if_true]

@[simp] theorem lsRemoveAll_sizeHash (ls : SsStorage) (name : String) (version : UInt32) :
    (lsRemoveAll ls name version).sizeHash = ls.sizeHash := by
  unfold lsRemoveAll
  induction range ls.sizeHash using reverseRecOn with
  | nil => rfl
  | append_singleton l i ih =>
    rw [foldl_append]
    exact ih

/-- A removal keeps exactly the objects of the table with another name or version. -/
theorem lsRemoveAll_objHash (ls : SsStorage) (name : String) (version : UInt32) (hi : i < ls.sizeHash) :
    (lsRemoveAll ls name version).objHash i =
      (ls.objHash i).filter fun od => !removeMatches name version od := by
  -- After `n` rounds the lists below `n` are filtered and the others are as before.
  have hrounds : ∀ n, ∀ j, ((range n).foldl (lsRemoveFrom name version) ls).objHash j =
      if j < n then (ls.objHash j).filter fun od => !removeMatches name version od
      else ls.objHash j := by
    intro n
    induction n with
    | zero => intro j; simp
    | succ n ih =>
      intro j
      rw [range_succ, foldl_append, foldl_cons, foldl_nil]
      simp only [lsRemoveFrom, update_apply]
      by_cases hj : j = n
      · subst hj
        rw [if_pos rfl, ih, if_neg (Nat.lt_irrefl j), if_pos (Nat.lt_succ_self j)]
      · rw [if_neg hj, ih]
        by_cases hlt : j < n
        · rw [if_pos hlt, if_pos (Nat.lt_succ_of_lt hlt)]
        · rw [if_neg hlt, if_neg (by omega)]
  rw [lsRemoveAll, hrounds, if_pos hi]

/-- A removal that finds nothing changes nothing. -/
theorem lsRemoveAll_eq_self {name : String} {version : UInt32}
    (h : ∀ i < ls.sizeHash, ∀ od ∈ ls.objHash i, removeMatches name version od = false) :
    lsRemoveAll ls name version = ls := by
  have hround : ∀ l : List Nat, (∀ i ∈ l, i < ls.sizeHash) → l.foldl (lsRemoveFrom name version) ls = ls := by
    intro l
    induction l with
    | nil => intro _; rfl
    | cons i l ih =>
      intro hl
      have hkeep : ((ls.objHash i).filter fun od => !removeMatches name version od) = ls.objHash i := by
        rw [filter_eq_self]
        intro od hod
        rw [h i (hl i mem_cons_self) od hod]
        rfl
      have hsame : lsRemoveFrom name version ls i = ls := by
        simp only [lsRemoveFrom, hkeep, Nat.sub_self, Nat.cast_zero, Int.sub_zero, update_eq_self]
      rw [foldl_cons, hsame]
      exact ih fun j hj => hl j (mem_cons_of_mem _ hj)
  exact hround _ fun i hi => mem_range.1 hi

end DataSpaces.Store
