import DataSpaces.Lib.Survivors
import DataSpaces.Store.Tables

/-!
# The metadata storage of a DIMES server

In DIMES the data stays with the client that put it; the servers only keep where it is. The locations
are in an array of `max_versions` lists, by version modulo `max_versions`. Each list has a node for every
variable, and the node has the list of locations (`dimes_data.c`). A new location displaces all those of
its variable in the same list of the array whose boxes it meets, of whatever version.

`mem_find_iff` says which locations a query returns after a sequence of additions: those that match it
and that no later addition with a congruent version meets. So `max_versions` is visible, and
`max_versions_irrelevant_iff` says when it is not.
-/

namespace DataSpaces.Dimes

open Lib Geometry Store List Function

/-! ## The source -/

/-- `struct dimes_obj_id`. -/
structure DimesObjId where
  dartId : Nat
  localObjIndex : Nat
deriving DecidableEq, Repr

/-- `struct hdr_dimes_put`, with what a reader needs of it: which object it is and its descriptor. The
owner is the client that has the data. -/
structure HdrDimesPut where
  objId : DimesObjId
  odsc : ObjDescriptor

/-- `struct var_list_node`. -/
structure VarListNode where
  name : String
  objLocationList : List HdrDimesPut

/-- `struct metadata_storage`. -/
structure MetadataStorage where
  maxVersions : Nat
  versionTab : Int → List VarListNode

def metadataSAlloc (maxVersions : Nat) : MetadataStorage := ⟨maxVersions, fun _ => []⟩

/-- The node of a variable, and the list with this node in it. -/
def varNodeLookup (varList : List VarListNode) (varName : String) : VarListNode × List VarListNode :=
  match varList.find? fun n => n.name = varName with
  | some n => (n, varList)
  | none => (⟨varName, []⟩, ⟨varName, []⟩ :: varList)

/-- The index of the list for a version. The version is passed as an `int`, and `%` truncates towards
zero: from version `2 ^ 31` on the index may be negative, which is outside of the array. -/
def MetadataStorage.index (s : MetadataStorage) (version : UInt32) : Int :=
  version.toInt32.toInt.tmod s.maxVersions

/-- The locations of a variable, and the storage with a node for it. -/
def objLocationListLookup (s : MetadataStorage) (version : UInt32) (varName : String) :
    List HdrDimesPut × MetadataStorage :=
  let index := s.index version
  let found := varNodeLookup (s.versionTab index) varName
  (found.1.objLocationList, { s with versionTab := update s.versionTab index found.2 })

/-- Change the list that `obj_location_list_lookup` found. -/
def MetadataStorage.setObjLocationList (s : MetadataStorage) (version : UInt32) (varName : String)
    (l : List HdrDimesPut) : MetadataStorage :=
  let index := s.index version
  { s with
    versionTab := update s.versionTab index
      (overwriteFirst (fun n => n.name = varName) ⟨varName, l⟩ (s.versionTab index)) }

/-- The test by which a new location displaces an old one. -/
def displaces (new old : HdrDimesPut) : Bool := objDescByNameIntersect new.odsc old.odsc

/-- Add a location; the ones of the variable that it meets are removed first. -/
def metadataSAddObjLocation (s : MetadataStorage) (cmd : HdrDimesPut) : MetadataStorage :=
  let found := objLocationListLookup s cmd.odsc.version cmd.odsc.name
  found.2.setObjLocationList cmd.odsc.version cmd.odsc.name (evictAll displaces found.1 cmd)

/-- The locations that match a query. Each one that is found is put in front of the result. -/
def metadataSFindObjLocation (s : MetadataStorage) (odsc : ObjDescriptor) :
    List HdrDimesPut × MetadataStorage :=
  let found := objLocationListLookup s odsc.version odsc.name
  ((found.1.filter fun n => objDescEqualsIntersect odsc n.odsc).reverse, found.2)

/-! ## Nodes -/

section

variable (varList : List VarListNode) (varName : String)

/-- The locations of a variable; without a node there are none. -/
def locationsIn : List HdrDimesPut :=
  match varList.find? fun n => n.name = varName with
  | some n => n.objLocationList
  | none => []

theorem varNodeLookup_fst : (varNodeLookup varList varName).1.objLocationList =
    locationsIn varList varName := by
  unfold varNodeLookup locationsIn
  split <;> rfl

/-- A new node has no locations. -/
theorem locationsIn_varNodeLookup (v : String) :
    locationsIn (varNodeLookup varList varName).2 v = locationsIn varList v := by
  unfold varNodeLookup
  split
  · rfl
  · next hnone =>
    unfold locationsIn
    by_cases hv : varName = v
    · subst hv
      simp [hnone]
    · simp [hv]

theorem any_varNodeLookup : ((varNodeLookup varList varName).2.any fun n => n.name = varName) = true := by
  unfold varNodeLookup
  split
  · next n hfind =>
    have hn := find?_some hfind
    exact any_eq_true.2 ⟨n, mem_of_find?_eq_some hfind, hn⟩
  · simp

variable {varList varName}

/-- Overwriting the node of one variable leaves the locations of the others. -/
theorem locationsIn_overwriteFirst (hany : (varList.any fun n => n.name = varName) = true)
    (l : List HdrDimesPut) (v : String) :
    locationsIn (overwriteFirst (fun n => n.name = varName) ⟨varName, l⟩ varList) v =
      if v = varName then l else locationsIn varList v := by
  induction varList with
  | nil => cases hany
  | cons n varList ih =>
    rw [overwriteFirst]
    by_cases hn : n.name = varName
    · rw [if_pos (by simpa using hn)]
      by_cases hv : v = varName
      · simp [locationsIn, hv]
      · simp [locationsIn, hv, Ne.symm hv, hn]
    · rw [if_neg (by simpa using hn)]
      have hany' : (varList.any fun n => n.name = varName) = true := by simpa [hn] using hany
      have ih' := ih hany'
      unfold locationsIn at ih' ⊢
      by_cases hnv : n.name = v
      · have hv : v ≠ varName := fun h => hn (hnv.trans h)
        simp [hnv, hv]
      · simpa [find?_cons, hnv] using ih'

end

/-! ## What the storage holds -/

/-- The locations of a variable in one list of the array. -/
def MetadataStorage.locations (s : MetadataStorage) (i : Int) (varName : String) : List HdrDimesPut :=
  locationsIn (s.versionTab i) varName

section Storage

variable (s : MetadataStorage)

variable (version : UInt32) (varName : String) (cmd : HdrDimesPut) (i : Int)

theorem objLocationListLookup_fst :
    (objLocationListLookup s version varName).1 = s.locations (s.index version) varName :=
  varNodeLookup_fst _ _

/-- A lookup leaves all locations where they are. -/
@[simp] theorem objLocationListLookup_locations
    (v : String) : (objLocationListLookup s version varName).2.locations i v = s.locations i v := by
  show locationsIn (update s.versionTab (s.index version)
    (varNodeLookup (s.versionTab (s.index version)) varName).2 i) v = locationsIn (s.versionTab i) v
  by_cases hi : i = s.index version
  · rw [hi, update_self, locationsIn_varNodeLookup]
  · rw [update_of_ne hi]

@[simp] theorem metadataSAddObjLocation_maxVersions :
    (metadataSAddObjLocation s cmd).maxVersions = s.maxVersions := rfl

/-- An addition changes one list. -/
theorem metadataSAddObjLocation_locations (v : String) :
    (metadataSAddObjLocation s cmd).locations i v =
      if i = s.index cmd.odsc.version ∧ v = cmd.odsc.name then evictAll displaces (s.locations i v) cmd
      else s.locations i v := by
  let found := objLocationListLookup s cmd.odsc.version cmd.odsc.name
  have hlook : locationsIn (found.2.versionTab i) v = s.locations i v :=
    objLocationListLookup_locations s cmd.odsc.version cmd.odsc.name i v
  -- The lookup has made a node for the variable if there was none.
  have hany : ((found.2.versionTab (s.index cmd.odsc.version)).any
      fun n => n.name = cmd.odsc.name) = true := by
    have hnode := any_varNodeLookup (s.versionTab (s.index cmd.odsc.version)) cmd.odsc.name
    rwa [show found.2.versionTab (s.index cmd.odsc.version) = _ from update_self ..]
  show locationsIn (update found.2.versionTab (s.index cmd.odsc.version)
    (overwriteFirst (fun n => n.name = cmd.odsc.name) ⟨cmd.odsc.name, evictAll displaces found.1 cmd⟩
      (found.2.versionTab (s.index cmd.odsc.version))) i) v = _
  -- Only one list of one bin changes.
  by_cases hi : i = s.index cmd.odsc.version
  · rw [hi] at hlook ⊢
    rw [update_self]
    refine (locationsIn_overwriteFirst hany _ v).trans ?_
    by_cases hv : v = cmd.odsc.name
    · rw [if_pos hv, if_pos ⟨rfl, hv⟩, hv]
      exact congrArg (evictAll displaces · cmd) (objLocationListLookup_fst s _ _)
    · rw [if_neg hv, if_neg fun h => hv h.2]
      exact hlook
  · rw [update_of_ne hi, if_neg fun h => hi h.1]
    exact hlook

theorem mem_metadataSFindObjLocation {q : ObjDescriptor} {h : HdrDimesPut} :
    h ∈ (metadataSFindObjLocation s q).1 ↔
      h ∈ s.locations (s.index q.version) q.name ∧ objDescEqualsIntersect q h.odsc = true := by
  show h ∈ (List.filter _ (objLocationListLookup s q.version q.name).1).reverse ↔ _
  rw [mem_reverse, mem_filter, objLocationListLookup_fst]

end Storage

/-! ## Sequences of additions -/

/-- The storage of a server with `max_versions` lists after a sequence of additions. -/
def afterAdditions (maxVersions : Nat) (adds : List HdrDimesPut) : MetadataStorage :=
  adds.foldl metadataSAddObjLocation (metadataSAlloc maxVersions)

section Additions

variable {m : Nat} {adds : List HdrDimesPut}

theorem afterAdditions_append_singleton (cmd : HdrDimesPut) :
    afterAdditions m (adds ++ [cmd]) = metadataSAddObjLocation (afterAdditions m adds) cmd := by
  rw [afterAdditions, foldl_append]
  rfl

@[simp] theorem afterAdditions_maxVersions : (afterAdditions m adds).maxVersions = m := by
  induction adds using reverseRecOn with
  | nil => rfl
  | append_singleton adds cmd ih =>
    rw [afterAdditions_append_singleton, metadataSAddObjLocation_maxVersions, ih]

@[simp] theorem afterAdditions_index (version : UInt32) :
    (afterAdditions m adds).index version = (metadataSAlloc m).index version := by
  unfold MetadataStorage.index
  rw [afterAdditions_maxVersions]
  rfl

/-- Each list is the run over its own additions. -/
theorem afterAdditions_locations (i : Int) (v : String) : (afterAdditions m adds).locations i v =
      (adds.filter fun cmd => decide (i = (metadataSAlloc m).index cmd.odsc.version ∧
        v = cmd.odsc.name)).foldl (evictAll displaces) [] := by
  induction adds using reverseRecOn with
  | nil => rfl
  | append_singleton adds cmd ih =>
    rw [afterAdditions_append_singleton, metadataSAddObjLocation_locations, afterAdditions_index,
      filter_append, foldl_append, ← ih]
    by_cases hmine : i = (metadataSAlloc m).index cmd.odsc.version ∧ v = cmd.odsc.name
    · rw [if_pos hmine, filter_cons_of_pos (by simpa using hmine)]
      rfl
    · rw [if_neg hmine, filter_cons_of_neg (by simpa using hmine)]
      rfl

/-- A later addition displaces a location if both are in the same list and the boxes meet. -/
def displacesIn (m : Nat) (new old : HdrDimesPut) : Bool :=
  decide ((metadataSAlloc m).index new.odsc.version = (metadataSAlloc m).index old.odsc.version) &&
    displaces new old

theorem displacesIn_iff {new old : HdrDimesPut} : displacesIn m new old = true ↔
    (metadataSAlloc m).index new.odsc.version = (metadataSAlloc m).index old.odsc.version ∧
      displaces new old = true := by
  simp [displacesIn]

theorem name_eq_of_displaces {new old : HdrDimesPut} (h : displaces new old = true) :
    new.odsc.name = old.odsc.name := (objDescByNameIntersect_iff.1 h).1

/-- A query returns the locations that match it and that no later addition to the same list meets. -/
theorem mem_find_iff {q : ObjDescriptor} {h : HdrDimesPut} :
    h ∈ (metadataSFindObjLocation (afterAdditions m adds) q).1 ↔
      Survives (displacesIn m) adds h ∧ objDescEqualsIntersect q h.odsc = true := by
  rw [mem_metadataSFindObjLocation, afterAdditions_index, afterAdditions_locations, mem_foldl_evictAll]
  refine and_congr_left fun hmatch => ?_
  obtain ⟨hname, hver, -⟩ := objDescEqualsIntersect_iff.1 hmatch
  rw [hname, hver]
  -- In the list of the location the two tests agree, and what is added elsewhere does not meet it.
  have hself : decide ((metadataSAlloc m).index h.odsc.version =
      (metadataSAlloc m).index h.odsc.version ∧ h.odsc.name = h.odsc.name) = true := by simp
  have hsame := survives_filter_iff (displacesIn m) adds h
    (fun cmd => decide ((metadataSAlloc m).index h.odsc.version =
      (metadataSAlloc m).index cmd.odsc.version ∧ h.odsc.name = cmd.odsc.name)) (by
        intro x _ _ hx
        obtain ⟨hindex, hdis⟩ := displacesIn_iff.1 hx
        exact decide_eq_true ⟨hindex.symm, (name_eq_of_displaces hdis).symm⟩)
  rw [and_iff_right hself] at hsame
  rw [← hsame]
  constructor
  · intro hsurv
    exact hsurv.mono fun x _ hx => (displacesIn_iff.1 hx).2
  · intro hsurv
    refine hsurv.mono fun x hx hdis => displacesIn_iff.2 ⟨?_, hdis⟩
    have hlist := (mem_filter.1 hx).2
    exact ((decide_eq_true_iff.1 hlist).1).symm

end Additions

/-! ## Does `max_versions` matter? -/

/-- A query returns the same locations for any two values of `max_versions` up to a bound, such as the
largest `int`. -/
def MaxVersionsIrrelevant (bound : Nat) (adds : List HdrDimesPut) : Prop :=
  ∀ m m' : Nat, 1 ≤ m → m ≤ bound → 1 ≤ m' → m' ≤ bound → ∀ q h,
    h ∈ (metadataSFindObjLocation (afterAdditions m adds) q).1 ↔
      h ∈ (metadataSFindObjLocation (afterAdditions m' adds) q).1

/-- A later addition of the same variable and version displaces a location. -/
def replaces (new old : HdrDimesPut) : Bool :=
  decide (new.odsc.version = old.odsc.version) && displaces new old

/-- A location that no later addition of its own version displaces is not met by a later addition of
another version either. -/
def VersionsApart (adds : List HdrDimesPut) : Prop :=
  ∀ h, Survives replaces adds h → Survives displaces adds h

theorem index_eq_mod (m : Nat) {version : UInt32} (h : version.toNat < 2 ^ 31) :
    (metadataSAlloc m).index version = ((version.toNat % m : Nat) : Int) := by
  have hint : version.toInt32.toInt = (version.toNat : Int) :=
    BitVec.toInt_eq_toNat_of_lt (by simpa using (by omega : 2 * version.toNat < 2 ^ 32))
  show version.toInt32.toInt.tmod m = _
  rw [hint]
  rfl

section Irrelevant

variable {m : Nat} {adds : List HdrDimesPut} {h : HdrDimesPut}

theorem replaces_iff {new old : HdrDimesPut} : replaces new old = true ↔
    new.odsc.version = old.odsc.version ∧ displaces new old = true := by
  simp [replaces]

theorem survives_of_displaces (hs : Survives displaces adds h) : Survives (displacesIn m) adds h :=
  hs.mono fun _ _ hx => (displacesIn_iff.1 hx).2

theorem survives_replaces (hs : Survives (displacesIn m) adds h) : Survives replaces adds h := by
  apply hs.mono
  intro x _ hx
  obtain ⟨hver, hdis⟩ := replaces_iff.1 hx
  exact displacesIn_iff.2 ⟨by rw [hver], hdis⟩

/-- With more lists than versions, only a location of the same version displaces one. -/
theorem survives_many_iff (hver : ∀ x ∈ adds, x.odsc.version.toNat < 2 ^ 31)
    (hmany : ∀ x ∈ adds, x.odsc.version.toNat < m) :
    Survives (displacesIn m) adds h ↔ Survives replaces adds h := by
  refine ⟨survives_replaces, fun hs => ?_⟩
  have hself := hver h hs.mem
  refine hs.mono fun x hx hdis => ?_
  obtain ⟨hindex, hmeets⟩ := displacesIn_iff.1 hdis
  rw [index_eq_mod _ (hver x hx), index_eq_mod _ hself, Nat.mod_eq_of_lt (hmany x hx),
    Nat.mod_eq_of_lt (hmany h hs.mem), Nat.cast_inj] at hindex
  exact replaces_iff.2 ⟨UInt32.toNat_inj.1 hindex, hmeets⟩

/-- With one list, every location of the variable does. -/
theorem survives_one_iff (hver : ∀ x ∈ adds, x.odsc.version.toNat < 2 ^ 31) :
    Survives (displacesIn 1) adds h ↔ Survives displaces adds h := by
  refine ⟨fun hs => ?_, survives_of_displaces⟩
  have hself := hver h hs.mem
  refine hs.mono fun x hx hdis => displacesIn_iff.2 ⟨?_, hdis⟩
  rw [index_eq_mod _ (hver x hx), index_eq_mod _ hself, Nat.mod_one, Nat.mod_one]

/-- Every location is found by some query of its variable and version. -/
theorem exists_query (h : HdrDimesPut) : ∃ q, objDescEqualsIntersect q h.odsc = true := by
  refine ⟨{ h.odsc with bb := { h.odsc.bb with ub := h.odsc.bb.lb } }, ?_⟩
  rw [objDescEqualsIntersect_iff]
  refine ⟨rfl, rfl, bboxDoesIntersect_iff.2 fun i _ => Or.inl ⟨le_rfl, le_rfl⟩⟩

end Irrelevant

/-- The value of `max_versions` cannot be seen exactly when no addition of another version meets a
location which the additions of its own version have left. It is enough to compare values up to any bound
that is above all versions. -/
theorem max_versions_irrelevant_iff (bound : Nat) (adds : List HdrDimesPut)
    (hver : ∀ h ∈ adds, h.odsc.version.toNat < 2 ^ 31) (hbound : ∀ h ∈ adds, h.odsc.version.toNat < bound) :
    MaxVersionsIrrelevant bound adds ↔ VersionsApart adds := by
  constructor
  · intro hsame h hs
    -- One list keeps the least, as many lists as versions keep the most.
    obtain ⟨q, hq⟩ := exists_query h
    have hpos : 1 ≤ bound := Nat.one_le_of_lt (hbound h hs.mem)
    have hmany : h ∈ (metadataSFindObjLocation (afterAdditions bound adds) q).1 :=
      mem_find_iff.2 ⟨(survives_many_iff hver hbound).2 hs, hq⟩
    have hone := (hsame bound 1 hpos le_rfl le_rfl hpos q h).1 hmany
    exact (survives_one_iff hver).1 (mem_find_iff.1 hone).1
  · intro hapart m m' _ _ _ _ q h
    rw [mem_find_iff, mem_find_iff]
    refine and_congr_left fun _ => ?_
    have hboth : ∀ n, Survives (displacesIn n) adds h ↔ Survives displaces adds h := fun n =>
      ⟨fun hs => hapart h (survives_replaces hs), survives_of_displaces⟩
    rw [hboth m, hboth m']

/-- A location of the variable `"u"` over the first ten cells, put by client `3`. -/
def tenCells (version : UInt32) : HdrDimesPut :=
  ⟨⟨3, version.toNat⟩, ⟨"u", .columnMajor, 3, version, ⟨1, fun _ => 0, fun _ => 9⟩, 8⟩⟩

/-- The same version twice, for all positive values of an `int`. -/
theorem max_versions_irrelevant_one_version :
    MaxVersionsIrrelevant (2 ^ 31 - 1) [tenCells 1, tenCells 1] := by
  refine (max_versions_irrelevant_iff _ _ (by decide) (by decide)).2 fun h hs => ?_
  have hmem := hs.mem
  have hh : h = tenCells 1 := by simpa using hmem
  exact ⟨[tenCells 1], [], by rw [hh]; rfl, fun x hx => (not_mem_nil hx).elim⟩

/-- With one list the next version takes the place of the first one, with two lists both are found. -/
theorem max_versions_matters :
    (metadataSFindObjLocation (afterAdditions 1 [tenCells 1, tenCells 2]) (tenCells 1).odsc).1 = [] ∧
      (metadataSFindObjLocation (afterAdditions 2 [tenCells 1, tenCells 2]) (tenCells 1).odsc).1 =
        [tenCells 1] ∧ ¬ MaxVersionsIrrelevant 2 [tenCells 1, tenCells 2] := by
  have hone : (metadataSFindObjLocation (afterAdditions 1 [tenCells 1, tenCells 2])
      (tenCells 1).odsc).1 = [] := rfl
  have htwo : (metadataSFindObjLocation (afterAdditions 2 [tenCells 1, tenCells 2])
      (tenCells 1).odsc).1 = [tenCells 1] := rfl
  refine ⟨hone, htwo, fun hsame => ?_⟩
  have hmem := (hsame 2 1 (by decide) le_rfl le_rfl (by decide) (tenCells 1).odsc (tenCells 1)).1
  rw [hone, htwo] at hmem
  exact not_mem_nil (hmem mem_cons_self)

end DataSpaces.Dimes
