import DataSpaces.Dimes.Metadata
import DataSpaces.Lib.Runs

/-!
# The lists of the metadata storage

`version_tab` has `max_versions` lists. `obj_location_list_lookup` takes the version as an `int`, so that
from version `2 ^ 31` on the remainder is negative or 0. `isBin_index_iff` says which versions have their
list in the array.

Where the lists are in the array, the storage does what it is for: in each list the boxes are apart, the
last addition is there, and a query returns the stored locations that match it, each of them once
(`metadataStorage_right_iff`).
-/

namespace DataSpaces.Dimes

open Lib Geometry Store List Option

/-! ## Indices -/

/-- An index of an array of `m` lists. -/
def IsBin (m : Nat) (i : Int) : Prop := 0 ≤ i ∧ i < m

instance (m : Nat) (i : Int) : Decidable (IsBin m i) := inferInstanceAs (Decidable (_ ∧ _))

/-- The remainder of a version whose highest bit is set. -/
theorem index_eq_neg_mod (m : Nat) {version : UInt32} (h : 2 ^ 31 ≤ version.toNat) :
    (metadataSAlloc m).index version = -(((2 ^ 32 - version.toNat) % m : Nat) : Int) := by
  have hlt := version.toNat_lt
  have hint : version.toInt32.toInt = -((2 ^ 32 - version.toNat : Nat) : Int) := by
    have hhigh : ¬ 2 * version.toBitVec.toNat < 2 ^ 32 := by
      rw [UInt32.toNat_toBitVec]
      omega
    show version.toBitVec.toInt = _
    rw [BitVec.toInt_eq_toNat_cond, if_neg hhigh, UInt32.toNat_toBitVec]
    omega
  show version.toInt32.toInt.tmod m = _
  rw [hint, Int.neg_tmod]
  rfl

theorem isBin_index_iff {m : Nat} (hm : 1 ≤ m) (version : UInt32) :
    IsBin m ((metadataSAlloc m).index version) ↔ version.toNat < 2 ^ 31 ∨ m ∣ 2 ^ 32 - version.toNat := by
  by_cases h : version.toNat < 2 ^ 31
  · rw [index_eq_mod m h]
    have hlt := Nat.mod_lt version.toNat hm
    exact iff_of_true ⟨Int.natCast_nonneg _, Int.ofNat_lt.2 hlt⟩ (Or.inl h)
  · rw [index_eq_neg_mod m (not_lt.1 h), Nat.dvd_iff_mod_eq_zero]
    unfold IsBin
    omega

/-! ## The source -/

/-- The loop of `metadata_s_find_obj_location`, with the number of items. -/
def collectMatches (odsc : ObjDescriptor) (l : List HdrDimesPut) : List HdrDimesPut × Nat :=
  l.foldl (fun out hdr =>
    if objDescEqualsIntersect odsc hdr.odsc then (hdr :: out.1, out.2 + 1) else out) ([], 0)

/-- An addition whose list is in the array. With another index the list head is taken from the memory in
front of the array, and the outcome is undefined. -/
def addInTab (s : MetadataStorage) (cmd : HdrDimesPut) : Option MetadataStorage :=
  if IsBin s.maxVersions (s.index cmd.odsc.version) then some (metadataSAddObjLocation s cmd) else none

/-- A query whose list is in the array, with the items that it returns and their number. -/
def findInTab (s : MetadataStorage) (odsc : ObjDescriptor) : Option (List HdrDimesPut × Nat) :=
  if IsBin s.maxVersions (s.index odsc.version) then
    some (collectMatches odsc (objLocationListLookup s odsc.version odsc.name).1)
  else none

theorem collectMatches_eq (odsc : ObjDescriptor) (l : List HdrDimesPut) :
    collectMatches odsc l = ((l.filter fun n => objDescEqualsIntersect odsc n.odsc).reverse,
      (l.filter fun n => objDescEqualsIntersect odsc n.odsc).length) := by
  induction l using reverseRecOn with
  | nil => rfl
  | append_singleton l hdr ih =>
    unfold collectMatches at ih ⊢
    rw [foldl_append, ih, filter_append, foldl_cons, foldl_nil]
    by_cases h : objDescEqualsIntersect odsc hdr.odsc = true
    · simp [h]
    · simp [h]

/-- The count is that of the items which `metadataSFindObjLocation` returns. -/
theorem findInTab_eq {s : MetadataStorage} {q : ObjDescriptor} (h : IsBin s.maxVersions (s.index q.version)) :
    findInTab s q = some ((metadataSFindObjLocation s q).1, (metadataSFindObjLocation s q).1.length) := by
  rw [findInTab, if_pos h, collectMatches_eq]
  refine congrArg (fun n => some (_, n)) ?_
  exact (length_reverse).symm

/-! ## What is promised -/

/-- The location is in one of the lists. -/
def MetadataStorage.Stores (s : MetadataStorage) (hdr : HdrDimesPut) : Prop :=
  ∃ i varName, hdr ∈ s.locations i varName

/-- The boxes of a list are apart, and the last addition is in the list of its version and name. -/
structure HoldsAdditions (adds : List HdrDimesPut) (s : MetadataStorage) : Prop where
  apart : ∀ i varName, (s.locations i varName).Pairwise
    fun a b => ¬ ∃ x, x ∈ a.odsc.bb ∧ x ∈ b.odsc.bb
  last : ∀ hdr, adds.getLast? = some hdr → hdr ∈ s.locations (s.index hdr.odsc.version) hdr.odsc.name

/-- A query returns the stored locations of its name and version that pass the test for its box, each of
them once. For a well-formed box in the dimensions of the variable the test is whether there is a common
cell. -/
structure AnswersQuery (dims : String → Nat) (s : MetadataStorage) (q : ObjDescriptor)
    (found : List HdrDimesPut × Nat) : Prop where
  count : found.2 = found.1.length
  nodup : found.1.Nodup
  mem_iff : ∀ hdr, hdr ∈ found.1 ↔ s.Stores hdr ∧ hdr.odsc.name = q.name ∧
    hdr.odsc.version = q.version ∧ bboxDoesIntersect q.bb hdr.odsc.bb = true
  cells : q.bb.Wf → q.bb.numDims = dims q.name → ∀ hdr, hdr ∈ found.1 ↔ s.Stores hdr ∧
    hdr.odsc.name = q.name ∧ hdr.odsc.version = q.version ∧ ∃ x, x ∈ q.bb ∧ x ∈ hdr.odsc.bb

/-- The additions and the query stay in the array, and have the promised effect. -/
def StorageRight (dims : String → Nat) (m : Nat) (adds : List HdrDimesPut) (q : ObjDescriptor) : Prop :=
  ∃ s found, runSteps addInTab (metadataSAlloc m) adds = some s ∧ findInTab s q = some found ∧
    HoldsAdditions adds s ∧ AnswersQuery dims s q found

/-- Well-formed boxes, in the same number of dimensions for each name. -/
def WellFormedAdds (dims : String → Nat) (adds : List HdrDimesPut) : Prop :=
  ∀ hdr ∈ adds, hdr.odsc.bb.Wf ∧ hdr.odsc.bb.numDims = dims hdr.odsc.name

/-! ## Runs of additions -/

section

variable {m : Nat} {adds : List HdrDimesPut}

/-- A run of additions is defined if all their lists are in the array. -/
theorem runSteps_addInTab (s : MetadataStorage) : runSteps addInTab s adds =
      if ∀ hdr ∈ adds, IsBin s.maxVersions (s.index hdr.odsc.version) then
        some (adds.foldl metadataSAddObjLocation s) else none := by
  induction adds generalizing s with
  | nil => simp [runSteps]
  | cons cmd adds ih =>
    rw [runSteps, addInTab]
    by_cases h : IsBin s.maxVersions (s.index cmd.odsc.version)
    · rw [if_pos h, bind_some, ih]
      simp only [forall_mem_cons, and_iff_right h]
      rfl
    · rw [if_neg h, if_neg fun hall => h (hall cmd mem_cons_self)]
      rfl

/-- What is stored was added, and stands in the list of its version and name. -/
theorem mem_locations {i : Int} {varName : String} {hdr : HdrDimesPut}
    (h : hdr ∈ (afterAdditions m adds).locations i varName) :
    hdr ∈ adds ∧ i = (metadataSAlloc m).index hdr.odsc.version ∧ varName = hdr.odsc.name := by
  rw [afterAdditions_locations, mem_foldl_evictAll] at h
  obtain ⟨hmem, hlist⟩ := mem_filter.1 h.mem
  exact ⟨hmem, of_decide_eq_true hlist⟩

variable {dims : String → Nat}

/-- Of two locations in one list the newer one did not meet the older one. -/
theorem holdsAdditions_afterAdditions (hwf : WellFormedAdds dims adds) :
    HoldsAdditions adds (afterAdditions m adds) where
  apart i varName := by
    have hpair : ((afterAdditions m adds).locations i varName).Pairwise
        fun newer older => displaces newer older = false := by
      rw [afterAdditions_locations]
      exact pairwise_foldl_evictAll _ _
    refine (Pairwise.and_mem.1 hpair).imp ?_
    rintro a b ⟨ha, hb, hmeets⟩ hcell
    obtain ⟨ha, -, haname⟩ := mem_locations ha
    obtain ⟨hb, -, hbname⟩ := mem_locations hb
    obtain ⟨hawf, hadims⟩ := hwf a ha
    obtain ⟨hbwf, hbdims⟩ := hwf b hb
    have hdims : a.odsc.bb.numDims = b.odsc.bb.numDims := by
      rw [hadims, hbdims, ← haname, ← hbname]
    have hdis : displaces a b = true := objDescByNameIntersect_iff.2
      ⟨haname.symm.trans hbname, (bboxDoesIntersect_iff_exists_mem hawf hbwf hdims).2 hcell⟩
    rw [hdis] at hmeets
    cases hmeets
  last hdr hlast := by
    obtain ⟨before, rfl⟩ := getLast?_eq_some_iff.1 hlast
    rw [afterAdditions_index, afterAdditions_append_singleton, metadataSAddObjLocation_locations,
      afterAdditions_index, if_pos ⟨rfl, rfl⟩]
    exact mem_cons_self

theorem stores_afterAdditions_iff {hdr : HdrDimesPut} : (afterAdditions m adds).Stores hdr ↔
    hdr ∈ (afterAdditions m adds).locations ((metadataSAlloc m).index hdr.odsc.version) hdr.odsc.name := by
  constructor
  · rintro ⟨i, varName, h⟩
    obtain ⟨-, rfl, rfl⟩ := mem_locations h
    exact h
  · exact fun h => ⟨_, _, h⟩

/-- A well-formed box has a cell, so that no location is in a list twice. -/
theorem nodup_locations (hwf : WellFormedAdds dims adds) (i : Int) (varName : String) :
    ((afterAdditions m adds).locations i varName).Nodup := by
  have hapart := (holdsAdditions_afterAdditions (m := m) hwf).apart i varName
  refine (Pairwise.and_mem.1 hapart).imp ?_
  rintro a b ⟨ha, -, hcell⟩ rfl
  have hlb : a.odsc.bb.lb ∈ a.odsc.bb := fun k hk => ⟨le_rfl, (hwf a (mem_locations ha).1).1 k hk⟩
  exact hcell ⟨_, hlb, hlb⟩

theorem answersQuery_afterAdditions (hwf : WellFormedAdds dims adds) (q : ObjDescriptor) :
    AnswersQuery dims (afterAdditions m adds) q ((metadataSFindObjLocation (afterAdditions m adds) q).1,
        (metadataSFindObjLocation (afterAdditions m adds) q).1.length) := by
  -- A location of the name and version of the query can only be in the list that is searched.
  have hmem : ∀ hdr, hdr ∈ (metadataSFindObjLocation (afterAdditions m adds) q).1 ↔
      (afterAdditions m adds).Stores hdr ∧ hdr.odsc.name = q.name ∧
        hdr.odsc.version = q.version ∧ bboxDoesIntersect q.bb hdr.odsc.bb = true := by
    intro hdr
    rw [mem_metadataSFindObjLocation, objDescEqualsIntersect_iff, afterAdditions_index,
      stores_afterAdditions_iff]
    constructor
    · rintro ⟨h, hname, hver, hbox⟩
      rw [hname, hver] at h
      exact ⟨h, hname.symm, hver.symm, hbox⟩
    · rintro ⟨h, hname, hver, hbox⟩
      rw [hname, hver] at h
      exact ⟨h, hname.symm, hver.symm, hbox⟩
  refine ⟨rfl, ?_, hmem, fun hq hdims hdr => (hmem hdr).trans ?_⟩
  · apply nodup_reverse.2
    rw [objLocationListLookup_fst]
    exact (nodup_locations hwf _ _).filter _
  · refine and_congr_right fun hstored => and_congr_right fun hname => and_congr_right fun _ => ?_
    obtain ⟨hdrwf, hdrdims⟩ := hwf hdr (mem_locations (stores_afterAdditions_iff.1 hstored)).1
    exact bboxDoesIntersect_iff_exists_mem hq hdrwf (by rw [hdims, hdrdims, hname])

end

/-! ## The storage -/

/-- The storage does what it is for if and only if every version of an addition or of the query is below
`2 ^ 31`, or `max_versions` divides the distance to `2 ^ 32`, so that the remainder is 0. -/
theorem metadataStorage_right_iff (dims : String → Nat) {m : Nat} (hm : 1 ≤ m) {adds : List HdrDimesPut}
    (hwf : WellFormedAdds dims adds) (q : ObjDescriptor) : StorageRight dims m adds q ↔
      (∀ hdr ∈ adds, hdr.odsc.version.toNat < 2 ^ 31 ∨ m ∣ 2 ^ 32 - hdr.odsc.version.toNat) ∧
        (q.version.toNat < 2 ^ 31 ∨ m ∣ 2 ^ 32 - q.version.toNat) := by
  simp only [← isBin_index_iff hm]
  constructor
  · rintro ⟨s, found, hrun, hfind, -, -⟩
    rw [runSteps_addInTab] at hrun
    obtain ⟨hadds, hs⟩ := ite_none_right_eq_some.1 hrun
    obtain rfl : afterAdditions m adds = s := some.inj hs
    have hq := (ite_none_right_eq_some.1 hfind).1
    rw [afterAdditions_index, afterAdditions_maxVersions] at hq
    exact ⟨hadds, hq⟩
  · rintro ⟨hadds, hq⟩
    refine ⟨afterAdditions m adds, _, ?_, findInTab_eq ?_, holdsAdditions_afterAdditions hwf,
      answersQuery_afterAdditions hwf q⟩
    · rw [runSteps_addInTab]
      exact if_pos hadds
    · rw [afterAdditions_index, afterAdditions_maxVersions]
      exact hq

/-- Two versions of ten cells, with ten lists. -/
theorem metadataStorage_right_two : WellFormedAdds (fun _ => 1) [tenCells 1, tenCells 2] ∧
    StorageRight (fun _ => 1) 10 [tenCells 1, tenCells 2] (tenCells 1).odsc := by
  have hwf : WellFormedAdds (fun _ => 1) [tenCells 1, tenCells 2] := by
    intro hdr hhdr
    simp only [mem_cons, not_mem_nil, or_false] at hhdr
    rcases hhdr with rfl | rfl
    · decide
    · decide
  exact ⟨hwf, (metadataStorage_right_iff _ (by decide) hwf _).2 (by decide)⟩

/-- With ten lists version `2 ^ 31 + 1` is added to the list with index `-7`. -/
theorem metadataStorage_outside : (metadataSAlloc 10).index (tenCells 0x80000001).odsc.version = -7 ∧
    addInTab (metadataSAlloc 10) (tenCells 0x80000001) = none ∧
    ∀ q, ¬ StorageRight (fun _ => 1) 10 [tenCells 0x80000001] q := by
  have hnone : (addInTab (metadataSAlloc 10) (tenCells 0x80000001)).isNone = true := by decide
  rw [isNone_iff_eq_none] at hnone
  refine ⟨by decide, hnone, ?_⟩
  rintro q ⟨s, found, hrun, -⟩
  rw [runSteps, hnone] at hrun
  cases hrun

end DataSpaces.Dimes
