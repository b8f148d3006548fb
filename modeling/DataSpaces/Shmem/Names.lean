import DataSpaces.Copy.Objects
import DataSpaces.Lib.Fields

/-!
# The names of shared memory objects

A server that is built with shared memory objects puts the data of an object in a segment whose name
`convert_to_string` makes of the descriptor: the name of the variable with `/` replaced by `_`, and then the
version and the corners of the box in decimal, each with `_` in front. A client on the same node that finds
a segment under the name of its query takes its content for the object (`dcg_obj_get`).

The numbers can be read from the end of the string, but not how many there are, and the replacement loses
information. `segmentNames_right_iff` says for which sets of variable names the strings are unambiguous, and
a client gets only data that was put for the object it asks for: no two names may be equal after the
replacement, and none may be another one with a version and an odd number of corners appended.
-/

namespace DataSpaces.Shmem

open Lib Geometry Store Copy List Function

/-! ## The source -/

/-- A name as a C string: a `char` for each byte. -/
def cString (name : String) : List Char := name.toByteArray.data.toList.map Char.ofUInt8

/-- The name of the variable with `_` for `/`. -/
def modifiedName (name : String) : List Char := (cString name).map fun c => if c = '/' then '_' else c

/-- The corners of the box. -/
def lbName (bb : Bbox) : List Char :=
  (range bb.numDims).flatMap fun i => '_' :: natDigits (bb.lb i) ++ '_' :: natDigits (bb.ub i)

/-- The name of the segment of an object; `none` if a buffer is too small, or if the box has no dimension,
since then `lb_name` is not initialised. The version is printed as an `int`. -/
def convertToString (objDesc : ObjDescriptor) : Option (List Char) :=
  if objDesc.bb.numDims = 0 then none
  else if 100 ≤ (lbName objDesc.bb).length then none
  else if 100 ≤ (modifiedName objDesc.name).length then none
  else
    let name := modifiedName objDesc.name ++
      ('_' :: intDigits objDesc.version.toInt32.toInt ++ lbName objDesc.bb)
    if 200 ≤ name.length then none else some name

/-- The segments of a node, by name. -/
abbrev Segments := List Char → Option Mem

/-- `shmem_obj_data_alloc` opens or creates the segment and sets its length, and the data is received
there. -/
def segmentPut (segments : Segments) (od : ObjData) : Segments :=
  match convertToString od.objDesc with
  | none => segments
  | some name =>
    let size := objDataSize od.objDesc
    -- A segment that gets longer is filled with zeros.
    let mem : Mem := fun r =>
      if r < size + 7 then some (((segments name).bind fun old => old r).getD 0) else none
    update segments name (some (memcpy mem 0 od.data 0 size))

/-- The first part of `dcg_obj_get`: the content of the segment with the name of the query, if there is
one. -/
def dcgObjGetLocal (segments : Segments) (objDesc : ObjDescriptor) : Option Mem :=
  (convertToString objDesc).bind segments

/-! ## What is promised -/

/-- The descriptors of variables with a name in `names`, in at most `maxNdim` dimensions. -/
structure DescOf (maxNdim : Nat) (names : Set String) (d : ObjDescriptor) : Prop where
  name_mem : d.name ∈ names
  numDims_le : d.bb.numDims ≤ maxNdim
  lb_lt : ∀ i < d.bb.numDims, d.bb.lb i < 2 ^ 64
  ub_lt : ∀ i < d.bb.numDims, d.bb.ub i < 2 ^ 64

/-- The same name, version and box. -/
structure SameObject (d d' : ObjDescriptor) : Prop where
  name_eq : d.name = d'.name
  version_eq : d.version = d'.version
  numDims_eq : d.bb.numDims = d'.bb.numDims
  corners_eq : ∀ i < d.bb.numDims, d.bb.lb i = d'.bb.lb i ∧ d.bb.ub i = d'.bb.ub i

/-- Equal strings are made of the same object, and whatever was put before, a client that finds a segment
gets what was last put for the object that it asks for. -/
structure SegmentNamesRight (maxNdim : Nat) (names : Set String) : Prop where
  unambiguous : ∀ d d', DescOf maxNdim names d → DescOf maxNdim names d' → ∀ name,
    convertToString d = some name → convertToString d' = some name → SameObject d d'
  own_data : ∀ puts : List ObjData,
    (∀ od ∈ puts, DescOf maxNdim names od.objDesc ∧ (convertToString od.objDesc).isSome = true) →
    ∀ q, DescOf maxNdim names q → ∀ mem, dcgObjGetLocal (puts.foldl segmentPut fun _ => none) q = some mem →
      ∃ before od later, puts = before ++ od :: later ∧ SameObject od.objDesc q ∧
        (∀ od' ∈ later, ¬ SameObject od'.objDesc q) ∧ ∀ r < objDataSize od.objDesc, mem r = od.data r

/-- The first name is the second one with a version and `2 * j + 1` corners appended, and there is room for
another version and box of one dimension. -/
def Extends (maxNdim : Nat) (a b : String) : Prop :=
  ∃ (version : UInt32) (coords : List Nat) (j : Nat),
    coords.length = 2 * j + 1 ∧ j + 2 ≤ maxNdim ∧ (∀ c ∈ coords, c < 2 ^ 64) ∧
    modifiedName a = modifiedName b ++
      joinFields '_' (intDigits version.toInt32.toInt :: coords.map natDigits) ∧
    (joinFields '_' (coords.map natDigits)).length + 6 < 100

/-- No two names that fit into the buffer can be confused. -/
structure NamesApart (maxNdim : Nat) (names : Set String) : Prop where
  eq_of_modifiedName : ∀ a ∈ names, ∀ b ∈ names, (modifiedName a).length < 100 →
    modifiedName a = modifiedName b → a = b
  not_extends : ∀ a ∈ names, ∀ b ∈ names, (modifiedName a).length < 100 → ¬ Extends maxNdim a b

/-! ## Strings -/

/-- The corners in the order in which they are printed. -/
def cornerList (bb : Bbox) : List Nat := interleave bb.numDims bb.lb bb.ub

/-- The numbers that are appended to the name. -/
def fields (d : ObjDescriptor) : List (List Char) :=
  intDigits d.version.toInt32.toInt :: (cornerList d.bb).map natDigits

theorem lbName_eq (bb : Bbox) : lbName bb = joinFields '_' ((cornerList bb).map natDigits) := by
  unfold lbName joinFields cornerList Lib.interleave
  rw [map_flatMap, flatMap_assoc]
  refine flatMap_congr fun i _ => ?_
  simp

variable {d d' : ObjDescriptor}

theorem convertToString_eq_some {name : List Char} : convertToString d = some name ↔
      d.bb.numDims ≠ 0 ∧ (joinFields '_' ((cornerList d.bb).map natDigits)).length < 100 ∧
      (modifiedName d.name).length < 100 ∧ name.length < 200 ∧
      name = modifiedName d.name ++ joinFields '_' (fields d) := by
  have hname : ('_' :: intDigits d.version.toInt32.toInt ++ lbName d.bb) = joinFields '_' (fields d) := by
    rw [lbName_eq]
    rfl
  unfold convertToString
  rw [hname, lbName_eq]
  simp only [Option.ite_none_left_eq_some, not_le, Option.some.injEq]
  constructor
  · rintro ⟨h0, hlb, hmod, hlen, rfl⟩
    exact ⟨h0, hlb, hmod, hlen, rfl⟩
  · rintro ⟨h0, hlb, hmod, hlen, rfl⟩
    exact ⟨h0, hlb, hmod, hlen, rfl⟩

theorem underscore_not_mem_fields {f : List Char} (hf : f ∈ fields d) : '_' ∉ f := by
  rcases mem_cons.1 hf with rfl | hf
  · exact not_mem_intDigits (by decide) (by decide) _
  · obtain ⟨n, -, rfl⟩ := mem_map.1 hf
    exact not_mem_natDigits (by decide) n

theorem ne_nil_of_mem_fields {f : List Char} (hf : f ∈ fields d) : f ≠ [] := by
  rcases mem_cons.1 hf with rfl | hf
  · exact intDigits_ne_nil _
  · obtain ⟨n, -, rfl⟩ := mem_map.1 hf
    exact natDigits_ne_nil n

theorem length_fields (d : ObjDescriptor) : (fields d).length = 2 * d.bb.numDims + 1 := by
  simp [fields, cornerList]

theorem toInt32_injective {v w : UInt32} (h : v.toInt32.toInt = w.toInt32.toInt) : v = w := by
  have hbits := BitVec.eq_of_toInt_eq h
  exact UInt32.toBitVec_inj.1 hbits

/-- The numbers determine the version and the box. -/
theorem sameObject_iff : SameObject d d' ↔ d.name = d'.name ∧ fields d = fields d' := by
  unfold fields
  rw [cons.injEq, intDigits_injective.eq_iff, (map_injective_iff.2 natDigits_injective).eq_iff,
    cornerList, cornerList, interleave_inj]
  constructor
  · intro h
    exact ⟨h.name_eq, by rw [h.version_eq], h.numDims_eq, h.corners_eq⟩
  · rintro ⟨hname, hversion, hdims, hcorners⟩
    exact ⟨hname, toInt32_injective hversion, hdims, hcorners⟩

theorem SameObject.symm (h : SameObject d d') : SameObject d' d := by
  obtain ⟨hname, hfields⟩ := sameObject_iff.1 h
  exact sameObject_iff.2 ⟨hname.symm, hfields.symm⟩

theorem SameObject.convertToString_eq (h : SameObject d d') : convertToString d = convertToString d' := by
  obtain ⟨hname, hfields⟩ := sameObject_iff.1 h
  ext name
  have hcorners : (cornerList d.bb).map natDigits = (cornerList d'.bb).map natDigits := (cons.inj hfields).2
  rw [convertToString_eq_some, convertToString_eq_some, h.numDims_eq, hcorners, hname, hfields]

/-! ## Unambiguous strings -/

section

variable {maxNdim : Nat} {names : Set String} {d d' : ObjDescriptor}

theorem DescOf.lt_of_mem_cornerList (h : DescOf maxNdim names d) {c : Nat} (hc : c ∈ cornerList d.bb) :
    c < 2 ^ 64 := by
  obtain ⟨i, hi, rfl | rfl⟩ := mem_interleave.1 hc
  · exact h.lb_lt i hi
  · exact h.ub_lt i hi

/-- If the second of two equal strings has more numbers, the first name extends the second one. -/
theorem extends_of_fields (hd' : DescOf maxNdim names d') (h0 : d.bb.numDims ≠ 0)
    (hroom : (joinFields '_' ((cornerList d'.bb).map natDigits)).length < 100) {first : List Char}
    {more : List (List Char)} (hfields : fields d' = first :: (more ++ fields d))
    (hname : modifiedName d.name = modifiedName d'.name ++ joinFields '_' (first :: more)) :
    Extends maxNdim d.name d'.name := by
  obtain ⟨rfl, hcorners⟩ := cons.inj hfields
  -- The numbers after the version of the second descriptor are corners, and the last ones are those of the
  -- first descriptor.
  obtain ⟨coords, rest, hsplit, rfl, hrest⟩ := map_eq_append_iff.1 hcorners
  have hlen := congrArg List.length hsplit
  have hlenrest := congrArg List.length hrest
  rw [cornerList, Lib.length_interleave, length_append] at hlen
  rw [length_map, length_fields] at hlenrest
  have hle := hd'.numDims_le
  refine ⟨d'.version, coords, d'.bb.numDims - d.bb.numDims - 1, by omega, by omega, fun c hc => ?_, hname, ?_⟩
  · apply hd'.lt_of_mem_cornerList
    rw [hsplit]
    exact mem_append_left _ hc
  · have hsix : 2 * (fields d).length ≤ (joinFields '_' (fields d)).length :=
      two_mul_length_le_joinFields fun f hf => ne_nil_of_mem_fields hf
    rw [length_fields] at hsix
    rw [hcorners, joinFields_append, length_append] at hroom
    omega

theorem NamesApart.sameObject_of_le (h : NamesApart maxNdim names) (hd : DescOf maxNdim names d)
    (hd' : DescOf maxNdim names d') (hle : d.bb.numDims ≤ d'.bb.numDims) {name : List Char}
    (hs : convertToString d = some name) (hs' : convertToString d' = some name) : SameObject d d' := by
  obtain ⟨h0, -, hshort, -, rfl⟩ := convertToString_eq_some.1 hs
  obtain ⟨-, hroom, -, -, heq⟩ := convertToString_eq_some.1 hs'
  obtain ⟨more, hfields, hname⟩ := append_joinFields_inj (fun f hf => underscore_not_mem_fields hf)
    (fun f hf => underscore_not_mem_fields hf) (by rw [length_fields, length_fields]; omega) heq
  cases more with
  | nil =>
    rw [joinFields_nil, append_nil] at hname
    have hsame := h.eq_of_modifiedName _ hd.name_mem _ hd'.name_mem hshort hname
    exact sameObject_iff.2 ⟨hsame, hfields.symm⟩
  | cons first more =>
    exact absurd (extends_of_fields hd' h0 hroom hfields hname)
      (h.not_extends _ hd.name_mem _ hd'.name_mem hshort)

theorem NamesApart.sameObject (h : NamesApart maxNdim names) (hd : DescOf maxNdim names d)
    (hd' : DescOf maxNdim names d') {name : List Char} (hs : convertToString d = some name)
    (hs' : convertToString d' = some name) : SameObject d d' := by
  rcases le_total d.bb.numDims d'.bb.numDims with hle | hle
  · exact h.sameObject_of_le hd hd' hle hs hs'
  · exact (h.sameObject_of_le hd' hd hle hs' hs).symm

end

/-! ## Data -/

section

variable {maxNdim : Nat} {names : Set String} {name : List Char}

theorem segmentPut_self (segments : Segments) {od : ObjData} (h : convertToString od.objDesc = some name) :
    ∃ mem, segmentPut segments od name = some mem ∧ ∀ r < objDataSize od.objDesc, mem r = od.data r := by
  unfold segmentPut
  rw [h]
  refine ⟨_, update_self .., fun r hr => ?_⟩
  simp [memcpy, hr]

theorem segmentPut_of_ne {segments : Segments} {od : ObjData} (h : convertToString od.objDesc ≠ some name) :
    segmentPut segments od name = segments name := by
  unfold segmentPut
  cases hother : convertToString od.objDesc with
  | none => rfl
  | some other =>
    refine update_of_ne ?_ _ _
    rintro rfl
    exact h hother

/-- If strings are unambiguous, a segment has what was last put for the object with its name. -/
theorem own_data_of_sameObject (hsame : ∀ d d', DescOf maxNdim names d → DescOf maxNdim names d' → ∀ name,
      convertToString d = some name → convertToString d' = some name → SameObject d d') {q : ObjDescriptor}
    (hq : DescOf maxNdim names q) (hname : convertToString q = some name) (puts : List ObjData)
    (hputs : ∀ od ∈ puts, DescOf maxNdim names od.objDesc) {mem : Mem}
    (hmem : puts.foldl segmentPut (fun _ => none) name = some mem) :
    ∃ before od later, puts = before ++ od :: later ∧ SameObject od.objDesc q ∧
      (∀ od' ∈ later, ¬ SameObject od'.objDesc q) ∧ ∀ r < objDataSize od.objDesc, mem r = od.data r := by
  -- The last put with this string wrote the segment.
  induction puts using reverseRecOn with
  | nil => cases hmem
  | append_singleton puts od ih =>
    rw [foldl_append, foldl_cons, foldl_nil] at hmem
    have hod := hputs od (by simp)
    by_cases hwrites : convertToString od.objDesc = some name
    · obtain ⟨mem', hmem', hdata⟩ := segmentPut_self (puts.foldl segmentPut fun _ => none) hwrites
      obtain rfl : mem' = mem := Option.some.inj (hmem'.symm.trans hmem)
      exact ⟨puts, od, [], rfl, hsame _ _ hod hq name hwrites hname, fun _ h => (not_mem_nil h).elim, hdata⟩
    · rw [segmentPut_of_ne hwrites] at hmem
      obtain ⟨before, last, later, rfl, hlast, hlater, hdata⟩ :=
        ih (fun od' hod' => hputs od' (mem_append_left _ hod')) hmem
      refine ⟨before, last, later ++ [od], by simp, hlast, fun od' hod' => ?_, hdata⟩
      rcases mem_append.1 hod' with hod' | hod'
      · exact hlater od' hod'
      · obtain rfl := mem_singleton.1 hod'
        exact fun h => hwrites (h.convertToString_eq.trans hname)

end

/-! ## Names that can be confused -/

/-- The cell 0 of a variable in version 0. -/
def firstCell (name : String) : ObjDescriptor := ⟨name, .columnMajor, 0, 0, ⟨1, fun _ => 0, fun _ => 0⟩, 1⟩

/-- The box with these corners. -/
def boxOf (n : Nat) (l : List Nat) : Bbox := ⟨n, fun i => l.getD (2 * i) 0, fun i => l.getD (2 * i + 1) 0⟩

theorem cornerList_boxOf {n : Nat} {l : List Nat} (h : l.length = 2 * n) : cornerList (boxOf n l) = l :=
  interleave_getD l n h 0

section Confused

variable {maxNdim : Nat} {names : Set String} {a b : String}

theorem descOf_firstCell (hdim : 1 ≤ maxNdim) (ha : a ∈ names) : DescOf maxNdim names (firstCell a) :=
  ⟨ha, hdim, fun _ _ => by norm_num [firstCell], fun _ _ => by norm_num [firstCell]⟩

theorem cornerList_firstCell (a : String) : (cornerList (firstCell a).bb).map natDigits = [['0'], ['0']] := by
  show (interleave 1 (fun _ => 0) fun _ => 0).map natDigits = _
  decide

theorem fields_firstCell (a : String) : fields (firstCell a) = [['0'], ['0'], ['0']] := by
  rw [fields, cornerList_firstCell]
  show intDigits (0 : UInt32).toInt32.toInt :: _ = _
  decide

theorem convertToString_firstCell (ha : (modifiedName a).length < 100) :
    convertToString (firstCell a) = some (modifiedName a ++ joinFields '_' [['0'], ['0'], ['0']]) := by
  rw [convertToString_eq_some, cornerList_firstCell, fields_firstCell]
  refine ⟨by simp [firstCell], by decide, ha, ?_, rfl⟩
  rw [length_append]
  have hlen : (joinFields '_' [['0'], ['0'], ['0']]).length = 6 := rfl
  omega

theorem getD_lt {l : List Nat} {m : Nat} (h : ∀ c ∈ l, c < m) (hm : 0 < m) (k : Nat) : l.getD k 0 < m := by
  rw [getD_eq_getElem?_getD]
  cases hk : l[k]? with
  | none => exact hm
  | some c => exact h c (mem_of_getElem? hk)

/-- If one name extends another one, the first cell of one is taken for an object of the other one. -/
theorem exists_confused (ha : (modifiedName a).length < 100) (hb : b ∈ names) (h : Extends maxNdim a b) :
    ∃ d, DescOf maxNdim names d ∧ d.name = b ∧ convertToString d = convertToString (firstCell a) := by
  obtain ⟨version, coords, j, hlen, hdim, hlt, hname, hroom⟩ := h
  -- The version and the corners of the first cell become the last corners.
  have hlen' : (coords ++ [0, 0, 0]).length = 2 * (j + 2) := by
    rw [length_append, hlen]
    rfl
  have hlt' : ∀ c ∈ coords ++ [0, 0, 0], c < 2 ^ 64 := by
    intro c hc
    rcases mem_append.1 hc with hc | hc
    · exact hlt c hc
    · simp only [mem_cons, not_mem_nil, or_false, or_self] at hc
      omega
  have hzeros : [0, 0, 0].map natDigits = [['0'], ['0'], ['0']] := by decide
  have hmap : (coords ++ [0, 0, 0]).map natDigits = coords.map natDigits ++ [['0'], ['0'], ['0']] := by
    rw [map_append, hzeros]
  let d : ObjDescriptor := ⟨b, .columnMajor, 0, version, boxOf (j + 2) (coords ++ [0, 0, 0]), 1⟩
  have hcorners : (cornerList d.bb).map natDigits = coords.map natDigits ++ [['0'], ['0'], ['0']] := by
    rw [← hmap, cornerList_boxOf hlen']
  have hcoord := getD_lt hlt' (by norm_num)
  refine ⟨d, ⟨hb, hdim, fun i _ => hcoord _, fun i _ => hcoord _⟩, rfl, ?_⟩
  have hshort := ha
  rw [hname, length_append] at hshort
  rw [convertToString_firstCell ha, convertToString_eq_some, hcorners, fields, hcorners]
  refine ⟨Nat.succ_ne_zero _, ?_, by show (modifiedName b).length < 100; omega, ?_, ?_⟩
  · rw [joinFields_append, length_append]
    exact hroom
  · rw [length_append]
    have hsix : (joinFields '_' [['0'], ['0'], ['0']]).length = 6 := rfl
    omega
  · show _ = modifiedName b ++ joinFields '_'
      (intDigits version.toInt32.toInt :: coords.map natDigits ++ [['0'], ['0'], ['0']])
    rw [hname, joinFields_append, append_assoc]

end Confused

/-! ## When names are right -/

theorem ne_of_extends {maxNdim : Nat} {a b : String} (h : Extends maxNdim a b) : a ≠ b := by
  rintro rfl
  obtain ⟨version, coords, j, -, -, -, hname, -⟩ := h
  have hlen := congrArg List.length hname
  rw [joinFields_cons, length_append, length_append, length_cons] at hlen
  omega

/-- Segment names are right for a set of variable names if and only if the names are apart. -/
theorem segmentNames_right_iff {maxNdim : Nat} (hdim : 1 ≤ maxNdim) (names : Set String) :
    SegmentNamesRight maxNdim names ↔ NamesApart maxNdim names := by
  constructor
  · intro h
    refine ⟨fun a ha b hb hshort hmod => ?_, fun a ha b hb hshort hext => ?_⟩
    · have hb' := convertToString_firstCell (hmod ▸ hshort : (modifiedName b).length < 100)
      rw [← hmod] at hb'
      exact (h.unambiguous _ _ (descOf_firstCell hdim ha) (descOf_firstCell hdim hb) _
        (convertToString_firstCell hshort) hb').name_eq
    · obtain ⟨d, hd, hname, hs⟩ := exists_confused hshort hb hext
      rw [convertToString_firstCell hshort] at hs
      have hsame := h.unambiguous _ _ (descOf_firstCell hdim ha) hd _ (convertToString_firstCell hshort) hs
      exact ne_of_extends hext (hsame.name_eq.trans hname)
  · intro h
    have hsame : ∀ d d', DescOf maxNdim names d → DescOf maxNdim names d' → ∀ name,
        convertToString d = some name → convertToString d' = some name → SameObject d d' :=
      fun d d' hd hd' name hs hs' => h.sameObject hd hd' hs hs'
    refine ⟨hsame, fun puts hputs q hq mem hmem => ?_⟩
    obtain ⟨name, hname, hmem⟩ := Option.bind_eq_some_iff.1 hmem
    exact own_data_of_sameObject hsame hq hname puts (fun od hod => (hputs od hod).1) hmem

theorem cString_inj {a b : String} (h : cString a = cString b) : a = b := by
  have hinj : Injective Char.ofUInt8 := fun x y hxy => UInt8.toUInt32_inj.1 (congrArg Char.val hxy)
  have hdata := Array.toList_inj.1 (hinj.list_map h)
  exact String.toByteArray_inj.1 (ByteArray.ext hdata)

/-- Names without the characters `_` and `/` are apart. -/
theorem namesApart_of_plain (maxNdim : Nat) :
    NamesApart maxNdim {name | '_' ∉ cString name ∧ '/' ∉ cString name} := by
  have hplain : ∀ a ∈ {name : String | '_' ∉ cString name ∧ '/' ∉ cString name},
      modifiedName a = cString a := by
    intro a ha
    have hid : ∀ c ∈ cString a, (if c = '/' then '_' else c) = id c :=
      fun c hc => if_neg (ne_of_mem_of_not_mem hc ha.2)
    exact (map_congr_left hid).trans (map_id _)
  refine ⟨fun a ha b hb _ h => ?_, fun a ha b hb _ hext => ?_⟩
  · rw [hplain a ha, hplain b hb] at h
    exact cString_inj h
  · obtain ⟨version, coords, j, -, -, -, hname, -⟩ := hext
    rw [hplain a ha] at hname
    refine ha.1 ?_
    rw [hname]
    exact mem_append_right _ mem_cons_self

theorem segmentNames_right_plain : SegmentNamesRight 10 {name | '_' ∉ cString name ∧ '/' ∉ cString name} :=
  (segmentNames_right_iff (by decide) _).2 (namesApart_of_plain 10)

/-- Version 3 of `x_1_2` over the cells 4 to 5. -/
def longName : ObjData := ⟨⟨"x_1_2", .columnMajor, 0, 3, ⟨1, fun _ => 4, fun _ => 5⟩, 8⟩, fun _ => some 1, 0⟩

/-- Version 1 of `x` over the cells 2 to 3 and 4 to 5. -/
def shortName : ObjDescriptor :=
  ⟨"x", .columnMajor, 0, 1, ⟨2, fun i => 2 * i + 2, fun i => 2 * i + 3⟩, 8⟩

/-- Both descriptors are of the segment `x_1_2_3_4_5`, so that a client which asks for `x` gets the data of
`x_1_2`; and `a/b` and `a_b` have the same segments. -/
theorem segmentNames_confused :
    convertToString longName.objDesc = some "x_1_2_3_4_5".toList ∧
    convertToString shortName = some "x_1_2_3_4_5".toList ∧
    (dcgObjGetLocal (segmentPut (fun _ => none) longName) shortName).isSome = true ∧
    convertToString (firstCell "a/b") = convertToString (firstCell "a_b") ∧
    ¬ SegmentNamesRight 10 {"x", "x_1_2"} ∧ ¬ SegmentNamesRight 10 {"a/b", "a_b"} := by
  have hlong : convertToString longName.objDesc = some "x_1_2_3_4_5".toList := by decide
  have hshort : convertToString shortName = some "x_1_2_3_4_5".toList := by decide
  have hslash : convertToString (firstCell "a/b") = some "a_b_0_0_0".toList := by decide
  have hunder : convertToString (firstCell "a_b") = some "a_b_0_0_0".toList := by decide
  refine ⟨hlong, hshort, by decide, by rw [hslash, hunder], fun h => ?_, fun h => ?_⟩
  · have hdescLong : DescOf 10 {"x", "x_1_2"} longName.objDesc :=
      ⟨Set.mem_insert_of_mem _ rfl, by decide, by decide, by decide⟩
    have hdescShort : DescOf 10 {"x", "x_1_2"} shortName :=
      ⟨Set.mem_insert _ _, by decide, by decide, by decide⟩
    exact absurd (h.unambiguous _ _ hdescLong hdescShort _ hlong hshort).name_eq (by decide)
  · have hsame := h.unambiguous (firstCell "a/b") (firstCell "a_b") (descOf_firstCell (by decide) (by simp))
      (descOf_firstCell (by decide) (by simp)) _ hslash hunder
    exact absurd hsame.name_eq (by decide)

end DataSpaces.Shmem
