import DataSpaces.Copy.Assembly
import DataSpaces.Lib.Double

/-!
# Puts in blocks

In the build with shared memory objects, `common_dspaces_put` sends an array of more than 256 MiB as
several objects, which share the extent of the last dimension. How many there are is the size divided by
the limit, rounded down, although the source wraps a `ceil` around the integer division; how long each is
is the extent divided by that number, rounded up.

`commonDspacesPut_splits_iff` says when the blocks are what they should be: none empty, no two with a
common cell, together the whole array, and none above the limit if a slice is not. That needs the number of
blocks to divide the extent and, if slices are below the limit, the size to be a multiple of the limit.
`ssdCopyList_commonDspacesPut` is about the data: in at most nine dimensions the blocks then assemble to the
array.
-/

namespace DataSpaces.Shmem

open Lib Geometry Store Copy List Function Option

/-! ## The source -/

/-- 256 MiB. -/
def shmemMaxSize : Nat := 268435456

/-- A number that becomes an `int`, which is undefined if it is too large. -/
def toInt (n : Nat) : Option Nat := if n < 2 ^ 31 then some n else none

def totalBlocks (odscBig : ObjDescriptor) : Option Nat :=
  -- An integer is divided by an integer, so `ceil` has nothing to round up.
  toInt ⌈roundDouble (objDataSize odscBig / shmemMaxSize : Nat)⌉₊

/-- The `block_size` for dimension `i`. An `int` is a double. -/
def blockSize (bb : Bbox) (totalBlocks i : Nat) : Option Nat :=
  toInt ⌈roundDouble (roundDouble (bboxDist bb i) / totalBlocks)⌉₊

/-- The dimension to split, from the last one downwards, and its block size. -/
def findSplit (bb : Bbox) (totalBlocks : Nat) : Nat → Option (Nat × Nat)
  -- "This should not happen"
  | 0 => none
  | i + 1 => (blockSize bb totalBlocks i).bind fun b =>
      if 1 ≤ b then some (i, b) else findSplit bb totalBlocks i

/-- The box of block number `i`. -/
def blockBox (bb : Bbox) (splitDim blockSize i : Nat) : Bbox where
  numDims := bb.numDims
  lb := fun j => if j = splitDim then (bb.lb j + i * blockSize) % 2 ^ 64 else bb.lb j
  ub := fun j =>
    if j = splitDim then
      let ub := ((bb.lb j + i * blockSize) % 2 ^ 64 + blockSize + 2 ^ 64 - 1) % 2 ^ 64
      if bb.ub j < ub then bb.ub j else ub
    else bb.ub j

def objDataAllocWithData (odsc : ObjDescriptor) (data : Mem) : ObjData :=
  { objDataAlloc odsc with data := memcpy (objDataAlloc odsc).data 0 data 0 (objDataSize odsc) }

/-- Cut the data of a block out of the array. -/
def objDataAllocWithDataSplit (odsc : ObjDescriptor) (data : Mem) (odscBig : ObjDescriptor) : ObjData :=
  let od := objDataAlloc odsc
  let bbcom := bboxIntersect od.objDesc.bb odscBig.bb
  let fromMat := matrixInit odsc.st odscBig.bb bbcom odsc.size
  let toMat := matrixInit odsc.st od.objDesc.bb bbcom odsc.size
  { od with data := matrixCopy toMat od.data fromMat data }

/-- The objects that a put sends; `none` if it fails, or computes with undefined numbers. -/
def commonDspacesPut (odscBig : ObjDescriptor) (data : Mem) : Option (List ObjData) :=
  if bboxMaxNdim < odscBig.bb.numDims then none
  else if objDataSize odscBig ≤ shmemMaxSize then some [objDataAllocWithData odscBig data]
  else
    (totalBlocks odscBig).bind fun total =>
      (findSplit odscBig.bb total odscBig.bb.numDims).bind fun (splitDim, blockSize) =>
        -- `i * block_size` is a product of `int`s.
        if (total - 1) * blockSize < 2 ^ 31 then
          some ((range total).map fun i =>
            objDataAllocWithDataSplit { odscBig with bb := blockBox odscBig.bb splitDim blockSize i } data
              odscBig)
        else none

/-! ## What a split should be -/

/-- The first slice along the last dimension, which is the one that is split. -/
def sliceBox (bb : Bbox) : Bbox where
  numDims := bb.numDims
  lb := bb.lb
  ub := update bb.ub (bb.numDims - 1) (bb.lb (bb.numDims - 1))

/-- The bytes of one slice. -/
def sliceSize (odsc : ObjDescriptor) : Nat := objDataSize { odsc with bb := sliceBox odsc.bb }

/-- The blocks of an array. -/
structure GoodSplit (odscBig : ObjDescriptor) (blocks : List ObjData) : Prop where
  nonempty : ∀ od ∈ blocks, od.objDesc.bb.Wf
  disjoint : blocks.Pairwise fun od od' => ∀ x, ¬ (x ∈ od.objDesc.bb ∧ x ∈ od'.objDesc.bb)
  union : ∀ x, x ∈ odscBig.bb ↔ ∃ od ∈ blocks, x ∈ od.objDesc.bb
  limited : sliceSize odscBig ≤ shmemMaxSize → ∀ od ∈ blocks, objDataSize od.objDesc ≤ shmemMaxSize

/-- The extent of the last dimension. -/
def splitExtent (odsc : ObjDescriptor) : Nat := bboxDist odsc.bb (odsc.bb.numDims - 1)

/-- The number of blocks. -/
def splitCount (odsc : ObjDescriptor) : Nat := objDataSize odsc / shmemMaxSize

/-- The number of blocks divides the extent, and the size is a multiple of the limit unless already a slice
is above it. The first index of every block, relative to the array, is an `int`. -/
structure SplitsEvenly (odsc : ObjDescriptor) : Prop where
  dvd : splitCount odsc ∣ splitExtent odsc
  full : sliceSize odsc ≤ shmemMaxSize → shmemMaxSize ∣ objDataSize odsc
  count_lt : splitCount odsc < 2 ^ 31
  start_lt : (splitCount odsc - 1) * (splitExtent odsc / splitCount odsc) < 2 ^ 31

/-! ## Numbers of blocks -/

section

variable {odsc : ObjDescriptor}

theorem toInt_eq_some {n m : Nat} : toInt n = some m ↔ n < 2 ^ 31 ∧ n = m := by
  rw [toInt, ite_none_right_eq_some, some.injEq]

theorem totalBlocks_eq_some {total : Nat} :
    totalBlocks odsc = some total ↔ splitCount odsc < 2 ^ 31 ∧ splitCount odsc = total := by
  have hsize : objDataSize odsc < 2 ^ 64 := Nat.mod_lt _ (by decide)
  have hcount : splitCount odsc < 2 ^ 53 := by
    unfold splitCount shmemMaxSize
    omega
  rw [totalBlocks, toInt_eq_some, show objDataSize odsc / shmemMaxSize = splitCount odsc from rfl,
    roundDouble_natCast hcount, Nat.ceil_natCast]

/-- The quotient of doubles, rounded up, is at least a quarter of what it should be. -/
theorem le_mul_ceil_roundDouble {n d : Nat} (hd : 0 < d) :
    n ≤ 4 * (d * ⌈roundDouble (roundDouble n / d)⌉₊) := by
  rcases Nat.eq_zero_or_pos n with rfl | hpos
  · exact Nat.zero_le _
  · have hdq : (0 : ℚ) < d := by exact_mod_cast hd
    have hn : (n : ℚ) / 2 ≤ roundDouble n := half_le_roundDouble (by exact_mod_cast hpos)
    have hnq : (0 : ℚ) < n := by exact_mod_cast hpos
    have hquot := half_le_roundDouble (x := roundDouble n / d) (div_pos (by linarith) hdq)
    have hceil := Nat.le_ceil (roundDouble (roundDouble n / d))
    have hle : roundDouble n / d ≤ 2 * ⌈roundDouble (roundDouble n / d)⌉₊ := by linarith
    rw [div_le_iff₀ hdq] at hle
    have hfinal : (n : ℚ) ≤ 4 * (d * ⌈roundDouble (roundDouble n / d)⌉₊) := by linarith
    exact_mod_cast hfinal

theorem ceil_roundDouble_pos {n d : Nat} (hn : 0 < n) (hd : 0 < d) :
    1 ≤ ⌈roundDouble (roundDouble n / d)⌉₊ := by
  by_contra hzero
  have hle := le_mul_ceil_roundDouble (n := n) hd
  rw [Nat.eq_zero_of_not_pos hzero] at hle
  omega

/-- The last dimension is split. -/
theorem findSplit_eq_some {bb : Bbox} {total : Nat} (hdims : 0 < bb.numDims)
    (hextent : 0 < bboxDist bb (bb.numDims - 1)) (htotal : 0 < total) {split : Nat × Nat} :
    findSplit bb total bb.numDims = some split ↔
      blockSize bb total (bb.numDims - 1) = some split.2 ∧ split.1 = bb.numDims - 1 := by
  obtain ⟨k, hk⟩ := Nat.exists_eq_succ_of_ne_zero hdims.ne'
  rw [hk, Nat.succ_eq_add_one, Nat.add_sub_cancel] at hextent ⊢
  rw [findSplit, bind_eq_some_iff]
  constructor
  · rintro ⟨b, hb, hsplit⟩
    obtain ⟨-, rfl⟩ := toInt_eq_some.1 hb
    rw [if_pos (ceil_roundDouble_pos hextent htotal)] at hsplit
    obtain rfl := some.inj hsplit
    exact ⟨hb, rfl⟩
  · rintro ⟨hb, hdim⟩
    refine ⟨_, hb, ?_⟩
    obtain ⟨-, hval⟩ := toInt_eq_some.1 hb
    rw [if_pos (hval ▸ ceil_roundDouble_pos hextent htotal), ← hdim]

/-- Where the code is defined, the doubles are exact. -/
theorem blockSize_eq_some {bb : Bbox} {total i b : Nat} (htotal : 0 < total)
    (hint : total < 2 ^ 31 ∧ (total - 1) * b < 2 ^ 31) :
    blockSize bb total i = some b ↔ b < 2 ^ 31 ∧ bboxDist bb i ⌈/⌉ total = b := by
  have hsum : total * b = (total - 1) * b + b := by
    rw [← Nat.succ_mul, Nat.succ_eq_add_one, Nat.sub_add_cancel htotal]
  have hexact : bboxDist bb i < 2 ^ 53 →
      ⌈roundDouble (roundDouble (bboxDist bb i) / total)⌉₊ = bboxDist bb i ⌈/⌉ total := by
    intro hlt
    rw [roundDouble_natCast hlt, ceil_roundDouble_div hlt htotal]
  rw [blockSize, toInt_eq_some]
  constructor
  · rintro ⟨hlt, hb⟩
    have hle := le_mul_ceil_roundDouble (n := bboxDist bb i) htotal
    rw [hb] at hle hlt
    refine ⟨hlt, ?_⟩
    rw [← hexact (by omega), hb]
  · rintro ⟨hlt, hb⟩
    have hle := le_smul_ceilDiv (b := bboxDist bb i) htotal
    rw [hb, smul_eq_mul] at hle
    rw [hexact (by omega), hb]
    exact ⟨hlt, rfl⟩

/-- `slice * E / limit` blocks of `E`, divided by that number and rounded up, that fill `E` without an empty
one: their number divides `E`, and the limit divides the size unless already a slice is above it. -/
theorem dvd_of_bounds {slice E limit T b : Nat} (hE : 0 < E) (hT : T = slice * E / limit)
    (hlarge : limit < slice * E) (hlimit : 0 < limit) (hbE : b ≤ E) (hstart : (T - 1) * b < E)
    (hend : E ≤ T * b) (hsmall : slice ≤ limit → slice * b ≤ limit) :
    T * b = E ∧ (slice ≤ limit → limit ∣ slice * E) := by
  have hmul : T * limit ≤ slice * E := hT ▸ Nat.div_mul_le_self _ _
  have hTpos : 0 < T := hT ▸ Nat.div_pos hlarge.le hlimit
  rcases Nat.lt_or_ge limit slice with hslice | hslice
  · -- There are at least as many blocks as slices, and the last one is not empty.
    have hle : E ≤ T := by
      rw [hT, Nat.le_div_iff_mul_le hlimit, Nat.mul_comm]
      exact Nat.mul_le_mul_right E hslice.le
    have hb : 0 < b := Nat.pos_of_ne_zero fun hzero => by simp [hzero] at hend; omega
    have hlast : T - 1 ≤ (T - 1) * b := Nat.le_mul_of_pos_right _ hb
    obtain rfl : T = E := by omega
    have hone : b = 1 := by
      by_contra hne
      have htwo : (T - 1) * 2 ≤ (T - 1) * b := Nat.mul_le_mul_left _ (by omega)
      omega
    exact ⟨by rw [hone, Nat.mul_one], fun hno => absurd hno (Nat.not_le.2 hslice)⟩
  · -- Full blocks carry at most the whole array, and at least that.
    have hupper : T * (slice * b) ≤ T * limit := Nat.mul_le_mul_left T (hsmall hslice)
    have hlower : slice * E ≤ slice * (T * b) := Nat.mul_le_mul_left slice hend
    have hsame : slice * (T * b) = slice * E := by
      rw [Nat.mul_left_comm] at hlower ⊢
      omega
    have hslicePos : 0 < slice := Nat.pos_of_ne_zero fun hzero => by simp [hzero] at hlarge
    refine ⟨Nat.eq_of_mul_eq_mul_left hslicePos hsame, fun _ => ⟨T, ?_⟩⟩
    rw [Nat.mul_left_comm] at hsame
    rw [Nat.mul_comm limit]
    omega

end

/-! ## Slabs -/

section

variable {odsc : ObjDescriptor} (hfits : ArrayFits odsc.bb odsc.size) (hwf : odsc.bb.Wf)

/-- Some slices of an array, along the last dimension. -/
structure Slab (bb b : Bbox) : Prop where
  numDims_eq : b.numDims = bb.numDims
  other : ∀ j, j ≠ bb.numDims - 1 → b.lb j = bb.lb j ∧ b.ub j = bb.ub j
  last : bb.lb (bb.numDims - 1) ≤ b.lb (bb.numDims - 1) ∧
    b.lb (bb.numDims - 1) ≤ b.ub (bb.numDims - 1) ∧ b.ub (bb.numDims - 1) ≤ bb.ub (bb.numDims - 1)

theorem Slab.inside {bb b : Bbox} (h : Slab bb b) : b.Inside bb := by
  refine ⟨h.numDims_eq, fun j _ => ?_⟩
  by_cases hj : j = bb.numDims - 1
  · have hlast := h.last
    rw [hj]
    omega
  · have hother := h.other j hj
    omega

theorem Slab.wf {bb b : Bbox} (h : Slab bb b) (hwf : bb.Wf) : b.Wf := by
  intro j hj
  by_cases hjd : j = bb.numDims - 1
  · rw [hjd]
    exact h.last.2.1
  · have hother := h.other j hjd
    have hle := hwf j (h.numDims_eq ▸ hj)
    omega

include hfits hwf

/-- The bytes of a slab are those of its slices. -/
theorem objDataSize_slab {b : Bbox} (h : Slab odsc.bb b) :
    objDataSize { odsc with bb := b } = odsc.size *
      (∏ j ∈ Finset.range (odsc.bb.numDims - 1), bboxDist odsc.bb j) *
        (b.ub (odsc.bb.numDims - 1) + 1 - b.lb (odsc.bb.numDims - 1)) := by
  have hpos := hfits.dims_pos
  have hlast : bboxDist b (odsc.bb.numDims - 1) =
      b.ub (odsc.bb.numDims - 1) + 1 - b.lb (odsc.bb.numDims - 1) :=
    bboxDist_eq h.last.2.1 (hfits.ub_lt h.inside _ (by rw [h.numDims_eq]; omega))
  have hother : ∀ j ∈ Finset.range (odsc.bb.numDims - 1), bboxDist b j = bboxDist odsc.bb j := by
    intro j hj
    obtain ⟨hlb, hub⟩ := h.other j (Nat.ne_of_lt (Finset.mem_range.1 hj))
    rw [bboxDist, bboxDist, coordDist, coordDist, hlb, hub]
  have hsize := ArrayFits.objDataSize_eq (d := { odsc with bb := b }) hfits h.inside (h.wf hwf)
  simp only [h.numDims_eq] at hsize
  rw [hsize, ← Nat.sub_add_cancel hpos, Finset.prod_range_succ, Nat.add_sub_cancel, hlast,
    Finset.prod_congr rfl hother, Nat.mul_assoc]

theorem splitExtent_eq :
    splitExtent odsc = odsc.bb.ub (odsc.bb.numDims - 1) + 1 - odsc.bb.lb (odsc.bb.numDims - 1) := by
  have hpos := hfits.dims_pos
  exact bboxDist_eq (hwf _ (by omega)) (hfits.coord_lt _ (by omega))

theorem sliceSize_eq : sliceSize odsc =
    odsc.size * ∏ j ∈ Finset.range (odsc.bb.numDims - 1), bboxDist odsc.bb j := by
  have hpos := hfits.dims_pos
  have hle := hwf (odsc.bb.numDims - 1) (by omega)
  have hub : (sliceBox odsc.bb).ub (odsc.bb.numDims - 1) = odsc.bb.lb (odsc.bb.numDims - 1) := update_self ..
  have hslab : Slab odsc.bb (sliceBox odsc.bb) :=
    ⟨rfl, fun j hj => ⟨rfl, update_of_ne hj _ _⟩, le_rfl, hub.ge, hub.trans_le hle⟩
  rw [sliceSize, objDataSize_slab hfits hwf hslab, hub]
  show _ * (odsc.bb.lb (odsc.bb.numDims - 1) + 1 - odsc.bb.lb (odsc.bb.numDims - 1)) = _
  rw [Nat.add_sub_cancel_left, Nat.mul_one]

theorem objDataSize_eq_slices {b : Bbox} (h : Slab odsc.bb b) :
    objDataSize { odsc with bb := b } =
      sliceSize odsc * (b.ub (odsc.bb.numDims - 1) + 1 - b.lb (odsc.bb.numDims - 1)) := by
  rw [objDataSize_slab hfits hwf h, sliceSize_eq hfits hwf]

theorem objDataSize_eq_sliceSize_mul : objDataSize odsc = sliceSize odsc * splitExtent odsc := by
  have hpos := hfits.dims_pos
  rw [splitExtent_eq hfits hwf]
  exact objDataSize_eq_slices hfits hwf (b := odsc.bb)
    ⟨rfl, fun _ _ => ⟨rfl, rfl⟩, le_rfl, hwf _ (by omega), le_rfl⟩

end

/-! ## Blocks -/

section

variable {odsc : ObjDescriptor} {data : Mem} {total b : Nat}

/-- Block number `i` of `b` slices. -/
def blockOf (odsc : ObjDescriptor) (data : Mem) (b i : Nat) : ObjData :=
  objDataAllocWithDataSplit { odsc with bb := blockBox odsc.bb (odsc.bb.numDims - 1) b i } data odsc

def blocksOf (odsc : ObjDescriptor) (data : Mem) (total b : Nat) : List ObjData :=
  (range total).map (blockOf odsc data b)

theorem mem_blocksOf {od : ObjData} :
    od ∈ blocksOf odsc data total b ↔ ∃ i < total, blockOf odsc data b i = od := by
  simp only [blocksOf, List.mem_map, mem_range]

variable (odsc data b) in
theorem blockOf_mem {i : Nat} (hi : i < total) : blockOf odsc data b i ∈ blocksOf odsc data total b :=
  mem_blocksOf.2 ⟨i, hi, rfl⟩

theorem blockBox_other {bb : Bbox} {i j : Nat} (hj : j ≠ bb.numDims - 1) :
    (blockBox bb (bb.numDims - 1) b i).lb j = bb.lb j ∧ (blockBox bb (bb.numDims - 1) b i).ub j = bb.ub j :=
  ⟨if_neg hj, if_neg hj⟩

theorem blockBox_lb (bb : Bbox) (i : Nat) : (blockBox bb (bb.numDims - 1) b i).lb (bb.numDims - 1) =
    (bb.lb (bb.numDims - 1) + i * b) % 2 ^ 64 := if_pos rfl

/-- The upper end is cut off at that of the array. -/
theorem blockBox_ub (bb : Bbox) (i : Nat) : (blockBox bb (bb.numDims - 1) b i).ub (bb.numDims - 1) =
    min (bb.ub (bb.numDims - 1)) (((bb.lb (bb.numDims - 1) + i * b) % 2 ^ 64 + b + 2 ^ 64 - 1) % 2 ^ 64) := by
  simp only [blockBox, if_true, Nat.min_def]
  split_ifs <;> omega

variable (hfits : ArrayFits odsc.bb odsc.size) (hwf : odsc.bb.Wf)

include hfits hwf

/-- If the blocks are as long as the array, none is cut off. -/
theorem blockBox_even (hb : 0 < b) (heven : total * b = splitExtent odsc) {i : Nat} (hi : i < total) :
    (blockBox odsc.bb (odsc.bb.numDims - 1) b i).lb (odsc.bb.numDims - 1) =
        odsc.bb.lb (odsc.bb.numDims - 1) + i * b ∧
      (blockBox odsc.bb (odsc.bb.numDims - 1) b i).ub (odsc.bb.numDims - 1) + 1 =
        odsc.bb.lb (odsc.bb.numDims - 1) + (i + 1) * b ∧
      odsc.bb.lb (odsc.bb.numDims - 1) + (i + 1) * b ≤ odsc.bb.ub (odsc.bb.numDims - 1) + 1 := by
  have hpos := hfits.dims_pos
  have hlt := hfits.coord_lt (odsc.bb.numDims - 1) (by omega)
  have hextent := splitExtent_eq hfits hwf
  have hle := hwf (odsc.bb.numDims - 1) (by omega)
  have hround : (i + 1) * b ≤ total * b := Nat.mul_le_mul_right b hi
  rw [blockBox_lb, blockBox_ub]
  rw [Nat.add_mul, Nat.one_mul] at hround ⊢
  rw [Nat.mod_eq_of_lt (by omega), show odsc.bb.lb (odsc.bb.numDims - 1) + i * b + b + 2 ^ 64 - 1 =
      odsc.bb.lb (odsc.bb.numDims - 1) + i * b + b - 1 + 2 ^ 64 by omega, Nat.add_mod_right,
    Nat.mod_eq_of_lt (by omega), Nat.min_def]
  split_ifs <;> omega

theorem slab_even (hb : 0 < b) (heven : total * b = splitExtent odsc) {i : Nat} (hi : i < total) :
    Slab odsc.bb (blockBox odsc.bb (odsc.bb.numDims - 1) b i) := by
  obtain ⟨hlb, hub, hle⟩ := blockBox_even hfits hwf hb heven hi
  rw [Nat.add_mul, Nat.one_mul] at hub hle
  exact ⟨rfl, fun j hj => blockBox_other hj, by omega, by omega, by omega⟩

/-- Blocks that are together as long as the array are a good split. -/
theorem goodSplit_of_even (hb : 0 < b) (heven : total * b = splitExtent odsc)
    (hlimit : sliceSize odsc ≤ shmemMaxSize → sliceSize odsc * b ≤ shmemMaxSize) :
    GoodSplit odsc (blocksOf odsc data total b) where
  nonempty := by
    intro od hod
    obtain ⟨i, hi, rfl⟩ := mem_blocksOf.1 hod
    exact (slab_even hfits hwf hb heven hi).wf hwf
  disjoint := by
    rw [blocksOf, pairwise_map]
    refine pairwise_lt_range.imp_of_mem fun {i i'} hi hi' hlt x hx => ?_
    have hpos := hfits.dims_pos
    obtain ⟨-, hub, -⟩ := blockBox_even hfits hwf hb heven (mem_range.1 hi)
    obtain ⟨hlb, -, -⟩ := blockBox_even hfits hwf hb heven (mem_range.1 hi')
    have hx1 := (hx.1 (odsc.bb.numDims - 1) (Nat.sub_lt hpos Nat.one_pos)).2
    have hx2 := (hx.2 (odsc.bb.numDims - 1) (Nat.sub_lt hpos Nat.one_pos)).1
    have hround : (i + 1) * b ≤ i' * b := Nat.mul_le_mul_right b hlt
    have hend : x (odsc.bb.numDims - 1) < odsc.bb.lb (odsc.bb.numDims - 1) + (i + 1) * b :=
      hub ▸ Nat.lt_succ_of_le hx1
    have hstart : odsc.bb.lb (odsc.bb.numDims - 1) + i' * b ≤ x (odsc.bb.numDims - 1) := hlb ▸ hx2
    omega
  union := by
    intro x
    constructor
    · intro hx
      have hpos := hfits.dims_pos
      have hxd := hx (odsc.bb.numDims - 1) (by omega)
      have hextent := splitExtent_eq hfits hwf
      -- The block of a cell is found by division.
      have hi : (x (odsc.bb.numDims - 1) - odsc.bb.lb (odsc.bb.numDims - 1)) / b < total := by
        apply Nat.div_lt_of_lt_mul
        rw [Nat.mul_comm, heven]
        omega
      obtain ⟨hlb, hub, -⟩ := blockBox_even hfits hwf hb heven hi
      refine ⟨_, blockOf_mem odsc data b hi, fun j hj => ?_⟩
      show (blockBox odsc.bb (odsc.bb.numDims - 1) b _).lb j ≤ x j ∧
        x j ≤ (blockBox odsc.bb (odsc.bb.numDims - 1) b _).ub j
      by_cases hjd : j = odsc.bb.numDims - 1
      · subst hjd
        have hlow := Nat.div_mul_le_self (x (odsc.bb.numDims - 1) - odsc.bb.lb (odsc.bb.numDims - 1)) b
        have hhigh := Nat.lt_mul_div_succ (x (odsc.bb.numDims - 1) - odsc.bb.lb (odsc.bb.numDims - 1)) hb
        rw [Nat.mul_comm] at hhigh
        omega
      · rw [(blockBox_other hjd).1, (blockBox_other hjd).2]
        exact hx j hj
    · rintro ⟨od, hod, hx⟩
      obtain ⟨i, hi, rfl⟩ := mem_blocksOf.1 hod
      exact (slab_even hfits hwf hb heven hi).inside.mem hx
  limited := by
    intro hslice od hod
    obtain ⟨i, hi, rfl⟩ := mem_blocksOf.1 hod
    obtain ⟨hlb, hub, -⟩ := blockBox_even hfits hwf hb heven hi
    have hsize := objDataSize_eq_slices hfits hwf (slab_even hfits hwf hb heven hi)
    rw [hlb, hub, Nat.add_mul, Nat.one_mul, ← Nat.add_assoc, Nat.add_sub_cancel_left] at hsize
    exact hsize.trans_le (hlimit hslice)

/-- What the blocks of a good split have in common: the last one starts inside the array, they reach its
end, and the first one has all its slices. -/
theorem even_bounds_of_goodSplit (hb : 0 < b) (htotal : 0 < total) (hblt : b < 2 ^ 31)
    (hstart : (total - 1) * b < 2 ^ 31) (hbe : b ≤ splitExtent odsc)
    (h : GoodSplit odsc (blocksOf odsc data total b)) :
    (total - 1) * b < splitExtent odsc ∧ splitExtent odsc ≤ total * b ∧
      (sliceSize odsc ≤ shmemMaxSize → sliceSize odsc * b ≤ shmemMaxSize) := by
  have hpos := hfits.dims_pos
  have hd : odsc.bb.numDims - 1 < odsc.bb.numDims := by omega
  have hlt := hfits.coord_lt _ hd
  have hle := hwf _ hd
  have hextent := splitExtent_eq hfits hwf
  -- The first cell of a block is a cell of the array.
  have hfirst : ∀ i < total, odsc.bb.lb (odsc.bb.numDims - 1) ≤
      (odsc.bb.lb (odsc.bb.numDims - 1) + i * b) % 2 ^ 64 ∧
        (odsc.bb.lb (odsc.bb.numDims - 1) + i * b) % 2 ^ 64 ≤ odsc.bb.ub (odsc.bb.numDims - 1) := by
    intro i hi
    have hmem := blockOf_mem odsc data b hi
    have hcell := (h.union _).2 ⟨_, hmem, (h.nonempty _ hmem).lb_mem⟩
    have hlast := hcell _ hd
    rw [← blockBox_lb]
    exact hlast
  refine ⟨?_, ?_, ?_⟩
  · have hlast := hfirst (total - 1) (by omega)
    omega
  · -- The last cell of the array is in some block.
    obtain ⟨od, hod, hcell⟩ := (h.union _).1 hwf.ub_mem
    obtain ⟨i, hi, rfl⟩ := mem_blocksOf.1 hod
    have hend : odsc.bb.ub (odsc.bb.numDims - 1) ≤
        (blockBox odsc.bb (odsc.bb.numDims - 1) b i).ub (odsc.bb.numDims - 1) := (hcell _ hd).2
    have hround : (i + 1) * b ≤ total * b := Nat.mul_le_mul_right b hi
    rw [blockBox_ub] at hend
    rw [Nat.add_mul, Nat.one_mul] at hround
    omega
  · intro hslice
    have hmem := blockOf_mem odsc data b htotal
    have hsome : (blockBox odsc.bb (odsc.bb.numDims - 1) b 0).lb (odsc.bb.numDims - 1) ≤
        (blockBox odsc.bb (odsc.bb.numDims - 1) b 0).ub (odsc.bb.numDims - 1) := h.nonempty _ hmem _ hd
    have hlb : (blockBox odsc.bb (odsc.bb.numDims - 1) b 0).lb (odsc.bb.numDims - 1) =
        odsc.bb.lb (odsc.bb.numDims - 1) := by
      rw [blockBox_lb]
      omega
    have hub : (blockBox odsc.bb (odsc.bb.numDims - 1) b 0).ub (odsc.bb.numDims - 1) + 1 =
        odsc.bb.lb (odsc.bb.numDims - 1) + b := by
      rw [hlb] at hsome
      rw [blockBox_ub] at hsome ⊢
      omega
    have hslab : Slab odsc.bb (blockBox odsc.bb (odsc.bb.numDims - 1) b 0) :=
      ⟨rfl, fun j hj => blockBox_other hj, hlb.ge, hsome, by omega⟩
    have hsmall : objDataSize { odsc with bb := blockBox odsc.bb (odsc.bb.numDims - 1) b 0 } ≤ shmemMaxSize :=
      h.limited hslice _ hmem
    rwa [objDataSize_eq_slices hfits hwf hslab, hlb, hub, Nat.add_sub_cancel_left] at hsmall

end

/-! ## The put -/

section

variable {odsc : ObjDescriptor} (hfits : ArrayFits odsc.bb odsc.size) (hwf : odsc.bb.Wf)
  (hlarge : shmemMaxSize < objDataSize odsc)

include hlarge

theorem splitCount_pos : 0 < splitCount odsc := Nat.div_pos hlarge.le (by decide)

include hfits hwf

/-- A large array is sent in blocks of `E / T` slices, rounded up, where the numbers are defined. -/
theorem commonDspacesPut_eq_some {data : Mem} {blocks : List ObjData} :
    commonDspacesPut odsc data = some blocks ↔
      (splitCount odsc < 2 ^ 31 ∧ splitExtent odsc ⌈/⌉ splitCount odsc < 2 ^ 31 ∧
        (splitCount odsc - 1) * (splitExtent odsc ⌈/⌉ splitCount odsc) < 2 ^ 31) ∧
      blocks = blocksOf odsc data (splitCount odsc) (splitExtent odsc ⌈/⌉ splitCount odsc) := by
  have hpos := hfits.dims_pos
  have hcount := splitCount_pos hlarge
  have hextent : 0 < bboxDist odsc.bb (odsc.bb.numDims - 1) := by
    have hle := hwf (odsc.bb.numDims - 1) (by omega)
    rw [show bboxDist odsc.bb (odsc.bb.numDims - 1) = splitExtent odsc from rfl, splitExtent_eq hfits hwf]
    omega
  rw [commonDspacesPut, if_neg (Nat.not_lt.2 hfits.dims_le), if_neg (Nat.not_le.2 hlarge), bind_eq_some_iff]
  constructor
  · rintro ⟨total, htotal, hrest⟩
    obtain ⟨hlt, rfl⟩ := totalBlocks_eq_some.1 htotal
    obtain ⟨⟨dim, b⟩, hsplit, hblocks⟩ := bind_eq_some_iff.1 hrest
    obtain ⟨hsize, rfl⟩ := (findSplit_eq_some hpos hextent hcount).1 hsplit
    rw [ite_none_right_eq_some] at hblocks
    obtain ⟨hstart, hblocks⟩ := hblocks
    obtain ⟨hb, rfl⟩ := (blockSize_eq_some hcount ⟨hlt, hstart⟩).1 hsize
    exact ⟨⟨hlt, hb, hstart⟩, (some.inj hblocks).symm⟩
  · rintro ⟨⟨hlt, hb, hstart⟩, rfl⟩
    refine ⟨_, totalBlocks_eq_some.2 ⟨hlt, rfl⟩, bind_eq_some_iff.2
      ⟨(odsc.bb.numDims - 1, _), (findSplit_eq_some hpos hextent hcount).2
        ⟨(blockSize_eq_some hcount ⟨hlt, hstart⟩).2 ⟨hb, rfl⟩, rfl⟩, ?_⟩⟩
    exact if_pos hstart

/-- The extent and the slices of a large array are not empty. -/
theorem sliceSize_pos_and_splitExtent_pos : 0 < sliceSize odsc ∧ 0 < splitExtent odsc := by
  rw [objDataSize_eq_sliceSize_mul hfits hwf] at hlarge
  exact CanonicallyOrderedAdd.mul_pos.1 (lt_of_le_of_lt (Nat.zero_le _) hlarge)

theorem block_bounds :
    0 < splitExtent odsc ⌈/⌉ splitCount odsc ∧ splitExtent odsc ⌈/⌉ splitCount odsc ≤ splitExtent odsc := by
  have hcount := splitCount_pos hlarge
  have hextent := (sliceSize_pos_and_splitExtent_pos hfits hwf hlarge).2
  have hcover : splitExtent odsc ≤ splitCount odsc * (splitExtent odsc ⌈/⌉ splitCount odsc) :=
    le_smul_ceilDiv hcount
  constructor
  · exact Nat.pos_of_mul_pos_left (lt_of_lt_of_le hextent hcover)
  · rw [ceilDiv_le_iff_le_mul hcount]
    exact Nat.le_mul_of_pos_left _ hcount

/-- The length of the blocks of an even split is an `int`. -/
theorem SplitsEvenly.block_lt (h : SplitsEvenly odsc) {b : Nat}
    (heven : splitExtent odsc = splitCount odsc * b) : b < 2 ^ 31 := by
  have hcount := splitCount_pos hlarge
  have hstart := h.start_lt
  rw [Nat.div_eq_of_eq_mul_right hcount heven] at hstart
  rcases Nat.lt_or_ge 1 (splitCount odsc) with hmany | hone
  · exact lt_of_le_of_lt (Nat.le_mul_of_pos_left b (Nat.sub_pos_of_lt hmany)) hstart
  · -- One block has less than twice the limit.
    have hlt : objDataSize odsc < 2 * shmemMaxSize :=
      (Nat.div_lt_iff_lt_mul (by decide)).1 (Nat.lt_succ_of_le hone)
    have hslice := (sliceSize_pos_and_splitExtent_pos hfits hwf hlarge).1
    have hle : splitExtent odsc ≤ objDataSize odsc :=
      objDataSize_eq_sliceSize_mul hfits hwf ▸ Nat.le_mul_of_pos_left _ hslice
    have hb : b ≤ splitExtent odsc := heven ▸ Nat.le_mul_of_pos_left b hcount
    unfold shmemMaxSize at hlt
    omega

/-- Its blocks have the size of the limit, if that is possible. -/
theorem SplitsEvenly.block_le (h : SplitsEvenly odsc) {b : Nat}
    (heven : splitExtent odsc = splitCount odsc * b) (hslice : sliceSize odsc ≤ shmemMaxSize) :
    sliceSize odsc * b ≤ shmemMaxSize := by
  obtain ⟨c, hc⟩ := h.full hslice
  have hcount_eq : splitCount odsc = c := by
    rw [splitCount, hc]
    exact Nat.mul_div_cancel_left c (by decide)
  -- Both are the size, divided by the number of blocks.
  rw [objDataSize_eq_sliceSize_mul hfits hwf, heven, ← hcount_eq, Nat.mul_left_comm,
    Nat.mul_comm shmemMaxSize] at hc
  exact (Nat.eq_of_mul_eq_mul_left (splitCount_pos hlarge) hc).le

/-- A put of a large array splits it well exactly when it splits it evenly. -/
theorem commonDspacesPut_splits_iff (data : Mem) :
    (∃ blocks, commonDspacesPut odsc data = some blocks ∧ GoodSplit odsc blocks) ↔ SplitsEvenly odsc := by
  have hcount := splitCount_pos hlarge
  have hsize := objDataSize_eq_sliceSize_mul hfits hwf
  have hextent := (sliceSize_pos_and_splitExtent_pos hfits hwf hlarge).2
  obtain ⟨hbpos, hbE⟩ := block_bounds hfits hwf hlarge
  constructor
  · rintro ⟨blocks, hput, hgood⟩
    obtain ⟨⟨hlt, hb, hstart⟩, rfl⟩ := (commonDspacesPut_eq_some hfits hwf hlarge).1 hput
    obtain ⟨hfirst, hend, hsmall⟩ := even_bounds_of_goodSplit hfits hwf hbpos hcount hb hstart hbE hgood
    obtain ⟨heven, hfull⟩ := dvd_of_bounds hextent (by rw [splitCount, hsize]) (hsize ▸ hlarge) (by decide) hbE
      hfirst hend hsmall
    refine ⟨⟨_, heven.symm⟩, hsize ▸ hfull, hlt, ?_⟩
    rwa [Nat.div_eq_of_eq_mul_right hcount heven.symm]
  · intro h
    obtain ⟨b, heven⟩ := h.dvd
    have hceil : splitExtent odsc ⌈/⌉ splitCount odsc = b := by
      rw [heven]
      exact smul_ceilDiv hcount b
    have hstart := h.start_lt
    rw [Nat.div_eq_of_eq_mul_right hcount heven] at hstart
    have hput := @commonDspacesPut_eq_some odsc hfits hwf hlarge data (blocksOf odsc data (splitCount odsc) b)
    rw [hceil] at hbpos hput
    refine ⟨_, hput.2 ⟨⟨h.count_lt, h.block_lt hfits hwf hlarge heven, hstart⟩, rfl⟩, ?_⟩
    exact goodSplit_of_even hfits hwf hbpos heven.symm (h.block_le hfits hwf hlarge heven)

end

/-- An array of `4096 × 4096 × n` numbers of eight bytes: a slice is half of the limit. -/
def cubeObject (n : Nat) : ObjDescriptor :=
  ⟨"field", .columnMajor, 0, 1, ⟨3, fun _ => 0, fun i => if i = 2 then n - 1 else 4095⟩, 8⟩

/-- Eight slices are four blocks of two. -/
theorem commonDspacesPut_splits_eight :
    ∃ blocks, commonDspacesPut (cubeObject 8) (fun _ => none) = some blocks ∧
      GoodSplit (cubeObject 8) blocks := by
  refine (commonDspacesPut_splits_iff ⟨by decide, by decide, by decide, by decide⟩ (by decide) (by decide)
    (fun _ => none)).2 ?_
  exact ⟨by decide, by decide, by decide, by decide⟩

/-- Nine slices are four blocks of three: the fourth is empty, and the others are above the limit. -/
theorem commonDspacesPut_nine : ∃ blocks, commonDspacesPut (cubeObject 9) (fun _ => none) = some blocks ∧
      ¬ GoodSplit (cubeObject 9) blocks ∧ (∃ od ∈ blocks, ¬ od.objDesc.bb.Wf) ∧
      sliceSize (cubeObject 9) ≤ shmemMaxSize ∧ ∃ od ∈ blocks, shmemMaxSize < objDataSize od.objDesc := by
  have hput : commonDspacesPut (cubeObject 9) (fun _ => none) = some (blocksOf (cubeObject 9) _ _ _) :=
    (commonDspacesPut_eq_some ⟨by decide, by decide, by decide, by decide⟩ (by decide) (by decide)).2
      ⟨⟨by decide, by decide, by decide⟩, rfl⟩
  have hempty : ¬ (blockOf (cubeObject 9) (fun _ => none) 3 3).objDesc.bb.Wf := by
    show ¬ (blockBox (cubeObject 9).bb 2 3 3).Wf
    decide
  have hmem : ∀ i < 4, blockOf (cubeObject 9) (fun _ => none) 3 i ∈
      blocksOf (cubeObject 9) (fun _ => none) 4 3 := fun i hi => blockOf_mem _ _ _ hi
  refine ⟨_, hput, fun h => hempty (h.nonempty _ (hmem 3 (by decide))), ⟨_, hmem 3 (by decide), hempty⟩,
    by decide, _, hmem 0 (by decide), ?_⟩
  show shmemMaxSize < objDataSize { cubeObject 9 with bb := blockBox (cubeObject 9).bb 2 3 0 }
  decide

end DataSpaces.Shmem
