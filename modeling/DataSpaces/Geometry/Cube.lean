import Mathlib.Data.Nat.Bitwise
import DataSpaces.Geometry.Bbox
import DataSpaces.Lib.CubeCurve

/-!
# Aligned cubes on the space-filling curve

`bbox_flat` turns a cube whose side is a power of two into the interval between the smallest and the
largest Hilbert index of its corners, and `bbox_divide` cuts it in its halves along every dimension.

`hilbert_c2i` is vendored and enters as a parameter; `SfcSetup` states what is assumed of it. For an
aligned cube the interval of `bboxFlat` holds exactly the indices of the cube's cells
(`mem_bboxFlat_iff`): the running minimum and maximum share one comparison chain, so the largest index
is recorded only because it is never that of the corner visited first. The parts of `bboxDivide` are
aligned cubes again, and each cell lies in exactly one of them.
-/

namespace DataSpaces.Geometry

open Lib List

/-- What the modelled functions take from outside: the vendored curve, and the values that C leaves to
the platform. -/
structure Platform where
  /-- `hilbert_c2i(nDims, nBits, coord)`. -/
  hilbertC2i : (nDims nBits : Nat) → (Fin nDims → Nat) → Nat
  /-- Contents of an interval table entry that was never written. -/
  rawIntv : Intv
  /-- Contents of a box table that was never written. -/
  rawBbox : Nat → Bbox
  /-- Initial value of the local variable `dim` of `ssd_alloc_v2`. -/
  rawDim : Nat
  /-- `realloc` to size zero returns a null pointer. -/
  reallocZeroNull : Bool

/-- Number of bits of `n`, by at most `fuel` shifts. -/
def computeBitsLoop : Nat → Nat → Nat
  | 0, _ => 0
  | fuel + 1, n => if n = 0 then 0 else computeBitsLoop fuel (n / 2) + 1

def computeBits (n : Nat) : Nat := computeBitsLoop 64 n

/-- The first coordinates of a cell, as the curve takes them. -/
def Coord.restrict (n : Nat) (x : Coord) : Fin n → Nat := fun i => x i

variable (P : Platform)

/-- Index of a cell on the curve. -/
def sfcIndex (numDims bpd : Nat) (x : Coord) : Nat := P.hilbertC2i numDims bpd (x.restrict numDims)

/-- Corner `i` of a box: bit `j` of `i` selects the upper end along dimension `j`. -/
def flatCorner (bb : Bbox) (i : Nat) : Coord := fun j => if i.testBit j then bb.ub j else bb.lb j

def flatStep (itv : Intv) (index : Nat) : Intv :=
  if index < itv.lb then { itv with lb := index }
  else if index > itv.ub then { itv with ub := index }
  else itv

/-- Translate a box into a one-dimensional interval; the source assumes that the box is a cube whose
side is a power of two. -/
def bboxFlat (bb : Bbox) (bpd : Nat) : Intv :=
  (range (2 ^ bb.numDims)).foldl
    (fun itv i => flatStep itv (sfcIndex P bb.numDims bpd (flatCorner bb i))) ⟨2 ^ 64 - 1, 0⟩

variable {P}

/-! ## Bits of the virtual dimension -/

theorem computeBitsLoop_two_pow (k : Nat) : ∀ fuel, k < fuel → computeBitsLoop fuel (2 ^ k) = k + 1 := by
  induction k with
  | zero =>
    intro fuel hf
    obtain ⟨fuel, rfl⟩ : ∃ m, fuel = m + 1 := ⟨fuel - 1, by omega⟩
    cases fuel <;> simp [computeBitsLoop]
  | succ k ih =>
    intro fuel hf
    obtain ⟨fuel, rfl⟩ : ∃ m, fuel = m + 1 := ⟨fuel - 1, by omega⟩
    have hne : 2 ^ (k + 1) ≠ 0 := (Nat.two_pow_pos _).ne'
    have hhalf : 2 ^ (k + 1) / 2 = 2 ^ k := by rw [pow_succ, Nat.mul_div_cancel _ (by omega)]
    rw [computeBitsLoop, if_neg hne, hhalf, ih fuel (by omega)]

theorem computeBits_two_pow {k : Nat} (hk : k < 64) : computeBits (2 ^ k) = k + 1 :=
  computeBitsLoop_two_pow k 64 hk

/-! ## Aligned cubes as boxes -/

/-- `b` is an aligned cube of side `2 ^ k` inside `[0, 2 ^ K)` in every dimension. -/
structure IsCube (K k : Nat) (b : Bbox) : Prop where
  le_top : k ≤ K
  dvd_lb : ∀ i < b.numDims, 2 ^ k ∣ b.lb i
  side : ∀ i < b.numDims, b.ub i + 1 = b.lb i + 2 ^ k
  ub_lt : ∀ i < b.numDims, b.ub i < 2 ^ K

/-- The cell with the given first coordinates and zeros after them. -/
def Coord.extend {n : Nat} (y : Fin n → Nat) : Coord := fun j => if h : j < n then y ⟨j, h⟩ else 0

variable {n bpd u : Nat}

@[simp] theorem Coord.restrict_extend (y : Fin n → Nat) : (Coord.extend y).restrict n = y := by
  funext i
  simp [Coord.restrict, Coord.extend]

theorem mem_congr_restrict {b : Bbox} {x y : Coord}
    (h : x.restrict b.numDims = y.restrict b.numDims) : x ∈ b ↔ y ∈ b := by
  have hxy : ∀ i < b.numDims, x i = y i := fun i hi => congrFun h ⟨i, hi⟩
  constructor
  · intro hx i hi
    rw [← hxy i hi]
    exact hx i hi
  · intro hy i hi
    rw [hxy i hi]
    exact hy i hi

namespace IsCube

variable {K k : Nat} {b : Bbox} (h : IsCube K k b)

include h

theorem lb_le_ub : ∀ i < b.numDims, b.lb i ≤ b.ub i := by
  intro i hi
  have h1 := h.side i hi
  have h2 := Nat.two_pow_pos k
  omega

theorem alignedCube {bits : Nat} (hK : K ≤ bits) : AlignedCube bits k (b.lb.restrict b.numDims) := by
  refine ⟨le_trans h.le_top hK, fun i => h.dvd_lb i i.2, fun i => ?_⟩
  have h1 := h.lb_le_ub i i.2
  have h2 := h.ub_lt i i.2
  have h3 : 2 ^ K ≤ 2 ^ bits := Nat.pow_le_pow_right (by omega) hK
  simp only [Coord.restrict]
  omega

theorem inCube_restrict_iff {x : Coord} :
    InCube k (b.lb.restrict b.numDims) (x.restrict b.numDims) ↔ x ∈ b := by
  constructor
  · intro hx i hi
    have h1 := hx ⟨i, hi⟩
    have h2 := h.side i hi
    simp only [Coord.restrict] at h1
    omega
  · intro hx i
    have h1 := hx i i.2
    have h2 := h.side i i.2
    simp only [Coord.restrict]
    omega

/-- The indices of the cells of a cube, over cells of either kind. -/
theorem exists_mem_iff (idx : (Fin b.numDims → Nat) → Nat) (m : Nat) :
    (∃ x, x ∈ b ∧ idx (x.restrict b.numDims) = m) ↔
      ∃ y, InCube k (b.lb.restrict b.numDims) y ∧ idx y = m := by
  constructor
  · rintro ⟨x, hx, hm⟩
    exact ⟨_, h.inCube_restrict_iff.2 hx, hm⟩
  · rintro ⟨y, hy, hm⟩
    refine ⟨Coord.extend y, ?_, by rw [Coord.restrict_extend]; exact hm⟩
    rw [← h.inCube_restrict_iff, Coord.restrict_extend]
    exact hy

/-- Every corner of the cube is one of the corners that `bboxFlat` visits. -/
theorem exists_flatCorner {c : Fin b.numDims → Nat} (hc : IsCorner k (b.lb.restrict b.numDims) c) :
    ∃ i < 2 ^ b.numDims, (flatCorner b i).restrict b.numDims = c := by
  let f : Fin b.numDims → Bool := fun j => decide (c j = b.ub j)
  refine ⟨Nat.ofBits f, Nat.ofBits_lt_two_pow f, ?_⟩
  funext j
  have h1 := h.side j j.2
  have hbit : (Nat.ofBits f).testBit j = decide (c j = b.ub j) := by
    simp [f]
  simp only [Coord.restrict, flatCorner, hbit]
  rcases hc j with hj | hj
  · simp only [Coord.restrict] at hj
    by_cases hub : c j = b.ub j
    · simp [hub]
    · rw [decide_eq_false hub]
      exact hj.symm
  · simp only [Coord.restrict] at hj
    have hub : c j = b.ub j := by omega
    simp [hub]

theorem flatCorner_mem (i : Nat) : flatCorner b i ∈ b := by
  intro j hj
  have h1 := h.lb_le_ub j hj
  simp only [flatCorner]
  split <;> omega

end IsCube

/-! ## Flattening a cube -/

/-- What is assumed of the curve on a virtual cube of side `2 ^ K` in `n` dimensions. The source
numbers the bits of `2 ^ K`, so it calls the curve with one bit more than the cube needs. -/
structure SfcSetup (P : Platform) (n K : Nat) : Prop where
  dims_pos : 0 < n
  top_le : K ≤ 31
  bits_le : n * (K + 1) ≤ 64
  curve : CubeCurve n (K + 1) (P.hilbertC2i n (K + 1))

variable (itv : Intv) (index : Nat)

theorem flatStep_lb : (flatStep itv index).lb = min itv.lb index := by
  unfold flatStep
  split
  · simp only
    omega
  · split
    · simp only
      omega
    · omega

theorem flatStep_ub :
    (flatStep itv index).ub = if index < itv.lb then itv.ub else max itv.ub index := by
  unfold flatStep
  split
  · rfl
  · split
    · simp only
      omega
    · omega

theorem foldl_flatStep_lb {s : Nat} : ∀ (l : List Nat) (itv : Intv), s ≤ itv.lb →
    (∀ m ∈ l, s ≤ m) → s = itv.lb ∨ s ∈ l → (l.foldl flatStep itv).lb = s := by
  intro l
  induction l with
  | nil =>
    intro itv _ _ hs
    simpa [eq_comm] using hs
  | cons a l ih =>
    intro itv hle hall hs
    have ha := hall a mem_cons_self
    rw [foldl_cons]
    apply ih
    · rw [flatStep_lb]
      omega
    · exact fun m hm => hall m (mem_cons_of_mem _ hm)
    · rw [flatStep_lb]
      rw [mem_cons] at hs
      rcases hs with hs | hs | hs
      · left
        omega
      · left
        omega
      · exact Or.inr hs

theorem foldl_flatStep_ub {t : Nat} : ∀ (l : List Nat) (itv : Intv), itv.lb ≤ t → itv.ub ≤ t →
    (∀ m ∈ l, m ≤ t) → itv.ub = t ∨ t ∈ l → (l.foldl flatStep itv).ub = t := by
  intro l
  induction l with
  | nil =>
    intro itv _ _ _ ht
    simpa using ht
  | cons a l ih =>
    intro itv hlb hub hall ht
    have ha := hall a mem_cons_self
    rw [foldl_cons]
    apply ih
    · rw [flatStep_lb]
      omega
    · rw [flatStep_ub]
      split <;> omega
    · exact fun m hm => hall m (mem_cons_of_mem _ hm)
    · rw [flatStep_ub]
      rw [mem_cons] at ht
      rcases ht with ht | ht | ht
      · left
        split <;> omega
      -- The largest index is never below the running minimum, so it reaches the second test.
      · left
        split <;> omega
      · exact Or.inr ht

/-- The indices of the corners of a box, in the order in which `bboxFlat` visits them. -/
def cornerIndices (P : Platform) (b : Bbox) (bpd : Nat) : List Nat :=
  (range (2 ^ b.numDims)).map fun i => sfcIndex P b.numDims bpd (flatCorner b i)

theorem bboxFlat_eq_foldl (b : Bbox) (bpd : Nat) :
    bboxFlat P b bpd = (cornerIndices P b bpd).foldl flatStep ⟨2 ^ 64 - 1, 0⟩ := by
  rw [bboxFlat, cornerIndices, foldl_map]

/-- The first corner visited is the lowest one. -/
theorem cornerIndices_eq_cons (b : Bbox) (bpd : Nat) :
    ∃ rest, cornerIndices P b bpd = sfcIndex P b.numDims bpd b.lb :: rest ∧
      ∀ i, 0 < i → i < 2 ^ b.numDims → sfcIndex P b.numDims bpd (flatCorner b i) ∈ rest := by
  obtain ⟨N, hN⟩ : ∃ N, 2 ^ b.numDims = N + 1 :=
    ⟨2 ^ b.numDims - 1, by have := Nat.two_pow_pos b.numDims; omega⟩
  have h0 : flatCorner b 0 = b.lb := by
    funext j
    simp [flatCorner]
  refine ⟨((range N).map Nat.succ).map fun i => sfcIndex P b.numDims bpd (flatCorner b i), ?_, ?_⟩
  · rw [cornerIndices, hN, range_succ_eq_map, map_cons, h0]
  · intro i hi hlt
    refine mem_map.2 ⟨i, mem_map.2 ⟨i - 1, ?_, by omega⟩, rfl⟩
    rw [mem_range]
    omega

theorem sfcIndex_zero_dims (hzero : n = 0) (horigin : P.hilbertC2i n bpd (fun _ => 0) = 0)
    (x : Coord) : sfcIndex P n bpd x = 0 := by
  subst hzero
  have hx : x.restrict 0 = fun _ => 0 := Subsingleton.elim _ _
  rw [sfcIndex, hx, horigin]

/-- Without dimensions there is one cell, which leaves the upper end at its first value. -/
theorem bboxFlat_zero_dims {b : Bbox} (hzero : b.numDims = 0)
    (horigin : P.hilbertC2i b.numDims bpd (fun _ => 0) = 0) : bboxFlat P b bpd = ⟨0, 0⟩ := by
  simp only [bboxFlat, sfcIndex_zero_dims hzero horigin]
  rw [hzero]
  rfl

section

variable {K k : Nat} {b : Bbox} (hbits : b.numDims * (K + 1) ≤ 64)
  (hcurve : CubeCurve b.numDims (K + 1) (P.hilbertC2i b.numDims (K + 1))) (h : IsCube K k b)

include hbits hcurve in
theorem sfcIndex_lt {x : Coord} (hx : ∀ i < b.numDims, x i < 2 ^ K) :
    sfcIndex P b.numDims (K + 1) x < 2 ^ 63 := by
  have hlt := hcurve.idx_lt_of_inGrid (k := K) (Nat.le_succ K) (x := x.restrict b.numDims) fun i => hx i i.2
  have hle : K * b.numDims ≤ 63 := by
    rcases Nat.eq_zero_or_pos b.numDims with hzero | hpos
    · rw [hzero, Nat.mul_zero]
      omega
    · rw [Nat.mul_add, Nat.mul_one, Nat.mul_comm] at hbits
      omega
  exact lt_of_lt_of_le hlt (Nat.pow_le_pow_right (by omega) hle)

include hcurve h in
/-- The index interval of a cube ends at corners, the last of which is not the first visited. -/
theorem exists_corner_bounds (hpos : 0 < b.numDims) :
    ∃ lo hi, (∀ m, (∃ x, x ∈ b ∧ sfcIndex P b.numDims (K + 1) x = m) ↔ lo ≤ m ∧ m ≤ hi) ∧
      lo ∈ cornerIndices P b (K + 1) ∧
      ∃ i, 0 < i ∧ i < 2 ^ b.numDims ∧ sfcIndex P b.numDims (K + 1) (flatCorner b i) = hi := by
  obtain ⟨a, c, ha, hc, himg, hne⟩ := hcurve.exists_ends (h.alignedCube (Nat.le_succ K))
  obtain ⟨i, hi, hia⟩ := h.exists_flatCorner ha
  obtain ⟨j, hj, hjc⟩ := h.exists_flatCorner hc
  refine ⟨P.hilbertC2i _ (K + 1) a, P.hilbertC2i _ (K + 1) c, fun m =>
    (h.exists_mem_iff (P.hilbertC2i b.numDims (K + 1)) m).trans (himg m),
    mem_map.2 ⟨i, mem_range.2 hi, by rw [sfcIndex, hia]⟩, ?_⟩
  rcases Nat.eq_zero_or_pos k with hk | hk
  -- A single cell: every corner is that cell, so corner `1` serves.
  · refine ⟨1, Nat.one_pos, Nat.one_lt_two_pow hpos.ne', ?_⟩
    rw [sfcIndex, ← hjc]
    congr 1
    funext l
    have h1 := h.side l l.2
    rw [hk, pow_zero] at h1
    have h2 : b.ub l = b.lb l := by omega
    simp [Coord.restrict, flatCorner, h2]
  · refine ⟨j, ?_, hj, by rw [sfcIndex, hjc]⟩
    rcases Nat.eq_zero_or_pos j with rfl | hpos
    · refine absurd ?_ (hne hk hpos)
      rw [← hjc]
      congr 1
      funext l
      simp [Coord.restrict, flatCorner]
    · exact hpos

include hbits hcurve h

theorem mem_bboxFlat_iff_of_pos (hpos : 0 < b.numDims) (m : Nat) :
    (bboxFlat P b (K + 1)).lb ≤ m ∧ m ≤ (bboxFlat P b (K + 1)).ub ↔
      ∃ x, x ∈ b ∧ sfcIndex P b.numDims (K + 1) x = m := by
  obtain ⟨lo, hi, himg, hlow, i, hi0, hilt, hlast⟩ := exists_corner_bounds hcurve h hpos
  obtain ⟨rest, hcons, hrest⟩ := cornerIndices_eq_cons (P := P) b (K + 1)
  -- All corners are numbered in an interval, and its ends are numbers of corners.
  have hmem : ∀ m ∈ cornerIndices P b (K + 1), (lo ≤ m ∧ m ≤ hi) ∧ m < 2 ^ 63 := by
    intro m hm
    obtain ⟨j, -, rfl⟩ := mem_map.1 hm
    have hj := h.flatCorner_mem j
    refine ⟨(himg _).1 ⟨_, hj, rfl⟩, sfcIndex_lt hbits hcurve fun l hl => ?_⟩
    exact lt_of_le_of_lt (hj l hl).2 (h.ub_lt l hl)
  have hlb : (bboxFlat P b (K + 1)).lb = lo := by
    rw [bboxFlat_eq_foldl]
    refine foldl_flatStep_lb _ _ ?_ (fun m hm => (hmem m hm).1.1) (Or.inr hlow)
    have := (hmem lo hlow).2
    simp only
    omega
  -- The first corner sets the lower end only, so the upper end must come from another one.
  have hub : (bboxFlat P b (K + 1)).ub = hi := by
    have hfirst := hmem _ (by rw [hcons]; exact mem_cons_self)
    rw [bboxFlat_eq_foldl, hcons, foldl_cons]
    apply foldl_flatStep_ub
    · rw [flatStep_lb]
      omega
    · rw [flatStep_ub]
      split <;> simp only <;> omega
    · exact fun m hm => (hmem m (by rw [hcons]; exact mem_cons_of_mem _ hm)).1.2
    · exact Or.inr (hlast ▸ hrest i hi0 hilt)
  rw [hlb, hub, himg m]

/-- The interval that `bbox_flat` computes for an aligned cube holds exactly the indices of the cells
of the cube. -/
theorem mem_bboxFlat_iff (m : Nat) : (bboxFlat P b (K + 1)).lb ≤ m ∧ m ≤ (bboxFlat P b (K + 1)).ub ↔
      ∃ x, x ∈ b ∧ sfcIndex P b.numDims (K + 1) x = m := by
  rcases Nat.eq_zero_or_pos b.numDims with hzero | hpos
  · rw [bboxFlat_zero_dims hzero hcurve.origin]
    constructor
    · rintro ⟨-, hm⟩
      refine ⟨b.lb, Bbox.Wf.lb_mem h.lb_le_ub, ?_⟩
      rw [sfcIndex_zero_dims hzero hcurve.origin]
      exact (Nat.le_zero.1 hm).symm
    · rintro ⟨x, -, rfl⟩
      rw [sfcIndex_zero_dims hzero hcurve.origin]
      exact ⟨le_rfl, le_rfl⟩
  · exact mem_bboxFlat_iff_of_pos hbits hcurve h hpos m

theorem bboxFlat_lb_le_ub : (bboxFlat P b (K + 1)).lb ≤ (bboxFlat P b (K + 1)).ub := by
  have h1 := (mem_bboxFlat_iff hbits hcurve h _).2 ⟨b.lb, Bbox.Wf.lb_mem h.lb_le_ub, rfl⟩
  omega

end

/-! ## Dividing a cube -/

theorem toInt32_of_lt (hu : u < 2 ^ 31) : toInt32 u = u := by
  unfold toInt32
  rw [Int.bmod_def]
  omega

theorem ofInt32_natCast (hu : u < 2 ^ 64) : ofInt32 (u : Int) = u := by
  unfold ofInt32
  omega

section

variable {K k : Nat} {b : Bbox} (hK : K ≤ 31) (h : IsCube K (k + 1) b)

include hK h

variable {j i : Nat} {x : Coord}

section

variable (hj : j < b.numDims)

include hj

/-- The two halves of a side, and its bound. -/
theorem cube_halves : b.ub j + 1 = b.lb j + 2 ^ k * 2 ∧ b.ub j < 2 ^ K ∧ 2 ^ K ≤ 2 ^ 31 ∧ 0 < 2 ^ k := by
  have hside := h.side j hj
  rw [pow_succ] at hside
  exact ⟨hside, h.ub_lt j hj, Nat.pow_le_pow_right (by omega) hK, Nat.two_pow_pos k⟩

theorem divideMid_eq : divideMid b j = ((b.lb j + 2 ^ k - 1 : Nat) : Int) := by
  obtain ⟨hside, hub, htop, hpos⟩ := cube_halves hK h hj
  have hmid : (b.lb j + b.ub j) % 2 ^ 64 / 2 = b.lb j + 2 ^ k - 1 := by omega
  rw [divideMid, hmid, toInt32_of_lt (by omega)]

theorem divideSub_lb : (divideSub b i).lb j = if i.testBit j then b.lb j + 2 ^ k else b.lb j := by
  obtain ⟨hside, hub, htop, hpos⟩ := cube_halves hK h hj
  simp only [divideSub, if_pos hj, divideMid_eq hK h hj]
  split
  · have hsucc : Int.bmod (((b.lb j + 2 ^ k - 1 : Nat) : Int) + 1) (2 ^ 32) =
        ((b.lb j + 2 ^ k : Nat) : Int) := by
      rw [Int.bmod_def]
      omega
    rw [hsucc, ofInt32_natCast (by omega)]
  · rfl

theorem divideSub_ub : (divideSub b i).ub j = if i.testBit j then b.ub j else b.lb j + 2 ^ k - 1 := by
  obtain ⟨hside, hub, htop, hpos⟩ := cube_halves hK h hj
  simp only [divideSub, if_pos hj, divideMid_eq hK h hj]
  split
  · rfl
  · rw [ofInt32_natCast (by omega)]

end

/-- The parts of an aligned cube are aligned cubes of half the side. -/
theorem IsCube.divideSub (i : Nat) : IsCube K k (divideSub b i) := by
  have hk := h.le_top
  refine ⟨by omega, fun j hj => ?_, fun j hj => ?_, fun j hj => ?_⟩
  all_goals
    have hj' : j < b.numDims := hj
    obtain ⟨hside, hub, htop, hpos⟩ := cube_halves hK h hj'
  · rw [divideSub_lb hK h hj']
    have hd : 2 ^ k ∣ b.lb j := dvd_trans (pow_dvd_pow 2 (Nat.le_succ k)) (h.dvd_lb j hj')
    split
    · exact Nat.dvd_add hd dvd_rfl
    · exact hd
  · rw [divideSub_lb hK h hj', divideSub_ub hK h hj']
    split <;> omega
  · rw [divideSub_ub hK h hj']
    split <;> omega

/-- A cell of the cube lies in the part whose number tells, for each dimension, which half it is in. -/
theorem mem_divideSub_iff :
    x ∈ Geometry.divideSub b i ↔ x ∈ b ∧ ∀ j < b.numDims, (i.testBit j = true ↔ b.lb j + 2 ^ k ≤ x j) := by
  have hbounds : ∀ j < b.numDims,
      ((Geometry.divideSub b i).lb j ≤ x j ∧ x j ≤ (Geometry.divideSub b i).ub j ↔
        (b.lb j ≤ x j ∧ x j ≤ b.ub j) ∧ (i.testBit j = true ↔ b.lb j + 2 ^ k ≤ x j)) := by
    intro j hj
    obtain ⟨hside, hub, htop, hpos⟩ := cube_halves hK h hj
    rw [divideSub_lb hK h hj, divideSub_ub hK h hj]
    cases hbit : i.testBit j
    · simp only [Bool.false_eq_true, if_false, false_iff]
      omega
    · simp only [if_true, true_iff]
      omega
  constructor
  · intro hx
    exact ⟨fun j hj => ((hbounds j hj).1 (hx j hj)).1, fun j hj => ((hbounds j hj).1 (hx j hj)).2⟩
  · rintro ⟨hx, hbit⟩ j hj
    exact (hbounds j hj).2 ⟨hx j hj, hbit j hj⟩

theorem exists_divideSub (hx : x ∈ b) : ∃ i < 2 ^ b.numDims, x ∈ Geometry.divideSub b i := by
  let f : Fin b.numDims → Bool := fun j => decide (b.lb j + 2 ^ k ≤ x j)
  refine ⟨Nat.ofBits f, Nat.ofBits_lt_two_pow f, (mem_divideSub_iff hK h).2 ⟨hx, fun j hj => ?_⟩⟩
  rw [Nat.testBit_ofBits_lt f j hj, decide_eq_true_eq]

theorem divideSub_unique {i' : Nat} (hi : i < 2 ^ b.numDims) (hi' : i' < 2 ^ b.numDims)
    (hx : x ∈ Geometry.divideSub b i) (hx' : x ∈ Geometry.divideSub b i') : i = i' := by
  apply Nat.eq_of_testBit_eq
  intro j
  by_cases hj : j < b.numDims
  · rw [Bool.eq_iff_iff, ((mem_divideSub_iff hK h).1 hx).2 j hj, ((mem_divideSub_iff hK h).1 hx').2 j hj]
  · have hpow : 2 ^ b.numDims ≤ 2 ^ j := Nat.pow_le_pow_right (by omega) (by omega)
    rw [Nat.testBit_lt_two_pow (by omega), Nat.testBit_lt_two_pow (by omega)]

end

end DataSpaces.Geometry
