import Mathlib.Algebra.BigOperators.Fin
import Mathlib.Logic.Function.Basic
import DataSpaces.Lib.Interval

/-!
# Bounding boxes

The data model of `bbox.h` and the box operations of `bbox.c`. A coordinate array is a function
from the dimension to an unsigned 64-bit value; a box reads the first `numDims` entries of its two
corners and nothing else. Arithmetic that can wrap in C is taken modulo `2 ^ 64`, and the midpoint
of `bbox_divide`, which the source keeps in an `int`, goes through a 32-bit signed conversion.

A box denotes a set of cells: `x ∈ b` when every coordinate of `x` lies between the two corners.
The tests of the source are related to cells by `bboxInclude_iff`, `bboxDoesIntersect_iff_exists_mem`
and `mem_bboxIntersect`. Bisection produces inverted boxes (lower corner one above the upper one);
the intersection test treats a box inverted in some dimension as the single layer at its lower
corner there, which is what `bboxDoesIntersect_iff_exists_hull` says.
-/

namespace DataSpaces.Geometry

open Lib List Function

/-- `struct coord`: one unsigned 64-bit number per dimension. -/
abbrev Coord := Nat → Nat

/-- `struct bbox`. -/
structure Bbox where
  numDims : Nat
  lb : Coord
  ub : Coord

/-- The largest value `--with-max-num-array-dimension` accepts for `BBOX_MAX_NDIM`. -/
def bboxMaxNdim : Nat := 10

/-! ## Operations of `bbox.c` -/

/-- Side length between two corners along `dim`, in unsigned 64-bit arithmetic. -/
def coordDist (c0 c1 : Coord) (dim : Nat) : Nat :=
  (c1 dim + 2 ^ 64 - c0 dim + 1) % 2 ^ 64

def bboxDist (bb : Bbox) (dim : Nat) : Nat :=
  coordDist bb.lb bb.ub dim

/-- Split `b0` in two along dimension `dim`. -/
def bboxDivideIn2Ondim (b0 : Bbox) (dim : Nat) : Bbox × Bbox :=
  let n := ((b0.lb dim + b0.ub dim) % 2 ^ 64) / 2
  ({ b0 with ub := update b0.ub dim n },
    { b0 with lb := update b0.lb dim ((n + 1) % 2 ^ 64) })

/-- Conversion of an unsigned 64-bit value to `int`. -/
def toInt32 (u : Nat) : Int := Int.bmod u (2 ^ 32)

/-- Conversion of an `int` back to an unsigned 64-bit value. -/
def ofInt32 (z : Int) : Nat := (z % 2 ^ 64).toNat

/-- The middle point of `bbox_divide`, held in the `int` variable `n`. -/
def divideMid (b0 : Bbox) (j : Nat) : Int :=
  toInt32 ((b0.lb j + b0.ub j) % 2 ^ 64 / 2)

/-- Entry `i` of the table that `bbox_divide` fills: bit `j` of `i` selects the half along
dimension `j`. Coordinates past `numDims` keep the zero of the cleared table. -/
def divideSub (b0 : Bbox) (i : Nat) : Bbox where
  numDims := b0.numDims
  lb := fun j =>
    if j < b0.numDims then
      if i.testBit j then ofInt32 (Int.bmod (divideMid b0 j + 1) (2 ^ 32)) else b0.lb j
    else 0
  ub := fun j =>
    if j < b0.numDims then
      if i.testBit j then b0.ub j else ofInt32 (divideMid b0 j)
    else 0

/-- Split a box in `2 ^ numDims` sub-boxes. -/
def bboxDivide (b0 : Bbox) : List Bbox :=
  (range (2 ^ b0.numDims)).map (divideSub b0)

/-- Test if `b0` includes `b1` along dimension `dim`. -/
def bboxIncludeOndim (b0 b1 : Bbox) (dim : Nat) : Bool :=
  decide (b0.lb dim ≤ b1.lb dim ∧ b0.ub dim ≥ b1.ub dim)

/-- Test if `b0` includes `b1` on all dimensions of `b0`. -/
def bboxInclude (b0 b1 : Bbox) : Bool :=
  (range b0.numDims).all (bboxIncludeOndim b0 b1)

/-- Test if `b0` and `b1` intersect along dimension `dim`. -/
def bboxIntersectOndim (b0 b1 : Bbox) (dim : Nat) : Bool :=
  decide ((b0.lb dim ≤ b1.lb dim ∧ b1.lb dim ≤ b0.ub dim) ∨
    (b1.lb dim ≤ b0.lb dim ∧ b0.lb dim ≤ b1.ub dim))

/-- Test if `b0` and `b1` intersect on all dimensions of `b0`. -/
def bboxDoesIntersect (b0 b1 : Bbox) : Bool :=
  (range b0.numDims).all (bboxIntersectOndim b0 b1)

/-- The intersection of `b0` and `b1`; the source assumes that they intersect. -/
def bboxIntersect (b0 b1 : Bbox) : Bbox where
  numDims := b0.numDims
  lb := fun i => if b0.lb i > b1.lb i then b0.lb i else b1.lb i
  ub := fun i => if b0.ub i < b1.ub i then b0.ub i else b1.ub i

/-- Test if two boxes are equal on their common number of dimensions. -/
def bboxEquals (bb0 bb1 : Bbox) : Bool :=
  decide (bb0.numDims = bb1.numDims) &&
    (range bb0.numDims).all fun i =>
      decide (bb0.lb i = bb1.lb i) && decide (bb0.ub i = bb1.ub i)

/-- Number of cells, in unsigned 64-bit arithmetic. -/
def bboxVolume (bb : Bbox) : Nat :=
  (range bb.numDims).foldl (fun n i => n * bboxDist bb i % 2 ^ 64) 1

/-- Test if the one-dimensional interval `i0` intersects `i1`. -/
def intvDoIntersect (i0 i1 : Intv) : Bool :=
  decide ((i0.lb ≤ i1.lb ∧ i1.lb ≤ i0.ub) ∨ (i1.lb ≤ i0.lb ∧ i0.lb ≤ i1.ub))

def intvSize (itv : Intv) : Nat :=
  (itv.ub + 2 ^ 64 - itv.lb + 1) % 2 ^ 64

theorem bboxVolume_eq_prod_mod (bb : Bbox) :
    bboxVolume bb = (∏ i : Fin bb.numDims, bboxDist bb i) % 2 ^ 64 := by
  have key : ∀ n, (range n).foldl (fun v i => v * bboxDist bb i % 2 ^ 64) 1 =
      (∏ i : Fin n, bboxDist bb i) % 2 ^ 64 := by
    intro n
    induction n with
    | zero => simp
    | succ n ih =>
      rw [range_succ, foldl_append, ih, foldl_cons, foldl_nil, Fin.prod_univ_castSucc, Nat.mod_mul_mod]
      rfl
  exact key bb.numDims

/-! ## Cells -/

/-- A cell lies in a box when each of the box's dimensions lies between the two corners. -/
instance : Membership Coord Bbox :=
  ⟨fun b x => ∀ i < b.numDims, b.lb i ≤ x i ∧ x i ≤ b.ub i⟩

variable {b b0 b1 : Bbox} {x : Coord}

theorem mem_iff : x ∈ b ↔ ∀ i < b.numDims, b.lb i ≤ x i ∧ x i ≤ b.ub i := Iff.rfl

/-- No side of the box is inverted. -/
def Bbox.Wf (b : Bbox) : Prop := ∀ i < b.numDims, b.lb i ≤ b.ub i

/-- `b` lies inside `d` and has its number of dimensions. -/
structure Bbox.Inside (b d : Bbox) : Prop where
  numDims_eq : b.numDims = d.numDims
  bounds : ∀ i < d.numDims, d.lb i ≤ b.lb i ∧ b.ub i ≤ d.ub i

instance (b : Bbox) : Decidable b.Wf :=
  inferInstanceAs (Decidable (∀ i < b.numDims, b.lb i ≤ b.ub i))

instance (b : Bbox) (x : Coord) : Decidable (x ∈ b) :=
  inferInstanceAs (Decidable (∀ i < b.numDims, b.lb i ≤ x i ∧ x i ≤ b.ub i))

theorem Bbox.Inside.refl (b : Bbox) : b.Inside b := ⟨rfl, fun _ _ => ⟨le_rfl, le_rfl⟩⟩

theorem Bbox.Inside.trans {c d : Bbox} (h : b.Inside c) (h' : c.Inside d) : b.Inside d := by
  refine ⟨h.numDims_eq.trans h'.numDims_eq, fun i hi => ?_⟩
  have hb := h.bounds i (h'.numDims_eq ▸ hi)
  have hc := h'.bounds i hi
  omega

theorem Bbox.Inside.mem {d : Bbox} (h : b.Inside d) (hx : x ∈ b) : x ∈ d := by
  intro i hi
  have hb := h.bounds i hi
  have hxi := hx i (by rw [h.numDims_eq]; exact hi)
  omega

theorem Bbox.Wf.lb_mem (h : b.Wf) : b.lb ∈ b := by
  intro i hi
  exact ⟨le_rfl, h i hi⟩

theorem Bbox.Wf.ub_mem (h : b.Wf) : b.ub ∈ b := by
  intro i hi
  exact ⟨h i hi, le_rfl⟩

/-- Lowering the upper end along one dimension keeps the cells up to the new end. -/
theorem mem_update_ub {d v : Nat} (hd : d < b.numDims) (hv : v ≤ b.ub d) :
    x ∈ ({ b with ub := update b.ub d v } : Bbox) ↔ x ∈ b ∧ x d ≤ v := by
  simp only [mem_iff, update_apply]
  constructor
  · intro h
    have hxd := h d hd
    rw [if_pos rfl] at hxd
    refine ⟨fun i hi => ?_, hxd.2⟩
    have hxi := h i hi
    split at hxi
    · rename_i hid
      subst hid
      exact ⟨hxi.1, le_trans hxi.2 hv⟩
    · exact hxi
  · rintro ⟨h, hle⟩ i hi
    refine ⟨(h i hi).1, ?_⟩
    split
    · rename_i hid
      exact hid ▸ hle
    · exact (h i hi).2

/-- Raising the lower end along one dimension keeps the cells from the new end on. -/
theorem mem_update_lb {d v : Nat} (hd : d < b.numDims) (hv : b.lb d ≤ v) :
    x ∈ ({ b with lb := update b.lb d v } : Bbox) ↔ x ∈ b ∧ v ≤ x d := by
  simp only [mem_iff, update_apply]
  constructor
  · intro h
    have hxd := h d hd
    rw [if_pos rfl] at hxd
    refine ⟨fun i hi => ?_, hxd.1⟩
    have hxi := h i hi
    split at hxi
    · rename_i hid
      subst hid
      exact ⟨le_trans hv hxi.1, hxi.2⟩
    · exact hxi
  · rintro ⟨h, hle⟩ i hi
    refine ⟨?_, (h i hi).2⟩
    split
    · rename_i hid
      exact hid ▸ hle
    · exact (h i hi).1

theorem Bbox.wf_of_mem (h : x ∈ b) : b.Wf := by
  intro i hi
  have := h i hi
  omega

/-! ## The tests in terms of coordinates and cells -/

theorem bboxInclude_iff :
    bboxInclude b0 b1 = true ↔ ∀ i < b0.numDims, b0.lb i ≤ b1.lb i ∧ b1.ub i ≤ b0.ub i := by
  simp [bboxInclude, bboxIncludeOndim]

theorem bboxDoesIntersect_iff : bboxDoesIntersect b0 b1 = true ↔
      ∀ i < b0.numDims, (b0.lb i ≤ b1.lb i ∧ b1.lb i ≤ b0.ub i) ∨
        (b1.lb i ≤ b0.lb i ∧ b0.lb i ≤ b1.ub i) := by
  simp [bboxDoesIntersect, bboxIntersectOndim]

/-- The box that the intersection test sees: an inverted side counts as the single layer at its
lower corner. -/
def Bbox.hull (b : Bbox) : Bbox := { b with ub := fun i => max (b.lb i) (b.ub i) }

theorem Bbox.mem_hull (h : x ∈ b) : x ∈ b.hull := by
  intro i hi
  have := h i hi
  exact ⟨this.1, le_trans this.2 (le_max_right _ _)⟩

/-- For a well-formed `b0` the intersection test holds exactly when `b0` has a cell in the hull of
`b1`; no assumption on `b1` is needed. -/
theorem bboxDoesIntersect_iff_exists_hull (h0 : b0.Wf) (hd : b0.numDims = b1.numDims) :
    bboxDoesIntersect b0 b1 = true ↔ ∃ x, x ∈ b0 ∧ x ∈ b1.hull := by
  rw [bboxDoesIntersect_iff]
  constructor
  · intro h
    -- The larger of the two lower corners is a common cell.
    refine ⟨fun i => max (b0.lb i) (b1.lb i), fun i hi => ?_, fun i hi => ?_⟩
    · have h1 := h i hi
      have h2 := h0 i hi
      simp only
      omega
    · have hi' : i < b0.numDims := by rw [hd]; exact hi
      have h1 := h i hi'
      simp only [Bbox.hull]
      omega
  · rintro ⟨x, hx0, hx1⟩ i hi
    have h1 := hx0 i hi
    have h2 := hx1 i (by simpa [Bbox.hull, ← hd] using hi)
    simp only [Bbox.hull] at h2
    omega

/-- For well-formed boxes of one dimension the intersection test holds exactly when they share a
cell. -/
theorem bboxDoesIntersect_iff_exists_mem (h0 : b0.Wf) (h1 : b1.Wf) (hd : b0.numDims = b1.numDims) :
    bboxDoesIntersect b0 b1 = true ↔ ∃ x, x ∈ b0 ∧ x ∈ b1 := by
  rw [bboxDoesIntersect_iff_exists_hull h0 hd]
  constructor
  · rintro ⟨x, hx0, hx1⟩
    refine ⟨x, hx0, fun i hi => ?_⟩
    have h2 := hx1 i hi
    have h3 := h1 i hi
    simp only [Bbox.hull] at h2
    omega
  · rintro ⟨x, hx0, hx1⟩
    exact ⟨x, hx0, Bbox.mem_hull hx1⟩

theorem bboxInclude_iff_forall_mem (h1 : b1.Wf) (hd : b0.numDims = b1.numDims) :
    bboxInclude b0 b1 = true ↔ ∀ x, x ∈ b1 → x ∈ b0 := by
  rw [bboxInclude_iff]
  constructor
  · intro h x hx i hi
    have h2 := h i hi
    have h3 := hx i (by rw [← hd]; exact hi)
    omega
  · intro h i hi
    exact ⟨(h _ h1.lb_mem i hi).1, (h _ h1.ub_mem i hi).2⟩

theorem mem_bboxIntersect (hd : b0.numDims = b1.numDims) : x ∈ bboxIntersect b0 b1 ↔ x ∈ b0 ∧ x ∈ b1 := by
  constructor
  · intro h
    refine ⟨fun i hi => ?_, fun i hi => ?_⟩
    · have h1 := h i hi
      simp only [bboxIntersect] at h1
      split_ifs at h1 <;> omega
    · have h1 := h i (by rw [bboxIntersect, hd]; exact hi)
      simp only [bboxIntersect] at h1
      split_ifs at h1 <;> omega
  · rintro ⟨h0, h1⟩ i hi
    have h2 := h0 i hi
    have h3 := h1 i (by rw [← hd]; exact hi)
    simp only [bboxIntersect]
    split_ifs <;> omega

@[simp] theorem bboxIntersect_numDims (b0 b1 : Bbox) : (bboxIntersect b0 b1).numDims = b0.numDims := rfl

theorem bboxIntersect_inside (hd : b0.numDims = b1.numDims) : (bboxIntersect b0 b1).Inside b1 := by
  refine ⟨hd, fun i _ => ?_⟩
  simp only [bboxIntersect]
  split_ifs <;> omega

theorem bboxEquals_iff : bboxEquals b0 b1 = true ↔
      b0.numDims = b1.numDims ∧ ∀ i < b0.numDims, b0.lb i = b1.lb i ∧ b0.ub i = b1.ub i := by
  simp [bboxEquals]

theorem bboxEquals_refl (b : Bbox) : bboxEquals b b = true := by
  simp [bboxEquals_iff]

theorem mem_congr_of_bboxEquals (h : bboxEquals b0 b1 = true) : x ∈ b0 ↔ x ∈ b1 := by
  obtain ⟨hd, hc⟩ := bboxEquals_iff.1 h
  constructor
  · intro hx i hi
    rw [← hd] at hi
    have h1 := hx i hi
    have h2 := hc i hi
    omega
  · intro hx i hi
    have h1 := hx i (by rw [← hd]; exact hi)
    have h2 := hc i hi
    omega

theorem intvDoIntersect_iff {i0 i1 : Intv} (h0 : i0.lb ≤ i0.ub) (h1 : i1.lb ≤ i1.ub) :
    intvDoIntersect i0 i1 = true ↔ ∃ m, (i0.lb ≤ m ∧ m ≤ i0.ub) ∧ (i1.lb ≤ m ∧ m ≤ i1.ub) := by
  simp only [intvDoIntersect, decide_eq_true_eq]
  constructor
  · rintro (h | h)
    · exact ⟨i1.lb, by omega, by omega⟩
    · exact ⟨i0.lb, by omega, by omega⟩
  · rintro ⟨m, h2, h3⟩
    omega

theorem intvSize_eq {i : Intv} (h : i.lb ≤ i.ub) (hu : i.ub - i.lb + 1 < 2 ^ 64) :
    intvSize i = i.ub - i.lb + 1 := by
  unfold intvSize
  have e : i.ub + 2 ^ 64 - i.lb + 1 = i.ub - i.lb + 1 + 2 ^ 64 := by omega
  rw [e, Nat.add_mod_right, Nat.mod_eq_of_lt hu]

end DataSpaces.Geometry
