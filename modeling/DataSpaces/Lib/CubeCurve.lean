import Mathlib.Data.Fintype.BigOperators
import Mathlib.Data.Fintype.Pi
import Mathlib.Order.Interval.Finset.Nat
import Mathlib.Tactic

/-!
# Curves through a grid that map aligned cubes to intervals

A space-filling curve numbers the cells of the grid `{0, …, 2 ^ bits - 1} ^ n`. `CubeCurve` states
what is used of such a numbering: it is injective on the grid, numbers the origin `0`, moves to an
adjacent cell at each step, and maps every aligned cube of side `2 ^ k` onto an interval whose two
ends are numbers of corners of the cube.

From this follow: the interval of a cube of side `2 ^ k` has `2 ^ (k * n)` numbers
(`CubeCurve.card_image_cubeCells`) and starts at a multiple of that count (`CubeCurve.start_dvd`); the parity
of a number is the parity of the coordinate sum (`CubeCurve.parity`); and the last cell of a cube with more
than one cell is a corner other than the lowest one (`CubeCurve.exists_ends`).
-/

namespace DataSpaces.Lib

open Finset

variable {n : ℕ}

/-- The cells of the grid with `bits` bits per axis. -/
def InGrid (bits : ℕ) (x : Fin n → ℕ) : Prop := ∀ i, x i < 2 ^ bits

/-- The cells of the cube of side `2 ^ k` with lowest corner `p`. -/
def InCube (k : ℕ) (p x : Fin n → ℕ) : Prop := ∀ i, p i ≤ x i ∧ x i < p i + 2 ^ k

/-- `c` is a corner of the cube of side `2 ^ k` with lowest corner `p`. -/
def IsCorner (k : ℕ) (p c : Fin n → ℕ) : Prop := ∀ i, c i = p i ∨ c i = p i + 2 ^ k - 1

/-- A cube of the grid whose lowest corner is a multiple of its side in every axis. -/
structure AlignedCube (bits k : ℕ) (p : Fin n → ℕ) : Prop where
  le_bits : k ≤ bits
  aligned : ∀ i, 2 ^ k ∣ p i
  inGrid : ∀ i, p i < 2 ^ bits

/-- Two cells that differ by one in one axis and agree in the others. -/
def Adjacent (x y : Fin n → ℕ) : Prop :=
  ∃ i, (y i = x i + 1 ∨ x i = y i + 1) ∧ ∀ j, j ≠ i → x j = y j

/-- The assumptions on the numbering of the grid. -/
structure CubeCurve (n bits : ℕ) (idx : (Fin n → ℕ) → ℕ) : Prop where
  inj : ∀ x y, InGrid bits x → InGrid bits y → idx x = idx y → x = y
  origin : idx (fun _ => 0) = 0
  adjacent : ∀ x y, InGrid bits x → InGrid bits y → idx y = idx x + 1 → Adjacent x y
  cube : ∀ k p, AlignedCube bits k p → ∃ a b, IsCorner k p a ∧ IsCorner k p b ∧
    ∀ m, (∃ x, InCube k p x ∧ idx x = m) ↔ idx a ≤ m ∧ m ≤ idx b

/-! ## Cells of a cube -/

variable {bits k : ℕ} {p x : Fin n → ℕ}

theorem AlignedCube.add_le (h : AlignedCube bits k p) (i : Fin n) : p i + 2 ^ k ≤ 2 ^ bits := by
  have hdvd : 2 ^ k ∣ 2 ^ bits - p i := Nat.dvd_sub (pow_dvd_pow 2 h.le_bits) (h.aligned i)
  have hpos : 0 < 2 ^ bits - p i := by
    have := h.inGrid i
    omega
  have hle := Nat.le_of_dvd hpos hdvd
  have := h.inGrid i
  omega

theorem AlignedCube.inGrid_of_inCube (h : AlignedCube bits k p) (hx : InCube k p x) : InGrid bits x := by
  intro i
  have h1 := h.add_le i
  have h2 := hx i
  omega

theorem InCube.of_isCorner {c : Fin n → ℕ} (h : IsCorner k p c) : InCube k p c := by
  intro i
  have hpos : 0 < 2 ^ k := Nat.two_pow_pos k
  rcases h i with h | h <;> omega

/-- The lowest corner of the aligned cube of side `2 ^ k` that holds `x`. -/
def cubeBase (k : ℕ) (x : Fin n → ℕ) : Fin n → ℕ := fun i => x i / 2 ^ k * 2 ^ k

theorem alignedCube_cubeBase (hk : k ≤ bits) (hx : InGrid bits x) : AlignedCube bits k (cubeBase k x) := by
  refine ⟨hk, fun i => ⟨x i / 2 ^ k, by simp [cubeBase, Nat.mul_comm]⟩, fun i => ?_⟩
  exact lt_of_le_of_lt (Nat.div_mul_le_self _ _) (hx i)

theorem inCube_cubeBase (k : ℕ) (x : Fin n → ℕ) : InCube k (cubeBase k x) x := by
  intro i
  refine ⟨Nat.div_mul_le_self _ _, ?_⟩
  have h := Nat.lt_div_mul_add (a := x i) (Nat.two_pow_pos k)
  simpa [cubeBase] using h

/-- Two aligned cubes of one side that share a cell are equal. -/
theorem AlignedCube.eq_of_inCube {q : Fin n → ℕ} (hp : AlignedCube bits k p) (hq : AlignedCube bits k q)
    (hxp : InCube k p x) (hxq : InCube k q x) : p = q := by
  funext i
  obtain ⟨a, ha⟩ := hp.aligned i
  obtain ⟨b, hb⟩ := hq.aligned i
  have h1 := hxp i
  have h2 := hxq i
  have hpos : 0 < 2 ^ k := Nat.two_pow_pos k
  rw [ha] at h1 ⊢
  rw [hb] at h2 ⊢
  have hab : a < b + 1 := by
    refine Nat.lt_of_mul_lt_mul_left (a := 2 ^ k) ?_
    rw [Nat.mul_add, Nat.mul_one]
    omega
  have hba : b < a + 1 := by
    refine Nat.lt_of_mul_lt_mul_left (a := 2 ^ k) ?_
    rw [Nat.mul_add, Nat.mul_one]
    omega
  have : a = b := by omega
  rw [this]

/-- The cells of a cube as a finite set. -/
def cubeCells (k : ℕ) (p : Fin n → ℕ) : Finset (Fin n → ℕ) :=
  Fintype.piFinset fun i => Ico (p i) (p i + 2 ^ k)

theorem mem_cubeCells : x ∈ cubeCells k p ↔ InCube k p x := by
  simp [cubeCells, Fintype.mem_piFinset, InCube]

theorem card_cubeCells (k : ℕ) (p : Fin n → ℕ) : (cubeCells k p).card = 2 ^ (k * n) := by
  rw [cubeCells, Fintype.card_piFinset]
  simp [Nat.card_Ico, prod_const, pow_mul]

theorem Adjacent.sum_parity {y : Fin n → ℕ} (hxy : Adjacent x y) : (∑ i, y i) % 2 = (∑ i, x i + 1) % 2 := by
  obtain ⟨i, hi, hrest⟩ := hxy
  have hx := add_sum_erase univ x (mem_univ i)
  have hy := add_sum_erase univ y (mem_univ i)
  have hsame : ∑ j ∈ univ.erase i, x j = ∑ j ∈ univ.erase i, y j :=
    sum_congr rfl fun j hj => hrest j (ne_of_mem_erase hj)
  omega

/-! ## Consequences of the assumptions -/

namespace CubeCurve

variable {bits : ℕ} {idx : (Fin n → ℕ) → ℕ} (h : CubeCurve n bits idx)

include h

variable {k : ℕ} {p : Fin n → ℕ}

theorem card_image_cubeCells (hp : AlignedCube bits k p) :
    ((cubeCells k p).image idx).card = 2 ^ (k * n) := by
  rw [card_image_of_injOn, card_cubeCells]
  intro x hx y hy hxy
  rw [mem_coe, mem_cubeCells] at hx hy
  exact h.inj x y (hp.inGrid_of_inCube hx) (hp.inGrid_of_inCube hy) hxy

/-- The numbers of an aligned cube are an interval of `2 ^ (k * n)` numbers between two corners. -/
theorem exists_corners (hp : AlignedCube bits k p) :
    ∃ a b, IsCorner k p a ∧ IsCorner k p b ∧ idx b + 1 = idx a + 2 ^ (k * n) ∧
      ∀ m, (∃ x, InCube k p x ∧ idx x = m) ↔ idx a ≤ m ∧ m < idx a + 2 ^ (k * n) := by
  obtain ⟨a, b, ha, hb, himg⟩ := h.cube k p hp
  have hset : (cubeCells k p).image idx = Icc (idx a) (idx b) := by
    ext m
    rw [mem_image, mem_Icc, ← himg m]
    simp only [mem_cubeCells]
  have hcard := h.card_image_cubeCells hp
  rw [hset, Nat.card_Icc] at hcard
  have hab : idx a ≤ idx b := ((himg (idx a)).1 ⟨a, InCube.of_isCorner ha, rfl⟩).2
  have hlast : idx b + 1 = idx a + 2 ^ (k * n) := by omega
  refine ⟨a, b, ha, hb, hlast, fun m => ?_⟩
  rw [himg m]
  omega

/-- The cells of the lowest cube of side `2 ^ k` have the numbers below `2 ^ (k * n)`. -/
theorem idx_lt_of_inGrid (hk : k ≤ bits) {x : Fin n → ℕ} (hx : InGrid k x) : idx x < 2 ^ (k * n) := by
  have hp : AlignedCube (n := n) bits k (fun _ => 0) :=
    ⟨hk, fun _ => dvd_zero _, fun _ => Nat.two_pow_pos bits⟩
  obtain ⟨a, b, -, -, -, himg⟩ := h.exists_corners hp
  have h0 : idx a ≤ 0 := by
    refine ((himg 0).1 ⟨fun _ => 0, fun _ => ⟨le_rfl, by simp⟩, h.origin⟩).1
  have hx' := ((himg (idx x)).1 ⟨x, fun i => ⟨Nat.zero_le _, by simpa using hx i⟩, rfl⟩).2
  omega

/-- Every number below `2 ^ (bits * n)` is the number of a cell. -/
theorem exists_cell {m : ℕ} (hm : m < 2 ^ (bits * n)) : ∃ x, InGrid bits x ∧ idx x = m := by
  have hp : AlignedCube (n := n) bits bits (fun _ => 0) :=
    ⟨le_rfl, fun _ => dvd_zero _, fun _ => Nat.two_pow_pos bits⟩
  obtain ⟨a, b, -, -, -, himg⟩ := h.exists_corners hp
  have h0 : idx a ≤ 0 := by
    refine ((himg 0).1 ⟨fun _ => 0, fun _ => ⟨le_rfl, by simp⟩, h.origin⟩).1
  obtain ⟨x, hx, hxm⟩ := (himg m).2 ⟨by omega, by omega⟩
  exact ⟨x, hp.inGrid_of_inCube hx, hxm⟩

/-- The grid has no more cells than numbers. -/
theorem mul_le_of_idx_lt {w : ℕ} (hlt : ∀ x, InGrid bits x → idx x < 2 ^ w) : n * bits ≤ w := by
  by_contra hgt
  have hcell : 2 ^ w < 2 ^ (bits * n) := by
    apply Nat.pow_lt_pow_right (by omega)
    rw [Nat.mul_comm]
    exact not_le.1 hgt
  obtain ⟨x, hx, hidx⟩ := h.exists_cell hcell
  exact lt_irrefl _ (hidx ▸ hlt x hx)

/-- Start of an aligned cube: a number that is a multiple of the number of cells, such that the
cube's numbers are the `2 ^ (k * n)` numbers from there on. The induction is on the start: the
number before it ends the interval of the preceding cube. -/
theorem start_dvd (s : ℕ) : ∀ {p : Fin n → ℕ}, AlignedCube bits k p →
    (∀ m, (∃ x, InCube k p x ∧ idx x = m) ↔ s ≤ m ∧ m < s + 2 ^ (k * n)) → 2 ^ (k * n) ∣ s := by
  induction s using Nat.strong_induction_on with
  | _ s ih =>
    intro p hp himg
    have hL : 0 < 2 ^ (k * n) := Nat.two_pow_pos _
    rcases Nat.eq_zero_or_pos s with rfl | hs
    · exact dvd_zero _
    · obtain ⟨y, hy, hys⟩ := (himg s).2 ⟨le_rfl, by omega⟩
      have hsb : s - 1 < 2 ^ (bits * n) := by
        have := h.idx_lt_of_inGrid le_rfl (hp.inGrid_of_inCube hy)
        omega
      obtain ⟨x, hx, hxs⟩ := h.exists_cell hsb
      have hq := alignedCube_cubeBase hp.le_bits hx
      have hxq := inCube_cubeBase k x
      obtain ⟨a, b, -, -, -, himg'⟩ := h.exists_corners hq
      have h1 := (himg' (s - 1)).1 ⟨x, hxq, hxs⟩
      -- `s` is not a number of the preceding cube, so that cube's interval ends at `s - 1`.
      have h2 : ¬ (idx a ≤ s ∧ s < idx a + 2 ^ (k * n)) := by
        intro hcon
        obtain ⟨z, hz, hzs⟩ := (himg' s).2 hcon
        have hzy : z = y := h.inj z y (hq.inGrid_of_inCube hz) (hp.inGrid_of_inCube hy) (by rw [hzs, hys])
        subst hzy
        have hpq := hp.eq_of_inCube hq hy hz
        have hxp : InCube k p x := by rw [hpq]; exact hxq
        have := ((himg (s - 1)).1 ⟨x, hxp, hxs⟩).1
        omega
      have hend : idx a + 2 ^ (k * n) = s := by omega
      have hdvd := ih (idx a) (by omega) hq himg'
      rw [← hend]
      exact (Nat.dvd_add_iff_left (dvd_refl _)).1 hdvd

/-- The parity of a number is the parity of the coordinate sum of its cell. -/
theorem parity {x : Fin n → ℕ} (hx : InGrid bits x) : idx x % 2 = (∑ i, x i) % 2 := by
  have key : ∀ m, ∀ x, InGrid bits x → idx x = m → m % 2 = (∑ i, x i) % 2 := by
    intro m
    induction m with
    | zero =>
      intro x hx hx0
      have hzero : InGrid (n := n) bits (fun _ => 0) := fun _ => Nat.two_pow_pos bits
      have := h.inj x _ hx hzero (by rw [hx0, h.origin])
      subst this
      simp
    | succ m ih =>
      intro x hx hxm
      have hlt := h.idx_lt_of_inGrid le_rfl hx
      obtain ⟨y, hy, hym⟩ := h.exists_cell (m := m) (by omega)
      have hadj := h.adjacent y x hy hx (by omega)
      have h1 := ih y hy hym
      have h2 := hadj.sum_parity
      omega
  exact key _ x hx rfl

/-- The ends of an aligned cube: its numbers are the interval between those of two corners, and if
the cube has more than one cell the last one is not its lowest corner. -/
theorem exists_ends (hp : AlignedCube bits k p) : ∃ a b, IsCorner k p a ∧ IsCorner k p b ∧
      (∀ m, (∃ x, InCube k p x ∧ idx x = m) ↔ idx a ≤ m ∧ m ≤ idx b) ∧ (0 < k → 0 < n → idx b ≠ idx p) := by
  obtain ⟨a, b, ha, hb, hab, himg⟩ := h.exists_corners hp
  refine ⟨a, b, ha, hb, fun m => ?_, fun hk hn => ?_⟩
  · rw [himg m]
    omega
  -- The lowest corner has an even number, the last cell of the cube an odd one.
  · have hpar : 2 ∣ 2 ^ (k * n) :=
      dvd_pow_self 2 (Nat.mul_ne_zero (by omega) (by omega))
    have hs := h.start_dvd _ hp himg
    have hodd : idx b % 2 = 1 := by
      have h1 : 2 ∣ idx a := dvd_trans hpar hs
      omega
    have hpg : InGrid bits p := hp.inGrid
    have heven : (∑ i, p i) % 2 = 0 := by
      refine Nat.mod_eq_zero_of_dvd (dvd_sum fun i _ => ?_)
      exact dvd_trans (dvd_pow_self 2 (by omega)) (hp.aligned i)
    have := h.parity hpg
    omega

end CubeCurve

end DataSpaces.Lib
