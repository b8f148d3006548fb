import DataSpaces.Geometry.Sfc

/-!
# Shared spaces

The shared space of `ss_data.h` as far as hashing reads it: a domain box and a table of DHT entries,
each owning index intervals (hash version 1) or boxes (hash version 2). The descriptor tables of the
entries are modelled with the store.

`Domain` bundles what the source takes for granted of a domain box: at least one and at most
`BBOX_MAX_NDIM` dimensions, no inverted side, and sides below `2 ^ 31`. `Domain.exists_virtualDim`
gives the virtual cube of the domain and `length_points_eq_card` counts its cells.
-/

namespace DataSpaces.Space

open Lib Geometry List Finset

/-- `struct dht_entry`, without its descriptor table: the counts `num_intv` and `num_bbox` are the
lengths of the tables. -/
structure DhtEntry where
  rank : Nat
  iVirt : Intv
  iTab : List Intv
  sizeBbTab : Nat
  bbTab : List Bbox
  odscSize : Nat

inductive HashVersion where
  | v1
  | v2
deriving DecidableEq, Repr

/-- `struct sspace` with its `struct dht`; `num_entries` is the length of `entTab`. -/
structure Sspace where
  maxDim : Nat
  bpd : Nat
  bbGlbDomain : Bbox
  entTab : List DhtEntry
  totalNumBbox : Nat
  hashVersion : HashVersion

/-- How an allocation can fail to produce a space: an allocation error reported by the source, a read
past a table, or a loop that does not end. -/
inductive Fault where
  | noMemory
  | outOfBounds
  | diverges
  | bothQueues
deriving DecidableEq, Repr

/-- Entry `k` of the table owns the index `m`. -/
def Sspace.OwnsIndex (ss : Sspace) (k m : Nat) : Prop :=
  ∃ e, ss.entTab[k]? = some e ∧ m ∈ Intv.points e.iTab

/-! ## Powers of two -/

/-- The loop of `next_pow_2`; before it has made `64 - e` shifts the variable holds `2 ^ (e - 1)`. -/
def nextPow2Loop (n : Nat) : Nat → Nat
  | 0 => 0
  | e + 1 => if 2 ^ e &&& n = 0 then nextPow2Loop n e else 2 ^ e

/-- `next_pow_2`: the smallest power of two above `n`. -/
def nextPow2 (n : Nat) : Nat := nextPow2Loop n 64 * 2 % 2 ^ 64

variable {n : Nat} {bb : Bbox}

theorem and_two_pow_eq_zero_iff {e : Nat} (h : n < 2 ^ (e + 1)) : 2 ^ e &&& n = 0 ↔ n < 2 ^ e := by
  have hpos := Nat.two_pow_pos e
  rw [Nat.two_pow_and, Nat.testBit_eq_decide_div_mod_eq]
  by_cases hlt : n < 2 ^ e
  · simp [Nat.div_eq_of_lt hlt, hlt]
  · rw [pow_succ] at h
    have hdiv : n / 2 ^ e = 1 := Nat.div_eq_of_lt_le (by omega) (by omega)
    simp [hdiv, hlt]

theorem nextPow2Loop_spec (hn : 0 < n) (e : Nat) : n < 2 ^ e →
    ∃ k, k < e ∧ nextPow2Loop n e = 2 ^ k ∧ 2 ^ k ≤ n ∧ n < 2 ^ (k + 1) := by
  induction e with
  | zero =>
    intro h
    rw [pow_zero] at h
    omega
  | succ e ih =>
    intro h
    rw [nextPow2Loop]
    by_cases hlt : n < 2 ^ e
    · rw [if_pos ((and_two_pow_eq_zero_iff h).2 hlt)]
      obtain ⟨k, hk, heq, hle, hlt'⟩ := ih hlt
      exact ⟨k, by omega, heq, hle, hlt'⟩
    · rw [if_neg (fun hz => hlt ((and_two_pow_eq_zero_iff h).1 hz))]
      exact ⟨e, by omega, rfl, by omega, h⟩

theorem nextPow2_spec (hn : 0 < n) (hlt : n < 2 ^ 31) : ∃ K, K ≤ 31 ∧ nextPow2 n = 2 ^ K ∧ n < 2 ^ K := by
  have h64 : n < 2 ^ 64 := lt_of_lt_of_le hlt (Nat.pow_le_pow_right (by omega) (by omega))
  obtain ⟨k, -, heq, hle, hlt'⟩ := nextPow2Loop_spec hn 64 h64
  have hk : k < 31 := by
    by_contra hcon
    have : 2 ^ 31 ≤ 2 ^ k := Nat.pow_le_pow_right (by omega) (by omega)
    omega
  have hpow : 2 ^ (k + 1) ≤ 2 ^ 31 := Nat.pow_le_pow_right (by omega) (by omega)
  refine ⟨k + 1, by omega, ?_, hlt'⟩
  rw [nextPow2, heq, ← pow_succ]
  exact Nat.mod_eq_of_lt (by omega)

/-! ## Domains -/

/-- A domain box. -/
structure Domain where
  box : Bbox
  dims_pos : 0 < box.numDims
  dims_le : box.numDims ≤ bboxMaxNdim
  wf : box.Wf
  side_lt : ∀ i < box.numDims, box.ub i + 1 < 2 ^ 31

/-- The largest upper coordinate, as `ssd_alloc_v1` computes it. -/
def maxUb (bb : Bbox) : Nat :=
  (range' 1 (bb.numDims - 1)).foldl (fun m i => if bb.ub i > m then bb.ub i else m) (bb.ub 0)

/-- Side of the virtual cube of `ssd_alloc_v1`. -/
def virtualDim (bb : Bbox) : Nat :=
  let maxDim := maxUb bb
  nextPow2 (if maxDim = 0 then 1 else maxDim)

theorem foldl_max_spec (f : Nat → Nat) : ∀ (l : List Nat) (m : Nat),
    (∀ i ∈ l, f i ≤ l.foldl (fun m i => if f i > m then f i else m) m) ∧
      m ≤ l.foldl (fun m i => if f i > m then f i else m) m ∧
      (l.foldl (fun m i => if f i > m then f i else m) m = m ∨
        ∃ i ∈ l, l.foldl (fun m i => if f i > m then f i else m) m = f i) := by
  intro l
  induction l with
  | nil =>
    intro m
    exact ⟨by simp, le_rfl, Or.inl rfl⟩
  | cons a l ih =>
    intro m
    rw [foldl_cons]
    obtain ⟨h1, h2, h3⟩ := ih (if f a > m then f a else m)
    have hfa : f a ≤ if f a > m then f a else m := by split <;> omega
    have hm : m ≤ if f a > m then f a else m := by split <;> omega
    refine ⟨fun i hi => ?_, le_trans hm h2, ?_⟩
    · rcases List.mem_cons.1 hi with rfl | hi
      · exact le_trans hfa h2
      · exact h1 i hi
    · rcases h3 with h3 | ⟨i, hi, h3⟩
      · rw [h3]
        split
        · exact Or.inr ⟨a, List.mem_cons_self, rfl⟩
        · exact Or.inl rfl
      · exact Or.inr ⟨i, List.mem_cons_of_mem _ hi, h3⟩

/-- `maxUb` is the largest of the upper coordinates. -/
theorem maxUb_spec (hn : 0 < bb.numDims) :
    (∀ i < bb.numDims, bb.ub i ≤ maxUb bb) ∧ ∃ i < bb.numDims, maxUb bb = bb.ub i := by
  obtain ⟨h1, h2, h3⟩ := foldl_max_spec bb.ub (range' 1 (bb.numDims - 1)) (bb.ub 0)
  refine ⟨fun i hi => ?_, ?_⟩
  · rcases Nat.eq_zero_or_pos i with rfl | hpos
    · exact h2
    · exact h1 i (mem_range'_1.2 (by omega))
  · rcases h3 with h3 | ⟨i, hi, h3⟩
    · exact ⟨0, hn, h3⟩
    · have := mem_range'_1.1 hi
      exact ⟨i, by omega, h3⟩

/-- The virtual cube has side `2 ^ K` with `K ≤ 31` and holds the domain. -/
theorem Domain.exists_virtualDim (D : Domain) :
    ∃ K, K ≤ 31 ∧ virtualDim D.box = 2 ^ K ∧ ∀ x ∈ D.box, ∀ i < D.box.numDims, x i < 2 ^ K := by
  obtain ⟨hmax, j, hj, hmaxj⟩ := maxUb_spec D.dims_pos
  have hlt : maxUb D.box + 1 < 2 ^ 31 := by
    rw [hmaxj]
    exact D.side_lt j hj
  have hpos : 0 < if maxUb D.box = 0 then 1 else maxUb D.box := by split <;> omega
  obtain ⟨K, hK, heq, hltK⟩ := nextPow2_spec hpos (by split <;> omega)
  refine ⟨K, hK, heq, fun x hx i hi => ?_⟩
  have h1 := (hx i hi).2
  have h2 := hmax i hi
  have h3 : maxUb D.box ≤ if maxUb D.box = 0 then 1 else maxUb D.box := by split <;> omega
  omega

/-! ## Counting cells -/

/-- The cells of a box as a finite set. -/
def cellSet (bb : Bbox) : Finset (Fin bb.numDims → Nat) :=
  Fintype.piFinset fun i => Finset.Icc (bb.lb i) (bb.ub i)

theorem mem_cellSet {x : Coord} : x.restrict bb.numDims ∈ cellSet bb ↔ x ∈ bb := by
  rw [cellSet, Fintype.mem_piFinset]
  constructor
  · intro h i hi
    exact mem_Icc.1 (h ⟨i, hi⟩)
  · intro h i
    exact mem_Icc.2 (h i i.2)

/-- The volume counts the cells of a box whose volume fits a 64-bit word. -/
theorem bboxVolume_eq_card (hwf : bb.Wf) (hub : ∀ i < bb.numDims, bb.ub i < 2 ^ 63)
    (hcard : (cellSet bb).card < 2 ^ 64) : bboxVolume bb = (cellSet bb).card := by
  have hprod : ∏ i : Fin bb.numDims, bboxDist bb i = (cellSet bb).card := by
    rw [cellSet, Fintype.card_piFinset]
    refine prod_congr rfl fun i _ => ?_
    have h1 := hwf i i.2
    have h2 := hub i i.2
    have e : bb.ub i + 2 ^ 64 - bb.lb i + 1 = (bb.ub i + 1 - bb.lb i) + 2 ^ 64 := by omega
    rw [Nat.card_Icc, bboxDist, coordDist, e, Nat.add_mod_right, Nat.mod_eq_of_lt (by omega)]
  rw [bboxVolume_eq_prod_mod, hprod, Nat.mod_eq_of_lt hcard]

/-- A table that enumerates the cells of a box has as many numbers as the box has cells. -/
theorem length_points_eq_card {P : Platform} {K : Nat} (S : SfcSetup P bb.numDims K)
    (hin : ∀ x ∈ bb, ∀ i < bb.numDims, x i < 2 ^ K) {tab : List Intv}
    (h : Enumerates P bb.numDims (K + 1) (InVirtual bb K) tab) :
    (Intv.points tab).length = (cellSet bb).card := by
  -- Cells have coordinates beyond the dimensions of the box, hence the restriction.
  have hset : (Intv.points tab).toFinset = (cellSet bb).image (P.hilbertC2i bb.numDims (K + 1)) := by
    ext m
    rw [mem_toFinset, h.mem_iff, mem_image]
    constructor
    · rintro ⟨x, ⟨hx, -⟩, hm⟩
      exact ⟨_, mem_cellSet.2 hx, hm⟩
    · rintro ⟨y, hy, hm⟩
      have hy' : Coord.extend y ∈ bb := by
        rw [← mem_cellSet, Coord.restrict_extend]
        exact hy
      exact ⟨_, ⟨hy', hin _ hy'⟩, by rw [sfcIndex, Coord.restrict_extend, hm]⟩
  have hinj : Set.InjOn (P.hilbertC2i bb.numDims (K + 1)) (cellSet bb) := by
    intro y hy z hz hyz
    have hgrid : ∀ w ∈ cellSet bb, ∀ i < bb.numDims, Coord.extend w i < 2 ^ K := by
      intro w hw
      refine hin _ ?_
      rw [← mem_cellSet, Coord.restrict_extend]
      exact hw
    have := sfcIndex_inj S (hgrid y hy) (hgrid z hz)
      (by rw [sfcIndex, sfcIndex, Coord.restrict_extend, Coord.restrict_extend]; exact hyz)
    rwa [Coord.restrict_extend, Coord.restrict_extend] at this
  rw [← toFinset_card_of_nodup h.nodup, hset, card_image_of_injOn hinj]

end DataSpaces.Space
