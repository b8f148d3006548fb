import DataSpaces.Geometry.Hilbert
import DataSpaces.Lib.Worklist

/-!
# Linearisation of boxes by the space-filling curve

`bbox_to_intv` of `bbox.c`: starting from the virtual cube, candidate boxes are taken from a queue; a
candidate inside the box is flattened to an interval, one that meets the box is divided, and any other
is dropped. The intervals are sorted and neighbours are merged.

The tree of candidates has one level per bit, so the loop ends (`heightLE_of_isCube`,
`length_nodes_lt`); the intervals below a candidate enumerate the cells it shares with the box
(`cubeOutput_enumerates`); and the result enumerates, in increasing order and without repetition,
exactly the indices of the cells of the box inside the virtual cube (`bboxToIntv_spec`). Merging leaves
no interval next to another one (`intvCompactFrom_isChain`), so the table is the coarsest one.
-/

namespace DataSpaces.Geometry

open Lib List

variable (P : Platform)

/-- The merging loop of `intv_compact`; `cur` is the entry `i_tab[i]`. -/
def intvCompactFrom (cur : Intv) : List Intv → List Intv
  | [] => [cur]
  | b :: l =>
    if (cur.ub + 1) % 2 ^ 64 = b.lb then intvCompactFrom { cur with ub := b.ub } l
    else cur :: intvCompactFrom b l

/-- `intv_compact`. The count it returns is one more than the last index written, so an empty table
becomes one unwritten entry. -/
def intvCompact : List Intv → List Intv
  | [] => [P.rawIntv]
  | a :: l => intvCompactFrom a l

/-- `qsort` with the comparison `intv_compar`. -/
def qsortIntv (tab : List Intv) : List Intv := tab.insertionSort fun a b => a.lb ≤ b.lb

/-- The box `[0, dimVirt - 1]` in every dimension. -/
def virtualBox (numDims dimVirt : Nat) : Bbox where
  numDims := numDims
  lb := fun _ => 0
  ub := fun j => if j < numDims then (dimVirt + 2 ^ 64 - 1) % 2 ^ 64 else 0

/-- What one candidate adds to the list of intervals. -/
def candidateEmit (bb : Bbox) (bpd : Nat) (cand : Bbox) : List Intv :=
  if bboxInclude bb cand then [bboxFlat P cand bpd] else []

/-- What one candidate adds to the queue of candidates. -/
def candidateExpand (bb cand : Bbox) : List Bbox :=
  if bboxInclude bb cand then []
  else if bboxDoesIntersect bb cand then bboxDivide cand
  else []

/-- `bbox_to_intv`; the `bpd` argument of the source is overwritten before use. The queue is bounded
by the number of boxes of a full division down to single cells. -/
def bboxToIntv (bb : Bbox) (dimVirt : Nat) : Option (List Intv) :=
  let bpd := computeBits dimVirt
  (Worklist.run (candidateEmit P bb bpd) (candidateExpand bb) (2 ^ (bb.numDims * bpd))
    [virtualBox bb.numDims dimVirt] []).map
      fun good => intvCompact P (qsortIntv good)

variable {P}

/-! ## The tree of candidates -/

theorem length_bboxDivide (b : Bbox) : (bboxDivide b).length = 2 ^ b.numDims := by
  simp [bboxDivide]

theorem numDims_of_mem_bboxDivide {b c : Bbox} (h : c ∈ bboxDivide b) : c.numDims = b.numDims := by
  obtain ⟨i, -, rfl⟩ := mem_map.1 h
  rfl

/-- A candidate is not divided, for it lies inside the box or apart from it, or it is. -/
theorem candidateExpand_cases (bb cand : Bbox) :
    ((bboxInclude bb cand = true ∨ bboxDoesIntersect bb cand = false) ∧ candidateExpand bb cand = []) ∨
    (bboxInclude bb cand = false ∧ bboxDoesIntersect bb cand = true ∧
      candidateExpand bb cand = bboxDivide cand) := by
  unfold candidateExpand
  cases h1 : bboxInclude bb cand <;> cases h2 : bboxDoesIntersect bb cand <;> simp

theorem divided_of_mem_candidateExpand {bb b c : Bbox} (h : c ∈ candidateExpand bb b) :
    bboxInclude bb b = false ∧ bboxDoesIntersect bb b = true ∧ c ∈ bboxDivide b := by
  obtain ⟨-, he⟩ | ⟨hinc, hint, he⟩ := candidateExpand_cases bb b
  · simp [he] at h
  · exact ⟨hinc, hint, he ▸ h⟩

section

variable {K : Nat} {bb : Bbox} {b : Bbox} {n : Nat} {cells : Coord → Prop}

/-- A single cell that meets a well-formed box lies inside it. -/
theorem bboxInclude_of_intersect_cell (hwf : bb.Wf) (hd : b.numDims = bb.numDims) (h : IsCube K 0 b)
    (hint : bboxDoesIntersect bb b = true) : bboxInclude bb b = true := by
  rw [bboxInclude_iff]
  intro i hi
  have h1 := bboxDoesIntersect_iff.1 hint i hi
  have h2 := h.side i (by omega)
  have h3 := hwf i hi
  rw [pow_zero] at h2
  omega

theorem heightLE_of_isCube (hK : K ≤ 31) (hwf : bb.Wf) (k : Nat) : ∀ b : Bbox,
    b.numDims = bb.numDims → IsCube K k b → Worklist.HeightLE (candidateExpand bb) k b := by
  induction k with
  | zero =>
    intro b hd h
    rw [Worklist.HeightLE]
    obtain ⟨-, he⟩ | ⟨hinc, hint, -⟩ := candidateExpand_cases bb b
    · exact he
    · rw [bboxInclude_of_intersect_cell hwf hd h hint] at hinc
      cases hinc
  | succ k ih =>
    intro b hd h c hc
    have hc' := (divided_of_mem_candidateExpand hc).2.2
    refine ih c (by rw [numDims_of_mem_bboxDivide hc', hd]) ?_
    obtain ⟨i, -, rfl⟩ := mem_map.1 hc'
    exact h.divideSub hK i

theorem length_candidateExpand_le (b : Bbox) : (candidateExpand bb b).length ≤ 2 ^ b.numDims := by
  obtain ⟨-, he⟩ | ⟨-, -, he⟩ := candidateExpand_cases bb b
  · simp [he]
  · rw [he, length_bboxDivide]

theorem numDims_of_mem_candidateExpand {c : Bbox} (h : c ∈ candidateExpand bb b) : c.numDims = b.numDims :=
  numDims_of_mem_bboxDivide (divided_of_mem_candidateExpand h).2.2

theorem length_nodes_lt (bb : Bbox) (hn : 0 < n) (k : Nat) :
    ∀ b : Bbox, b.numDims = n → (Worklist.nodes (candidateExpand bb) k b).length < 2 ^ (n * (k + 1)) := by
  induction k with
  | zero =>
    intro b _
    simpa [Worklist.nodes] using Nat.one_lt_two_pow hn.ne'
  | succ k ih =>
    intro b hb
    have hone : 1 < 2 ^ n := Nat.one_lt_two_pow hn.ne'
    -- A cube has at most `2 ^ n` children, each with fewer than `2 ^ (n * (k + 1))` nodes below it.
    have hsum : ((candidateExpand bb b).flatMap (Worklist.nodes (candidateExpand bb) k)).length ≤
        2 ^ n * (2 ^ (n * (k + 1)) - 1) := by
      rw [length_flatMap]
      refine le_trans (sum_le_card_nsmul _ (2 ^ (n * (k + 1)) - 1) ?_) ?_
      · intro m hm
        obtain ⟨c, hc, rfl⟩ := mem_map.1 hm
        have := ih c (by rw [numDims_of_mem_candidateExpand hc, hb])
        omega
      · rw [length_map, smul_eq_mul]
        exact Nat.mul_le_mul_right _ (hb ▸ length_candidateExpand_le b)
    have hpow : 2 ^ (n * (k + 1 + 1)) = 2 ^ n * 2 ^ (n * (k + 1)) := by
      rw [← pow_add]
      congr 1
      rw [Nat.mul_add n (k + 1) 1, Nat.mul_one, Nat.add_comm]
    have hmul : 2 ^ n * (2 ^ (n * (k + 1)) - 1) + 2 ^ n = 2 ^ n * 2 ^ (n * (k + 1)) := by
      have hpos : 0 < 2 ^ (n * (k + 1)) := Nat.two_pow_pos _
      rw [← Nat.mul_add_one, Nat.sub_add_cancel hpos]
    rw [Worklist.nodes, length_cons, hpow]
    omega

/-- The intervals emitted below a candidate cube. -/
def cubeOutput (P : Platform) (bb : Bbox) (K k : Nat) (b : Bbox) : List Intv :=
  Worklist.treeOutput (candidateEmit P bb (K + 1)) (candidateExpand bb) k b

variable {k bpd : Nat}

theorem cubeOutput_of_expand_nil (he : candidateExpand bb b = []) :
    cubeOutput P bb K k b = candidateEmit P bb (K + 1) b := by
  cases k with
  | zero => simp [cubeOutput, Worklist.treeOutput, Worklist.nodes]
  | succ k => simp [cubeOutput, Worklist.treeOutput_succ, he]

theorem sfcIndex_inj (S : SfcSetup P n K) {x y : Coord} (hx : ∀ i < n, x i < 2 ^ K)
    (hy : ∀ i < n, y i < 2 ^ K) (h : sfcIndex P n (K + 1) x = sfcIndex P n (K + 1) y) :
    x.restrict n = y.restrict n := by
  have hpow : 2 ^ K ≤ 2 ^ (K + 1) := Nat.pow_le_pow_right (by omega) (Nat.le_succ K)
  exact S.curve.inj _ _ (fun i => lt_of_lt_of_le (hx i i.2) hpow) (fun i => lt_of_lt_of_le (hy i i.2) hpow) h

/-- What the intervals of a table enumerate: non-empty intervals, no index twice, and exactly the
indices of the cells in `cells`. -/
structure Enumerates (P : Platform) (n bpd : Nat) (cells : Coord → Prop) (tab : List Intv) : Prop where
  nonempty : ∀ i ∈ tab, i.lb ≤ i.ub
  nodup : (Intv.points tab).Nodup
  mem_iff : ∀ m, m ∈ Intv.points tab ↔ ∃ x, cells x ∧ sfcIndex P n bpd x = m

theorem Enumerates.perm {tab tab' : List Intv} (h : Enumerates P n bpd cells tab)
    (hp : tab'.Perm tab) : Enumerates P n bpd cells tab' where
  nonempty := fun i hi => h.nonempty i (hp.mem_iff.1 hi)
  nodup := (Intv.points_perm hp).nodup_iff.2 h.nodup
  mem_iff := fun m => ((Intv.points_perm hp).mem_iff).trans (h.mem_iff m)

theorem Enumerates.singleton {itv : Intv} (hne : itv.lb ≤ itv.ub)
    (h : ∀ m, itv.lb ≤ m ∧ m ≤ itv.ub ↔ ∃ x, cells x ∧ sfcIndex P n bpd x = m) :
    Enumerates P n bpd cells [itv] where
  nonempty := by
    intro i hi
    rw [mem_singleton] at hi
    exact hi ▸ hne
  nodup := by
    rw [Intv.points_cons, Intv.points_nil, append_nil]
    exact itv.toList_pairwise.imp ne_of_lt
  mem_iff := fun m => by simpa using h m

theorem Enumerates.nil (h : ∀ x, ¬ cells x) : Enumerates P n bpd cells [] where
  nonempty := by simp
  nodup := nodup_nil
  mem_iff := fun m => by simp [h]

/-- Tables of the parts of a cube, one after the other, enumerate the whole. -/
theorem Enumerates.flatMap (S : SfcSetup P n K) {ι : Type*} {l : List ι} (hl : l.Nodup)
    (part : ι → Coord → Prop) {tab : ι → List Intv} (htab : ∀ i ∈ l, Enumerates P n (K + 1) (part i) (tab i))
    (hgrid : ∀ i ∈ l, ∀ x, part i x → ∀ j < n, x j < 2 ^ K) (hsplit : ∀ x, cells x ↔ ∃ i ∈ l, part i x)
    (hcongr : ∀ i ∈ l, ∀ x y : Coord, x.restrict n = y.restrict n → part i x → part i y)
    (huniq : ∀ i ∈ l, ∀ j ∈ l, ∀ x, part i x → part j x → i = j) :
    Enumerates P n (K + 1) cells (l.flatMap tab) := by
  have hpoints : Intv.points (l.flatMap tab) = l.flatMap fun i => Intv.points (tab i) := by
    simp only [Intv.points, flatMap_assoc]
  refine ⟨fun itv hitv => ?_, ?_, fun m => ?_⟩
  · obtain ⟨i, hi, hmem⟩ := mem_flatMap.1 hitv
    exact (htab i hi).nonempty itv hmem
  · -- A number in two parts is the number of one cell, which is in one part only.
    rw [hpoints, nodup_flatMap]
    refine ⟨fun i hi => (htab i hi).nodup, ?_⟩
    refine (Pairwise.and_mem.1 hl).imp ?_
    rintro i j ⟨hi, hj, hij⟩ m hmi hmj
    obtain ⟨x, hx, hxm⟩ := ((htab i hi).mem_iff m).1 hmi
    obtain ⟨y, hy, hym⟩ := ((htab j hj).mem_iff m).1 hmj
    have hxy := sfcIndex_inj S (hgrid i hi x hx) (hgrid j hj y hy) (by rw [hxm, hym])
    exact hij (huniq i hi j hj y (hcongr i hi x y hxy hx) hy)
  · rw [hpoints, mem_flatMap]
    constructor
    · rintro ⟨i, hi, hm⟩
      obtain ⟨x, hx, hxm⟩ := ((htab i hi).mem_iff m).1 hm
      exact ⟨x, (hsplit x).2 ⟨i, hi, hx⟩, hxm⟩
    · rintro ⟨x, hx, hxm⟩
      obtain ⟨i, hi, hxi⟩ := (hsplit x).1 hx
      exact ⟨i, hi, ((htab i hi).mem_iff m).2 ⟨x, hxi, hxm⟩⟩

/-- A candidate that is not divided lies inside the box or is disjoint from it. -/
theorem cubeOutput_enumerates_of_leaf (S : SfcSetup P bb.numDims K) (hwf : bb.Wf)
    (hd : b.numDims = bb.numDims) (h : IsCube K k b) (he : candidateExpand bb b = [])
    (hcase : bboxInclude bb b = true ∨ bboxDoesIntersect bb b = false) :
    Enumerates P bb.numDims (K + 1) (fun x => x ∈ bb ∧ x ∈ b) (cubeOutput P bb K k b) := by
  rw [cubeOutput_of_expand_nil he, candidateEmit]
  cases hinc : bboxInclude bb b with
  -- The cube lies in the box: its numbers are one interval.
  | true =>
    rw [if_pos rfl]
    have S' : SfcSetup P b.numDims K := by rw [hd]; exact S
    have hsub := (bboxInclude_iff_forall_mem h.lb_le_ub hd.symm).1 hinc
    refine Enumerates.singleton (bboxFlat_lb_le_ub S'.bits_le S'.curve h) fun m => ?_
    rw [mem_bboxFlat_iff S'.bits_le S'.curve h m, hd]
    constructor
    · rintro ⟨x, hx, hm⟩
      exact ⟨x, ⟨hsub x hx, hx⟩, hm⟩
    · rintro ⟨x, ⟨-, hx⟩, hm⟩
      exact ⟨x, hx, hm⟩
  -- The cube does not meet the box: nothing is put out for it.
  | false =>
    rw [if_neg Bool.false_ne_true]
    have hdis : bboxDoesIntersect bb b = false := hcase.resolve_left (by simp [hinc])
    refine Enumerates.nil fun x hx => ?_
    have := (bboxDoesIntersect_iff_exists_mem hwf h.lb_le_ub hd.symm).2 ⟨x, hx⟩
    rw [hdis] at this
    cases this

/-- Below a candidate cube, the decomposition enumerates the cells that the cube shares with the box.
The induction is on the side of the cube. -/
theorem cubeOutput_enumerates (S : SfcSetup P bb.numDims K) (hwf : bb.Wf) (k : Nat) :
    ∀ b : Bbox, b.numDims = bb.numDims → IsCube K k b →
      Enumerates P bb.numDims (K + 1) (fun x => x ∈ bb ∧ x ∈ b) (cubeOutput P bb K k b) := by
  -- By induction on the size of the cube. A single cell that meets the box lies in it.
  induction k with
  | zero =>
    intro b hd h
    obtain ⟨hleaf, he⟩ | ⟨hinc, hint, -⟩ := candidateExpand_cases bb b
    · exact cubeOutput_enumerates_of_leaf S hwf hd h he hleaf
    · rw [bboxInclude_of_intersect_cell hwf hd h hint] at hinc
      cases hinc
  | succ k ih =>
    intro b hd h
    obtain ⟨hleaf, he⟩ | ⟨hinc, -, he⟩ := candidateExpand_cases bb b
    · exact cubeOutput_enumerates_of_leaf S hwf hd h he hleaf
    · -- The cube is divided: its parts enumerate disjoint sets of cells.
      have hout : cubeOutput P bb K (k + 1) b =
          (range (2 ^ b.numDims)).flatMap fun i => cubeOutput P bb K k (divideSub b i) := by
        rw [cubeOutput, Worklist.treeOutput_succ, candidateEmit, if_neg (by simp [hinc]), he,
          bboxDivide, flatMap_map, nil_append]
        rfl
      rw [hout]
      have hsub : ∀ i, IsCube K k (divideSub b i) := fun i => h.divideSub S.top_le i
      refine Enumerates.flatMap S nodup_range (fun i x => x ∈ bb ∧ x ∈ divideSub b i)
        (fun i _ => ih _ hd (hsub i)) ?_ ?_ ?_ ?_
      · rintro i - x ⟨-, hx⟩ j hj
        have hj' : j < (divideSub b i).numDims := by rw [← hd] at hj; exact hj
        exact lt_of_le_of_lt (hx j hj').2 ((hsub i).ub_lt j hj')
      · intro x
        constructor
        · rintro ⟨hx, hxb⟩
          obtain ⟨i, hi, hxi⟩ := exists_divideSub S.top_le h hxb
          exact ⟨i, mem_range.2 hi, hx, hxi⟩
        · rintro ⟨i, -, hx, hxi⟩
          exact ⟨hx, ((mem_divideSub_iff S.top_le h).1 hxi).1⟩
      · rintro i - x y hxy ⟨hx, hxi⟩
        refine ⟨(mem_congr_restrict hxy).1 hx, (mem_congr_restrict ?_).1 hxi⟩
        rw [← hd] at hxy
        exact hxy
      · rintro i hi j hj x ⟨-, hxi⟩ ⟨-, hxj⟩
        exact divideSub_unique S.top_le h (mem_range.1 hi) (mem_range.1 hj) hxi hxj

end

/-! ## Sorting and merging -/

/-- Merging keeps what the table enumerates, as long as no upper end is the largest 64-bit number. -/
theorem points_intvCompactFrom : ∀ (l : List Intv) (cur : Intv), cur.lb ≤ cur.ub →
    (∀ i ∈ l, i.lb ≤ i.ub) → cur.ub < 2 ^ 63 → (∀ i ∈ l, i.ub < 2 ^ 63) →
    Intv.points (intvCompactFrom cur l) = Intv.points (cur :: l) ∧
      ∀ i ∈ intvCompactFrom cur l, i.lb ≤ i.ub := by
  intro l
  induction l with
  | nil =>
    intro cur hcur _ _ _
    exact ⟨rfl, by simpa [intvCompactFrom] using hcur⟩
  | cons b l ih =>
    intro cur hcur hl hlt hllt
    have hb := hl b mem_cons_self
    have hblt := hllt b mem_cons_self
    have hl' : ∀ i ∈ l, i.lb ≤ i.ub := fun i hi => hl i (mem_cons_of_mem _ hi)
    have hllt' : ∀ i ∈ l, i.ub < 2 ^ 63 := fun i hi => hllt i (mem_cons_of_mem _ hi)
    rw [intvCompactFrom]
    split
    · -- Neighbouring intervals become one. The ends are below `2 ^ 63`, so the sum does not wrap.
      rename_i hadj
      have hadj' : cur.ub + 1 = b.lb := by omega
      have hcur' : cur.lb ≤ b.ub := by omega
      obtain ⟨hp, hne⟩ := ih { cur with ub := b.ub } hcur' hl' hblt hllt'
      refine ⟨?_, hne⟩
      rw [hp, Intv.points_cons, Intv.points_cons, Intv.points_cons, ← append_assoc,
        Intv.toList_append_toList (by omega) (by omega) hadj']
    · obtain ⟨hp, hne⟩ := ih b hb hl' hblt hllt'
      refine ⟨by rw [Intv.points_cons, hp, Intv.points_cons cur (b :: l)], fun i hi => ?_⟩
      rcases mem_cons.1 hi with rfl | hi
      · exact hcur
      · exact hne i hi

variable (l : List Intv) (cur : Intv)

/-- The merged table starts where the first interval does. -/
theorem intvCompactFrom_eq_cons :
    ∃ i rest, intvCompactFrom cur l = i :: rest ∧ i.lb = cur.lb := by
  induction l generalizing cur with
  | nil => exact ⟨cur, [], rfl, rfl⟩
  | cons b l ih =>
    rw [intvCompactFrom]
    split
    · exact ih { cur with ub := b.ub }
    · exact ⟨cur, _, rfl, rfl⟩

/-- After merging no interval starts right after the one before it. -/
theorem intvCompactFrom_isChain :
    (intvCompactFrom cur l).IsChain fun i j => (i.ub + 1) % 2 ^ 64 ≠ j.lb := by
  induction l generalizing cur with
  | nil => exact isChain_singleton cur
  | cons b l ih =>
    rw [intvCompactFrom]
    split
    · exact ih { cur with ub := b.ub }
    · rename_i hgap
      obtain ⟨i, rest, heq, hlb⟩ := intvCompactFrom_eq_cons l b
      have htail := ih b
      rw [heq] at htail ⊢
      exact isChain_cons_cons.2 ⟨by rw [hlb]; exact hgap, htail⟩

variable {tab : List Intv} {K : Nat} {bb : Bbox}

theorem Enumerates.intvCompact {n bpd : Nat} {cells : Coord → Prop} (h : Enumerates P n bpd cells tab)
    (hne : tab ≠ []) (hlt : ∀ i ∈ tab, i.ub < 2 ^ 63) : Enumerates P n bpd cells (intvCompact P tab) ∧
      Intv.points (Geometry.intvCompact P tab) = Intv.points tab := by
  cases tab with
  | nil => exact absurd rfl hne
  | cons a l =>
    obtain ⟨hp, hnonempty⟩ := points_intvCompactFrom l a (h.nonempty a mem_cons_self)
      (fun i hi => h.nonempty i (mem_cons_of_mem _ hi)) (hlt a mem_cons_self)
      (fun i hi => hlt i (mem_cons_of_mem _ hi))
    have hpoints : Intv.points (Geometry.intvCompact P (a :: l)) = Intv.points (a :: l) := hp
    exact ⟨⟨hnonempty, hpoints ▸ h.nodup, fun m => by rw [hpoints]; exact h.mem_iff m⟩, hpoints⟩

/-! ## The decomposition of a box -/

theorem isCube_virtualBox {n : Nat} (hK : K ≤ 31) : IsCube K K (virtualBox n (2 ^ K)) := by
  have hpow : 2 ^ K ≤ 2 ^ 31 := Nat.pow_le_pow_right (by omega) hK
  have hpos := Nat.two_pow_pos K
  refine ⟨le_rfl, fun i _ => dvd_zero _, fun i hi => ?_, fun i hi => ?_⟩
  · have hi' : i < n := hi
    simp only [virtualBox, if_pos hi']
    omega
  · have hi' : i < n := hi
    simp only [virtualBox, if_pos hi']
    omega

theorem mem_virtualBox {n : Nat} (hK : K ≤ 31) {x : Coord} :
    x ∈ virtualBox n (2 ^ K) ↔ ∀ i < n, x i < 2 ^ K := by
  have h := isCube_virtualBox (n := n) hK
  have hpos := Nat.two_pow_pos K
  constructor
  · intro hx i hi
    exact lt_of_le_of_lt (hx i hi).2 (h.ub_lt i hi)
  · intro hx i hi
    have h1 := h.side i hi
    have h2 := hx i hi
    have h3 : (virtualBox n (2 ^ K)).lb i = 0 := rfl
    omega

theorem qsortIntv_perm (tab : List Intv) : (qsortIntv tab).Perm tab := perm_insertionSort _ tab

theorem qsortIntv_sorted (tab : List Intv) : (qsortIntv tab).Pairwise fun a b => a.lb ≤ b.lb := by
  have : Std.Total fun a b : Intv => a.lb ≤ b.lb := ⟨fun a b => le_total a.lb b.lb⟩
  have : IsTrans Intv fun a b => a.lb ≤ b.lb := ⟨fun _ _ _ => le_trans⟩
  exact pairwise_insertionSort _ tab

/-- The last two steps of the decomposition, on a table that enumerates some cells. -/
theorem Enumerates.sortCompact {n bpd : Nat} {cells : Coord → Prop} (h : Enumerates P n bpd cells tab)
    (hcell : ∃ x, cells x) (hlt : ∀ x, cells x → sfcIndex P n bpd x < 2 ^ 63) :
    Geometry.intvCompact P (qsortIntv tab) ≠ [] ∧
      Enumerates P n bpd cells (Geometry.intvCompact P (qsortIntv tab)) ∧
      (Intv.points (Geometry.intvCompact P (qsortIntv tab))).Pairwise (· < ·) := by
  have hsorted := h.perm (qsortIntv_perm tab)
  have hle := qsortIntv_sorted tab
  -- From here on only the order matters, not how it was sorted.
  generalize qsortIntv tab = sorted at hsorted hle ⊢
  have hne : Intv.points sorted ≠ [] := by
    obtain ⟨x, hx⟩ := hcell
    exact ne_nil_of_mem ((hsorted.mem_iff _).2 ⟨x, hx, rfl⟩)
  have hub : ∀ i ∈ sorted, i.ub < 2 ^ 63 := by
    intro i hi
    obtain ⟨x, hx, hxi⟩ := (hsorted.mem_iff i.ub).1 (Intv.mem_points.2 ⟨i, hi, hsorted.nonempty i hi, le_rfl⟩)
    exact hxi ▸ hlt x hx
  have hne' : sorted ≠ [] := by
    rintro rfl
    exact hne rfl
  obtain ⟨hcompact, hpoints⟩ := hsorted.intvCompact hne' hub
  refine ⟨?_, hcompact, ?_⟩
  · intro hnil
    rw [hnil] at hpoints
    exact hne hpoints.symm
  · rw [hpoints]
    exact Intv.points_pairwise_of_sorted hsorted.nonempty hsorted.nodup hle

/-- The cells of a box inside the virtual cube of side `2 ^ K`. -/
def InVirtual (bb : Bbox) (K : Nat) (x : Coord) : Prop := x ∈ bb ∧ ∀ i < bb.numDims, x i < 2 ^ K

theorem length_nodes_virtualBox_le (bb : Bbox) (K : Nat) :
    (Worklist.nodes (candidateExpand bb) K (virtualBox bb.numDims (2 ^ K))).length ≤
      2 ^ (bb.numDims * (K + 1)) := by
  rcases Nat.eq_zero_or_pos bb.numDims with hzero | hpos
  · -- Without dimensions the box includes everything, and nothing is divided.
    have hnil : ∀ b, candidateExpand bb b = [] := fun b => by simp [candidateExpand, bboxInclude, hzero]
    rw [hzero, Nat.zero_mul, Nat.pow_zero]
    cases K with
    | zero => simp [Worklist.nodes]
    | succ K => simp [Worklist.nodes, hnil]
  · exact le_of_lt (length_nodes_lt bb hpos K _ rfl)

/-- The loop over the candidates ends, wherever the box lies. -/
theorem exists_run_candidates (hK : K ≤ 31) (hwf : bb.Wf) :
    ∃ good, Worklist.run (candidateEmit P bb (K + 1)) (candidateExpand bb) (2 ^ (bb.numDims * (K + 1)))
        [virtualBox bb.numDims (2 ^ K)] [] = some good ∧
      good.Perm (Worklist.treeOutput (candidateEmit P bb (K + 1)) (candidateExpand bb) K
        (virtualBox bb.numDims (2 ^ K))) := by
  have hheight := heightLE_of_isCube hK hwf K (virtualBox bb.numDims (2 ^ K)) rfl (isCube_virtualBox hK)
  obtain ⟨good, hrun, hperm⟩ := Worklist.run_eq_some_of_heightLE
    (candidateEmit P bb (K + 1)) (candidateExpand bb)
    (2 ^ (bb.numDims * (K + 1))) [virtualBox bb.numDims (2 ^ K)] []
    (by simpa using hheight) (by simpa using length_nodes_virtualBox_le bb K)
  rw [nil_append] at hrun
  rw [flatMap_cons, flatMap_nil, append_nil] at hperm
  exact ⟨good, hrun, hperm⟩

theorem exists_bboxToIntv (hK : K ≤ 31) (hwf : bb.Wf) : ∃ tab, bboxToIntv P bb (2 ^ K) = some tab := by
  obtain ⟨good, hrun, -⟩ := exists_run_candidates (P := P) hK hwf
  have hbits : computeBits (2 ^ K) = K + 1 := computeBits_two_pow (by omega)
  refine ⟨intvCompact P (qsortIntv good), ?_⟩
  simp only [bboxToIntv, hbits, hrun, Option.map_some]

/-- `bbox_to_intv` terminates on a well-formed box that meets the virtual cube, and its table lists,
in increasing order and without repetition, the indices of the cells of the box in the cube. -/
theorem bboxToIntv_spec (S : SfcSetup P bb.numDims K) (hwf : bb.Wf) (hmeet : ∃ x, InVirtual bb K x) :
    ∃ tab, bboxToIntv P bb (2 ^ K) = some tab ∧ tab ≠ [] ∧
      Enumerates P bb.numDims (K + 1) (InVirtual bb K) tab ∧ (Intv.points tab).Pairwise (· < ·) := by
  have hcube := isCube_virtualBox (n := bb.numDims) S.top_le
  have hbits : computeBits (2 ^ K) = K + 1 := computeBits_two_pow (by have := S.top_le; omega)
  obtain ⟨good, hrun, hperm⟩ := exists_run_candidates (P := P) S.top_le hwf
  have hgood : Enumerates P bb.numDims (K + 1) (InVirtual bb K) good := by
    have := (cubeOutput_enumerates S hwf K (virtualBox bb.numDims (2 ^ K)) rfl hcube).perm hperm
    simp only [mem_virtualBox S.top_le] at this
    exact this
  have hfinal := hgood.sortCompact hmeet fun x hx => sfcIndex_lt S.bits_le S.curve hx.2
  exact ⟨_, by simp only [bboxToIntv, hbits, hrun, Option.map_some], hfinal⟩

/-- No interval of a returned table starts right after the one before it. -/
theorem bboxToIntv_isChain {dimVirt : Nat} (h : bboxToIntv P bb dimVirt = some tab) :
    tab.IsChain fun i j => (i.ub + 1) % 2 ^ 64 ≠ j.lb := by
  obtain ⟨good, -, rfl⟩ := Option.map_eq_some_iff.1 h
  cases qsortIntv good with
  | nil => exact isChain_singleton _
  | cons a l => exact intvCompactFrom_isChain l a

/-- Without dimensions there is one cell, the origin. -/
theorem bboxToIntv_zero_dims (hzero : bb.numDims = 0)
    (horigin : P.hilbertC2i 0 (computeBits (2 ^ K)) (fun _ => 0) = 0) :
    bboxToIntv P bb (2 ^ K) = some [⟨0, 0⟩] := by
  have hflat : bboxFlat P (virtualBox 0 (2 ^ K)) (computeBits (2 ^ K)) = ⟨0, 0⟩ :=
    bboxFlat_zero_dims rfl horigin
  simp [bboxToIntv, hzero, Worklist.run, candidateEmit, candidateExpand, bboxInclude, hflat,
    qsortIntv, intvCompact, intvCompactFrom]

/-- `bbox_to_intv` is exact: on a well-formed box that meets the virtual cube it ends, and its table is
sorted, with a gap after every interval, and covers exactly the indices of the cells that the box shares
with the cube. -/
theorem bboxToIntv_exact {K : Nat} {bb : Bbox} (hK : K ≤ 31) (hbits : bb.numDims * computeBits (2 ^ K) ≤ 64)
    (hcurve : CubeCurve bb.numDims (computeBits (2 ^ K)) (P.hilbertC2i bb.numDims (computeBits (2 ^ K))))
    (hwf : bb.Wf) (hmeet : ∃ x, x ∈ bb ∧ ∀ d < bb.numDims, x d < 2 ^ K) :
    ∃ tab, bboxToIntv P bb (2 ^ K) = some tab ∧
      (∀ i ∈ tab, i.lb ≤ i.ub) ∧ tab.Pairwise (fun i j => i.ub + 1 < j.lb) ∧
      ∀ m, (∃ i ∈ tab, i.lb ≤ m ∧ m ≤ i.ub) ↔ ∃ x, x ∈ bb ∧ (∀ d < bb.numDims, x d < 2 ^ K) ∧
          P.hilbertC2i bb.numDims (computeBits (2 ^ K)) (x.restrict bb.numDims) = m := by
  have hpow : computeBits (2 ^ K) = K + 1 := computeBits_two_pow (by omega)
  rcases Nat.eq_zero_or_pos bb.numDims with hzero | hpos
  · have horigin : P.hilbertC2i 0 (computeBits (2 ^ K)) (fun _ => 0) = 0 := by
      have := hcurve.origin
      rw [hzero] at this
      exact this
    refine ⟨[⟨0, 0⟩], bboxToIntv_zero_dims hzero horigin, by simp, by simp, fun m => ?_⟩
    have hidx : ∀ x : Coord,
        P.hilbertC2i bb.numDims (computeBits (2 ^ K)) (x.restrict bb.numDims) = 0 := by
      rw [hzero]
      exact sfcIndex_zero_dims rfl horigin
    constructor
    · intro hm
      obtain ⟨x, hx⟩ := hmeet
      exact ⟨x, hx.1, hx.2, by rw [hidx]; simpa [eq_comm] using hm⟩
    · rintro ⟨x, -, -, hm⟩
      rw [hidx] at hm
      simp [← hm]
  · rw [hpow] at hbits hcurve ⊢
    obtain ⟨tab, htab, -, henum, hinc⟩ := bboxToIntv_spec ⟨hpos, hK, hbits, hcurve⟩ hwf hmeet
    have hub : ∀ i ∈ tab, i.ub < 2 ^ 63 := by
      intro i hi
      obtain ⟨x, hx, hxi⟩ := (henum.mem_iff i.ub).1
        (Intv.mem_points.2 ⟨i, hi, henum.nonempty i hi, le_rfl⟩)
      exact hxi ▸ sfcIndex_lt hbits hcurve hx.2
    -- Upper ends are far below the wrap, so the test of the merging loop is about the next number.
    have hgap : tab.IsChain fun i j => i.ub + 1 ≠ j.lb := by
      refine (bboxToIntv_isChain htab).imp_of_mem_imp fun i j hi _ hij => ?_
      have := hub i hi
      omega
    refine ⟨tab, htab, henum.nonempty, Intv.pairwise_separated henum.nonempty hinc hgap, fun m => ?_⟩
    rw [← Intv.mem_points, henum.mem_iff m]
    simp only [InVirtual, and_assoc]
    rfl

/-- The cells `2` to `5` of a line, in a virtual cube of side `8`. -/
theorem bboxToIntv_exact_line : ∃ tab,
    bboxToIntv referencePlatform ⟨1, fun _ => 2, fun _ => 5⟩ (2 ^ 3) = some tab ∧
      (∀ i ∈ tab, i.lb ≤ i.ub) ∧ tab.Pairwise (fun i j => i.ub + 1 < j.lb) ∧
      ∀ m, (∃ i ∈ tab, i.lb ≤ m ∧ m ≤ i.ub) ↔
        ∃ x, x ∈ (⟨1, fun _ => 2, fun _ => 5⟩ : Bbox) ∧ (∀ d < 1, x d < 2 ^ 3) ∧
          referencePlatform.hilbertC2i 1 (computeBits (2 ^ 3)) (x.restrict 1) = m :=
  bboxToIntv_exact (by decide) (by decide) (cubeCurve_hilbertC2i_one _) (by decide)
    ⟨fun _ => 2, by decide, by decide⟩

/-- `bbox_flat` returns the least and the greatest index of the cells of an aligned cube in the virtual
domain, for any number of dimensions and any side. -/
theorem bboxFlat_isLeast_isGreatest {K k : Nat} {b : Bbox} (hK : K < 64)
    (hcurve : CubeCurve b.numDims (computeBits (2 ^ K)) (P.hilbertC2i b.numDims (computeBits (2 ^ K))))
    (hword : ∀ x, InGrid (computeBits (2 ^ K)) x → P.hilbertC2i b.numDims (computeBits (2 ^ K)) x < 2 ^ 64)
    (h : IsCube K k b) : IsLeast {m | ∃ x, x ∈ b ∧ sfcIndex P b.numDims (computeBits (2 ^ K)) x = m}
        (bboxFlat P b (computeBits (2 ^ K))).lb ∧
      IsGreatest {m | ∃ x, x ∈ b ∧ sfcIndex P b.numDims (computeBits (2 ^ K)) x = m}
        (bboxFlat P b (computeBits (2 ^ K))).ub := by
  have hbits := hcurve.mul_le_of_idx_lt hword
  rw [computeBits_two_pow hK] at hbits hcurve ⊢
  have hmem := mem_bboxFlat_iff hbits hcurve h
  have hle := bboxFlat_lb_le_ub hbits hcurve h
  refine ⟨⟨(hmem _).1 ⟨le_rfl, hle⟩, ?_⟩, ⟨(hmem _).1 ⟨hle, le_rfl⟩, ?_⟩⟩
  · intro m hm
    exact ((hmem m).2 hm).1
  · intro m hm
    exact ((hmem m).2 hm).2

/-- The cells `4` to `7` of a line, in a virtual domain of side `8`. -/
theorem bboxFlat_isLeast_isGreatest_line : IsLeast {m | ∃ x, x ∈ (⟨1, fun _ => 4, fun _ => 7⟩ : Bbox) ∧
        sfcIndex referencePlatform 1 (computeBits (2 ^ 3)) x = m} 4 ∧
      IsGreatest {m | ∃ x, x ∈ (⟨1, fun _ => 4, fun _ => 7⟩ : Bbox) ∧
        sfcIndex referencePlatform 1 (computeBits (2 ^ 3)) x = m} 7 := by
  have hcube : IsCube 3 2 ⟨1, fun _ => 4, fun _ => 7⟩ := ⟨by decide, by decide, by decide, by decide⟩
  apply bboxFlat_isLeast_isGreatest (by decide) (cubeCurve_hilbertC2i_one _) ?_ hcube
  intro x hx
  exact lt_trans (hx 0) (by decide)

end DataSpaces.Geometry
