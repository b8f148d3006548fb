import DataSpaces.Space.Sspace

/-!
# Ownership in hash version 2

`ssd_alloc_v2` bisects the domain `⌈log2 num_nodes⌉` times along the longest side of each box, moving
the boxes back and forth between two queues, and deals the resulting boxes to the DHT entries in
turn. With fewer cells than boxes the bisection produces empty boxes, whose lower corner is one above
the upper one; bisecting such a box along any dimension gives empty boxes of the same kind, and when
every side is empty the split dimension is the one left over from the previous box.

A list of boxes tiles a box when every cell is counted once (`Tiles`). One bisection keeps the count
(`count_bboxDivideIn2Ondim`), so a round and the whole loop do (`bisectRound_spec`,
`bisectLoop_spec`), dealing permutes the boxes (`dealLoop_spec`), and the entries partition the domain
(`ssdAllocV2_spec`).
-/

namespace DataSpaces.Space

open Lib Geometry List Function

/-! ## The source functions -/

/-- `next_pow_2_v2`: the smallest power of two that is at least `n`. -/
def nextPow2V2Loop (n : Nat) : Nat → Nat → Nat
  | 0, i => i
  | fuel + 1, i => if i < n then nextPow2V2Loop n fuel (i * 2 % 2 ^ 64) else i

def nextPow2V2 (n : Nat) : Nat := nextPow2V2Loop n 64 1

/-- `compute_bits_v2`. -/
def computeBitsV2Loop : Nat → Nat → Nat
  | 0, _ => 0
  | fuel + 1, n => if n > 1 then computeBitsV2Loop fuel (n / 2) + 1 else 0

def computeBitsV2 (n : Nat) : Nat := computeBitsV2Loop 64 n

/-- The loop of `get_bbox_max_dim` and `get_bbox_max_dim_size` over a measure of the dimensions: the
largest value and, behind `out_dim`, the first dimension that has it. When every value is zero the
variable keeps what it held. -/
def argMaxLoop (size : Nat → Nat) (numDims dim : Nat) : Nat × Nat :=
  (range numDims).foldl (fun st i => if st.1 < size i then (size i, i) else st) (0, dim)

def getBboxMaxDim (bb : Bbox) (dim : Nat) : Nat × Nat := argMaxLoop bb.ub bb.numDims dim

def getBboxMaxDimSize (bb : Bbox) (dim : Nat) : Nat × Nat :=
  argMaxLoop (bboxDist bb) bb.numDims dim

/-- The loop that empties the source queue into the destination queue. -/
def bisectRound : List Bbox → List Bbox → Nat → List Bbox × Nat
  | [], dst, dim => (dst, dim)
  | bb :: src, dst, dim =>
    let dim := (getBboxMaxDimSize bb dim).2
    let bTab := bboxDivideIn2Ondim bb dim
    bisectRound src (dst ++ [bTab.1, bTab.2]) dim

/-- The loop over the rounds; the state is the two queues and the variable `dim`. The branch of the
source for two empty or two non-empty queues goes on with a queue pointer that was never set. -/
def bisectLoop : Nat → List Bbox → List Bbox → Nat → Except Fault (List Bbox × List Bbox)
  | 0, q1, q2, _ => .ok (q1, q2)
  | round + 1, q1, q2, dim =>
    if !q1.isEmpty && q2.isEmpty then
      let next := bisectRound q1 q2 dim
      bisectLoop round [] next.1 next.2
    else if !q2.isEmpty && q1.isEmpty then
      let next := bisectRound q2 q1 dim
      bisectLoop round next.1 [] next.2
    -- The source prints an error and goes on with pointers that are not set.
    else .error .bothQueues

/-- The round-robin loop; a write past the end of an entry's table is a fault. -/
def dealLoop : Nat → List Bbox → List DhtEntry → Except Fault (List DhtEntry)
  | _, [], entTab => .ok entTab
  | i, bb :: q, entTab =>
    match entTab[i % entTab.length]? with
    | none => .error .outOfBounds
    | some e =>
      if e.bbTab.length < e.sizeBbTab then
        dealLoop (i + 1) q (entTab.set (i % entTab.length) { e with bbTab := e.bbTab ++ [bb] })
      else .error .outOfBounds

/-- Entry `i` after `dht_alloc` and the allocation of its box table. -/
def emptyEntry (sizeBbTab odscSize i : Nat) : DhtEntry where
  rank := i
  iVirt := ⟨0, 0⟩
  iTab := []
  sizeBbTab := sizeBbTab
  bbTab := []
  odscSize := odscSize

/-- `ssd_alloc_v2`. The quotient inside `ceil` is a double; both operands are `int`, so it is rounded
to an integer only when it is one. -/
def ssdAllocV2 (P : Platform) (bbDomain : Bbox) (numNodes maxVersions : Nat) :
    Except Fault Sspace :=
  let top := getBboxMaxDim bbDomain P.rawDim
  let maxDim := nextPow2V2 top.1
  let numDivideIteration := computeBitsV2 (nextPow2V2 numNodes)
  match bisectLoop numDivideIteration [bbDomain] [] top.2 with
  | .error e => .error e
  | .ok (q1, q2) =>
    let q := if q1.isEmpty then q2 else q1
    -- Room for the boxes of one entry, rounded up.
    let n := (q.length + numNodes - 1) / numNodes
    match dealLoop 0 q ((range numNodes).map (emptyEntry n maxVersions)) with
    | .error e => .error e
    | .ok entTab =>
      .ok { maxDim := maxDim
            bpd := computeBitsV2 maxDim
            bbGlbDomain := bbDomain
            entTab := entTab
            totalNumBbox := q.length
            hashVersion := .v2 }

/-! ## Number of rounds -/

variable {n : Nat} {bb : Bbox}

theorem nextPow2V2Loop_spec (hn : n ≤ 2 ^ 62) : ∀ (fuel t : Nat), t ≤ 62 → 62 < fuel + t →
    (t = 0 ∨ 2 ^ (t - 1) < n) → ∃ s, t ≤ s ∧ s ≤ 62 ∧ nextPow2V2Loop n fuel (2 ^ t) = 2 ^ s ∧ n ≤ 2 ^ s := by
  intro fuel
  -- The loop variable is a power of two, and doubling does not wrap below `2 ^ 63`.
  induction fuel with
  | zero =>
    intro t ht hfuel
    omega
  | succ fuel ih =>
    intro t ht hfuel hprev
    rw [nextPow2V2Loop]
    by_cases hlt : 2 ^ t < n
    · have ht62 : t < 62 := by
        by_contra hcon
        have : t = 62 := by omega
        rw [this] at hlt
        omega
      have hpow : 2 ^ t * 2 % 2 ^ 64 = 2 ^ (t + 1) := by
        rw [← pow_succ]
        exact Nat.mod_eq_of_lt (Nat.pow_lt_pow_right (by omega) (by omega))
      rw [if_pos hlt, hpow]
      obtain ⟨s, hs1, hs2, hs3, hs4⟩ := ih (t + 1) (by omega) (by omega) (Or.inr (by simpa using hlt))
      exact ⟨s, by omega, hs2, hs3, hs4⟩
    · rw [if_neg hlt]
      exact ⟨t, le_rfl, ht, rfl, by omega⟩

theorem computeBitsV2Loop_two_pow (t : Nat) : ∀ fuel, t ≤ fuel → computeBitsV2Loop fuel (2 ^ t) = t := by
  induction t with
  | zero =>
    intro fuel _
    cases fuel <;> simp [computeBitsV2Loop]
  | succ t ih =>
    intro fuel hf
    obtain ⟨fuel, rfl⟩ : ∃ m, fuel = m + 1 := ⟨fuel - 1, by omega⟩
    have hgt : 2 ^ (t + 1) > 1 := Nat.one_lt_two_pow (by omega)
    have hhalf : 2 ^ (t + 1) / 2 = 2 ^ t := by rw [pow_succ, Nat.mul_div_cancel _ (by omega)]
    rw [computeBitsV2Loop, if_pos hgt, hhalf, ih fuel (by omega)]

variable {numNodes i num : Nat} {l : List Bbox}

/-- The number of rounds is such that there are at least as many boxes as nodes. -/
theorem le_two_pow_rounds (hn : numNodes < 2 ^ 31) : numNodes ≤ 2 ^ computeBitsV2 (nextPow2V2 numNodes) := by
  obtain ⟨s, -, hs, heq, hle⟩ := nextPow2V2Loop_spec (n := numNodes) (by omega) 64 0 (by omega)
    (by omega) (Or.inl rfl)
  rw [pow_zero] at heq
  have hbits : computeBitsV2 (2 ^ s) = s := computeBitsV2Loop_two_pow s 64 (by omega)
  rw [nextPow2V2, heq, hbits]
  exact hle

/-! ## Bisecting one box -/

/-- The boxes of the bisection: a side is at worst empty with its lower end one above the upper one,
and coordinates stay below `2 ^ 63`. -/
structure Bisectable (n : Nat) (b : Bbox) : Prop where
  dims_eq : b.numDims = n
  almost_wf : ∀ i < n, b.lb i ≤ b.ub i + 1
  ub_lt : ∀ i < n, b.ub i < 2 ^ 63

theorem bboxDist_of_bisectable {b : Bbox} (h : Bisectable n b) (hi : i < n) :
    bboxDist b i = b.ub i + 1 - b.lb i := by
  have h1 := h.almost_wf i hi
  have h2 := h.ub_lt i hi
  have e : b.ub i + 2 ^ 64 - b.lb i + 1 = (b.ub i + 1 - b.lb i) + 2 ^ 64 := by omega
  rw [bboxDist, coordDist, e, Nat.add_mod_right, Nat.mod_eq_of_lt (by omega)]

theorem argMaxLoop_succ (size : Nat → Nat) (n dim : Nat) : argMaxLoop size (n + 1) dim =
      if (argMaxLoop size n dim).1 < size n then (size n, n) else argMaxLoop size n dim := by
  rw [argMaxLoop, range_succ, foldl_append]
  rfl

theorem argMaxLoop_spec (size : Nat → Nat) (dim n : Nat) :
    ((argMaxLoop size n dim).1 = 0 ∧ (argMaxLoop size n dim).2 = dim ∧ ∀ i < n, size i = 0) ∨
      (argMaxLoop size n dim).2 < n := by
  induction n with
  | zero => exact Or.inl ⟨rfl, rfl, fun i hi => absurd hi (Nat.not_lt_zero i)⟩
  | succ n ih =>
    rw [argMaxLoop_succ]
    by_cases hlt : (argMaxLoop size n dim).1 < size n
    · rw [if_pos hlt]
      exact Or.inr (Nat.lt_succ_self n)
    · rw [if_neg hlt]
      rcases ih with ⟨h1, h2, h3⟩ | h
      · refine Or.inl ⟨h1, h2, fun i hi => ?_⟩
        rcases Nat.lt_succ_iff_lt_or_eq.1 hi with hi | rfl
        · exact h3 i hi
        · omega
      · exact Or.inr (Nat.lt_succ_of_lt h)

/-- The split dimension is one of the box when the variable was, or when some side is not empty. -/
theorem getBboxMaxDimSize_lt {dim : Nat} (h : dim < bb.numDims ∨ ∃ i < bb.numDims, 0 < bboxDist bb i) :
    (getBboxMaxDimSize bb dim).2 < bb.numDims := by
  rcases argMaxLoop_spec (bboxDist bb) dim bb.numDims with ⟨-, h2, h3⟩ | h2
  · rcases h with h | ⟨i, hi, hpos⟩
    · rw [getBboxMaxDimSize, h2]
      exact h
    · rw [h3 i hi] at hpos
      exact absurd hpos (Nat.lt_irrefl 0)
  · exact h2

section Bisect

variable {n : Nat} {b : Bbox} (h : Bisectable n b) {dim : Nat} (hdim : dim < n)

include h hdim

/-- The two halves, without the machine arithmetic. -/
theorem bboxDivideIn2Ondim_eq : bboxDivideIn2Ondim b dim =
    ({ b with ub := update b.ub dim ((b.lb dim + b.ub dim) / 2) },
      { b with lb := update b.lb dim ((b.lb dim + b.ub dim) / 2 + 1) }) := by
  have h1 := h.almost_wf dim hdim
  have h2 := h.ub_lt dim hdim
  have hmid : (b.lb dim + b.ub dim) % 2 ^ 64 = b.lb dim + b.ub dim := Nat.mod_eq_of_lt (by omega)
  have hsucc : ((b.lb dim + b.ub dim) / 2 + 1) % 2 ^ 64 = (b.lb dim + b.ub dim) / 2 + 1 :=
    Nat.mod_eq_of_lt (by omega)
  rw [bboxDivideIn2Ondim, hmid, hsucc]

/-- Both halves are boxes of the bisection again. -/
theorem Bisectable.divide :
    Bisectable n (bboxDivideIn2Ondim b dim).1 ∧ Bisectable n (bboxDivideIn2Ondim b dim).2 := by
  have h1 := h.almost_wf dim hdim
  -- The parts may have one empty side, which `almost_wf` allows.
  rw [bboxDivideIn2Ondim_eq h hdim]
  constructor
  · refine ⟨h.dims_eq, fun i hi => ?_, fun i hi => ?_⟩
    · have hi1 := h.almost_wf i hi
      simp only [update_apply]
      split
      · rename_i hid
        subst hid
        omega
      · exact hi1
    · have hi2 := h.ub_lt i hi
      simp only [update_apply]
      split
      · rename_i hid
        subst hid
        omega
      · exact hi2
  · refine ⟨h.dims_eq, fun i hi => ?_, fun i hi => h.ub_lt i hi⟩
    have hi1 := h.almost_wf i hi
    simp only [update_apply]
    split
    · rename_i hid
      subst hid
      omega
    · exact hi1

/-- A cell of the box lies in exactly one half. -/
theorem count_bboxDivideIn2Ondim (x : Coord) : (if x ∈ (bboxDivideIn2Ondim b dim).1 then 1 else 0) +
      (if x ∈ (bboxDivideIn2Ondim b dim).2 then 1 else 0) = if x ∈ b then 1 else 0 := by
  have h1 := h.almost_wf dim hdim
  have hdim' : dim < b.numDims := by rw [h.dims_eq]; exact hdim
  have hleft : x ∈ (bboxDivideIn2Ondim b dim).1 ↔ x ∈ b ∧ x dim ≤ (b.lb dim + b.ub dim) / 2 := by
    rw [bboxDivideIn2Ondim_eq h hdim]
    exact mem_update_ub hdim' (by omega)
  have hright : x ∈ (bboxDivideIn2Ondim b dim).2 ↔ x ∈ b ∧ (b.lb dim + b.ub dim) / 2 + 1 ≤ x dim := by
    rw [bboxDivideIn2Ondim_eq h hdim]
    exact mem_update_lb hdim' (by omega)
  by_cases hx : x ∈ b
  · by_cases hle : x dim ≤ (b.lb dim + b.ub dim) / 2
    · rw [if_pos (hleft.2 ⟨hx, hle⟩), if_neg (fun hr => absurd (hright.1 hr).2 (by omega)), if_pos hx]
    · rw [if_neg (fun hl => hle (hleft.1 hl).2), if_pos (hright.2 ⟨hx, by omega⟩), if_pos hx]
  · rw [if_neg (fun hl => hx (hleft.1 hl).1), if_neg (fun hr => hx (hright.1 hr).1), if_neg hx]

end Bisect

/-! ## Rounds -/

/-- The boxes of a list count every cell of `bb` once and no other cell. -/
def Tiles (bb : Bbox) (l : List Bbox) : Prop :=
  ∀ x : Coord, l.countP (fun b => x ∈ b) = if x ∈ bb then 1 else 0

theorem countP_mem_pair (x : Coord) (b c : Bbox) :
    [b, c].countP (fun b => x ∈ b) = (if x ∈ b then 1 else 0) + if x ∈ c then 1 else 0 := by
  rw [countP_cons, countP_cons, countP_nil]
  simp only [decide_eq_true_eq]
  omega

/-- One round replaces every box of the source queue by its two halves. The induction is on the source
queue; `dim` is a dimension of the boxes from the first box on. -/
theorem bisectRound_spec : ∀ (src dst : List Bbox) (dim : Nat),
    (∀ b ∈ src, Bisectable n b) → (∀ b ∈ dst, Bisectable n b) →
    (dim < n ∨ ∀ b ∈ src, ∃ i < n, 0 < bboxDist b i) →
    (bisectRound src dst dim).1.length = dst.length + 2 * src.length ∧
      (∀ b ∈ (bisectRound src dst dim).1, Bisectable n b) ∧ (src ≠ [] → (bisectRound src dst dim).2 < n) ∧
      ∀ x : Coord, (bisectRound src dst dim).1.countP (fun b => x ∈ b) =
        dst.countP (fun b => x ∈ b) + src.countP fun b => x ∈ b := by
  intro src
  -- By induction on the queue: every box is replaced by two that share its cells.
  induction src with
  | nil =>
    intro dst dim _ hdst _
    exact ⟨rfl, hdst, fun h => absurd rfl h, fun x => by simp [bisectRound]⟩
  | cons b src ih =>
    intro dst dim hsrc hdst hdim
    have hb := hsrc b mem_cons_self
    -- The dimension to divide is one of the box, or the one of the box before.
    have hlt : (getBboxMaxDimSize b dim).2 < n := by
      rw [← hb.dims_eq]
      refine getBboxMaxDimSize_lt ?_
      rw [hb.dims_eq]
      exact hdim.imp_right fun h => h b mem_cons_self
    obtain ⟨hl, hr⟩ := hb.divide hlt
    rw [bisectRound]
    generalize getBboxMaxDimSize b dim = top at hlt hl hr ⊢
    have hdst' : ∀ c ∈ dst ++ [(bboxDivideIn2Ondim b top.2).1, (bboxDivideIn2Ondim b top.2).2],
        Bisectable n c := by
      intro c hc
      rcases mem_append.1 hc with hc | hc
      · exact hdst c hc
      · rcases mem_pair.1 hc with rfl | rfl
        · exact hl
        · exact hr
    obtain ⟨h1, h2, h3, h4⟩ := ih _ top.2 (fun c hc => hsrc c (mem_cons_of_mem _ hc)) hdst' (Or.inl hlt)
    refine ⟨?_, h2, fun _ => ?_, fun x => ?_⟩
    · rw [h1]
      simp only [length_append, length_cons, length_nil]
      omega
    · cases src with
      | nil => exact hlt
      | cons c src => exact h3 (cons_ne_nil c src)
    · rw [h4, countP_append, countP_mem_pair, count_bboxDivideIn2Ondim hb hlt, countP_cons]
      simp only [decide_eq_true_eq]
      omega

/-- The rounds never meet two empty or two non-empty queues; after them one queue is empty and the
other holds `2 ^ round` times as many boxes, which count the same cells. -/
theorem bisectLoop_spec : ∀ (round : Nat) (q : List Bbox) (dim : Nat), q ≠ [] →
    (∀ b ∈ q, Bisectable n b) → (dim < n ∨ ∀ b ∈ q, ∃ i < n, 0 < bboxDist b i) →
    ∃ q', q'.length = 2 ^ round * q.length ∧
      (∀ x : Coord, q'.countP (fun b => x ∈ b) = q.countP fun b => x ∈ b) ∧ (∀ b ∈ q', Bisectable n b) ∧
      (bisectLoop round q [] dim = .ok (q', []) ∨ bisectLoop round q [] dim = .ok ([], q')) ∧
      (bisectLoop round [] q dim = .ok (q', []) ∨ bisectLoop round [] q dim = .ok ([], q')) := by
  intro round
  -- By induction on the rounds, which move all boxes from one queue to the other and back.
  induction round with
  | zero =>
    intro q dim _ hb _
    exact ⟨q, by rw [pow_zero, Nat.one_mul], fun _ => rfl, hb, Or.inl rfl, Or.inr rfl⟩
  | succ round ih =>
    intro q dim hne hb hdim
    obtain ⟨h1, h2, h3, h4⟩ := bisectRound_spec q [] dim hb (by simp) hdim
    have hpos : 0 < q.length := length_pos_iff.2 hne
    have hne' : (bisectRound q [] dim).1 ≠ [] := by
      rw [← length_pos_iff, h1]
      omega
    obtain ⟨q', hlen, hcount, hbis, hrun1, hrun2⟩ := ih _ _ hne' h2 (Or.inl (h3 hne))
    have hempty : q.isEmpty = false := by
      rw [Bool.eq_false_iff, Ne, List.isEmpty_iff]
      exact hne
    refine ⟨q', ?_, fun x => ?_, hbis, ?_, ?_⟩
    · rw [hlen, h1, length_nil, Nat.zero_add, pow_succ, Nat.mul_assoc]
    · rw [hcount, h4, countP_nil, Nat.zero_add]
    · simpa [bisectLoop, hempty] using hrun2
    · simpa [bisectLoop, hempty] using hrun1

/-! ## Dealing -/

theorem flatMap_set_perm {α β : Type*} {f : α → List β} {e e' : α} {b : β} (he : f e' = f e ++ [b]) :
    ∀ {l : List α} {j : Nat}, l[j]? = some e → ((l.set j e').flatMap f).Perm (l.flatMap f ++ [b]) := by
  intro l
  induction l with
  | nil =>
    intro j hj
    cases hj
  | cons a l ih =>
    intro j hj
    cases j with
    | zero =>
      rw [getElem?_cons_zero, Option.some.injEq] at hj
      subst hj
      rw [set_cons_zero, flatMap_cons, flatMap_cons, he, append_assoc, append_assoc]
      exact Perm.append_left _ perm_append_comm
    | succ j =>
      rw [getElem?_cons_succ] at hj
      rw [set_cons_succ, flatMap_cons, flatMap_cons, append_assoc]
      exact Perm.append_left _ (ih hj)

/-- After `i` boxes entry `j` of `num` has `(i + (num - 1 - j)) / num` of them; the next box changes
that count for the entry `i % num` only. -/
theorem dealt_succ {j : Nat} (hj : j < num) (i : Nat) : (i + 1 + (num - 1 - j)) / num =
      (i + (num - 1 - j)) / num + if j = i % num then 1 else 0 := by
  have hpos : 0 < num := by omega
  have hmod : i % num < num := Nat.mod_lt i hpos
  have hdvd : num ∣ i + (num - 1 - j) + 1 ↔ j = i % num := by
    have e : i + (num - 1 - j) + 1 = num * (i / num) + (i % num + (num - j)) := by
      have := Nat.div_add_mod i num
      omega
    rw [e, Nat.dvd_add_right (Nat.dvd_mul_right _ _)]
    constructor
    · rintro ⟨c, hc⟩
      -- The multiple lies strictly between `0` and `2 * num`, so it is `num` itself.
      have hc0 : c ≠ 0 := by
        rintro rfl
        omega
      have hc2 : c < 2 := by
        refine Nat.lt_of_mul_lt_mul_left (a := num) ?_
        omega
      have hc1 : c = 1 := by omega
      rw [hc1] at hc
      omega
    · intro h
      exact ⟨1, by omega⟩
  have hsucc := Nat.succ_div (a := i + (num - 1 - j)) (b := num)
  rw [if_congr hdvd rfl rfl] at hsucc
  rw [← hsucc]
  congr 1
  omega

/-- The state of the table after `i` boxes. -/
def Dealt (num n i : Nat) (entTab : List DhtEntry) : Prop :=
  entTab.length = num ∧ ∀ (j : Nat) (e : DhtEntry), entTab[j]? = some e →
    e.rank = j ∧ e.sizeBbTab = n ∧ e.bbTab.length = (i + (num - 1 - j)) / num

/-- One box more, given to the entry whose turn it is. -/
theorem Dealt.step {entTab : List DhtEntry} (hnum : 0 < num) (h : Dealt num n i entTab)
    {e : DhtEntry} (he : entTab[i % num]? = some e) (bb : Bbox) :
    Dealt num n (i + 1) (entTab.set (i % num) { e with bbTab := e.bbTab ++ [bb] }) := by
  refine ⟨by rw [length_set]; exact h.1, fun j e' hj => ?_⟩
  have hlt : j < num := by
    rw [← h.1, ← length_set (i := i % num) (a := { e with bbTab := e.bbTab ++ [bb] })]
    exact (List.getElem?_eq_some_iff.1 hj).1
  have hmod : i % num < entTab.length := by rw [h.1]; exact Nat.mod_lt i hnum
  rw [getElem?_set] at hj
  by_cases hij : i % num = j
  · rw [if_pos hij, if_pos hmod, Option.some.injEq] at hj
    subst hj
    obtain ⟨h1, h2, h3⟩ := h.2 (i % num) e he
    refine ⟨by rw [← hij]; exact h1, h2, ?_⟩
    rw [dealt_succ hlt, if_pos hij.symm, ← hij, ← h3]
    exact length_append
  · rw [if_neg hij] at hj
    obtain ⟨h1, h2, h3⟩ := h.2 j e' hj
    refine ⟨h1, h2, ?_⟩
    rw [dealt_succ hlt, if_neg (fun hc => hij hc.symm), Nat.add_zero, h3]

/-- Dealing the boxes never writes past a table of `⌈total / num⌉` boxes, and keeps the boxes. -/
theorem dealLoop_spec {total : Nat} (hnum : 0 < num) :
    ∀ (q : List Bbox) (i : Nat) (entTab : List DhtEntry), i + q.length = total →
      Dealt num ((total + num - 1) / num) i entTab → ∃ entTab', dealLoop i q entTab = .ok entTab' ∧
        Dealt num ((total + num - 1) / num) total entTab' ∧
        (entTab'.flatMap DhtEntry.bbTab).Perm (entTab.flatMap DhtEntry.bbTab ++ q) := by
  intro q
  induction q with
  | nil =>
    intro i entTab htotal h
    rw [length_nil, Nat.add_zero] at htotal
    subst htotal
    exact ⟨entTab, rfl, h, by rw [append_nil]⟩
  | cons bb q ih =>
    intro i entTab htotal h
    rw [length_cons] at htotal
    have hmod : i % num < entTab.length := by rw [h.1]; exact Nat.mod_lt i hnum
    obtain ⟨e, he⟩ : ∃ e, entTab[i % num]? = some e := ⟨_, getElem?_eq_getElem hmod⟩
    obtain ⟨-, hsize, hlen⟩ := h.2 _ e he
    -- An entry gets every `num`-th box, so the rounded up share is enough room.
    have hroom : e.bbTab.length < e.sizeBbTab := by
      have hlt : i % num < num := Nat.mod_lt i hnum
      have hstep := dealt_succ hlt i
      rw [if_pos rfl] at hstep
      have hle : (i + 1 + (num - 1 - i % num)) / num ≤ (total + num - 1) / num :=
        Nat.div_le_div_right (by omega)
      omega
    obtain ⟨entTab', hok, hdealt, hperm⟩ := ih (i + 1)
      (entTab.set (i % num) { e with bbTab := e.bbTab ++ [bb] }) (by omega) (h.step hnum he bb)
    refine ⟨entTab', ?_, hdealt, ?_⟩
    · rw [dealLoop, h.1, he]
      simp only [if_pos hroom]
      exact hok
    · have hset : ((entTab.set (i % num) { e with bbTab := e.bbTab ++ [bb] }).flatMap
          DhtEntry.bbTab).Perm (entTab.flatMap DhtEntry.bbTab ++ [bb]) := flatMap_set_perm rfl he
      refine hperm.trans ((hset.append_right q).trans ?_)
      rw [append_assoc]
      exact Perm.refl _

/-! ## Ownership -/

/-- The space that `ssd_alloc_v2` returns for a domain box. -/
structure SpaceV2 (bb : Bbox) (numNodes : Nat) (ss : Sspace) : Prop where
  version : ss.hashVersion = .v2
  domain_eq : ss.bbGlbDomain = bb
  length_eq : ss.entTab.length = numNodes
  rank_eq : ∀ (k : Nat) (e : DhtEntry), ss.entTab[k]? = some e → e.rank = k
  tiles : Tiles bb (ss.entTab.flatMap DhtEntry.bbTab)
  bisectable : ∀ b ∈ ss.entTab.flatMap DhtEntry.bbTab, Bisectable bb.numDims b
  size_le : ∀ e ∈ ss.entTab, e.bbTab.length ≤ e.sizeBbTab
  nonempty : ∀ e ∈ ss.entTab, e.bbTab ≠ []

theorem bisectable_of_wf (hwf : bb.Wf) (hub : ∀ i < bb.numDims, bb.ub i < 2 ^ 63) :
    Bisectable bb.numDims bb :=
  ⟨rfl, fun i hi => le_trans (hwf i hi) (Nat.le_succ _), hub⟩

theorem dealt_zero (num n maxVersions : Nat) :
    Dealt num n 0 ((range num).map (emptyEntry n maxVersions)) := by
  refine ⟨by simp, fun j e hj => ?_⟩
  obtain ⟨hlt, rfl⟩ := List.getElem?_eq_some_iff.1 hj
  rw [length_map, length_range] at hlt
  refine ⟨by simp [emptyEntry], by simp [emptyEntry], ?_⟩
  rw [Nat.zero_add, Nat.div_eq_of_lt (by omega)]
  simp [emptyEntry]

theorem ssdAllocV2_spec {P : Platform} (hdims : 0 < bb.numDims) (hwf : bb.Wf)
    (hub : ∀ i < bb.numDims, bb.ub i < 2 ^ 63) (hn : 1 ≤ numNodes) (hlt : numNodes < 2 ^ 31)
    (maxVersions : Nat) : ∃ ss, ssdAllocV2 P bb numNodes maxVersions = .ok ss ∧ SpaceV2 bb numNodes ss := by
  have hbis := bisectable_of_wf hwf hub
  -- The domain has a side to divide, so the first round picks a dimension of the box.
  have hside : ∀ b ∈ [bb], ∃ i < bb.numDims, 0 < bboxDist b i := by
    intro b hb
    rw [mem_singleton] at hb
    subst hb
    refine ⟨0, hdims, ?_⟩
    have := hwf 0 hdims
    rw [bboxDist_of_bisectable hbis hdims]
    omega
  obtain ⟨q, hlen, hcount, hqbis, hrun, -⟩ :=
    bisectLoop_spec (computeBitsV2 (nextPow2V2 numNodes)) [bb] (getBboxMaxDim bb P.rawDim).2
      (cons_ne_nil _ _) (by simpa using hbis) (Or.inr hside)
  rw [length_singleton, Nat.mul_one] at hlen
  -- There are at least as many boxes as servers.
  have hboxes : numNodes ≤ q.length := by
    rw [hlen]
    exact le_two_pow_rounds hlt
  have hqne : q.isEmpty = false := by
    rw [Bool.eq_false_iff, Ne, List.isEmpty_iff, ← length_eq_zero_iff]
    omega
  obtain ⟨entTab, hok, hdealt, hperm⟩ := dealLoop_spec hn q 0
    ((range numNodes).map (emptyEntry ((q.length + numNodes - 1) / numNodes) maxVersions))
    (Nat.zero_add _) (dealt_zero _ _ _)
  -- No box is dealt at first, so the entries end up with those of the queue.
  have hinit : ((range numNodes).map
      (emptyEntry ((q.length + numNodes - 1) / numNodes) maxVersions)).flatMap DhtEntry.bbTab = [] := by
    simp [emptyEntry, flatMap_map]
  rw [hinit, nil_append] at hperm
  have hentry : ∀ e ∈ entTab, ∃ j, j < numNodes ∧ e.rank = j ∧
      e.sizeBbTab = (q.length + numNodes - 1) / numNodes ∧
      e.bbTab.length = (q.length + (numNodes - 1 - j)) / numNodes := by
    intro e he
    obtain ⟨j, hj⟩ := getElem?_of_mem he
    refine ⟨j, ?_, hdealt.2 j e hj⟩
    rw [← hdealt.1]
    exact (List.getElem?_eq_some_iff.1 hj).1
  refine ⟨{ maxDim := nextPow2V2 (getBboxMaxDim bb P.rawDim).1
            bpd := computeBitsV2 (nextPow2V2 (getBboxMaxDim bb P.rawDim).1)
            bbGlbDomain := bb
            entTab := entTab
            totalNumBbox := q.length
            hashVersion := .v2 }, ?_, ?_⟩
  · rcases hrun with hrun | hrun
    · simp only [ssdAllocV2, hrun, hqne, Bool.false_eq_true, if_false, hok]
    · simp only [ssdAllocV2, hrun, isEmpty_nil, if_true, hok]
  · refine ⟨rfl, rfl, hdealt.1, fun k e hk => (hdealt.2 k e hk).1, fun x => ?_, fun b hb => ?_,
      fun e he => ?_, fun e he hnil => ?_⟩
    · rw [hperm.countP_eq, hcount, countP_singleton]
      simp only [decide_eq_true_eq]
    · exact hqbis b (hperm.mem_iff.1 hb)
    · obtain ⟨j, -, -, h2, h3⟩ := hentry e he
      rw [h2, h3]
      exact Nat.div_le_div_right (by omega)
    · -- Every server gets a box.
      obtain ⟨j, hj, -, -, h3⟩ := hentry e he
      rw [hnil, length_nil] at h3
      have hge : 1 ≤ (q.length + (numNodes - 1 - j)) / numNodes := (Nat.one_le_div_iff hn).2 (by omega)
      omega

theorem Tiles.mem_iff (h : Tiles bb l) {x : Coord} : x ∈ bb ↔ ∃ b ∈ l, x ∈ b := by
  have hx := h x
  constructor
  · intro hmem
    rw [if_pos hmem] at hx
    have hpos : 0 < l.countP (fun b => x ∈ b) := by omega
    simpa using countP_pos_iff.1 hpos
  · rintro ⟨b, hb, hxb⟩
    by_contra hmem
    rw [if_neg hmem] at hx
    exact (countP_eq_zero.1 hx) b hb (by simpa using hxb)

theorem Tiles.pairwise (h : Tiles bb l) : l.Pairwise fun a b => ∀ x : Coord, x ∈ a → x ∉ b := by
  have hle : ∀ x : Coord, l.countP (fun b => x ∈ b) ≤ 1 := by
    intro x
    rw [h x]
    split <;> omega
  clear h
  induction l with
  | nil => exact Pairwise.nil
  | cons a l ih =>
    refine pairwise_cons.2 ⟨fun b hb x hxa hxb => ?_, ih fun x => ?_⟩
    · have hx := hle x
      have hpos : 0 < l.countP (fun b => x ∈ b) := countP_pos_iff.2 ⟨b, hb, by simpa using hxb⟩
      rw [countP_cons, if_pos (by simpa using hxa)] at hx
      omega
    · have hx := hle x
      rw [countP_cons] at hx
      omega

/-- The boxes handed out are disjoint and make up the domain, no table overflows, every entry receives
a box, and the allocation reaches no fault, for every domain box and every number of entries. -/
theorem bisection_partitions_domain (P : Platform) (bb : Bbox) (hdims : 0 < bb.numDims) (hwf : bb.Wf)
    (hub : ∀ i < bb.numDims, bb.ub i < 2 ^ 63) (numNodes maxVersions : Nat) (hn : 1 ≤ numNodes)
    (hlt : numNodes < 2 ^ 31) :
    ∃ ss, ssdAllocV2 P bb numNodes maxVersions = .ok ss ∧ ss.entTab.length = numNodes ∧
      (ss.entTab.flatMap DhtEntry.bbTab).Pairwise (fun a b => ∀ x : Coord, x ∈ a → x ∉ b) ∧
      (∀ x : Coord, x ∈ bb ↔ ∃ e ∈ ss.entTab, ∃ b ∈ e.bbTab, x ∈ b) ∧
      (∀ e ∈ ss.entTab, e.bbTab.length ≤ e.sizeBbTab) ∧ ∀ e ∈ ss.entTab, e.bbTab ≠ [] := by
  obtain ⟨ss, hok, h⟩ := ssdAllocV2_spec (P := P) hdims hwf hub hn hlt maxVersions
  refine ⟨ss, hok, h.length_eq, h.tiles.pairwise, fun x => ?_, h.size_le, h.nonempty⟩
  rw [h.tiles.mem_iff]
  constructor
  · rintro ⟨b, hb, hx⟩
    obtain ⟨e, he, hbe⟩ := mem_flatMap.1 hb
    exact ⟨e, he, b, hbe, hx⟩
  · rintro ⟨e, he, b, hbe, hx⟩
    exact ⟨b, mem_flatMap.2 ⟨e, he, hbe⟩, hx⟩

/-- Two cells over three entries: four boxes, two of them empty. -/
theorem bisection_partitions_two_cells :
    ∃ ss, ssdAllocV2 referencePlatform ⟨2, fun _ => 0, fun i => if i = 0 then 1 else 0⟩ 3 1 = .ok ss ∧
      ss.entTab.length = 3 ∧
      (ss.entTab.flatMap DhtEntry.bbTab).Pairwise (fun a b => ∀ x : Coord, x ∈ a → x ∉ b) ∧
      (∀ x : Coord, x ∈ (⟨2, fun _ => 0, fun i => if i = 0 then 1 else 0⟩ : Bbox) ↔
        ∃ e ∈ ss.entTab, ∃ b ∈ e.bbTab, x ∈ b) ∧ (∀ e ∈ ss.entTab, e.bbTab.length ≤ e.sizeBbTab) ∧
      ∀ e ∈ ss.entTab, e.bbTab ≠ [] :=
  bisection_partitions_domain referencePlatform ⟨2, fun _ => 0, fun i => if i = 0 then 1 else 0⟩
    (by decide) (by decide) (by decide) 3 1 (by decide) (by decide)

end DataSpaces.Space
