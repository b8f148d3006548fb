import DataSpaces.Space.Sspace

/-!
# Ownership in hash version 1

`ssd_alloc_v1` linearises the domain and `dht_construct_hash` deals the resulting indices to the DHT
entries: every entry takes the next `volume / num_entries` indices of the sorted table, splitting an
interval where its quota ends.

Entry `k` owns piece `k` of the list of all indices (`constructLoop_spec`). The quota is rounded down
and nothing deals the remainder, so the entries partition the domain exactly when the number of
entries divides the volume (`ownership_partition_iff_dvd`); in the other cases the last indices have
no owner, and with more entries than cells no entry owns anything.
-/

namespace DataSpaces.Space

open Lib Geometry List

/-- The loop `while (len > 0)` of `dht_construct_hash`. The table is what is left of `i_tab` from
position `j` on; a read past it is a fault. Both subtractions from `len` are exact, since the interval
taken is never larger than `len`. -/
def quotaLoop : Nat → Nat → List Intv → List Intv → Except Fault (List Intv × List Intv)
  | 0, _, _, _ => .error .diverges
  | fuel + 1, len, tab, taken =>
    if len = 0 then .ok (taken, tab)
    else
      match tab with
      | [] => .error .outOfBounds
      | itv :: rest =>
        -- The interval is cut in two, and the second part stays for the next entry.
        if intvSize itv > len then
          let cut : Intv := ⟨itv.lb, (itv.lb + len - 1) % 2 ^ 64⟩
          quotaLoop fuel (len - intvSize cut) (⟨(itv.lb + len) % 2 ^ 64, itv.ub⟩ :: rest)
            (taken ++ [cut])
        else quotaLoop fuel (len - intvSize itv) rest (taken ++ [itv])

/-- The loop over the DHT entries; `sn` is the quota of an entry. An entry without intervals reads its
first and last interval from unwritten memory and shrinks its table to size zero. -/
def constructLoop (P : Platform) (sn odscSize : Nat) :
    List Nat → List Intv → Except Fault (List DhtEntry)
  | [], _ => .ok []
  | rank :: ranks, tab =>
    match quotaLoop (tab.length + 2) sn tab [] with
    | .error e => .error e
    | .ok (iTab, rest) =>
      -- `realloc` of an empty table may return NULL, which the source takes for a failure.
      if iTab.isEmpty && P.reallocZeroNull then .error .noMemory
      else
        match constructLoop P sn odscSize ranks rest with
        | .error e => .error e
        | .ok entries =>
          .ok ({ rank := rank
                 iVirt := ⟨(iTab.head?.getD P.rawIntv).lb, (iTab.getLast?.getD P.rawIntv).ub⟩
                 iTab := iTab
                 sizeBbTab := 0
                 bbTab := []
                 odscSize := odscSize } :: entries)

def dhtConstructHash (P : Platform) (bb : Bbox) (numEntries maxDim odscSize : Nat) :
    Except Fault (List DhtEntry) :=
  let sn := bboxVolume bb / numEntries
  match bboxToIntv P bb maxDim with
  | none => .error .diverges
  | some iTab => constructLoop P sn odscSize (range numEntries) iTab

def ssdAllocV1 (P : Platform) (bbDomain : Bbox) (numNodes maxVersions : Nat) :
    Except Fault Sspace :=
  let maxDim := virtualDim bbDomain
  match dhtConstructHash P bbDomain numNodes maxDim maxVersions with
  | .error e => .error e
  | .ok entTab =>
    .ok { maxDim := maxDim
          bpd := computeBits maxDim
          bbGlbDomain := bbDomain
          entTab := entTab
          totalNumBbox := 0
          hashVersion := .v1 }

/-! ## The quota loop -/

/-- A table that the loop can process: non-empty intervals of numbers below `2 ^ 63`. -/
def Dealable (tab : List Intv) : Prop := ∀ i ∈ tab, i.lb ≤ i.ub ∧ i.ub < 2 ^ 63

variable {tab : List Intv} {P : Platform} {D : Domain} {K numNodes : Nat} {i : Intv} {ss : Sspace}

theorem Dealable.cons (h1 : i.lb ≤ i.ub ∧ i.ub < 2 ^ 63) (h : Dealable tab) : Dealable (i :: tab) := by
  intro j hj
  rcases mem_cons.1 hj with rfl | hj
  · exact h1
  · exact h j hj

theorem intvSize_of_dealable (h : i.lb ≤ i.ub ∧ i.ub < 2 ^ 63) : intvSize i = i.toList.length := by
  rw [intvSize_eq h.1 (by omega), Intv.length_toList]
  omega

/-- The loop takes the first `len` numbers of the table and leaves the others. -/
theorem quotaLoop_spec : ∀ (tab : List Intv) (len fuel : Nat) (out : List Intv), Dealable tab →
    len ≤ (Intv.points tab).length → tab.length + 2 ≤ fuel →
    ∃ taken rest, quotaLoop fuel len tab out = .ok (out ++ taken, rest) ∧
      Intv.points taken = (Intv.points tab).take len ∧ Intv.points rest = (Intv.points tab).drop len ∧
      Dealable taken ∧ Dealable rest ∧ rest.length ≤ tab.length := by
  intro tab
  induction tab with
  | nil =>
    intro len fuel out _ hlen hfuel
    obtain ⟨fuel, rfl⟩ : ∃ m, fuel = m + 1 := ⟨fuel - 1, by omega⟩
    have hlen0 : len = 0 := by simpa using hlen
    subst hlen0
    exact ⟨[], [], by simp [quotaLoop], by simp, by simp, by simp [Dealable], by simp [Dealable], le_rfl⟩
  | cons itv tab ih =>
    intro len fuel out hd hlen hfuel
    obtain ⟨fuel, rfl⟩ : ∃ m, fuel = m + 1 := ⟨fuel - 1, by omega⟩
    have hitv := hd itv mem_cons_self
    have hd' : Dealable tab := fun i hi => hd i (mem_cons_of_mem _ hi)
    have hsize := intvSize_of_dealable hitv
    have hlength := Intv.length_toList itv
    rw [quotaLoop]
    by_cases h0 : len = 0
    · subst h0
      exact ⟨[], itv :: tab, by simp, by simp, by simp, by simp [Dealable], hd, le_rfl⟩
    · rw [if_neg h0]
      dsimp only
      by_cases hcut : intvSize itv > len
      · -- The quota ends inside this interval: the loop stops in the next round.
        rw [if_pos hcut]
        have hub : (itv.lb + len - 1) % 2 ^ 64 = itv.lb + len - 1 := Nat.mod_eq_of_lt (by omega)
        have hlb : (itv.lb + len) % 2 ^ 64 = itv.lb + len := Nat.mod_eq_of_lt (by omega)
        rw [hub, hlb]
        have hcutd : (Intv.mk itv.lb (itv.lb + len - 1)).lb ≤ (Intv.mk itv.lb (itv.lb + len - 1)).ub ∧
            (Intv.mk itv.lb (itv.lb + len - 1)).ub < 2 ^ 63 := by
          simp only
          omega
        have hcutlen : (Intv.mk itv.lb (itv.lb + len - 1)).toList.length = len := by
          rw [Intv.length_toList]
          simp only
          omega
        obtain ⟨fuel, rfl⟩ : ∃ m, fuel = m + 1 := ⟨fuel - 1, by omega⟩
        rw [intvSize_of_dealable hcutd, hcutlen, Nat.sub_self, quotaLoop, if_pos rfl]
        have hsplit := Intv.toList_split (i := itv) (Nat.pos_of_ne_zero h0) (by omega)
        refine ⟨[⟨itv.lb, itv.lb + len - 1⟩], ⟨itv.lb + len, itv.ub⟩ :: tab, rfl, ?_, ?_, ?_, ?_, ?_⟩
        · rw [Intv.points_cons, Intv.points_cons, Intv.points_nil, append_nil, hsplit,
            append_assoc, take_left' hcutlen]
        · rw [Intv.points_cons, Intv.points_cons, hsplit, append_assoc, drop_left' hcutlen]
        · exact Dealable.cons hcutd (by simp [Dealable])
        · exact Dealable.cons (by simp only; omega) hd'
        · simp
      · rw [if_neg hcut]
        rw [Intv.points_cons, length_append] at hlen
        obtain ⟨taken, rest, hrun, htake, hdrop, hdt, hdr, hle⟩ := ih (len - intvSize itv) fuel
          (out ++ [itv]) hd' (by omega) (by simp only [length_cons] at hfuel; omega)
        refine ⟨itv :: taken, rest, by rw [hrun, append_assoc]; rfl, ?_, ?_,
          Dealable.cons hitv hdt, hdr, by simp only [length_cons]; omega⟩
        · rw [Intv.points_cons, htake, Intv.points_cons, take_append, hsize,
            take_of_length_le (by omega : itv.toList.length ≤ len)]
        · rw [hdrop, Intv.points_cons, drop_append, hsize,
            drop_of_length_le (by omega : itv.toList.length ≤ len), nil_append]

/-! ## The loop over the entries -/

/-- What a constructed entry looks like: its table lists the given numbers, and its hull is read off
the first and the last interval. -/
structure EntryFor (P : Platform) (rank : Nat) (numbers : List Nat) (e : DhtEntry) : Prop where
  rank_eq : e.rank = rank
  points_eq : Intv.points e.iTab = numbers
  nonempty : ∀ i ∈ e.iTab, i.lb ≤ i.ub
  virt_lb : e.iVirt.lb = (e.iTab.head?.getD P.rawIntv).lb
  virt_ub : e.iVirt.ub = (e.iTab.getLast?.getD P.rawIntv).ub

/-- Unless a table without intervals makes `realloc` fail, entry number `j` of the loop owns piece `j`
of the numbers of the table. -/
theorem constructLoop_spec {sn : Nat} (odscSize : Nat) (hsn : 0 < sn ∨ P.reallocZeroNull = false) :
    ∀ (ranks : List Nat) (tab : List Intv), Dealable tab → sn * ranks.length ≤ (Intv.points tab).length →
      ∃ entries, constructLoop P sn odscSize ranks tab = .ok entries ∧ entries.length = ranks.length ∧
        ∀ (j : Nat) (e : DhtEntry), entries[j]? = some e →
          ∃ rank, ranks[j]? = some rank ∧ EntryFor P rank (piece sn j (Intv.points tab)) e := by
  intro ranks
  -- By induction on the entries: each takes `sn` numbers off the front of the table.
  induction ranks with
  | nil =>
    intro tab _ _
    exact ⟨[], rfl, rfl, by simp⟩
  | cons rank ranks ih =>
    intro tab hd hlen
    rw [length_cons, Nat.mul_succ] at hlen
    obtain ⟨taken, rest, hrun, htake, hdrop, hdt, hdr, -⟩ :=
      quotaLoop_spec tab sn (tab.length + 2) [] hd (by omega) le_rfl
    rw [nil_append] at hrun
    -- `realloc` to size 0 happens only for an empty quota.
    have hnomem : ¬ (taken.isEmpty && P.reallocZeroNull) = true := by
      rcases hsn with hpos | hnull
      · have hlenTaken : (Intv.points taken).length = sn := by
          rw [htake, length_take]
          omega
        cases taken with
        | nil =>
          rw [Intv.points_nil, length_nil] at hlenTaken
          omega
        | cons a l => simp
      · simp [hnull]
    obtain ⟨entries, hok, hcount, hspec⟩ := ih rest hdr (by rw [hdrop, length_drop]; omega)
    refine ⟨_, by simp only [constructLoop, hrun, if_neg hnomem, hok]; rfl,
      by rw [length_cons, hcount, length_cons], ?_⟩
    intro j e hj
    cases j with
    | zero =>
      rw [getElem?_cons_zero, Option.some.injEq] at hj
      subst hj
      exact ⟨rank, rfl, rfl, by rw [htake, piece, Nat.zero_mul, drop_zero],
        fun i hi => (hdt i hi).1, rfl, rfl⟩
    -- Piece `j` of the rest is piece `j + 1` of the whole.
    | succ j =>
      rw [getElem?_cons_succ] at hj
      obtain ⟨r, hr, he⟩ := hspec j e hj
      refine ⟨r, by rw [getElem?_cons_succ]; exact hr, ?_⟩
      have hpiece : piece sn j (Intv.points rest) = piece sn (j + 1) (Intv.points tab) := by
        rw [piece, piece, hdrop, drop_drop, Nat.add_mul, Nat.one_mul, Nat.add_comm]
      rw [← hpiece]
      exact he

/-- With an empty quota and a `realloc` that returns a null pointer, the first entry already fails. -/
theorem constructLoop_zero {odscSize rank : Nat} {ranks : List Nat} (hnull : P.reallocZeroNull = true) :
    constructLoop P 0 odscSize (rank :: ranks) tab = .error .noMemory := by
  simp [constructLoop, quotaLoop, hnull]

/-! ## The space of a domain -/

/-- The assumptions on the curve for a domain: the index fits 64 bits, and the vendored function is a
curve on the bits that `ssd_alloc_v1` computes. -/
structure CurveFor (P : Platform) (D : Domain) : Prop where
  bits_le : D.box.numDims * computeBits (virtualDim D.box) ≤ 64
  curve : CubeCurve D.box.numDims (computeBits (virtualDim D.box))
    (P.hilbertC2i D.box.numDims (computeBits (virtualDim D.box)))

/-- The virtual cube of a domain with a curve. -/
structure VirtualCube (P : Platform) (D : Domain) (K : Nat) : Prop where
  setup : SfcSetup P D.box.numDims K
  dim_eq : virtualDim D.box = 2 ^ K
  bits_eq : computeBits (virtualDim D.box) = K + 1
  inside : ∀ x ∈ D.box, ∀ i < D.box.numDims, x i < 2 ^ K

theorem CurveFor.exists_virtualCube (C : CurveFor P D) : ∃ K, VirtualCube P D K := by
  obtain ⟨K, hK, hdim, hin⟩ := D.exists_virtualDim
  have hbits : computeBits (virtualDim D.box) = K + 1 := by
    rw [hdim]
    exact computeBits_two_pow (by omega)
  have hle := C.bits_le
  have hcurve := C.curve
  rw [hbits] at hle hcurve
  exact ⟨K, ⟨D.dims_pos, hK, hle, hcurve⟩, hdim, hbits, hin⟩

/-- The list of all indices of a domain, which the entries are dealt. -/
structure DomainIndices (P : Platform) (D : Domain) (K : Nat) (tab : List Intv) : Prop where
  run_eq : bboxToIntv P D.box (virtualDim D.box) = some tab
  dealable : Dealable tab
  increasing : (Intv.points tab).Pairwise (· < ·)
  mem_iff : ∀ m, m ∈ Intv.points tab ↔ ∃ x ∈ D.box, sfcIndex P D.box.numDims (K + 1) x = m
  length_eq : (Intv.points tab).length = bboxVolume D.box

theorem VirtualCube.exists_indices (V : VirtualCube P D K) : ∃ tab, DomainIndices P D K tab := by
  obtain ⟨tab, hrun, -, henum, hinc⟩ := bboxToIntv_spec V.setup D.wf
    ⟨D.box.lb, D.wf.lb_mem, V.inside _ D.wf.lb_mem⟩
  have hlt : ∀ m ∈ Intv.points tab, m < 2 ^ 63 := by
    intro m hm
    obtain ⟨x, hx, rfl⟩ := (henum.mem_iff m).1 hm
    exact sfcIndex_lt V.setup.bits_le V.setup.curve hx.2
  have hcard := length_points_eq_card V.setup V.inside henum
  have hvol : bboxVolume D.box = (cellSet D.box).card := by
    refine bboxVolume_eq_card D.wf (fun i hi => ?_) ?_
    · have := D.side_lt i hi
      omega
    · -- The indices are distinct numbers below `2 ^ 63`.
      rw [← hcard, ← toFinset_card_of_nodup henum.nodup]
      have hsub : (Intv.points tab).toFinset ⊆ Finset.range (2 ^ 63) := by
        intro m hm
        exact Finset.mem_range.2 (hlt m (mem_toFinset.1 hm))
      have := Finset.card_le_card hsub
      rw [Finset.card_range] at this
      omega
  refine ⟨tab, by rw [V.dim_eq]; exact hrun, fun i hi => ?_, hinc, fun m => ?_, by rw [hcard, hvol]⟩
  · have hne := henum.nonempty i hi
    exact ⟨hne, hlt _ (Intv.mem_points.2 ⟨i, hi, hne, le_rfl⟩)⟩
  · rw [henum.mem_iff]
    exact exists_congr fun x => and_congr_left' ⟨fun h => h.1, fun h => ⟨h, V.inside x h⟩⟩

/-- The space that `ssd_alloc_v1` returns for a domain. -/
structure SpaceV1 (P : Platform) (D : Domain) (K numNodes : Nat) (tab : List Intv) (ss : Sspace) :
    Prop where
  version : ss.hashVersion = .v1
  maxDim_eq : ss.maxDim = 2 ^ K
  bpd_eq : ss.bpd = K + 1
  domain_eq : ss.bbGlbDomain = D.box
  length_eq : ss.entTab.length = numNodes
  entry : ∀ (k : Nat) (e : DhtEntry), ss.entTab[k]? = some e →
    EntryFor P k (piece (bboxVolume D.box / numNodes) k (Intv.points tab)) e

/-- `ssd_alloc_v1` succeeds unless the quota is empty and `realloc` to size zero gives a null pointer,
and then it deals the domain's indices. -/
theorem ssdAllocV1_spec (V : VirtualCube P D K) (I : DomainIndices P D K tab) (hn : 0 < numNodes)
    (maxVersions : Nat) : ((bboxVolume D.box / numNodes = 0 ∧ P.reallocZeroNull = true) ∧
      ssdAllocV1 P D.box numNodes maxVersions = .error .noMemory) ∨
    ∃ ss, ssdAllocV1 P D.box numNodes maxVersions = .ok ss ∧ SpaceV1 P D K numNodes tab ss := by
  -- More servers than cells give every entry an empty quota.
  by_cases hzero : bboxVolume D.box / numNodes = 0 ∧ P.reallocZeroNull = true
  · refine Or.inl ⟨hzero, ?_⟩
    obtain ⟨n, rfl⟩ : ∃ n, numNodes = n + 1 := ⟨numNodes - 1, by omega⟩
    simp only [ssdAllocV1, dhtConstructHash, I.run_eq, hzero.1, range_succ_eq_map, constructLoop_zero hzero.2]
  · refine Or.inr ?_
    have hsn : 0 < bboxVolume D.box / numNodes ∨ P.reallocZeroNull = false := by
      rcases Nat.eq_zero_or_pos (bboxVolume D.box / numNodes) with h | h
      · exact Or.inr (Bool.eq_false_iff.2 fun hnull => hzero ⟨h, hnull⟩)
      · exact Or.inl h
    obtain ⟨entries, hok, hcount, hspec⟩ := constructLoop_spec maxVersions hsn (range numNodes) tab I.dealable
      (by rw [length_range, I.length_eq]; exact Nat.div_mul_le_self _ _)
    refine ⟨_, by simp only [ssdAllocV1, dhtConstructHash, I.run_eq, hok]; rfl,
      ⟨rfl, V.dim_eq, V.bits_eq, rfl, by rw [hcount, length_range], fun k e hk => ?_⟩⟩
    obtain ⟨rank, hrank, he⟩ := hspec k e hk
    have hlt : k < numNodes := by
      have := (List.getElem?_eq_some_iff.1 hrank).1
      simpa using this
    rw [getElem?_range hlt, Option.some.injEq] at hrank
    exact hrank ▸ he

/-! ## Ownership -/

/-- The ownership that the hash is meant to give: every cell of the domain has its index in the table
of exactly one entry, and every owned index is that of a cell of the domain. -/
def PartitionsDomain (P : Platform) (bb : Bbox) (ss : Sspace) : Prop :=
  (∀ x ∈ bb, ∃! k, ss.OwnsIndex k (sfcIndex P bb.numDims ss.bpd x)) ∧
    ∀ k m, ss.OwnsIndex k m → ∃ x ∈ bb, sfcIndex P bb.numDims ss.bpd x = m

theorem SpaceV1.ownsIndex_iff (h : SpaceV1 P D K numNodes tab ss) {k m : Nat} :
    ss.OwnsIndex k m ↔ k < numNodes ∧ m ∈ piece (bboxVolume D.box / numNodes) k (Intv.points tab) := by
  constructor
  · rintro ⟨e, hk, hm⟩
    refine ⟨?_, (h.entry k e hk).points_eq ▸ hm⟩
    rw [← h.length_eq]
    exact (List.getElem?_eq_some_iff.1 hk).1
  · rintro ⟨hk, hm⟩
    have hlt : k < ss.entTab.length := by rw [h.length_eq]; exact hk
    have hget : ss.entTab[k]? = some ss.entTab[k] := getElem?_eq_getElem hlt
    exact ⟨_, hget, (h.entry k _ hget).points_eq.symm ▸ hm⟩

theorem mem_of_mem_piece {α : Type*} {k i : Nat} {l : List α} {a : α} (h : a ∈ piece k i l) : a ∈ l :=
  mem_of_mem_drop (mem_of_mem_take h)

theorem SpaceV1.partitionsDomain_iff (h : SpaceV1 P D K numNodes tab ss)
    (I : DomainIndices P D K tab) : PartitionsDomain P D.box ss ↔ numNodes ∣ bboxVolume D.box := by
  have hnodup : (Intv.points tab).Nodup := I.increasing.imp ne_of_lt
  have hpieces := existsUnique_piece_iff hnodup (k := bboxVolume D.box / numNodes) (n := numNodes)
    (by rw [I.length_eq]; exact Nat.div_mul_le_self _ _)
  -- Cells and their numbers are in bijection, so owners can be counted on numbers.
  have howner : (∀ x ∈ D.box, ∃! k, ss.OwnsIndex k (sfcIndex P D.box.numDims ss.bpd x)) ↔
      ∀ m ∈ Intv.points tab, ∃! k, k < numNodes ∧
        m ∈ piece (bboxVolume D.box / numNodes) k (Intv.points tab) := by
    simp only [h.ownsIndex_iff, h.bpd_eq]
    constructor
    · intro hx m hm
      obtain ⟨x, hxD, rfl⟩ := (I.mem_iff m).1 hm
      exact hx x hxD
    · intro hm x hx
      exact hm _ ((I.mem_iff _).2 ⟨x, hx, rfl⟩)
  -- No entry has a number outside the domain.
  have hinside : ∀ k m, ss.OwnsIndex k m → ∃ x ∈ D.box, sfcIndex P D.box.numDims ss.bpd x = m := by
    intro k m hk
    rw [h.bpd_eq]
    exact (I.mem_iff m).1 (mem_of_mem_piece (h.ownsIndex_iff.1 hk).2)
  rw [PartitionsDomain, howner, hpieces, I.length_eq]
  constructor
  · rintro ⟨heq, -⟩
    exact ⟨_, heq.trans (Nat.mul_comm _ _)⟩
  · intro hdvd
    exact ⟨(Nat.div_mul_cancel hdvd).symm, hinside⟩

/-- Allocation gives a space whose entries partition the domain if and only if the number of entries
divides the volume of the domain. -/
theorem ownership_partition_iff_dvd (P : Platform) (D : Domain) (C : CurveFor P D)
    (numNodes maxVersions : Nat) (hn : 1 ≤ numNodes) :
    (∃ ss, ssdAllocV1 P D.box numNodes maxVersions = .ok ss ∧ PartitionsDomain P D.box ss) ↔
      numNodes ∣ bboxVolume D.box := by
  obtain ⟨K, V⟩ := C.exists_virtualCube
  obtain ⟨tab, I⟩ := V.exists_indices
  rcases ssdAllocV1_spec V I hn maxVersions with ⟨⟨hzero, -⟩, herr⟩ | ⟨ss, hok, hss⟩
  · constructor
    · rintro ⟨ss, hok, -⟩
      rw [herr] at hok
      cases hok
    · -- An empty quota means a volume below the number of entries, and the volume is positive.
      intro hdvd
      have hpos : 0 < bboxVolume D.box := by
        rw [← I.length_eq]
        exact length_pos_of_mem ((I.mem_iff _).2 ⟨_, D.wf.lb_mem, rfl⟩)
      have := Nat.le_of_dvd hpos hdvd
      have := (Nat.div_eq_zero_iff_lt hn).1 hzero
      omega
  · rw [← hss.partitionsDomain_iff I]
    constructor
    · rintro ⟨ss', hok', hpart⟩
      rw [hok, Except.ok.injEq] at hok'
      exact hok' ▸ hpart
    · intro hpart
      exact ⟨ss, hok, hpart⟩

/-! ## Instances on a line -/

/-- The one-dimensional domain of `n` cells. -/
def lineDomain (n : Nat) (hpos : 0 < n) (hlt : n < 2 ^ 31) : Domain where
  box := ⟨1, fun _ => 0, fun _ => n - 1⟩
  dims_pos := Nat.one_pos
  dims_le := by simp [bboxMaxNdim]
  wf := fun _ _ => Nat.zero_le _
  side_lt := fun _ _ => by simp only; omega

theorem curveFor_lineDomain {n : Nat} (hpos : 0 < n) (hlt : n < 2 ^ 31) :
    CurveFor referencePlatform (lineDomain n hpos hlt) where
  bits_le := by
    obtain ⟨K, hK, hdim, -⟩ := (lineDomain n hpos hlt).exists_virtualDim
    rw [hdim, computeBits_two_pow (by omega)]
    show 1 * (K + 1) ≤ 64
    omega
  curve := cubeCurve_hilbertC2i_one _

/-- Four cells over two entries. -/
theorem ownership_partition_iff_dvd_line :
    (∃ ss, ssdAllocV1 referencePlatform (lineDomain 4 (by decide) (by decide)).box 2 1 = .ok ss ∧
      PartitionsDomain referencePlatform (lineDomain 4 (by decide) (by decide)).box ss) ↔
      2 ∣ bboxVolume (lineDomain 4 (by decide) (by decide)).box :=
  ownership_partition_iff_dvd referencePlatform (lineDomain 4 (by decide) (by decide))
    (curveFor_lineDomain (by decide) (by decide)) 2 1 (by decide)

/-- Three cells over two entries: allocation succeeds, the entries own the first two cells, and the
last cell of the domain has no owner. -/
theorem ownership_partition_fails_line :
    ∃ ss, ssdAllocV1 referencePlatform (lineDomain 3 (by decide) (by decide)).box 2 1 = .ok ss ∧
      ss.entTab.map DhtEntry.iTab = [[⟨0, 0⟩], [⟨1, 1⟩]] ∧
      (fun _ => 2) ∈ (lineDomain 3 (by decide) (by decide)).box ∧
      ¬ ∃ k, ss.OwnsIndex k (sfcIndex referencePlatform 1 ss.bpd fun _ => 2) := by
  -- Three cells for two servers: each gets one, and the third cell goes to nobody.
  have htab : (ssdAllocV1 referencePlatform (lineDomain 3 (by decide) (by decide)).box 2
      1).toOption.map (fun ss => ss.entTab.map DhtEntry.iTab) = some [[⟨0, 0⟩], [⟨1, 1⟩]] := by
    decide
  cases hok : ssdAllocV1 referencePlatform (lineDomain 3 (by decide) (by decide)).box 2 1 with
  | error e =>
    rw [hok] at htab
    cases htab
  | ok ss =>
    rw [hok] at htab
    have htab' : ss.entTab.map DhtEntry.iTab = [[⟨0, 0⟩], [⟨1, 1⟩]] := Option.some.inj htab
    refine ⟨ss, rfl, htab', by decide, ?_⟩
    rintro ⟨k, e, hk, hm⟩
    have hmem : e.iTab ∈ ss.entTab.map DhtEntry.iTab :=
      mem_map_of_mem (mem_of_getElem? hk)
    have hindex : sfcIndex referencePlatform 1 ss.bpd (fun _ => 2) = 2 := rfl
    rw [htab'] at hmem
    rw [hindex, Intv.mem_points] at hm
    obtain ⟨i, hi, hbounds⟩ := hm
    simp only [mem_cons, not_mem_nil, or_false] at hmem
    rcases hmem with hmem | hmem
    · rw [hmem, mem_singleton] at hi
      rw [hi] at hbounds
      exact absurd hbounds (by decide)
    · rw [hmem, mem_singleton] at hi
      rw [hi] at hbounds
      exact absurd hbounds (by decide)

end DataSpaces.Space
