import DataSpaces.Geometry.SfcRing
import DataSpaces.Space.HashV1
import DataSpaces.Space.HashV2

/-!
# Hashing boxes to DHT entries

`ssd_hash` without its cache. Version 1 linearises the box and looks for entries whose intervals meet
the result; version 2 looks for entries with a box that meets it. The result is the list of the
positions in `ent_tab`.

Both versions select the entries that touch a cell of the box (`mem_ssdHashFresh_iff`): in version 1 an
entry touches the cells whose index it owns, in version 2 the cells of the hulls of its boxes, so an
empty box of a bisection counts as the single cell, line or plane at its lower corner, for a written
box and for a query alike. That a put and a get of the same cells meet follows
(`put_get_rendezvous`).
-/

namespace DataSpaces.Space

open Lib Geometry List Option

def ssdAlloc (P : Platform) (bbDomain : Bbox) (numNodes maxVersions : Nat) :
    HashVersion → Except Fault Sspace
  | .v1 => ssdAllocV1 P bbDomain numNodes maxVersions
  | .v2 => ssdAllocV2 P bbDomain numNodes maxVersions

def dhtIntersect (de : DhtEntry) (itv : Intv) : Bool :=
  if de.iVirt.lb > itv.ub || de.iVirt.ub < itv.lb then false
  else de.iTab.any fun i => intvDoIntersect i itv

/-- The entries of the table that pass a test, as the loops over `ent_tab` collect them. -/
def collectEntries (ss : Sspace) (test : DhtEntry → Bool) : List Nat :=
  (range ss.entTab.length).filter fun k => (ss.entTab[k]?).any test

/-- `ssd_hash_v1` after a miss of the cache. -/
def ssdHashV1Fresh (P : Platform) (ss : Sspace) (bb : Bbox) : Option (List Nat) :=
  (bboxToIntv2 P bb ss.maxDim).map fun iTab =>
    collectEntries ss fun de => iTab.any fun itv => dhtIntersect de itv

/-- `ssd_hash_v2` after a miss of the cache. -/
def ssdHashV2Fresh (ss : Sspace) (bb : Bbox) : List Nat :=
  collectEntries ss fun de => de.bbTab.any fun c => bboxDoesIntersect bb c

def ssdHashFresh (P : Platform) (ss : Sspace) (bb : Bbox) : Option (List Nat) :=
  match ss.hashVersion with
  | .v1 => ssdHashV1Fresh P ss bb
  | .v2 => some (ssdHashV2Fresh ss bb)

variable {ss : Sspace} {k numNodes : Nat} {P : Platform} {D : Domain} {bb : Bbox}

theorem mem_collectEntries {test : DhtEntry → Bool} :
    k ∈ collectEntries ss test ↔ ∃ e, ss.entTab[k]? = some e ∧ test e = true := by
  rw [collectEntries, mem_filter, mem_range]
  cases hk : ss.entTab[k]? with
  | none => simp
  | some e => simpa using fun _ => (List.getElem?_eq_some_iff.1 hk).1

/-! ## The size of the table -/

theorem length_of_constructLoop {sn odscSize : Nat} {ranks : List Nat} {tab : List Intv}
    {entries : List DhtEntry} (h : constructLoop P sn odscSize ranks tab = .ok entries) :
    entries.length = ranks.length := by
  induction ranks generalizing tab entries with
  | nil =>
    cases h
    rfl
  | cons rank ranks ih =>
    rw [constructLoop] at h
    split at h
    · cases h
    · split at h
      · cases h
      · split at h
        · cases h
        · next hrest =>
          cases h
          rw [length_cons, length_cons, ih hrest]

theorem length_of_dealLoop {i : Nat} {q : List Bbox} {entTab entTab' : List DhtEntry}
    (h : dealLoop i q entTab = .ok entTab') : entTab'.length = entTab.length := by
  induction q generalizing i entTab with
  | nil =>
    cases h
    rfl
  | cons b q ih =>
    rw [dealLoop] at h
    split at h
    · cases h
    · split at h
      · rw [ih h, length_set]
      · cases h

/-- A space has an entry for every node, whatever the domain is. -/
theorem length_entTab_of_ssdAlloc {maxVersions : Nat} {v : HashVersion}
    (h : ssdAlloc P bb numNodes maxVersions v = .ok ss) : ss.entTab.length = numNodes := by
  cases v with
  | v1 =>
    rw [ssdAlloc, ssdAllocV1] at h
    split at h
    · cases h
    · next entTab hent =>
      cases h
      rw [dhtConstructHash] at hent
      split at hent
      · cases hent
      · exact (length_of_constructLoop hent).trans length_range
  | v2 =>
    rw [ssdAlloc, ssdAllocV2] at h
    split at h
    · cases h
    · next q1 q2 _ =>
      dsimp only at h
      generalize (if q1.isEmpty = true then q2 else q1) = q at h
      split at h
      · cases h
      · next hdeal =>
        cases h
        rw [length_of_dealLoop hdeal, length_map, length_range]

/-! ## Boxes inside a domain -/

/-- A well-formed box inside a domain, with the domain's number of dimensions. -/
structure DomainBox (D : Domain) where
  box : Bbox
  wf : box.Wf
  inside : box.Inside D.box

namespace DomainBox

variable {D : Domain} (b : DomainBox D)

theorem dims_eq : b.box.numDims = D.box.numDims := b.inside.numDims_eq

theorem mem_domain {x : Coord} (hx : x ∈ b.box) : x ∈ D.box := b.inside.mem hx

theorem dims_le : b.box.numDims ≤ bboxMaxNdim := by
  rw [b.dims_eq]
  exact D.dims_le

end DomainBox

/-! ## Owning and touching cells -/

/-- Entry `k` owns the cell `x`. -/
def Sspace.OwnsCell (P : Platform) (ss : Sspace) (k : Nat) (x : Coord) : Prop :=
  match ss.hashVersion with
  | .v1 => ss.OwnsIndex k (sfcIndex P ss.bbGlbDomain.numDims ss.bpd x)
  | .v2 => ∃ e, ss.entTab[k]? = some e ∧ ∃ c ∈ e.bbTab, x ∈ c

/-- Entry `k` is selected for the boxes that contain the cell `x`. -/
def Sspace.TouchesCell (P : Platform) (ss : Sspace) (k : Nat) (x : Coord) : Prop :=
  match ss.hashVersion with
  | .v1 => ss.OwnsIndex k (sfcIndex P ss.bbGlbDomain.numDims ss.bpd x)
  | .v2 => ∃ e, ss.entTab[k]? = some e ∧ ∃ c ∈ e.bbTab, x ∈ c.hull

variable {x : Coord} {l : List Nat}

theorem Sspace.OwnsCell.touches (h : ss.OwnsCell P k x) : ss.TouchesCell P k x := by
  unfold Sspace.OwnsCell at h
  unfold Sspace.TouchesCell
  cases hv : ss.hashVersion with
  | v1 =>
    rw [hv] at h
    exact h
  | v2 =>
    rw [hv] at h
    obtain ⟨e, he, c, hc, hx⟩ := h
    exact ⟨e, he, c, hc, Bbox.mem_hull hx⟩

/-! ## Version 1 -/

/-- The test against the hull of an entry is only a shortcut: the entry passes exactly when it owns a
number of the interval. -/
theorem dhtIntersect_iff {rank : Nat} {numbers : List Nat} {e : DhtEntry} (he : EntryFor P rank numbers e)
    (hinc : numbers.Pairwise (· < ·)) {itv : Intv} (hitv : itv.lb ≤ itv.ub) :
    dhtIntersect e itv = true ↔ ∃ m ∈ Intv.points e.iTab, itv.lb ≤ m ∧ m ≤ itv.ub := by
  have hany : (e.iTab.any fun i => intvDoIntersect i itv) = true ↔
      ∃ m ∈ Intv.points e.iTab, itv.lb ≤ m ∧ m ≤ itv.ub := by
    rw [List.any_eq_true]
    constructor
    · rintro ⟨i, hi, hint⟩
      obtain ⟨m, hm, hm'⟩ := (intvDoIntersect_iff (he.nonempty i hi) hitv).1 hint
      exact ⟨m, Intv.mem_points.2 ⟨i, hi, hm⟩, hm'⟩
    · rintro ⟨m, hm, hm'⟩
      obtain ⟨i, hi, hmi⟩ := Intv.mem_points.1 hm
      exact ⟨i, hi, (intvDoIntersect_iff (he.nonempty i hi) hitv).2 ⟨m, hmi, hm'⟩⟩
  unfold dhtIntersect
  by_cases hvirt : (decide (e.iVirt.lb > itv.ub) || decide (e.iVirt.ub < itv.lb)) = true
  · rw [if_pos hvirt]
    refine ⟨fun h => (Bool.false_ne_true h).elim, ?_⟩
    -- A common number would lie inside the hull.
    rintro ⟨m, hm, hlo, hhi⟩
    obtain ⟨i, hi, -⟩ := Intv.mem_points.1 hm
    obtain ⟨a, l, htab⟩ := exists_cons_of_ne_nil (ne_nil_of_mem hi)
    have hhead : e.iTab.head? = some a := by rw [htab]; rfl
    obtain ⟨z, hlast⟩ : ∃ z, e.iTab.getLast? = some z := by
      rw [htab]
      exact ⟨_, getLast?_eq_some_getLast (cons_ne_nil a l)⟩
    have hbounds := Intv.bounds_of_mem_points he.nonempty (he.points_eq ▸ hinc) hhead hlast hm
    have hlb := he.virt_lb
    have hub := he.virt_ub
    rw [hhead, getD_some] at hlb
    rw [hlast, getD_some] at hub
    simp only [Bool.or_eq_true, decide_eq_true_eq] at hvirt
    omega
  · rw [if_neg hvirt]
    exact hany

theorem piece_pairwise (h : l.Pairwise (· < ·)) (k i : Nat) : (piece k i l).Pairwise (· < ·) :=
  (h.sublist (drop_sublist _ _)).sublist (take_sublist _ _)

theorem SpaceV1.mem_hash_iff {K : Nat} {tab : List Intv} (h : SpaceV1 P D K numNodes tab ss)
    (V : VirtualCube P D K) (I : DomainIndices P D K tab) (b : DomainBox D) :
    ∃ l, ssdHashFresh P ss b.box = some l ∧ ∀ k, k ∈ l ↔ ∃ x ∈ b.box, ss.TouchesCell P k x := by
  have S : SfcSetup P b.box.numDims K := by
    rw [b.dims_eq]
    exact V.setup
  -- A box of the domain lies in the virtual cube, so its intervals number exactly its cells.
  have hin : ∀ x, InVirtual b.box K x ↔ x ∈ b.box := fun x =>
    ⟨fun hx => hx.1, fun hx => ⟨hx, by rw [b.dims_eq]; exact V.inside x (b.mem_domain hx)⟩⟩
  obtain ⟨iTab, hrun, -, henum, -⟩ := bboxToIntv_spec S b.wf ⟨b.box.lb, (hin _).2 b.wf.lb_mem⟩
  refine ⟨_, by simp only [ssdHashFresh, h.version, ssdHashV1Fresh, h.maxDim_eq,
    bboxToIntv2_eq_bboxToIntv b.dims_le, hrun, map_some]; rfl, fun k => ?_⟩
  simp only [mem_collectEntries, List.any_eq_true, Sspace.TouchesCell, h.version, h.domain_eq,
    h.bpd_eq, ← b.dims_eq]
  constructor
  · -- A common number of the entry and of an interval is the number of a cell of the box.
    rintro ⟨e, hk, itv, hitv, hint⟩
    obtain ⟨m, hm, hbounds⟩ := (dhtIntersect_iff (h.entry k e hk)
      (piece_pairwise I.increasing _ _) (henum.nonempty itv hitv)).1 hint
    obtain ⟨x, hx, hxm⟩ := (henum.mem_iff m).1 (Intv.mem_points.2 ⟨itv, hitv, hbounds⟩)
    exact ⟨x, (hin x).1 hx, e, hk, hxm ▸ hm⟩
  · rintro ⟨x, hx, e, hk, hm⟩
    obtain ⟨itv, hitv, hbounds⟩ := Intv.mem_points.1 ((henum.mem_iff _).2 ⟨x, (hin x).2 hx, rfl⟩)
    exact ⟨e, hk, itv, hitv, (dhtIntersect_iff (h.entry k e hk)
      (piece_pairwise I.increasing _ _) (henum.nonempty itv hitv)).2 ⟨_, hm, hbounds⟩⟩

/-! ## Version 2 -/

theorem SpaceV2.mem_hash_iff (h : SpaceV2 D.box numNodes ss) (b : DomainBox D) :
    ∃ l, ssdHashFresh P ss b.box = some l ∧ ∀ k, k ∈ l ↔ ∃ x ∈ b.box, ss.TouchesCell P k x := by
  refine ⟨_, by simp only [ssdHashFresh, h.version]; rfl, fun k => ?_⟩
  have hdims : ∀ e ∈ ss.entTab, ∀ c ∈ e.bbTab, b.box.numDims = c.numDims := by
    intro e he c hc
    rw [b.dims_eq, (h.bisectable c (mem_flatMap.2 ⟨e, he, hc⟩)).dims_eq]
  simp only [ssdHashV2Fresh, mem_collectEntries, List.any_eq_true, Sspace.TouchesCell, h.version]
  constructor
  · rintro ⟨e, hk, c, hc, hint⟩
    obtain ⟨x, hx, hxc⟩ := (bboxDoesIntersect_iff_exists_hull b.wf (hdims e (mem_of_getElem? hk) c hc)).1 hint
    exact ⟨x, hx, e, hk, c, hc, hxc⟩
  · rintro ⟨x, hx, e, hk, c, hc, hxc⟩
    exact ⟨e, hk, c, hc, (bboxDoesIntersect_iff_exists_hull b.wf
      (hdims e (mem_of_getElem? hk) c hc)).2 ⟨x, hx, hxc⟩⟩

/-- The bisection leaves no cell of the domain without an owner. -/
theorem SpaceV2.exists_owner (h : SpaceV2 bb numNodes ss) (hx : x ∈ bb) : ∃ k, ss.OwnsCell P k x := by
  obtain ⟨c, hc, hxc⟩ := h.tiles.mem_iff.1 hx
  obtain ⟨e, he, hce⟩ := mem_flatMap.1 hc
  obtain ⟨k, hk⟩ := mem_iff_getElem?.1 he
  refine ⟨k, ?_⟩
  rw [Sspace.OwnsCell, h.version]
  exact ⟨e, hk, c, hce, hxc⟩

/-! ## Rendezvous -/

/-- A space that `ssd_alloc` returned for a domain, with the assumptions on the curve where the version
uses it. The number of nodes is a positive `int`. -/
def SpaceOf (P : Platform) (D : Domain) (ss : Sspace) : Prop :=
  ∃ v numNodes maxVersions, 1 ≤ numNodes ∧ numNodes < 2 ^ 31 ∧ (v = .v1 → CurveFor P D) ∧
    ssdAlloc P D.box numNodes maxVersions v = .ok ss

section

variable (h : SpaceOf P D ss)

include h

/-- What an allocated space looks like, for each version. -/
theorem SpaceOf.spaceV1_or_spaceV2 :
    (∃ K numNodes tab, VirtualCube P D K ∧ DomainIndices P D K tab ∧ SpaceV1 P D K numNodes tab ss) ∨
      ∃ numNodes, SpaceV2 D.box numNodes ss := by
  obtain ⟨v, numNodes, maxVersions, hn, hlt, C, hok⟩ := h
  cases v with
  | v1 =>
    obtain ⟨K, V⟩ := (C rfl).exists_virtualCube
    obtain ⟨tab, I⟩ := V.exists_indices
    rw [ssdAlloc] at hok
    rcases ssdAllocV1_spec V I hn maxVersions with ⟨-, herr⟩ | ⟨ss', hok', hss⟩
    · rw [herr] at hok
      cases hok
    · rw [hok', Except.ok.injEq] at hok
      exact Or.inl ⟨K, numNodes, tab, V, I, hok ▸ hss⟩
  | v2 =>
    have hub : ∀ i < D.box.numDims, D.box.ub i < 2 ^ 63 := by
      intro i hi
      have := D.side_lt i hi
      omega
    obtain ⟨ss', hok', hss⟩ := ssdAllocV2_spec (P := P) D.dims_pos D.wf hub hn hlt maxVersions
    rw [ssdAlloc, hok', Except.ok.injEq] at hok
    exact Or.inr ⟨numNodes, hok ▸ hss⟩

/-- The entry at position `k` of the table has rank `k`. -/
theorem SpaceOf.rank_eq {e : DhtEntry} (hk : ss.entTab[k]? = some e) : e.rank = k := by
  rcases h.spaceV1_or_spaceV2 with ⟨K, numNodes, tab, -, -, hss⟩ | ⟨numNodes, hss⟩
  · exact (hss.entry k e hk).rank_eq
  · exact hss.rank_eq k e hk

/-- `ssd_hash` of a box inside the domain ends and selects the entries that touch one of its cells. -/
theorem mem_ssdHashFresh_iff (b : DomainBox D) :
    ∃ l, ssdHashFresh P ss b.box = some l ∧ ∀ k, k ∈ l ↔ ∃ x ∈ b.box, ss.TouchesCell P k x := by
  rcases h.spaceV1_or_spaceV2 with ⟨K, numNodes, tab, V, I, hss⟩ | ⟨numNodes, hss⟩
  · exact hss.mem_hash_iff V I b
  · exact hss.mem_hash_iff b

/-- `ssd_hash` ends for every well-formed box, also outside the domain. -/
theorem exists_ssdHashFresh (hwf : bb.Wf) (hd : bb.numDims ≤ bboxMaxNdim) :
    ∃ l, ssdHashFresh P ss bb = some l := by
  rcases h.spaceV1_or_spaceV2 with ⟨K, numNodes, tab, V, -, hss⟩ | ⟨numNodes, hss⟩
  · obtain ⟨iTab, hrun⟩ := exists_bboxToIntv (P := P) V.setup.top_le hwf
    rw [← bboxToIntv2_eq_bboxToIntv hd, ← hss.maxDim_eq] at hrun
    refine ⟨collectEntries ss fun de => iTab.any fun itv => dhtIntersect de itv, ?_⟩
    simp only [ssdHashFresh, hss.version, ssdHashV1Fresh, hrun, map_some]
  · refine ⟨ssdHashV2Fresh ss bb, ?_⟩
    simp only [ssdHashFresh, hss.version]

end

/-- The entries come in the order of the table, each at most once. -/
theorem ssdHashFresh_pairwise (h : ssdHashFresh P ss bb = some l) : l.Pairwise (· < ·) := by
  have hcollect : ∀ test, (collectEntries ss test).Pairwise (· < ·) := fun test => pairwise_lt_range.filter _
  unfold ssdHashFresh at h
  cases hv : ss.hashVersion with
  | v1 =>
    rw [hv] at h
    obtain ⟨iTab, -, rfl⟩ := map_eq_some_iff.1 h
    exact hcollect _
  | v2 =>
    rw [hv] at h
    rw [← some.inj h]
    exact hcollect _

/-- Puts and gets meet. -/
structure Rendezvous (P : Platform) (D : Domain) (ss : Sspace) : Prop where
  /-- Two boxes that share a cell with an owner both hash to the owner. -/
  shared_owner : ∀ (b c : DomainBox D) (x : Coord) (k : Nat), x ∈ b.box → x ∈ c.box →
    ss.OwnsCell P k x →
    ∃ lb lc, ssdHashFresh P ss b.box = some lb ∧ ssdHashFresh P ss c.box = some lc ∧ k ∈ lb ∧ k ∈ lc
  /-- If the pieces cover the query, every entry that the query hashes to is one that some piece
  which shares a cell with the query hashes to. -/
  covered_query : ∀ (q : DomainBox D) (pieces : List (DomainBox D)),
    (∀ x ∈ q.box, ∃ p ∈ pieces, x ∈ p.box) →
    ∃ lq, ssdHashFresh P ss q.box = some lq ∧
      ∀ k ∈ lq, ∃ p ∈ pieces, (∃ x, x ∈ p.box ∧ x ∈ q.box) ∧
        ∃ lp, ssdHashFresh P ss p.box = some lp ∧ k ∈ lp
  /-- So if every piece is recorded at the entries it hashes to, no entry that the query hashes to is
  without a recorded box that passes the intersection test. -/
  no_not_found : ∀ (q : DomainBox D) (pieces : List (DomainBox D)) (recorded : Nat → List Bbox),
    (∀ x ∈ q.box, ∃ p ∈ pieces, x ∈ p.box) →
    (∀ p ∈ pieces, ∀ lp, ssdHashFresh P ss p.box = some lp → ∀ k ∈ lp, p.box ∈ recorded k) →
    ∃ lq, ssdHashFresh P ss q.box = some lq ∧
      ∀ k ∈ lq, ∃ b ∈ recorded k, bboxDoesIntersect b q.box = true

theorem SpaceOf.covered_query (h : SpaceOf P D ss) (q : DomainBox D) (pieces : List (DomainBox D))
    (hcov : ∀ x ∈ q.box, ∃ p ∈ pieces, x ∈ p.box) : ∃ lq, ssdHashFresh P ss q.box = some lq ∧
      ∀ k ∈ lq, ∃ p ∈ pieces, (∃ x, x ∈ p.box ∧ x ∈ q.box) ∧
        ∃ lp, ssdHashFresh P ss p.box = some lp ∧ k ∈ lp := by
  obtain ⟨lq, hlq, hmem⟩ := mem_ssdHashFresh_iff h q
  refine ⟨lq, hlq, fun k hk => ?_⟩
  obtain ⟨x, hxq, htouch⟩ := (hmem k).1 hk
  obtain ⟨p, hp, hxp⟩ := hcov x hxq
  obtain ⟨lp, hlp, hmemp⟩ := mem_ssdHashFresh_iff h p
  exact ⟨p, hp, ⟨x, hxp, hxq⟩, lp, hlp, (hmemp k).2 ⟨x, hxp, htouch⟩⟩

/-- Every space that `ssd_alloc` returns, of either version, makes puts and gets meet. -/
theorem put_get_rendezvous (P : Platform) (D : Domain) (ss : Sspace) (h : SpaceOf P D ss) :
    Rendezvous P D ss where
  shared_owner := by
    intro b c x k hb hc howns
    obtain ⟨lb, hlb, hmemb⟩ := mem_ssdHashFresh_iff h b
    obtain ⟨lc, hlc, hmemc⟩ := mem_ssdHashFresh_iff h c
    exact ⟨lb, lc, hlb, hlc, (hmemb k).2 ⟨x, hb, howns.touches⟩, (hmemc k).2 ⟨x, hc, howns.touches⟩⟩
  covered_query := h.covered_query
  no_not_found := by
    intro q pieces recorded hcov hrec
    obtain ⟨lq, hlq, hk⟩ := h.covered_query q pieces hcov
    refine ⟨lq, hlq, fun k hkq => ?_⟩
    obtain ⟨p, hp, hshare, lp, hlp, hkp⟩ := hk k hkq
    refine ⟨p.box, hrec p hp lp hlp k hkp, ?_⟩
    exact (bboxDoesIntersect_iff_exists_mem p.wf q.wf (by rw [p.dims_eq, q.dims_eq])).2 hshare

/-- Version 1 allocates a space for the line of four cells and two entries. -/
theorem exists_spaceV1_line : ∃ ss,
    ssdAlloc referencePlatform (lineDomain 4 (by decide) (by decide)).box 2 1 .v1 = .ok ss := by
  obtain ⟨K, V⟩ := (curveFor_lineDomain (n := 4) (by decide) (by decide)).exists_virtualCube
  obtain ⟨tab, I⟩ := V.exists_indices
  rcases ssdAllocV1_spec V I (Nat.succ_pos 1) 1 with ⟨⟨hzero, -⟩, -⟩ | ⟨ss, hok, -⟩
  · exact absurd hzero (by decide)
  · exact ⟨ss, hok⟩

/-- The line of four cells over two entries, hashed by version 1. -/
theorem put_get_rendezvous_line : ∃ ss, SpaceOf referencePlatform (lineDomain 4 (by decide) (by decide)) ss ∧
      Rendezvous referencePlatform (lineDomain 4 (by decide) (by decide)) ss := by
  obtain ⟨ss, hok⟩ := exists_spaceV1_line
  have hspace : SpaceOf referencePlatform (lineDomain 4 (by decide) (by decide)) ss :=
    ⟨.v1, 2, 1, by decide, by decide, fun _ => curveFor_lineDomain (by decide) (by decide), hok⟩
  exact ⟨ss, hspace, put_get_rendezvous referencePlatform _ ss hspace⟩

end DataSpaces.Space
