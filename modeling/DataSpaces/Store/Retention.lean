import Mathlib.Data.Finset.Card
import DataSpaces.Store.Tables

/-!
# Retention of versions

If the boxes of every name are pairwise equal or disjoint, a match in a table is the same as an equal
name and box, so both tables of a server hold the most recent item of each name, box and version bin
(`lsRun_keepsLatest`, `dhtRun_keepsLatest`).

For one name and box the versions that can be retrieved are the newest ones of each residue modulo
`max_versions` (`retrievable_iff`). The documentation promises the most recent `max_versions` versions;
`retained_versions_iff` says when that is the same thing.
-/

namespace DataSpaces.Store

open Lib Geometry List

/-! ## Fixed decompositions -/

/-- The corners of a box as data. -/
def corners (b : Bbox) : List (Nat × Nat) := (range b.numDims).map fun i => (b.lb i, b.ub i)

theorem corners_eq_iff {b c : Bbox} : corners b = corners c ↔ bboxEquals b c = true := by
  rw [bboxEquals_iff]
  constructor
  · intro h
    have hd : b.numDims = c.numDims := by simpa [corners] using congrArg List.length h
    refine ⟨hd, fun i hi => ?_⟩
    have hi' : i < c.numDims := hd ▸ hi
    have hget : (corners b)[i]? = (corners c)[i]? := by rw [h]
    simpa [corners, hi, hi'] using hget
  · rintro ⟨hd, hc⟩
    unfold corners
    rw [← hd]
    refine map_congr_left fun i hi => ?_
    obtain ⟨hl, hu⟩ := hc i (mem_range.1 hi)
    rw [hl, hu]

/-- The name and the box of a descriptor. -/
def slotKey (o : ObjDescriptor) : String × List (Nat × Nat) := (o.name, corners o.bb)

variable {o : ObjDescriptor} {ods : List ObjData}

theorem slotKey_eq_iff {o' : ObjDescriptor} :
    slotKey o = slotKey o' ↔ o.name = o'.name ∧ bboxEquals o.bb o'.bb = true := by
  rw [slotKey, slotKey, Prod.mk.injEq, corners_eq_iff]

/-- The boxes of every name are well formed, of one dimension, and pairwise equal or disjoint. -/
structure Decomposed (ds : List ObjDescriptor) : Prop where
  wf : ∀ o ∈ ds, o.bb.Wf
  dims : ∀ o ∈ ds, ∀ o' ∈ ds, o.name = o'.name → o.bb.numDims = o'.bb.numDims
  equal_or_disjoint : ∀ o ∈ ds, ∀ o' ∈ ds, o.name = o'.name →
    bboxEquals o.bb o'.bb = true ∨ ∀ x, x ∈ o.bb → x ∉ o'.bb

namespace Decomposed

variable {ds ds' : List ObjDescriptor}

theorem mono (h : Decomposed ds) (hsub : ∀ o ∈ ds', o ∈ ds) : Decomposed ds' where
  wf := fun o ho => h.wf o (hsub o ho)
  dims := fun o ho o' ho' => h.dims o (hsub o ho) o' (hsub o' ho')
  equal_or_disjoint := fun o ho o' ho' => h.equal_or_disjoint o (hsub o ho) o' (hsub o' ho')

/-- Under a fixed decomposition a match is an equal name and box. -/
theorem match_iff (h : Decomposed ds) {o o' : ObjDescriptor} (ho : o ∈ ds) (ho' : o' ∈ ds) :
    objDescByNameIntersect o o' = true ↔ slotKey o' = slotKey o := by
  rw [objDescByNameIntersect_iff, slotKey_eq_iff]
  constructor
  · rintro ⟨hname, hint⟩
    obtain ⟨x, hx, hx'⟩ := (bboxDoesIntersect_iff_exists_mem (h.wf o ho) (h.wf o' ho')
      (h.dims o ho o' ho' hname)).1 hint
    refine ⟨hname.symm, ?_⟩
    rcases h.equal_or_disjoint o' ho' o ho hname.symm with heq | hdisj
    · exact heq
    · exact absurd hx (hdisj x hx')
  · rintro ⟨hname, heq⟩
    refine ⟨hname.symm, ?_⟩
    rw [bboxDoesIntersect_iff_exists_mem (h.wf o ho) (h.wf o' ho') (h.dims o ho o' ho' hname.symm)]
    exact ⟨o'.bb.lb, (mem_congr_of_bboxEquals heq).1 (h.wf o' ho').lb_mem, (h.wf o' ho').lb_mem⟩

end Decomposed

/-! ## Runs of the two tables -/

/-- A sequence of additions to a fresh store. -/
def lsRun (m : Nat) (ods : List ObjData) : SsStorage := ods.foldl lsAddObj (lsAlloc m)

/-- A sequence of additions to a fresh descriptor table. -/
def dhtRun (m : Nat) (ds : List ObjDescriptor) : OdscTable := ds.foldl dhtAddEntry (odscTableAlloc m)

theorem lsRun_append_singleton (m : Nat) (ods : List ObjData) (od : ObjData) :
    lsRun m (ods ++ [od]) = lsAddObj (lsRun m ods) od := by
  rw [lsRun, foldl_append]
  rfl

theorem dhtRun_append_singleton (m : Nat) (ds : List ObjDescriptor) (o : ObjDescriptor) :
    dhtRun m (ds ++ [o]) = dhtAddEntry (dhtRun m ds) o := by
  rw [dhtRun, foldl_append]
  rfl

/-- A put changes the two tables independently of each other. -/
theorem putRun_eq (m : Nat) (puts : List ObjData) :
    putRun m puts = ⟨lsRun m puts, dhtRun m (puts.map (·.objDesc))⟩ := by
  induction puts using reverseRecOn with
  | nil => rfl
  | append_singleton puts od ih =>
    rw [putRun, foldl_append, foldl_cons, foldl_nil, ← putRun, ih, map_append,
      lsRun_append_singleton, map_singleton, dhtRun_append_singleton]
    rfl

@[simp] theorem lsRun_sizeHash (m : Nat) (ods : List ObjData) : (lsRun m ods).sizeHash = m := by
  induction ods using reverseRecOn with
  | nil => rfl
  | append_singleton ods od ih => rw [lsRun_append_singleton, lsAddObj_sizeHash, ih]

@[simp] theorem dhtRun_odscSize (m : Nat) (ds : List ObjDescriptor) : (dhtRun m ds).odscSize = m := by
  induction ds using reverseRecOn with
  | nil => rfl
  | append_singleton ds o ih => rw [dhtRun_append_singleton, dhtAddEntry_odscSize, ih]

/-- How the store places an object in its list. -/
def lsPlace (od : ObjData) (l : List ObjData) : List ObjData :=
  evictCons (fun e => objDescByNameIntersect od.objDesc e.objDesc) od l

/-- How the descriptor table places a descriptor in its list. -/
def dhtPlace (o : ObjDescriptor) (l : List ObjDescriptor) : List ObjDescriptor :=
  if o.version = versionUnset then o :: l else upsert (fun e => objDescByNameIntersect o e) o l

theorem mem_lsPlace {od e : ObjData} {l : List ObjData} (h : e ∈ lsPlace od l) : e = od ∨ e ∈ l := by
  rcases mem_cons.1 h with h | h
  · exact Or.inl h
  · exact Or.inr (mem_of_mem_eraseP h)

theorem mem_dhtPlace {e : ObjDescriptor} {l : List ObjDescriptor} (h : e ∈ dhtPlace o l) : e = o ∨ e ∈ l := by
  unfold dhtPlace at h
  split at h
  · exact mem_cons.1 h
  · rcases mem_upsert.1 h with h | h
    · exact Or.inl h
    · exact Or.inr (mem_of_mem_eraseP h)

theorem dhtRun_odscHash (m : Nat) (ds : List ObjDescriptor) :
    (dhtRun m ds).odscHash = binRun (fun o => o.version.toNat % m) dhtPlace ds := by
  induction ds using reverseRecOn with
  | nil => rfl
  | append_singleton ds o ih =>
    rw [dhtRun_append_singleton, dhtAddEntry_odscHash, binRun_append_singleton, ← ih,
      OdscTable.index, dhtRun_odscSize]
    rfl

theorem lsRun_objHash (m : Nat) (hr : ∀ od ∈ ods, od.refcnt = 0) :
    (lsRun m ods).objHash = binRun (fun od => od.objDesc.version.toNat % m) lsPlace ods := by
  induction ods using reverseRecOn with
  | nil => rfl
  | append_singleton ods od ih =>
    have ih' := ih fun e he => hr e (mem_append_left _ he)
    have hstored : ∀ i, ∀ e ∈ (lsRun m ods).objHash i, e.refcnt = 0 := by
      intro i e he
      rw [ih'] at he
      exact hr e (mem_append_left _ (mem_of_mem_binRun (fun _ _ _ => mem_lsPlace) he))
    rw [lsRun_append_singleton, lsAddObj_objHash _ _ (hstored _), binRun_append_singleton, ← ih',
      SsStorage.index, lsRun_sizeHash]
    rfl

/-- The store holds the most recent object of each name, box and version bin. -/
theorem lsRun_keepsLatest (m : Nat) (hr : ∀ od ∈ ods, od.refcnt = 0)
    (hd : Decomposed (ods.map (·.objDesc))) (i : Nat) : KeepsLatest (fun od => slotKey od.objDesc)
      (ods.filter fun od => od.objDesc.version.toNat % m = i) ((lsRun m ods).objHash i) := by
  rw [lsRun_objHash m hr, binRun_apply]
  apply keepsLatest_foldl
  intro od hod h l hl hkeep
  apply hkeep.evictCons
  intro e he
  have hmem : ∀ {e : ObjData}, e ∈ ods.filter (fun od => od.objDesc.version.toNat % m = i) →
      e.objDesc ∈ ods.map (·.objDesc) :=
    fun he => mem_map_of_mem (mem_of_mem_filter he)
  exact hd.match_iff (hmem hod) (hmem (hl e he))

/-- The descriptor table holds the most recent descriptor of each name, box and version bin. -/
theorem dhtRun_keepsLatest (m : Nat) {ds : List ObjDescriptor}
    (hset : ∀ o ∈ ds, o.version ≠ versionUnset) (hd : Decomposed ds) (i : Nat) :
    KeepsLatest slotKey (ds.filter fun o => o.version.toNat % m = i) ((dhtRun m ds).odscHash i) := by
  rw [dhtRun_odscHash, binRun_apply]
  apply keepsLatest_foldl
  intro o ho h l hl hkeep
  rw [dhtPlace, if_neg (hset o (mem_of_mem_filter ho))]
  apply hkeep.upsert
  intro e he
  exact hd.match_iff (mem_of_mem_filter ho) (mem_of_mem_filter (hl e he))

/-- With the unset version among the puts, older descriptors may stay, but the latest is there. -/
theorem latest_mem_dhtRun (m : Nat) {ds : List ObjDescriptor} (hd : Decomposed ds) {i : Nat}
    (ho : latest slotKey (slotKey o) (ds.filter fun o => o.version.toNat % m = i) = some o) :
    o ∈ (dhtRun m ds).odscHash i := by
  rw [dhtRun_odscHash, binRun_apply]
  refine latest_mem_foldl ?_ ?_ (fun _ _ _ => mem_dhtPlace) ho
  · intro x l
    unfold dhtPlace
    split
    · exact mem_cons_self
    · exact mem_upsert.2 (Or.inl rfl)
  · intro x hx l hl y hy hne
    unfold dhtPlace
    split
    · exact mem_cons_of_mem _ hy
    · refine mem_upsert.2 (Or.inr ((mem_eraseP_of_neg fun hmatch => hne ?_).2 hy))
      exact (hd.match_iff (mem_of_mem_filter hx) (mem_of_mem_filter (hl y hy))).1 hmatch

/-! ## Versions of one name and box -/

/-- A query finds a descriptor and an object. -/
def Retrievable (srv : DsServer) (q : ObjDescriptor) : Prop :=
  (dhtFindEntryAll srv.entSelf q).isEmpty = false ∧ (lsFind srv.ls q).isSome = true

instance (srv : DsServer) (q : ObjDescriptor) : Decidable (Retrievable srv q) :=
  inferInstanceAs (Decidable (_ ∧ _))

/-- The most recent `min m length` versions of a sequence. -/
def recent (m : Nat) (vs : List UInt32) : List UInt32 := vs.drop (vs.length - min m vs.length)

/-- `v` is the largest version of its residue modulo `m`. -/
def NewestInBin (m : Nat) (vs : List UInt32) (v : UInt32) : Prop :=
  v ∈ vs ∧ ∀ w ∈ vs, w.toNat % m = v.toNat % m → w ≤ v

/-- Puts of one name and box. -/
structure PutsOf (q : ObjDescriptor) (puts : List ObjData) : Prop where
  wf : q.bb.Wf
  name_eq : ∀ od ∈ puts, od.objDesc.name = q.name
  box_eq : ∀ od ∈ puts, bboxEquals od.objDesc.bb q.bb = true
  unreferenced : ∀ od ∈ puts, od.refcnt = 0

/-- The versions of a sequence of puts. -/
def versions (puts : List ObjData) : List UInt32 := puts.map (·.objDesc.version)

namespace PutsOf

variable {q : ObjDescriptor} {puts : List ObjData}

section

variable (h : PutsOf q puts)

include h

variable {od : ObjData}

theorem mem_box_iff (hod : od ∈ puts) {x : Coord} :
    x ∈ od.objDesc.bb ↔ x ∈ q.bb := mem_congr_of_bboxEquals (h.box_eq od hod)

theorem wf_of_mem (hod : od ∈ puts) : od.objDesc.bb.Wf := Bbox.wf_of_mem ((h.mem_box_iff hod).2 h.wf.lb_mem)

theorem slotKey_eq (hod : od ∈ puts) : slotKey od.objDesc = slotKey q :=
  slotKey_eq_iff.2 ⟨h.name_eq od hod, h.box_eq od hod⟩

theorem decomposed : Decomposed (puts.map (·.objDesc)) where
  wf := by
    intro o ho
    obtain ⟨od, hod, rfl⟩ := mem_map.1 ho
    exact h.wf_of_mem hod
  dims := by
    intro o ho o' ho' _
    obtain ⟨od, hod, rfl⟩ := mem_map.1 ho
    obtain ⟨od', hod', rfl⟩ := mem_map.1 ho'
    rw [(bboxEquals_iff.1 (h.box_eq od hod)).1, (bboxEquals_iff.1 (h.box_eq od' hod')).1]
  equal_or_disjoint := by
    intro o ho o' ho' _
    obtain ⟨od, hod, rfl⟩ := mem_map.1 ho
    obtain ⟨od', hod', rfl⟩ := mem_map.1 ho'
    left
    rw [← corners_eq_iff, corners_eq_iff.2 (h.box_eq od hod), corners_eq_iff.2 (h.box_eq od' hod')]

/-- The intersection tests of a query hold for every put, in both argument orders. -/
theorem intersect (hod : od ∈ puts) :
    bboxDoesIntersect q.bb od.objDesc.bb = true ∧ bboxDoesIntersect od.objDesc.bb q.bb = true := by
  have hd := (bboxEquals_iff.1 (h.box_eq od hod)).1
  have hlb := (h.mem_box_iff hod).2 h.wf.lb_mem
  constructor
  · exact (bboxDoesIntersect_iff_exists_mem h.wf (h.wf_of_mem hod) hd.symm).2 ⟨_, h.wf.lb_mem, hlb⟩
  · exact (bboxDoesIntersect_iff_exists_mem (h.wf_of_mem hod) h.wf hd).2 ⟨_, hlb, h.wf.lb_mem⟩

end

variable (m : Nat)

/-- The latest put of a bin is the one with the newest version. -/
theorem latest_bin_iff (h : PutsOf q puts) (hinc : (versions puts).Pairwise (· < ·)) (i : Nat)
    (od : ObjData) : latest (fun od => slotKey od.objDesc) (slotKey q)
        (puts.filter fun od => od.objDesc.version.toNat % m = i) = some od ↔
      od ∈ puts ∧ od.objDesc.version.toNat % m = i ∧ NewestInBin m (versions puts) od.objDesc.version := by
  have hpair : (puts.filter fun od => od.objDesc.version.toNat % m = i).Pairwise
      fun x y => x.objDesc.version.toNat < y.objDesc.version.toNat :=
    (pairwise_map.1 hinc).filter _
  rw [latest_eq_some_iff_of_pairwise (f := fun od => od.objDesc.version.toNat) hpair]
  simp only [mem_filter, decide_eq_true_eq, NewestInBin, versions, mem_map,
    forall_exists_index, and_imp, forall_apply_eq_imp_iff₂]
  constructor
  · rintro ⟨⟨hod, hi⟩, -, hmax⟩
    refine ⟨hod, hi, ⟨od, hod, rfl⟩, fun e he hres => ?_⟩
    exact hmax e he (hres.trans hi) (h.slotKey_eq he)
  · rintro ⟨hod, hi, -, hmax⟩
    exact ⟨⟨hod, hi⟩, h.slotKey_eq hod, fun e he hei _ => hmax e he (hei.trans hi.symm)⟩

/-- A version can be retrieved exactly when it is the newest one of its bin. -/
theorem retrievable_iff (h : PutsOf q puts) (hinc : (versions puts).Pairwise (· < ·)) (v : UInt32) :
    Retrievable (putRun m puts) { q with version := v } ↔ NewestInBin m (versions puts) v := by
  rw [putRun_eq]
  have hls := lsRun_keepsLatest m h.unreferenced h.decomposed (v.toNat % m)
  unfold Retrievable
  constructor
  · -- The store alone decides: an object that is found is the latest one of its bin.
    rintro ⟨-, hfound⟩
    obtain ⟨od, hod⟩ := Option.isSome_iff_exists.1 hfound
    obtain ⟨hmem, htest⟩ := lsFind_some hod
    rw [SsStorage.index, lsRun_sizeHash] at hmem
    have hver : v = od.objDesc.version := (objDescEqualsIntersect_iff.1 htest).2.1
    have hput : od ∈ puts := mem_of_mem_filter (hls.mem_history hmem)
    have hlatest := (hls.mem_iff od).1 hmem
    rw [h.slotKey_eq hput] at hlatest
    rw [hver]
    exact ((h.latest_bin_iff m hinc _ od).1 hlatest).2.2
  · intro hnew
    obtain ⟨od, hput, hver⟩ := mem_map.1 hnew.1
    have hver' : od.objDesc.version = v := hver
    have hlatest := (h.latest_bin_iff m hinc (v.toNat % m) od).2 ⟨hput, by rw [hver'], hver' ▸ hnew⟩
    constructor
    · -- The descriptor of the latest put is in its list, and passes the test of the query.
      have hdesc : latest slotKey (slotKey od.objDesc)
          ((puts.map (·.objDesc)).filter fun o => o.version.toNat % m = v.toNat % m) =
          some od.objDesc := by
        rw [← h.slotKey_eq hput] at hlatest
        rw [filter_map, latest_map]
        exact congrArg (Option.map (·.objDesc)) hlatest
      have hmem := latest_mem_dhtRun m h.decomposed hdesc
      rw [isEmpty_eq_false_iff_exists_mem]
      refine ⟨od.objDesc, mem_dhtFindEntryAll.2 ⟨by rw [OdscTable.index, dhtRun_odscSize]; exact hmem, ?_⟩⟩
      exact objDescEqualsIntersect_iff.2 ⟨h.name_eq od hput, hver', (h.intersect hput).2⟩
    · rw [← h.slotKey_eq hput] at hlatest
      have hmem := (hls.mem_iff od).2 hlatest
      refine lsFind_isSome_iff.2 ⟨od, by rw [SsStorage.index, lsRun_sizeHash]; exact hmem, ?_⟩
      exact objDescEqualsIntersect_iff.2 ⟨(h.name_eq od hput).symm, hver'.symm, (h.intersect hput).1⟩

end PutsOf

/-! ## The documented retention -/

/-- The versions that were put before the recent ones. -/
def older (m : Nat) (vs : List UInt32) : List UInt32 := vs.take (vs.length - min m vs.length)

theorem older_append_recent (m : Nat) (vs : List UInt32) : older m vs ++ recent m vs = vs :=
  take_append_drop _ vs

theorem length_recent (m : Nat) (vs : List UInt32) : (recent m vs).length = min m vs.length := by
  rw [recent, length_drop]
  omega

/-- `m` pairwise incongruent versions meet every residue modulo `m`. -/
theorem exists_congruent_of_pairwise {m : Nat} (hm : 0 < m) {ws : List UInt32} (hlen : ws.length = m)
    (hpair : ws.Pairwise fun v w => v.toNat % m ≠ w.toNat % m) (v : UInt32) :
    ∃ w ∈ ws, w.toNat % m = v.toNat % m := by
  let residues := (ws.map fun w => w.toNat % m).toFinset
  have hcard : residues.card = m := by
    rw [toFinset_card_of_nodup (pairwise_map.2 hpair), length_map, hlen]
  have hsub : residues ⊆ Finset.range m := by
    intro r hr
    obtain ⟨w, -, rfl⟩ := mem_map.1 (mem_toFinset.1 hr)
    exact Finset.mem_range.2 (Nat.mod_lt _ hm)
  have hall : residues = Finset.range m :=
    Finset.eq_of_subset_of_card_le hsub (by rw [Finset.card_range, hcard])
  have hv : v.toNat % m ∈ residues := by
    rw [hall]
    exact Finset.mem_range.2 (Nat.mod_lt _ hm)
  exact mem_map.1 (mem_toFinset.1 hv)

/-- The newest versions of the bins are the recent versions exactly when no two recent versions share
a bin. -/
theorem newest_iff_recent_iff {m : Nat} (hm : 0 < m) {vs : List UInt32} (hinc : vs.Pairwise (· < ·)) :
    (∀ v, NewestInBin m vs v ↔ v ∈ recent m vs) ↔
      (recent m vs).Pairwise fun v w => v.toNat % m ≠ w.toNat % m := by
  have hsplit := older_append_recent m vs
  have hparts : (older m vs ++ recent m vs).Pairwise (· < ·) := hsplit.symm ▸ hinc
  obtain ⟨-, hrecent, hbefore⟩ := pairwise_append.1 hparts
  constructor
  · intro h
    refine hrecent.imp_of_mem fun {a b} ha hb hab heq => ?_
    -- The larger of two congruent versions would have displaced the smaller one.
    have hle := ((h a).2 ha).2 b (mem_of_mem_drop hb) heq.symm
    exact absurd hab (UInt32.not_lt.2 hle)
  · intro hpair v
    constructor
    · rintro ⟨hv, hmax⟩
      rw [← hsplit] at hv
      rcases mem_append.1 hv with hold | hrec
      · -- An older version exists only if `m` recent ones do, and one of them shares its bin.
        have hlen : (recent m vs).length = m := by
          have hpos := length_pos_of_mem hold
          rw [older, length_take] at hpos
          rw [length_recent]
          omega
        obtain ⟨w, hw, hres⟩ := exists_congruent_of_pairwise hm hlen hpair v
        have hle := hmax w (mem_of_mem_drop hw) hres
        exact absurd (hbefore v hold w hw) (UInt32.not_lt.2 hle)
      · exact hrec
    · intro hv
      refine ⟨mem_of_mem_drop hv, fun w hw hres => ?_⟩
      rw [← hsplit] at hw
      rcases mem_append.1 hw with hold | hrec
      · exact UInt32.le_of_lt (hbefore w hold v hv)
      · have hwv : w = v :=
          inj_on_of_nodup_map (f := fun u : UInt32 => u.toNat % m) (pairwise_map.2 hpair) hrec hv hres
        exact hwv ▸ UInt32.le_refl w

/-- For one name and box put in increasing versions, the retrievable versions are the most recent
`min m length` ones exactly when those are pairwise incongruent modulo `max_versions`. -/
theorem retained_versions_iff (m : Nat) (hm : 0 < m) (q : ObjDescriptor) (puts : List ObjData)
    (h : PutsOf q puts) (hinc : (versions puts).Pairwise (· < ·)) :
    (∀ v, Retrievable (putRun m puts) { q with version := v } ↔ v ∈ recent m (versions puts)) ↔
      (recent m (versions puts)).Pairwise fun v w => v.toNat % m ≠ w.toNat % m := by
  simp only [h.retrievable_iff m hinc]
  exact newest_iff_recent_iff hm hinc

/-- The object with a given version over the cells `0` to `3` of a line. -/
def lineObj (v : UInt32) : ObjData :=
  objDataAlloc ⟨"temperature", .rowMajor, 0, v, ⟨1, fun _ => 0, fun _ => 3⟩, 8⟩

theorem putsOf_lineObj (vs : List UInt32) : PutsOf (lineObj 0).objDesc (vs.map lineObj) where
  wf := by decide
  name_eq := by simp [lineObj, objDataAlloc]
  box_eq := by
    intro od hod
    obtain ⟨v, -, rfl⟩ := mem_map.1 hod
    exact bboxEquals_refl _
  unreferenced := by simp [lineObj, objDataAlloc]

/-- Three consecutive versions with `max_versions = 2`. -/
theorem retained_versions_consecutive :
    (∀ v, Retrievable (putRun 2 ([1, 2, 3].map lineObj)) { (lineObj 0).objDesc with version := v } ↔
        v ∈ recent 2 (versions ([1, 2, 3].map lineObj))) ↔
      (recent 2 (versions ([1, 2, 3].map lineObj))).Pairwise fun v w => v.toNat % 2 ≠ w.toNat % 2 :=
  retained_versions_iff 2 (by decide) (lineObj 0).objDesc ([1, 2, 3].map lineObj)
    (putsOf_lineObj [1, 2, 3]) (by decide)

/-- With `max_versions = 2`, the versions `0` and `2` share a bin: both are among the two most recent
versions, and only `2` can be retrieved. -/
theorem retention_fails_with_gap :
    (versions ([0, 2].map lineObj)).Pairwise (· < ·) ∧
      recent 2 (versions ([0, 2].map lineObj)) = [0, 2] ∧
      ¬ Retrievable (putRun 2 ([0, 2].map lineObj)) { (lineObj 0).objDesc with version := 0 } ∧
      ¬ ∀ v, Retrievable (putRun 2 ([0, 2].map lineObj)) { (lineObj 0).objDesc with version := v } ↔
        v ∈ recent 2 (versions ([0, 2].map lineObj)) := by
  have hlost : ¬ Retrievable (putRun 2 ([0, 2].map lineObj))
      { (lineObj 0).objDesc with version := 0 } := by decide
  exact ⟨by decide, by decide, hlost, fun h => hlost ((h 0).2 (by decide))⟩

end DataSpaces.Store
