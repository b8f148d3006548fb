import DataSpaces.Cluster.Servers

/-!
# Directory and storage

What the tables of a cluster say about each other once all transfers and messages have arrived. Under a
fixed decomposition a descriptor in the table of any server is the last one that its owner recorded
for its name, box and version bin, and the owner still stores the object
(`exists_object_of_descriptor`). If moreover every box is always put to the same server, the tables hold
exactly the descriptors of the latest puts (`mem_odscHash_iff`).
-/

namespace DataSpaces.Cluster

open Lib Geometry Space Store List

/-- The boxes of the puts have the dimensions of the domain, and those of every name are pairwise equal
or disjoint. -/
structure FixedDecomposition (S : SharedSpace) (h : List ObjData) : Prop where
  wf : ∀ od ∈ h, od.objDesc.bb.Wf
  dims : ∀ od ∈ h, od.objDesc.bb.numDims = S.domain.box.numDims
  equal_or_disjoint : ∀ od ∈ h, ∀ od' ∈ h, od.objDesc.name = od'.objDesc.name →
    bboxEquals od.objDesc.bb od'.objDesc.bb = true ∨ ∀ x, x ∈ od.objDesc.bb → x ∉ od'.objDesc.bb
  unreferenced : ∀ od ∈ h, od.refcnt = 0
  owner_lt : ∀ od ∈ h, od.objDesc.owner < S.numSp

/-- No put has the version that the descriptor table takes for one that is not set. -/
def VersionsSet (h : List ObjData) : Prop := ∀ od ∈ h, od.objDesc.version ≠ versionUnset

/-- In addition, the boxes lie inside the domain and every box is always put to the same server. -/
structure FixedPlacement (S : SharedSpace) (h : List ObjData) : Prop
    extends FixedDecomposition S h where
  inside : ∀ od ∈ h, od.objDesc.bb.Inside S.domain.box
  version_set : VersionsSet h
  same_server : ∀ od ∈ h, ∀ od' ∈ h, od.objDesc.name = od'.objDesc.name →
    bboxEquals od.objDesc.bb od'.objDesc.bb = true → od.objDesc.owner = od'.objDesc.owner

namespace FixedDecomposition

variable {S : SharedSpace} {h : List ObjData} (hf : FixedDecomposition S h)

include hf

theorem mono {h' : List ObjData} (hsub : ∀ od ∈ h', od ∈ h) : FixedDecomposition S h' where
  wf := fun od hod => hf.wf od (hsub od hod)
  dims := fun od hod => hf.dims od (hsub od hod)
  equal_or_disjoint := fun od hod od' hod' => hf.equal_or_disjoint od (hsub od hod) od' (hsub od' hod')
  unreferenced := fun od hod => hf.unreferenced od (hsub od hod)
  owner_lt := fun od hod => hf.owner_lt od (hsub od hod)

theorem decomposed : Decomposed (h.map (·.objDesc)) where
  wf := by
    intro o ho
    obtain ⟨od, hod, rfl⟩ := mem_map.1 ho
    exact hf.wf od hod
  dims := by
    intro o ho o' ho' _
    obtain ⟨od, hod, rfl⟩ := mem_map.1 ho
    obtain ⟨od', hod', rfl⟩ := mem_map.1 ho'
    rw [hf.dims od hod, hf.dims od' hod']
  equal_or_disjoint := by
    intro o ho o' ho' hname
    obtain ⟨od, hod, rfl⟩ := mem_map.1 ho
    obtain ⟨od', hod', rfl⟩ := mem_map.1 ho'
    exact hf.equal_or_disjoint od hod od' hod' hname

/-- Puts of one name that share a cell have the same key. -/
theorem objKey_eq_of_mem {od od' : ObjData} (hod : od ∈ h) (hod' : od' ∈ h)
    (hname : od.objDesc.name = od'.objDesc.name) {x : Coord} (hx : x ∈ od.objDesc.bb)
    (hx' : x ∈ od'.objDesc.bb) : objKey od = objKey od' := by
  rcases hf.equal_or_disjoint od hod od' hod' hname with heq | hdisj
  · exact slotKey_eq_iff.2 ⟨hname, heq⟩
  · exact absurd hx' (hdisj x hx)

end FixedDecomposition

theorem VersionsSet.of_sub {h : List ObjData} (hv : VersionsSet h) {ds : List ObjDescriptor}
    (hsub : ∀ o ∈ ds, o ∈ h.map (·.objDesc)) : ∀ o ∈ ds, o.version ≠ versionUnset := by
  intro o ho
  obtain ⟨od, hod, rfl⟩ := mem_map.1 (hsub o ho)
  exact hv od hod

theorem peers_eq_of_objKey_eq (S : SharedSpace) {od od' : ObjData} (hk : objKey od = objKey od') :
    S.peers od.objDesc.bb = S.peers od'.objDesc.bb :=
  S.peers_congr (slotKey_eq_iff.1 hk).2

/-! ## After all messages have arrived -/

section

variable {S : SharedSpace} {m : Nat} {h : List ObjData} {c : State}

/-- The store of a server is a run over completed puts, and of every name, box and bin the latest put is the
latest one of these and of those under way. -/
theorem ClusterInv.exists_done (hi : ClusterInv S m h c) (s : Nat) :
    ∃ done, (c.servers s).ls = lsRun m done ∧ (∀ od ∈ done, od ∈ h) ∧
      ∀ i k, latest objKey k (inBin m i (putsAt h s)) =
        latest objKey k (inBin m i (done ++ c.receiving s)) := by
  obtain ⟨done, hls, hslots⟩ := hi.store s
  refine ⟨done, hls, fun od hod => ?_, fun i k => ?_⟩
  · have hslot := (mem_slotPuts (m := m)).2 ⟨mem_append_left (c.receiving s) hod, rfl, rfl⟩
    rw [← hslots] at hslot
    exact mem_of_mem_filter (mem_slotPuts.1 hslot).1
  · have hkey : ∀ l, latest objKey k (slotPuts m i k l) = latest objKey k (inBin m i l) :=
      fun l => latest_filter fun _ _ hk => decide_eq_true hk
    rw [← hkey, hslots, hkey]

section

variable (hi : ClusterInv S m h c) (hq : Settled c)

include hi hq

theorem ClusterInv.table_eq (t : Nat) : ∃ arrived, (c.servers t).entSelf = dhtRun m arrived ∧
      (∀ s, (arrived.filter fun o => o.owner = s) = sent S h s t) ∧ ∀ o ∈ arrived, o ∈ h.map (·.objDesc) := by
  obtain ⟨arrived, hent, hsent⟩ := hi.table t
  have hfilter : ∀ s, (arrived.filter fun o => o.owner = s) = sent S h s t := by
    intro s
    rw [hsent, hq.updates, append_nil]
  refine ⟨arrived, hent, hfilter, fun o ho => ?_⟩
  have hmem : o ∈ sent S h o.owner t := by
    rw [← hfilter]
    exact mem_filter.2 ⟨ho, by simp⟩
  obtain ⟨od, hod, rfl⟩ := mem_map.1 hmem
  exact mem_map_of_mem (mem_of_mem_filter (mem_of_mem_filter hod))

/-- The objects in the store of a server are the latest puts to it. -/
theorem ClusterInv.mem_objHash_iff (hf : FixedDecomposition S h) (s i : Nat) (od : ObjData) :
    od ∈ (c.servers s).ls.objHash i ↔ latest objKey (objKey od) (inBin m i (putsAt h s)) = some od := by
  obtain ⟨done, hls, hsub, hlatest⟩ := hi.exists_done s
  rw [hls, hlatest, hq.receiving, append_nil]
  exact (lsRun_keepsLatest m (hf.mono hsub).unreferenced (hf.mono hsub).decomposed i).mem_iff od

/-- A query inside the box of a stored object, with its name and version, finds that object. -/
theorem ClusterInv.lsFind_eq_of_mem (hf : FixedDecomposition S h) {s : Nat} {od : ObjData} {p : ObjDescriptor}
    (hod : od ∈ (c.servers s).ls.objHash (p.version.toNat % m)) (hname : p.name = od.objDesc.name)
    (hver : p.version = od.objDesc.version) (hdims : p.bb.numDims = S.domain.box.numDims) (hwf : p.bb.Wf)
    (hsub : ∀ x ∈ p.bb, x ∈ od.objDesc.bb) : lsFind (c.servers s).ls p = some od := by
  have hput : ∀ od' ∈ (c.servers s).ls.objHash (p.version.toNat % m), od' ∈ h := by
    intro od' hod'
    have hlatest := (hi.mem_objHash_iff hq hf s _ od').1 hod'
    exact mem_of_mem_filter (mem_of_mem_filter (mem_of_latest hlatest))
  have htest : ∀ od' ∈ h, bboxDoesIntersect p.bb od'.objDesc.bb = true ↔
      ∃ x, x ∈ p.bb ∧ x ∈ od'.objDesc.bb := fun od' hod' =>
    bboxDoesIntersect_iff_exists_mem hwf (hf.wf od' hod') (hdims.trans (hf.dims od' hod').symm)
  rw [lsFind, SsStorage.index, hi.sizeHash]
  apply find?_eq_some_of_unique hod
  · refine objDescEqualsIntersect_iff.2 ⟨hname, hver, (htest od (hput od hod)).2 ?_⟩
    exact ⟨p.bb.lb, hwf.lb_mem, hsub _ hwf.lb_mem⟩
  · -- Another object that passes the test shares a cell with this one, so it has the same key.
    intro od' hod' hpass
    obtain ⟨hname', -, hint⟩ := objDescEqualsIntersect_iff.1 hpass
    obtain ⟨y, hyp, hyo⟩ := (htest od' (hput od' hod')).1 hint
    have hk : objKey od' = objKey od := hf.objKey_eq_of_mem (hput od' hod') (hput od hod)
      (hname'.symm.trans hname) hyo (hsub y hyp)
    have hlatest := (hi.mem_objHash_iff hq hf s _ od').1 hod'
    rw [hk, (hi.mem_objHash_iff hq hf s _ od).1 hod, Option.some.injEq] at hlatest
    exact hlatest.symm

end

/-- The latest descriptor that arrived at `t` from one server for a name, box and version bin is the
one of the latest such put to that server, if the box hashes to `t`. -/
theorem latest_sent_bin {k : String × List (Nat × Nat)} (s t i : Nat)
    (hpeer : ∀ od ∈ h, objKey od = k → t ∈ S.peers od.objDesc.bb) :
    latest slotKey k ((sent S h s t).filter fun o => o.version.toNat % m = i) =
      (latest objKey k (inBin m i (putsAt h s))).map (·.objDesc) := by
  have hcomm : (sent S h s t).filter (fun o => o.version.toNat % m = i) =
      ((inBin m i (putsAt h s)).filter fun od => t ∈ S.peers od.objDesc.bb).map (·.objDesc) := by
    rw [sent, filter_map, inBin, filter_filter, filter_filter]
    congr 1
    refine filter_congr fun od _ => ?_
    rw [Bool.and_comm]
    rfl
  rw [hcomm, latest_map]
  congr 1
  refine latest_filter fun od hod hk => ?_
  have hmem : od ∈ h := mem_of_mem_filter (mem_of_mem_filter hod)
  simpa using hpeer od hmem hk

variable {t i : Nat} {o : ObjDescriptor} {od : ObjData}

/-- Every descriptor in a table is that of an object which its owner stores. -/
theorem exists_object_of_descriptor (hi : ClusterInv S m h c) (hq : Settled c)
    (hf : FixedDecomposition S h) (hv : VersionsSet h) (ho : o ∈ (c.servers t).entSelf.odscHash i) :
    ∃ od, od.objDesc = o ∧ t ∈ S.peers o.bb ∧ od ∈ (c.servers o.owner).ls.objHash i := by
  obtain ⟨arrived, hent, hfilter, hsub⟩ := hi.table_eq hq t
  have hkeep := dhtRun_keepsLatest m (hv.of_sub hsub) (hf.decomposed.mono hsub) i
  rw [hent] at ho
  have hlatest := (hkeep.mem_iff o).1 ho
  -- It is also the latest one among those that its owner sent.
  have hown := latest_filter_of_latest (q := fun o' => o'.owner = o.owner) hlatest (by simp)
  rw [filter_comm, hfilter] at hown
  have hsent : o ∈ sent S h o.owner t := mem_of_mem_filter (mem_of_latest hown)
  obtain ⟨od₀, hod₀, heq₀⟩ := mem_map.1 hsent
  have hpeer₀ : t ∈ S.peers od₀.objDesc.bb := by simpa using of_mem_filter hod₀
  rw [heq₀] at hpeer₀
  have hpeer : ∀ od ∈ h, objKey od = slotKey o → t ∈ S.peers od.objDesc.bb := by
    intro od _ hk
    rw [S.peers_congr (slotKey_eq_iff.1 hk).2]
    exact hpeer₀
  rw [latest_sent_bin _ t i hpeer] at hown
  obtain ⟨od, hod, rfl⟩ := Option.map_eq_some_iff.1 hown
  exact ⟨od, rfl, hpeer₀, (hi.mem_objHash_iff hq hf _ i od).2 hod⟩

theorem ownerEq_of_objKey_eq (hp : FixedPlacement S h) {od' : ObjData} (hod : od ∈ h)
    (hod' : od' ∈ h) (hk : objKey od = objKey od') : od.objDesc.owner = od'.objDesc.owner := by
  obtain ⟨hname, hbox⟩ := slotKey_eq_iff.1 hk
  exact hp.same_server od hod od' hod' hname hbox

/-- All puts of a name and box went to the server of any one of them. -/
theorem latest_inBin_putsAt (hp : FixedPlacement S h) (hod : od ∈ h) (i : Nat) :
    latest objKey (objKey od) (inBin m i (putsAt h od.objDesc.owner)) =
      latest objKey (objKey od) (inBin m i h) := by
  have hcomm : inBin m i (putsAt h od.objDesc.owner) =
      (inBin m i h).filter fun od' => od'.objDesc.owner = od.objDesc.owner := by
    rw [inBin, putsAt, inBin, filter_comm]
  rw [hcomm]
  refine latest_filter fun od' hod' hk => ?_
  simpa using ownerEq_of_objKey_eq hp (mem_of_mem_filter hod') hod hk

/-- If every box is always put to the same server, a table holds exactly the descriptors of the latest
puts whose boxes hash to it. -/
theorem mem_odscHash_iff (hi : ClusterInv S m h c) (hq : Settled c) (hp : FixedPlacement S h) :
    o ∈ (c.servers t).entSelf.odscHash i ↔
      ∃ od, od.objDesc = o ∧ t ∈ S.peers o.bb ∧ latest objKey (objKey od) (inBin m i h) = some od := by
  have hf := hp.toFixedDecomposition
  constructor
  · intro ho
    obtain ⟨od, rfl, hpeer, hod⟩ := exists_object_of_descriptor hi hq hf hp.version_set ho
    have hlatest := (hi.mem_objHash_iff hq hf _ i od).1 hod
    have hmem : od ∈ h := mem_of_mem_filter (mem_of_mem_filter (mem_of_latest hlatest))
    rw [latest_inBin_putsAt hp hmem] at hlatest
    exact ⟨od, rfl, hpeer, hlatest⟩
  · rintro ⟨od, rfl, hpeer, hlatest⟩
    have hmem : od ∈ h := mem_of_mem_filter (mem_of_latest hlatest)
    obtain ⟨arrived, hent, hfilter, hsub⟩ := hi.table_eq hq t
    rw [hent, (dhtRun_keepsLatest m (hp.version_set.of_sub hsub) (hf.decomposed.mono hsub) i).mem_iff]
    -- Whatever arrived for this name and box came from the owner.
    have howner : ∀ o ∈ arrived.filter (fun o => o.version.toNat % m = i),
        slotKey o = slotKey od.objDesc → decide (o.owner = od.objDesc.owner) = true := by
      intro o ho hk
      obtain ⟨od', hod', rfl⟩ := mem_map.1 (hsub o (mem_of_mem_filter ho))
      simpa using ownerEq_of_objKey_eq hp hod' hmem hk
    have hpeers : ∀ od' ∈ h, objKey od' = objKey od → t ∈ S.peers od'.objDesc.bb := by
      intro od' _ hk
      rw [peers_eq_of_objKey_eq S hk]
      exact hpeer
    rw [← latest_filter howner, filter_comm, hfilter]
    have hsent := latest_sent_bin (m := m) od.objDesc.owner t i hpeers
    rw [latest_inBin_putsAt hp hmem, hlatest] at hsent
    exact hsent

end

/-- An object over a segment of the line. -/
def lineSegment (segment : Nat × Nat) (v : UInt32) : ObjData :=
  objDataAlloc ⟨"temperature", .rowMajor, 0, v, ⟨1, fun _ => segment.1, fun _ => segment.2⟩, 8⟩

/-- Puts of any versions of disjoint segments of the line to server `0`. -/
theorem fixedPlacement_segments (segments : List (Nat × Nat)) {h : List ObjData}
    (hh : ∀ od ∈ h, ∃ a ∈ segments, ∃ v, v ≠ versionUnset ∧ od = ownedBy 0 (lineSegment a v))
    (hline : ∀ a ∈ segments, a.1 ≤ a.2 ∧ a.2 ≤ 3)
    (hdisj : ∀ a ∈ segments, ∀ b ∈ segments, a = b ∨ a.2 < b.1 ∨ b.2 < a.1) : FixedPlacement lineSpace h := by
  have hput : ∀ od ∈ h, od.objDesc.bb.Wf ∧ od.objDesc.bb.Inside lineSpace.domain.box ∧ od.refcnt = 0 ∧
      od.objDesc.version ≠ versionUnset ∧ od.objDesc.owner = 0 := by
    intro od hod
    obtain ⟨a, ha, v, hv, rfl⟩ := hh od hod
    exact ⟨fun _ _ => (hline a ha).1, ⟨rfl, fun _ _ => ⟨Nat.zero_le _, (hline a ha).2⟩⟩, rfl, hv, rfl⟩
  refine ⟨⟨fun od hod => (hput od hod).1, fun od hod => (hput od hod).2.1.numDims_eq, ?_,
    fun od hod => (hput od hod).2.2.1, fun od hod => ?_⟩, fun od hod => (hput od hod).2.1,
    fun od hod => (hput od hod).2.2.2.1, fun od hod od' hod' _ _ => ?_⟩
  · intro od hod od' hod' _
    obtain ⟨a, ha, v, -, rfl⟩ := hh od hod
    obtain ⟨b, hb, w, -, rfl⟩ := hh od' hod'
    rcases hdisj a ha b hb with rfl | hlt
    · exact Or.inl (bboxEquals_refl _)
    · refine Or.inr fun x hx hx' => ?_
      have h0 : a.1 ≤ x 0 ∧ x 0 ≤ a.2 := hx 0 Nat.one_pos
      have h0' : b.1 ≤ x 0 ∧ x 0 ≤ b.2 := hx' 0 Nat.one_pos
      omega
  · rw [(hput od hod).2.2.2.2]
    decide
  · rw [(hput od hod).2.2.2.2, (hput od' hod').2.2.2.2]

/-- Puts of any versions of the whole line to server `0`. -/
theorem fixedPlacement_line {h : List ObjData}
    (hh : ∀ od ∈ h, ∃ v, v ≠ versionUnset ∧ od = ownedBy 0 (lineObj v)) : FixedPlacement lineSpace h :=
  fixedPlacement_segments [(0, 3)] (fun od hod => ⟨_, mem_singleton_self _, hh od hod⟩) (by decide) (by decide)

end DataSpaces.Cluster
