import DataSpaces.Client.Descriptors
import DataSpaces.Cluster.Coherence

/-!
# Exact answers under a fixed placement

Suppose that the boxes of every name are pairwise equal or disjoint, that each box is always put to the
same server, that every cell of the domain has an owner, and that the transfers of one name, box and version
bin complete in the order of the puts. Then the two tables of the servers stay in step although one overwrites
in place and the other evicts and prepends: once all messages have arrived, a query finds one descriptor for
every put box that meets it and whose latest put in the version bin has the queried version, and the owner of
the descriptor serves that put (`put_get_exact`). Without the order of the transfers the directory can have a
version that its owner has displaced (`put_get_inexact_reordered`).
-/

namespace DataSpaces.Cluster

open Lib Geometry Space Store Client List

/-- The put of a box that a query should find: the box meets the query, and the latest put of the box
in the version bin of the query has the queried version. -/
structure CurrentPut (m : Nat) (h : List ObjData) (q : ObjDescriptor) (od : ObjData) : Prop where
  name_eq : od.objDesc.name = q.name
  version_eq : od.objDesc.version = q.version
  meets : ∃ x, x ∈ od.objDesc.bb ∧ x ∈ q.bb
  latest_eq : latest objKey (objKey od) (inBin m (q.version.toNat % m) h) = some od

/-- The answers of the servers to a query, in some order of arrival. -/
def descReplies (c : State) (q : ObjDescriptor) (order : List Nat) : List DescReply :=
  order.map fun t => dsgrpcObjGetDesc (c.servers t) q

/-- The descriptors that the client keeps of the answers. -/
def foundDescriptors (S : SharedSpace) (c : State) (q : ObjDescriptor) (order : List Nat) :
    List ObjDescriptor :=
  (descriptorPhase q (S.peers q.bb).length (descReplies c q order)).odList.map (·.objDesc)

/-- The found descriptors are one for each current put, and the owners serve those puts. -/
structure ExactAnswer (m : Nat) (h : List ObjData) (c : State) (q : ObjDescriptor)
    (found : List ObjDescriptor) : Prop where
  one_each : ∃ puts : List ObjData, (∀ od, od ∈ puts ↔ CurrentPut m h q od) ∧
    (puts.map objKey).Nodup ∧ found = puts.map fun od => clip q od.objDesc
  served : ∀ od, CurrentPut m h q od →
    lsFind (c.servers od.objDesc.owner).ls (clip q od.objDesc) = some od ∧
      bboxInclude od.objDesc.bb (clip q od.objDesc).bb = true

theorem foundDescriptors_eq (S : SharedSpace) (c : State) (q : ObjDescriptor) (order : List Nat) :
    foundDescriptors S c q order = pieces (answered (descReplies c q order)) := by
  have hst : ∀ reply ∈ descReplies c q order, ∀ o ∈ reply.table, o.st = q.st := by
    intro reply hreply o ho
    obtain ⟨t, -, rfl⟩ := mem_map.1 hreply
    exact st_of_mem_table ho
  rw [foundDescriptors, (descriptorPhase_spec q _ _ hst).odList_eq, map_map]
  exact map_id _

theorem mem_answered_iff {c : State} {q : ObjDescriptor} {order : List Nat} {p : ObjDescriptor} :
    p ∈ answered (descReplies c q order) ↔
      ∃ t ∈ order, ∃ o ∈ dhtFindEntryAll (c.servers t).entSelf q, clip q o = p := by
  simp only [answered, descReplies, flatMap_map, mem_flatMap, dsgrpcObjGetDesc_table, mem_map]

section

variable {S : SharedSpace} {m : Nat} {h : List ObjData} {c : State} {q : ObjDescriptor}

/-- The descriptors that an entry finds are those of the current puts whose boxes hash to it. -/
theorem mem_dhtFindEntryAll_iff (hi : ClusterInv S m h c) (hq : Settled c)
    (hp : FixedPlacement S h) (hwf : q.bb.Wf) (hin : q.bb.Inside S.domain.box) {t : Nat} {o : ObjDescriptor} :
    o ∈ dhtFindEntryAll (c.servers t).entSelf q ↔
      ∃ od, od.objDesc = o ∧ t ∈ S.peers o.bb ∧ CurrentPut m h q od := by
  have hindex : (c.servers t).entSelf.index q.version = q.version.toNat % m := by
    obtain ⟨arrived, hent, -⟩ := hi.table_eq hq t
    rw [OdscTable.index, hent, dhtRun_odscSize]
  have htest : ∀ od ∈ h, bboxDoesIntersect od.objDesc.bb q.bb = true ↔
      ∃ x, x ∈ od.objDesc.bb ∧ x ∈ q.bb := fun od hod =>
    bboxDoesIntersect_iff_exists_mem (hp.wf od hod) hwf (by rw [hp.dims od hod, hin.numDims_eq])
  rw [mem_dhtFindEntryAll, hindex, mem_odscHash_iff hi hq hp, objDescEqualsIntersect_iff]
  constructor
  · rintro ⟨⟨od, rfl, hpeer, hlatest⟩, hname, hver, hint⟩
    have hod : od ∈ h := mem_of_mem_filter (mem_of_latest hlatest)
    exact ⟨od, rfl, hpeer, hname, hver, (htest od hod).1 hint, hlatest⟩
  · rintro ⟨od, rfl, hpeer, hname, hver, hmeets, hlatest⟩
    have hod : od ∈ h := mem_of_mem_filter (mem_of_latest hlatest)
    exact ⟨⟨od, rfl, hpeer, hlatest⟩, hname, hver, (htest od hod).2 hmeets⟩

variable {od : ObjData}

section

variable (hc : CurrentPut m h q od)

include hc

theorem CurrentPut.mem : od ∈ h := mem_of_mem_filter (mem_of_latest hc.latest_eq)

/-- A current put and the query have an entry in common. -/
theorem CurrentPut.exists_peer (hp : FixedPlacement S h) (hwf : q.bb.Wf) (hin : q.bb.Inside S.domain.box)
    (howned : ∀ x ∈ S.domain.box, ∃ k, S.ss.OwnsCell S.platform k x) :
    ∃ t ∈ S.peers q.bb, t ∈ S.peers od.objDesc.bb := by
  obtain ⟨x, hxo, hxq⟩ := hc.meets
  obtain ⟨k, hk⟩ := howned x (hin.mem hxq)
  refine ⟨k, ?_, ?_⟩
  · exact (S.mem_peers_iff ⟨q.bb, hwf, hin⟩ k).2 ⟨x, hxq, hk.touches⟩
  · exact (S.mem_peers_iff ⟨od.objDesc.bb, hp.wf od hc.mem, hp.inside od hc.mem⟩ k).2 ⟨x, hxo, hk.touches⟩

/-- The clipped box of a put that meets the query consists of the shared cells. -/
theorem CurrentPut.mem_clip (hp : FixedPlacement S h) (hin : q.bb.Inside S.domain.box) {x : Coord} :
    x ∈ (clip q od.objDesc).bb ↔ x ∈ q.bb ∧ x ∈ od.objDesc.bb :=
  mem_bboxIntersect (by rw [hin.numDims_eq, hp.dims od hc.mem])

/-- Two current puts with the same key are equal. -/
theorem CurrentPut.eq_of_objKey_eq {od' : ObjData} (hc' : CurrentPut m h q od') (hk : objKey od = objKey od') :
    od = od' := by
  have h1 := hc.latest_eq
  rw [hk, hc'.latest_eq, Option.some.injEq] at h1
  exact h1.symm

/-- Current puts with equal clipped boxes are equal. -/
theorem CurrentPut.eq_of_pieceKey_eq {od' : ObjData} (hc' : CurrentPut m h q od') (hp : FixedPlacement S h)
    (hin : q.bb.Inside S.domain.box) (hk : pieceKey (clip q od.objDesc) = pieceKey (clip q od'.objDesc)) :
    od = od' := by
  obtain ⟨x, hxo, hxq⟩ := hc.meets
  have hbox : bboxEquals (clip q od.objDesc).bb (clip q od'.objDesc).bb = true :=
    corners_eq_iff.1 (Prod.mk.inj hk).2
  have hx' := (mem_congr_of_bboxEquals hbox).1 ((hc.mem_clip hp hin).2 ⟨hxq, hxo⟩)
  apply hc.eq_of_objKey_eq hc'
  exact hp.toFixedDecomposition.objKey_eq_of_mem hc.mem hc'.mem
    (hc.name_eq.trans hc'.name_eq.symm) hxo ((hc'.mem_clip hp hin).1 hx').2

/-- The owner of a current put serves it for the clipped descriptor. -/
theorem CurrentPut.lsFind_eq (hi : ClusterInv S m h c) (hq : Settled c) (hp : FixedPlacement S h)
    (hin : q.bb.Inside S.domain.box) :
    lsFind (c.servers od.objDesc.owner).ls (clip q od.objDesc) = some od := by
  have hf := hp.toFixedDecomposition
  have hver : (clip q od.objDesc).version = q.version := hc.version_eq
  obtain ⟨x, hxo, hxq⟩ := hc.meets
  have hxc := (hc.mem_clip hp hin).2 ⟨hxq, hxo⟩
  have hstored : od ∈ (c.servers od.objDesc.owner).ls.objHash ((clip q od.objDesc).version.toNat % m) := by
    rw [hver, hi.mem_objHash_iff hq hf, latest_inBin_putsAt hp hc.mem]
    exact hc.latest_eq
  apply hi.lsFind_eq_of_mem hq hf hstored
  · rfl
  · rfl
  · rw [clip, bboxIntersect_numDims, hin.numDims_eq]
  · exact Bbox.wf_of_mem hxc
  · intro y hy
    exact ((hc.mem_clip hp hin).1 hy).2

theorem CurrentPut.include_clip (hp : FixedPlacement S h) (hin : q.bb.Inside S.domain.box) :
    bboxInclude od.objDesc.bb (clip q od.objDesc).bb = true := by
  obtain ⟨x, hxo, hxq⟩ := hc.meets
  have hxc := (hc.mem_clip hp hin).2 ⟨hxq, hxo⟩
  rw [bboxInclude_iff_forall_mem (Bbox.wf_of_mem hxc)]
  · intro y hy
    exact ((hc.mem_clip hp hin).1 hy).2
  · rw [clip, bboxIntersect_numDims, hin.numDims_eq, hp.dims od hc.mem]

end

/-- The answers are the clipped descriptors of the current puts, in any order of arrival. -/
theorem mem_answered_iff_currentPut (hi : ClusterInv S m h c) (hq : Settled c)
    (hp : FixedPlacement S h) (hwf : q.bb.Wf) (hin : q.bb.Inside S.domain.box)
    (howned : ∀ x ∈ S.domain.box, ∃ k, S.ss.OwnsCell S.platform k x) {order : List Nat}
    (horder : order.Perm (S.peers q.bb)) {p : ObjDescriptor} :
    p ∈ answered (descReplies c q order) ↔ ∃ od, CurrentPut m h q od ∧ clip q od.objDesc = p := by
  rw [mem_answered_iff]
  constructor
  · rintro ⟨t, -, o, ho, rfl⟩
    obtain ⟨od, rfl, -, hc⟩ := (mem_dhtFindEntryAll_iff hi hq hp hwf hin).1 ho
    exact ⟨od, hc, rfl⟩
  · rintro ⟨od, hc, rfl⟩
    obtain ⟨t, htq, hto⟩ := hc.exists_peer hp hwf hin howned
    refine ⟨t, horder.mem_iff.2 htq, od.objDesc, ?_, rfl⟩
    exact (mem_dhtFindEntryAll_iff hi hq hp hwf hin).2 ⟨od, rfl, hto, hc⟩

end

/-- A list whose items all have a preimage is the image of a list of preimages. -/
theorem exists_map_eq_of_forall_mem {α β : Type*} {f : α → β} {P : α → Prop} {l : List β}
    (h : ∀ y ∈ l, ∃ x, P x ∧ f x = y) : ∃ xs : List α, (∀ x ∈ xs, P x) ∧ l = xs.map f := by
  induction l with
  | nil => exact ⟨[], fun _ hx => absurd hx not_mem_nil, rfl⟩
  | cons y l ih =>
    obtain ⟨x, hx, rfl⟩ := h y mem_cons_self
    obtain ⟨xs, hxs, rfl⟩ := ih fun z hz => h z (mem_cons_of_mem _ hz)
    exact ⟨x :: xs, forall_mem_cons.2 ⟨hx, hxs⟩, rfl⟩

/-- After any run of puts whose transfers of one name, box and version bin complete in order, once all
transfers and messages have arrived, every query gets an exact answer, whatever the order in which the servers
answer. -/
theorem put_get_exact (S : SharedSpace) (m : Nat) (events : List Event)
    (hputs : ∀ ev ∈ events, ev.isRemove = false) (htransfers : TransfersInOrder S m events)
    (hp : FixedPlacement S (history events))
    (howned : ∀ x ∈ S.domain.box, ∃ k, S.ss.OwnsCell S.platform k x)
    (hq : Quiescent (run S m events)) (q : ObjDescriptor) (hwf : q.bb.Wf)
    (hin : q.bb.Inside S.domain.box) (order : List Nat) (horder : order.Perm (S.peers q.bb)) :
    ExactAnswer m (history events) (run S m events) q (foundDescriptors S (run S m events) q order) := by
  have hi := clusterInv_run S m events (removesFindNothing_of_puts hputs) htransfers
  have hs := hq.toSettled
  have hans := fun {p} => mem_answered_iff_currentPut hi hs hp hwf hin howned horder (p := p)
  refine ⟨?_, fun od hc => ⟨hc.lsFind_eq hi hs hp hin, hc.include_clip hp hin⟩⟩
  rw [foundDescriptors_eq]
  obtain ⟨puts, hcur, hmap⟩ := exists_map_eq_of_forall_mem
    (l := pieces (answered (descReplies (run S m events) q order)))
    fun p hmem => hans.1 (mem_of_mem_foldl_addNew hmem)
  have hkeys := nodup_foldl_addNew objDescEquals_iff_pieceKey
    (answered (descReplies (run S m events) q order))
  rw [← pieces, hmap, map_map] at hkeys
  refine ⟨puts, fun od => ⟨hcur od, fun hc => ?_⟩, ?_, hmap⟩
  · -- A piece with the same owner and box was kept, and it comes from the same put.
    obtain ⟨p, hpm, hk⟩ := exists_mem_foldl_addNew objDescEquals_iff_pieceKey (hans.2 ⟨od, hc, rfl⟩)
    rw [← pieces, hmap] at hpm
    obtain ⟨od', hod', rfl⟩ := mem_map.1 hpm
    rw [← (hcur od' hod').eq_of_pieceKey_eq hc hp hin hk]
    exact hod'
  · refine pairwise_map.2 ((pairwise_map.1 hkeys).imp_of_mem ?_)
    intro od od' hod hod' hne hk
    apply hne
    rw [(hcur od hod).eq_of_objKey_eq (hcur od' hod') hk]

/-- Two versions of both halves of the line. The transfers of the second half complete first. -/
def halvesEvents : List Event :=
  [.put 0 (lineSegment (0, 1) 1), .put 0 (lineSegment (2, 3) 1), .complete 0 1, .put 0 (lineSegment (2, 3) 2),
    .put 0 (lineSegment (0, 1) 2), .complete 0 1, .update 0 1, .complete 0 0, .update 0 1, .complete 0 0]

/-- With room for two versions, a query for the second one gets both halves. -/
theorem put_get_exact_halves :
    (foundDescriptors lineSpace (run lineSpace 2 halvesEvents) (lineObj 2).objDesc [1, 0]).length = 2 ∧
      ExactAnswer 2 (history halvesEvents) (run lineSpace 2 halvesEvents) (lineObj 2).objDesc
        (foundDescriptors lineSpace (run lineSpace 2 halvesEvents) (lineObj 2).objDesc [1, 0]) := by
  refine ⟨by decide, put_get_exact lineSpace 2 halvesEvents (by decide) (by decide) ?_ lineSpace_owned ?_ _
    (by decide) ⟨rfl, fun _ _ => ⟨le_rfl, le_rfl⟩⟩ [1, 0] (by decide)⟩
  · refine fixedPlacement_segments [(0, 1), (2, 3)] (fun od hod => ?_) (by decide) (by decide)
    simp only [history, halvesEvents, flatMap_cons, flatMap_nil, Event.puts, mem_append, mem_singleton,
      not_mem_nil, or_false, false_or] at hod
    rcases hod with rfl | rfl | rfl | rfl
    · exact ⟨(0, 1), by decide, 1, by decide, rfl⟩
    · exact ⟨(2, 3), by decide, 1, by decide, rfl⟩
    · exact ⟨(2, 3), by decide, 2, by decide, rfl⟩
    · exact ⟨(0, 1), by decide, 2, by decide, rfl⟩
  · exact ⟨⟨by rintro (_ | _) <;> rfl, by rintro (_ | _) (_ | _ | _) <;> rfl⟩, fun _ => rfl⟩

/-- The transfers of two versions of the line complete in the other order. -/
def reorderedEvents : List Event :=
  [.put 0 (lineObj 1), .put 0 (lineObj 2), .complete 0 1, .complete 0 0, .update 0 1, .update 0 1]

/-- With room for one version the directory then has version 2, and its owner has version 1. -/
theorem put_get_inexact_reordered :
    (∀ ev ∈ reorderedEvents, ev.isRemove = false) ∧ FixedPlacement lineSpace (history reorderedEvents) ∧
      (∀ x ∈ lineSpace.domain.box, ∃ k, lineSpace.ss.OwnsCell lineSpace.platform k x) ∧
      Quiescent (run lineSpace 1 reorderedEvents) ∧
      (foundDescriptors lineSpace (run lineSpace 1 reorderedEvents) (lineObj 2).objDesc [0, 1]).length = 1 ∧
      ¬ ExactAnswer 1 (history reorderedEvents) (run lineSpace 1 reorderedEvents) (lineObj 2).objDesc
        (foundDescriptors lineSpace (run lineSpace 1 reorderedEvents) (lineObj 2).objDesc [0, 1]) := by
  refine ⟨by decide, fixedPlacement_line fun od hod => ?_, lineSpace_owned, ?_, by decide, fun hexact => ?_⟩
  · simp only [history, reorderedEvents, flatMap_cons, flatMap_nil, Event.puts, mem_append, mem_singleton,
      not_mem_nil, or_false] at hod
    rcases hod with rfl | rfl
    · exact ⟨1, by decide, rfl⟩
    · exact ⟨2, by decide, rfl⟩
  · exact ⟨⟨by rintro (_ | _) <;> rfl, by rintro (_ | _) (_ | _ | _) <;> rfl⟩, fun _ => rfl⟩
  · -- Version 2 is the current put, and the store of its owner does not find it.
    have hcurrent : CurrentPut 1 (history reorderedEvents) (lineObj 2).objDesc (ownedBy 0 (lineObj 2)) :=
      ⟨rfl, rfl, ⟨fun _ => 0, by decide, by decide⟩, rfl⟩
    have hnone : (lsFind ((run lineSpace 1 reorderedEvents).servers 0).ls
        (clip (lineObj 2).objDesc (ownedBy 0 (lineObj 2)).objDesc)).isNone = true := by decide
    have hserved := (hexact.served _ hcurrent).1
    rw [ownedBy_owner] at hserved
    rw [hserved] at hnone
    cases hnone

end DataSpaces.Cluster
