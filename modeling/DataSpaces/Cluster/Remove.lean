import DataSpaces.Cluster.Coherence

/-!
# Removing a version

`dspaces_remove` asks every server to unlink the objects of a name and version from its store. The
descriptors stay in the directory, so a remove that finds an object leaves descriptors behind which
name an owner without the object (`remove_leaves_descriptor`, and in general `remove_breaks_coherence`).
Along the runs in which every server that handles a remove holds nothing to be removed, and the transfers of
one name, box and version bin complete in the order of the puts, directory and storage agree whenever all
transfers and messages have arrived (`remove_keeps_coherent`).
-/

namespace DataSpaces.Cluster

open Lib Geometry Space Store List

/-- Every descriptor that a query can find names a server whose store has an object of that name and
version which contains the box of the descriptor. -/
def Coherent (S : SharedSpace) (c : State) : Prop :=
  ∀ t q, ∀ o ∈ dhtFindEntryAll (c.servers t).entSelf q,
    o.owner < S.numSp ∧ ∃ od, lsFind (c.servers o.owner).ls o = some od ∧
      od.objDesc.name = o.name ∧ od.objDesc.version = o.version ∧ ∀ x ∈ o.bb, x ∈ od.objDesc.bb

/-- A remove request of the name and version was sent, and no put of them came after it. -/
def RemovedNotReput (events : List Event) (name : String) (version : UInt32) : Prop :=
  ∃ before after, events = before ++ .remove name version :: after ∧
    ∀ od ∈ history after, removeMatches name version od = false

/-- No query of the name and version finds a descriptor. -/
def NoDescriptor (c : State) (name : String) (version : UInt32) : Prop :=
  ∀ t q, q.name = name → q.version = version → dhtFindEntryAll (c.servers t).entSelf q = []

/-- Server `t` has no object of the name and version, neither stored nor being received. -/
def HoldsNone (c : State) (t : Nat) (name : String) (version : UInt32) : Prop :=
  StoresNone c t name version ∧ ∀ od ∈ c.receiving t, removeMatches name version od = false

instance (c : State) (t : Nat) (name : String) (version : UInt32) :
    Decidable (HoldsNone c t name version) :=
  inferInstanceAs (Decidable ((∀ j < _, ∀ od ∈ _, _ = _) ∧ _))

/-- A server that handles a remove holds nothing to be removed, a put sets its version, and a transfer
completes after the earlier ones of its name, box and version bin. -/
def SafeStep (c : State) : Event → Prop
  | .put _ od => od.objDesc.version ≠ versionUnset
  | .complete s i => CompletesInOrder c (.complete s i)
  | .removeService t i => ∀ request ∈ (c.removes t)[i]?, HoldsNone c t request.1 request.2
  | _ => True

instance (c : State) (ev : Event) : Decidable (SafeStep c ev) :=
  match ev with
  | .put _ od => inferInstanceAs (Decidable (od.objDesc.version ≠ versionUnset))
  | .complete s i => inferInstanceAs (Decidable (CompletesInOrder c (.complete s i)))
  | .removeService t i =>
    inferInstanceAs (Decidable (∀ request ∈ (c.removes t)[i]?, HoldsNone c t request.1 request.2))
  | .update _ _ | .remove _ _ => isTrue trivial

/-- Every step of a run is safe. -/
def SafeRun (S : SharedSpace) (m : Nat) (events : List Event) : Prop := Along S SafeStep (clusterAlloc m) events

section

variable {S : SharedSpace} {m : Nat} {events : List Event}

theorem SafeRun.clusterInv (hs : SafeRun S m events) : ClusterInv S m (history events) (run S m events) := by
  refine clusterInv_run S m events (hs.mono fun c ev _ hev => ?_) (hs.mono fun c ev _ hev => ?_)
  · cases ev with
    | removeService t i => exact fun request hmsg => (hev request hmsg).1
    | _ => trivial
  · cases ev with
    | complete s i => exact hev
    | _ => trivial

theorem SafeRun.versionsSet (hs : SafeRun S m events) : VersionsSet (history events) := by
  intro od hod
  obtain ⟨ev, hev, hput⟩ := mem_flatMap.1 hod
  obtain ⟨before, after, rfl⟩ := append_of_mem hev
  have hstep : SafeStep (run S m before) ev := (along_append.1 hs).2.1
  cases ev with
  | put s od' =>
    rw [mem_singleton.1 hput]
    exact hstep
  | _ => cases hput

/-! ## A request that is no longer pending was handled -/

theorem dsgrpcRemoveService_removes (c : State) (t i a : Nat) : (dsgrpcRemoveService t i c).removes a =
      if a = t then (c.removes t).eraseIdx i else c.removes a := by
  unfold dsgrpcRemoveService
  split
  · next hnone =>
    by_cases ha : a = t
    · rw [if_pos ha, ha, eraseIdx_of_length_le (List.getElem?_eq_none_iff.1 hnone)]
    · rw [if_neg ha]
  · exact Function.update_apply _ _ _ _

variable {c : State} {t : Nat} {name : String} {version : UInt32} {od : ObjData} {h : List ObjData}
  {request : String × UInt32}

/-- A pending request stays pending, unless this step handles it. -/
theorem mem_removes_step (hmem : request ∈ c.removes t) (ev : Event) :
    request ∈ (step S c ev).removes t ∨ ∃ i, ev = .removeService t i ∧ (c.removes t)[i]? = some request := by
  cases ev with
  | put s od =>
    left
    rw [step, dsgrpcObjPut_removes]
    exact hmem
  | complete s =>
    left
    rw [step, objPutCompletion_removes]
    exact hmem
  | update s u =>
    left
    rw [step, dsgrpcObjUpdate_removes]
    exact hmem
  | remove name version =>
    left
    show request ∈ if t < S.numSp then c.removes t ++ [(name, version)] else c.removes t
    split
    · exact mem_append_left _ hmem
    · exact hmem
  | removeService u i =>
    rw [step, dsgrpcRemoveService_removes]
    by_cases htu : t = u
    · subst htu
      rw [if_pos rfl, mem_eraseIdx_iff_getElem?]
      obtain ⟨j, hj⟩ := mem_iff_getElem?.1 hmem
      -- The request sits at position `j`, and position `i` is taken off.
      by_cases hji : j = i
      · exact Or.inr ⟨i, rfl, hji ▸ hj⟩
      · exact Or.inl ⟨j, hji, hj⟩
    · rw [if_neg htu]
      exact Or.inl hmem

/-- If a request is pending at first and none is in the end, some step handled it. -/
theorem exists_removeService :
    ∀ (events : List Event) (c : State), request ∈ c.removes t → (events.foldl (step S) c).removes t = [] →
      ∃ before i after, events = before ++ .removeService t i :: after ∧
        ((before.foldl (step S) c).removes t)[i]? = some request := by
  intro events
  induction events with
  | nil =>
    intro c hmem hnil
    rw [foldl_nil] at hnil
    rw [hnil] at hmem
    cases hmem
  | cons ev events ih =>
    intro c hmem hnil
    rcases mem_removes_step (S := S) hmem ev with hstill | ⟨i, rfl, hi⟩
    · obtain ⟨before, i, after, rfl, hi⟩ := ih (step S c ev) hstill hnil
      exact ⟨ev :: before, i, after, rfl, hi⟩
    · exact ⟨[], i, events, rfl, hi⟩

/-! ## What a server holds none of is not the latest -/

theorem removeMatches_iff :
    removeMatches name version od = true ↔ od.objDesc.version = version ∧ od.objDesc.name = name := by
  simp [removeMatches]

theorem history_append (a b : List Event) : history (a ++ b) = history a ++ history b := flatMap_append

theorem putsAt_append (h h' : List ObjData) (s : Nat) :
    putsAt (h ++ h') s = putsAt h s ++ putsAt h' s := filter_append ..

theorem inBin_append (m i : Nat) (h h' : List ObjData) :
    inBin m i (h ++ h') = inBin m i h ++ inBin m i h' := filter_append ..

/-- If a server holds no object of a name and version, then no put of them to this server is the latest
one of its box and bin. -/
theorem HoldsNone.latest_ne (hm : 0 < m) (hi : ClusterInv S m h c) (hf : FixedDecomposition S h)
    (hnone : HoldsNone c t name version) (hod : removeMatches name version od = true) (i : Nat) :
    latest objKey (objKey od) (inBin m i (putsAt h t)) ≠ some od := by
  intro hlatest
  obtain ⟨done, hls, hsub, hdones⟩ := hi.exists_done t
  rw [hdones, inBin_append, latest_append] at hlatest
  rcases Option.or_eq_some_iff.1 hlatest with hrec | ⟨-, hdone⟩
  · -- It is being received.
    have hmem := mem_of_mem_filter (mem_of_latest hrec)
    rw [hnone.2 od hmem] at hod
    cases hod
  · -- It is the latest completed put, hence stored.
    have hkeep := lsRun_keepsLatest m (hf.mono hsub).unreferenced (hf.mono hsub).decomposed i
    have hstored : od ∈ (c.servers t).ls.objHash i := by
      rw [hls]
      exact (hkeep.mem_iff od).2 hdone
    have hbin : od.objDesc.version.toNat % m = i := by
      simpa using of_mem_filter (mem_of_latest hdone)
    have hlt : i < (c.servers t).ls.sizeHash := by
      rw [hls, lsRun_sizeHash, ← hbin]
      exact Nat.mod_lt _ hm
    rw [hnone.1 i hlt od hstored] at hod
    cases hod

/-- After a safe run whose remove requests were all handled, the latest put of a box and bin is not one
of a removed version. -/
theorem RemovedNotReput.latest_ne (hrem : RemovedNotReput events name version) (hm : 0 < m)
    (hf : FixedDecomposition S (history events)) (hs : SafeRun S m events) (ht : t < S.numSp)
    (hend : (run S m events).removes t = []) (hod : removeMatches name version od = true) (i : Nat) :
    latest objKey (objKey od) (inBin m i (putsAt (history events) t)) ≠ some od := by
  obtain ⟨before, after, rfl, hnoput⟩ := hrem
  -- The step that handled the request comes after the one that sent it.
  have hpending : (name, version) ∈ (step S (run S m before) (.remove name version)).removes t := by
    show (name, version) ∈ if t < S.numSp then (run S m before).removes t ++ [(name, version)]
      else (run S m before).removes t
    rw [if_pos ht]
    exact mem_append_right _ (mem_singleton_self _)
  have hfinal : (after.foldl (step S) (step S (run S m before) (.remove name version))).removes t = [] := by
    rw [run_append] at hend
    exact hend
  obtain ⟨mid, j, rest, rfl, hmsg⟩ := exists_removeService after _ hpending hfinal
  -- Until then, with the request handled while nothing is held.
  have hsplit : before ++ .remove name version :: (mid ++ .removeService t j :: rest) =
      (before ++ .remove name version :: mid) ++ .removeService t j :: rest := by simp
  rw [hsplit] at hs hf ⊢
  obtain ⟨hs₁, hstep, -⟩ := along_append.1 hs
  have hinv : ClusterInv S m (history (before ++ .remove name version :: mid))
      (run S m (before ++ .remove name version :: mid)) := SafeRun.clusterInv hs₁
  have hhandled : ((run S m (before ++ .remove name version :: mid)).removes t)[j]? =
      some (name, version) := by
    rw [run_append]
    exact hmsg
  have hnone : HoldsNone (run S m (before ++ .remove name version :: mid)) t name version :=
    hstep (name, version) hhandled
  rw [history_append] at hf ⊢
  rw [putsAt_append, inBin_append, latest_append]
  intro hlatest
  rcases Option.or_eq_some_iff.1 hlatest with hlater | ⟨-, hearlier⟩
  · -- Nothing of the name and version was put later.
    have hmem := mem_of_mem_filter (mem_of_mem_filter (mem_of_latest hlater))
    have hafter : od ∈ history (mid ++ .removeService t j :: rest) := by
      rw [history_append]
      exact mem_append_right _ hmem
    rw [hnoput od hafter] at hod
    cases hod
  · exact hnone.latest_ne hm hinv (hf.mono fun _ => mem_append_left _) hod i hearlier

/-! ## Coherence -/

theorem coherent_of_clusterInv (hi : ClusterInv S m h c) (hq : Settled c) (hf : FixedDecomposition S h)
    (hv : VersionsSet h) : Coherent S c := by
  intro t q o ho
  obtain ⟨hmem, htest⟩ := mem_dhtFindEntryAll.1 ho
  obtain ⟨-, hver, -⟩ := objDescEqualsIntersect_iff.1 htest
  obtain ⟨od, rfl, -, hod⟩ := exists_object_of_descriptor hi hq hf hv hmem
  have hput : od ∈ h := mem_of_mem_filter
    (mem_of_mem_filter (mem_of_latest ((hi.mem_objHash_iff hq hf _ _ od).1 hod)))
  refine ⟨hf.owner_lt od hput, od, ?_, rfl, rfl, fun x hx => hx⟩
  -- The bins of the two tables have the same number.
  obtain ⟨arrived, hent, -⟩ := hi.table_eq hq t
  rw [OdscTable.index, hent, dhtRun_odscSize, ← hver] at hod
  exact hi.lsFind_eq_of_mem hq hf hod rfl rfl (hf.dims od hput) (hf.wf od hput) fun x hx => hx

theorem dsgrpcRemoveService_entSelf (c : State) (t i a : Nat) :
    ((dsgrpcRemoveService t i c).servers a).entSelf = (c.servers a).entSelf := by
  unfold dsgrpcRemoveService
  split
  · rfl
  · by_cases ha : a = t
    · subst ha
      simp
    · simp [ha]

theorem dsgrpcRemoveService_ls (c : State) (t i a : Nat) :
    ((dsgrpcRemoveService t i c).servers a).ls = (c.servers a).ls ∨
      ∃ name version, ((dsgrpcRemoveService t i c).servers a).ls =
        lsRemoveAll (c.servers a).ls name version := by
  unfold dsgrpcRemoveService
  split
  · exact Or.inl rfl
  · next name version _ =>
    by_cases ha : a = t
    · subst ha
      exact Or.inr ⟨name, version, by simp⟩
    · simp [ha]

theorem dsgrpcRemoveService_sizeHash (c : State) (t i a : Nat) :
    ((dsgrpcRemoveService t i c).servers a).ls.sizeHash = (c.servers a).ls.sizeHash := by
  rcases dsgrpcRemoveService_ls c t i a with hls | ⟨name', version', hls⟩
  · rw [hls]
  · rw [hls, lsRemoveAll_sizeHash]

/-- A remove brings no object back. -/
theorem StoresNone.removeService (h : StoresNone c t name version) (u i : Nat) :
    StoresNone (dsgrpcRemoveService u i c) t name version := by
  intro j hj od hod
  rcases dsgrpcRemoveService_ls c u i t with hls | ⟨name', version', hls⟩
  · rw [hls] at hj hod
    exact h j hj od hod
  · rw [hls, lsRemoveAll_sizeHash] at hj
    rw [hls, lsRemoveAll_objHash _ _ _ hj] at hod
    exact h j hj od (mem_of_mem_filter hod)

/-- A server that has handled a remove has no object of that name and version. -/
theorem storesNone_removeService {i : Nat} (hmsg : (c.removes t)[i]? = some (name, version)) :
    StoresNone (dsgrpcRemoveService t i c) t name version := by
  have hls : ((dsgrpcRemoveService t i c).servers t).ls = lsRemoveAll (c.servers t).ls name version := by
    rw [dsgrpcRemoveService, hmsg]
    simp
  intro j hj od hod
  rw [hls, lsRemoveAll_sizeHash] at hj
  rw [hls, lsRemoveAll_objHash _ _ _ hj] at hod
  simpa using of_mem_filter hod

/-- A look-up of a name and version of which nothing is stored finds nothing. -/
theorem StoresNone.lsFind_eq_none (h : StoresNone c t name version) (hsize : 0 < (c.servers t).ls.sizeHash)
    {q : ObjDescriptor} (hname : q.name = name) (hver : q.version = version) :
    lsFind (c.servers t).ls q = none := by
  cases hfind : lsFind (c.servers t).ls q with
  | none => rfl
  | some od =>
    obtain ⟨hmem, htest⟩ := lsFind_some hfind
    obtain ⟨hname', hver', -⟩ := objDescEqualsIntersect_iff.1 htest
    have hnone := h _ (Nat.mod_lt _ hsize) od hmem
    rw [removeMatches_iff.2 ⟨hver'.symm.trans hver, hname'.symm.trans hname⟩] at hnone
    cases hnone

/-- A descriptor that is found while its owner stores nothing of its name and version: no remove mends
that. -/
theorem not_coherent_of_storesNone (requests : List (Nat × Nat)) {o q : ObjDescriptor} {k : Nat}
    (hfound : o ∈ dhtFindEntryAll (c.servers k).entSelf q) (hnone : StoresNone c o.owner o.name o.version)
    (hsize : 0 < (c.servers o.owner).ls.sizeHash) :
    ¬ Coherent S (requests.foldl (fun c r => step S c (.removeService r.1 r.2)) c) := by
  induction requests generalizing c with
  | nil =>
    intro hcoh
    obtain ⟨-, od, hfind, -⟩ := hcoh k q o hfound
    rw [foldl_nil, hnone.lsFind_eq_none hsize rfl rfl] at hfind
    cases hfind
  | cons r requests ih =>
    rw [foldl_cons]
    refine ih ?_ (hnone.removeService r.1 r.2) ?_
    · rw [step, dsgrpcRemoveService_entSelf]
      exact hfound
    · rw [step, dsgrpcRemoveService_sizeHash]
      exact hsize

/-- A remove that finds an object breaks the coherence of a state in which everything has arrived and no
earlier remove found an object, whatever requests the servers handle after it. -/
theorem remove_breaks_coherence (hi : ClusterInv S m h c) (hq : Settled c) (hp : FixedPlacement S h)
    (howned : ∀ x ∈ S.domain.box, ∃ k, S.ss.OwnsCell S.platform k x) {i : Nat}
    (hfinds : ¬ RemoveFindsNothing c (.removeService t i)) (requests : List (Nat × Nat)) :
    ¬ Coherent S (requests.foldl (fun c r => step S c (.removeService r.1 r.2))
      (step S c (.removeService t i))) := by
  have hf := hp.toFixedDecomposition
  simp only [RemoveFindsNothing, StoresNone, not_forall, Bool.not_eq_false] at hfinds
  obtain ⟨⟨name, version⟩, hmsg, j, hj, od, hod, hmatch⟩ := hfinds
  obtain ⟨rfl, rfl⟩ := removeMatches_iff.1 hmatch
  have hlatest := (hi.mem_objHash_iff hq hf t j od).1 hod
  have hbin : od.objDesc.version.toNat % m = j := by
    simpa using of_mem_filter (mem_of_latest hlatest)
  have hat : od ∈ putsAt h t := mem_of_mem_filter (mem_of_latest hlatest)
  have hput : od ∈ h := mem_of_mem_filter hat
  have howner : od.objDesc.owner = t := by simpa using of_mem_filter hat
  subst howner
  -- Some server has the descriptor in its table, before and after.
  obtain ⟨k, hk⟩ := howned _ ((hp.inside od hput).mem (hf.wf od hput).lb_mem)
  have hpeer : k ∈ S.peers od.objDesc.bb :=
    (S.mem_peers_iff ⟨od.objDesc.bb, hf.wf od hput, hp.inside od hput⟩ k).2
      ⟨_, (hf.wf od hput).lb_mem, hk.touches⟩
  rw [latest_inBin_putsAt hp hput] at hlatest
  have hdesc : od.objDesc ∈ (c.servers k).entSelf.odscHash j :=
    (mem_odscHash_iff hi hq hp).2 ⟨od, rfl, hpeer, hlatest⟩
  have hfound : od.objDesc ∈ dhtFindEntryAll
      ((step S c (.removeService od.objDesc.owner i)).servers k).entSelf od.objDesc := by
    rw [step, dsgrpcRemoveService_entSelf, mem_dhtFindEntryAll]
    obtain ⟨arrived, hent, -⟩ := hi.table_eq hq k
    refine ⟨?_, objDescEqualsIntersect_iff.2 ⟨rfl, rfl, ?_⟩⟩
    · rw [OdscTable.index, hent, dhtRun_odscSize, hbin, ← hent]
      exact hdesc
    · exact (bboxDoesIntersect_iff_exists_mem (hf.wf od hput) (hf.wf od hput) rfl).2
        ⟨_, (hf.wf od hput).lb_mem, (hf.wf od hput).lb_mem⟩
  refine not_coherent_of_storesNone requests hfound (storesNone_removeService hmsg) ?_
  rw [step, dsgrpcRemoveService_sizeHash]
  exact Nat.zero_lt_of_lt hj

end

/-- Directory and storage stay coherent along every safe run: whenever all transfers and messages have
arrived, every descriptor that is found leads to its object, and nothing is found of a version that was
removed and not put again. -/
theorem remove_keeps_coherent (S : SharedSpace) (m : Nat) (events : List Event) (hm : 0 < m)
    (hf : FixedDecomposition S (history events)) (hs : SafeRun S m events)
    (hq : Quiescent (run S m events)) : Coherent S (run S m events) ∧
      ∀ name version, RemovedNotReput events name version → NoDescriptor (run S m events) name version := by
  have hi := hs.clusterInv
  refine ⟨coherent_of_clusterInv hi hq.toSettled hf hs.versionsSet, ?_⟩
  intro name version hrem t q hname hver
  rw [eq_nil_iff_forall_not_mem]
  intro o ho
  obtain ⟨hmem, htest⟩ := mem_dhtFindEntryAll.1 ho
  obtain ⟨hname', hver', -⟩ := objDescEqualsIntersect_iff.1 htest
  -- The owner of a descriptor stores its object as the latest put.
  obtain ⟨od, rfl, -, hod⟩ :=
    exists_object_of_descriptor hi hq.toSettled hf hs.versionsSet hmem
  have hlatest := (hi.mem_objHash_iff hq.toSettled hf _ _ od).1 hod
  have hput : od ∈ history events :=
    mem_of_mem_filter (mem_of_mem_filter (mem_of_latest hlatest))
  have hmatch : removeMatches name version od = true :=
    removeMatches_iff.2 ⟨hver'.trans hver, hname'.trans hname⟩
  exact hrem.latest_ne hm hf hs (hf.owner_lt od hput) (hq.removes _) hmatch _ hlatest

/-! ## The line: a remove of a displaced version, and one of a stored version -/

/-- A remove request of a version of the variable, until both servers have handled it. -/
def lineRemove (version : UInt32) : List Event :=
  [.remove "temperature" version, .removeService 0 0, .removeService 1 0]

/-- With room for one version, version `2` displaces version `1`, which is removed afterwards. -/
theorem remove_keeps_coherent_displaced :
    let events := lineEvents (lineObj 1) ++ lineEvents (lineObj 2) ++ lineRemove 1
    Coherent lineSpace (run lineSpace 1 events) ∧
      ∀ name version, RemovedNotReput events name version →
        NoDescriptor (run lineSpace 1 events) name version := by
  intro events
  refine remove_keeps_coherent lineSpace 1 events (by decide) ?_ ?_ ?_
  · refine (fixedPlacement_line fun od hod => ?_).toFixedDecomposition
    have hhist : history events = [ownedBy 0 (lineObj 1), ownedBy 0 (lineObj 2)] := rfl
    rw [hhist, mem_cons, mem_singleton] at hod
    rcases hod with rfl | rfl
    · exact ⟨1, by decide, rfl⟩
    · exact ⟨2, by decide, rfl⟩
  · exact (by decide : Along lineSpace SafeStep (clusterAlloc 1) events)
  · exact ⟨⟨by rintro (_ | _) <;> rfl, by rintro (_ | _) (_ | _ | _) <;> rfl⟩, by rintro (_ | _ | _) <;> rfl⟩

/-- The first server of the line removes the stored version, then the second server handles the request. -/
theorem remove_breaks_coherence_line :
    let events := lineEvents (lineObj 1) ++ [.remove "temperature" 1]
    ¬ Coherent lineSpace (step lineSpace (step lineSpace (run lineSpace 1 events) (.removeService 0 0))
      (.removeService 1 0)) := by
  intro events
  have hsafe : SafeRun lineSpace 1 events := (by decide : Along lineSpace SafeStep (clusterAlloc 1) events)
  refine remove_breaks_coherence (t := 0) (i := 0) hsafe.clusterInv
    ⟨by rintro (_ | _) <;> rfl, by rintro (_ | _) (_ | _ | _) <;> rfl⟩
    (fixedPlacement_line fun _ hod => ⟨1, by decide, mem_singleton.1 hod⟩)
    lineSpace_owned (fun hnothing => ?_) [(1, 0)]
  exact absurd (hnothing ("temperature", 1) rfl 0 (by decide) _ mem_cons_self) (by decide)

/-- A remove of a stored version leaves its descriptor behind at both servers. -/
theorem remove_leaves_descriptor :
    let events := lineEvents (lineObj 1) ++ lineRemove 1
    FixedDecomposition lineSpace (history events) ∧ Quiescent (run lineSpace 1 events) ∧
      ¬ Coherent lineSpace (run lineSpace 1 events) ∧
      RemovedNotReput events "temperature" 1 ∧
      ¬ NoDescriptor (run lineSpace 1 events) "temperature" 1 := by
  intro events
  let c := run lineSpace 1 events
  -- The directory still answers with one descriptor, its owner has no object for it.
  have hfound : (dhtFindEntryAll (c.servers 0).entSelf (lineObj 1).objDesc).length = 1 := by decide
  have hgone : ∀ o ∈ dhtFindEntryAll (c.servers 0).entSelf (lineObj 1).objDesc,
      (lsFind (c.servers o.owner).ls o).isNone = true := by decide
  refine ⟨?_, ?_, fun hcoh => ?_, ?_, fun hnone => ?_⟩
  · exact (fixedPlacement_line fun _ hod =>
      ⟨1, by decide, mem_singleton.1 hod⟩).toFixedDecomposition
  · exact ⟨⟨by rintro (_ | _) <;> rfl, by rintro (_ | _) (_ | _ | _) <;> rfl⟩, by rintro (_ | _ | _) <;> rfl⟩
  · obtain ⟨o, ho⟩ := exists_mem_of_length_pos (hfound ▸ Nat.one_pos)
    obtain ⟨-, od, hod, -⟩ := hcoh 0 _ o ho
    have hnot := hgone o ho
    rw [hod] at hnot
    cases hnot
  · exact ⟨lineEvents (lineObj 1), [.removeService 0 0, .removeService 1 0], rfl, nofun⟩
  · rw [hnone 0 _ rfl rfl] at hfound
    cases hfound

end DataSpaces.Cluster
