import DataSpaces.Cluster.Servers

/-!
# Where the contents of the tables come from

Two facts about every run of a cluster, with or without removes. Whatever a server stores or has in its
descriptor table was put at some time (`fromHistory_run`). And no decision depends on the data of the
objects: if the data of all puts is replaced, the same run reaches the same state with the data replaced
(`run_mapObj`).
-/

namespace DataSpaces.Cluster

open Lib Geometry Space Store List Function

/-! ## Provenance -/

theorem mem_lsRemoveAll {ls : SsStorage} {name : String} {version : UInt32} {e : ObjData} {i : Nat}
    (h : e ∈ (lsRemoveAll ls name version).objHash i) : e ∈ ls.objHash i := by
  unfold lsRemoveAll at h
  generalize range ls.sizeHash = l at h
  induction l using reverseRecOn with
  | nil => exact h
  | append_singleton l j ih =>
    rw [foldl_append, foldl_cons, foldl_nil] at h
    apply ih
    simp only [lsRemoveFrom, update_apply] at h
    split at h
    · next hij => exact hij ▸ mem_of_mem_filter h
    · exact h

theorem mem_dhtAddEntry {de : OdscTable} {odsc o : ObjDescriptor} {i : Nat}
    (h : o ∈ (dhtAddEntry de odsc).odscHash i) : o = odsc ∨ o ∈ de.odscHash i := by
  rw [dhtAddEntry_odscHash] at h
  by_cases hi : i = de.index odsc.version
  · rw [hi, update_self] at h
    rw [hi]
    exact mem_dhtPlace h
  · rw [update_of_ne hi] at h
    exact Or.inr h

/-- Everything in a state was put. -/
structure FromHistory (h : List ObjData) (c : State) : Prop where
  store : ∀ s i, ∀ od ∈ (c.servers s).ls.objHash i, od ∈ h
  receiving : ∀ s, ∀ od ∈ c.receiving s, od ∈ h
  table : ∀ t i, ∀ o ∈ (c.servers t).entSelf.odscHash i, o ∈ h.map (·.objDesc)
  updates : ∀ s t, ∀ o ∈ c.updates s t, o.owner = s ∧ o ∈ h.map (·.objDesc)

namespace FromHistory

variable {S : SharedSpace} {h : List ObjData} {c : State} (hc : FromHistory h c)

include hc

theorem mono {h' : List ObjData} (hsub : ∀ od ∈ h, od ∈ h') : FromHistory h' c where
  store := fun s i od hod => hsub od (hc.store s i od hod)
  receiving := fun s od hod => hsub od (hc.receiving s od hod)
  table := fun t i o ho => map_subset _ hsub (hc.table t i o ho)
  updates := fun s t o ho => ⟨(hc.updates s t o ho).1, map_subset _ hsub (hc.updates s t o ho).2⟩

theorem put (s : Nat) (od : ObjData) : FromHistory (h ++ [ownedBy s od]) (dsgrpcObjPut S s od c) := by
  have hc' := hc.mono fun e (he : e ∈ h) => mem_append_left [ownedBy s od] he
  have hnew : ownedBy s od ∈ h ++ [ownedBy s od] := mem_append_right _ (mem_singleton_self _)
  -- Only the received objects, one directory table and the updates under way get anything new.
  refine ⟨fun a i e he => ?_, fun a e he => ?_, fun t i o ho => ?_, fun a t o ho => ?_⟩
  · rw [dsgrpcObjPut_servers] at he
    split at he
    · exact hc'.store a i e he
    · exact hc'.store a i e he
  · rw [dsgrpcObjPut_receiving, update_apply] at he
    split at he
    · rcases mem_append.1 he with he | he
      · exact hc'.receiving s e he
      · rw [mem_singleton.1 he]
        exact hnew
    · exact hc'.receiving a e he
  · rw [dsgrpcObjPut_servers] at ho
    split at ho
    · rcases mem_dhtAddEntry ho with rfl | ho
      · exact mem_map_of_mem hnew
      · exact hc'.table t i o ho
    · exact hc'.table t i o ho
  · rw [dsgrpcObjPut_updates] at ho
    split at ho
    · next hpeer =>
      rcases mem_append.1 ho with ho | ho
      · exact hc'.updates a t o ho
      · rw [mem_singleton.1 ho]
        exact ⟨hpeer.1.symm, mem_map_of_mem hnew⟩
    · exact hc'.updates a t o ho

theorem complete (s i : Nat) : FromHistory h (objPutCompletion s i c) := by
  cases hrec : (c.receiving s)[i]? with
  | none =>
    rw [objPutCompletion, hrec]
    exact hc
  | some od =>
    refine ⟨fun a j e he => ?_, fun a e he => ?_, fun t j o ho => ?_, fun a t o ho => ?_⟩
    · rw [objPutCompletion_ls hrec] at he
      split at he
      · rcases mem_lsAddObj he with ⟨rfl, -⟩ | he
        · exact hc.receiving s e (mem_of_getElem? hrec)
        · exact hc.store a j e he
      · exact hc.store a j e he
    · rw [objPutCompletion_receiving hrec] at he
      split at he
      · exact hc.receiving s e (mem_of_mem_eraseIdx he)
      · exact hc.receiving a e he
    · rw [objPutCompletion_entSelf] at ho
      exact hc.table t j o ho
    · rw [objPutCompletion_updates] at ho
      exact hc.updates a t o ho

theorem update (s t : Nat) : FromHistory h (dsgrpcObjUpdate s t c) := by
  cases hupd : c.updates s t with
  | nil =>
    rw [dsgrpcObjUpdate, hupd]
    exact hc
  | cons o rest =>
    have ho : ∀ e ∈ o :: rest, e.owner = s ∧ e ∈ h.map (·.objDesc) := fun e he => hc.updates s t e (hupd ▸ he)
    refine ⟨fun a i e he => ?_, fun a e he => ?_, fun u i e he => ?_, fun a u e he => ?_⟩
    · rw [dsgrpcObjUpdate_ls] at he
      exact hc.store a i e he
    · rw [dsgrpcObjUpdate_receiving] at he
      exact hc.receiving a e he
    · rw [dsgrpcObjUpdate_entSelf hupd] at he
      split at he
      · rcases mem_dhtAddEntry he with rfl | he
        · -- The sender is the owner already.
          obtain ⟨hown, hmem⟩ := ho o mem_cons_self
          rw [← hown]
          exact hmem
        · exact hc.table u i e he
      · exact hc.table u i e he
    · rw [dsgrpcObjUpdate_updates hupd] at he
      split at he
      · next heq =>
        rw [heq.1]
        exact ho e (mem_cons_of_mem o he)
      · exact hc.updates a u e he

theorem removeService (t i : Nat) : FromHistory h (dsgrpcRemoveService t i c) := by
  unfold dsgrpcRemoveService
  split
  · exact hc
  · refine ⟨fun a j e he => ?_, hc.receiving, fun u j o ho => ?_, hc.updates⟩
    · simp only [update_apply] at he
      split at he
      · exact hc.store t j e (mem_lsRemoveAll he)
      · exact hc.store a j e he
    · simp only [update_apply] at ho
      split at ho
      · exact hc.table t j o ho
      · exact hc.table u j o ho

end FromHistory

theorem fromHistory_run (S : SharedSpace) (m : Nat) (events : List Event) :
    FromHistory (history events) (run S m events) := by
  induction events using reverseRecOn with
  | nil => exact ⟨fun _ _ _ h => (not_mem_nil h).elim, fun _ _ h => (not_mem_nil h).elim,
      fun _ _ _ h => (not_mem_nil h).elim, fun _ _ _ h => (not_mem_nil h).elim⟩
  | append_singleton events ev ih =>
    rw [run_append_singleton, history_append_singleton]
    cases ev with
    | put s od => exact ih.put s od
    | complete s i =>
      rw [Event.puts, append_nil]
      exact ih.complete s i
    | update s t =>
      rw [Event.puts, append_nil]
      exact ih.update s t
    | remove name version =>
      rw [Event.puts, append_nil]
      exact ⟨ih.store, ih.receiving, ih.table, ih.updates⟩
    | removeService t i =>
      rw [Event.puts, append_nil]
      exact ih.removeService t i

/-! ## Replacing the data -/

section

/-- A map of objects that changes the data only. -/
structure ChangesData (f : ObjData → ObjData) : Prop where
  objDesc : ∀ od, (f od).objDesc = od.objDesc
  refcnt : ∀ od, (f od).refcnt = od.refcnt

def lsMapObj (f : ObjData → ObjData) (ls : SsStorage) : SsStorage :=
  { ls with objHash := fun i => (ls.objHash i).map f }

def State.mapObj (f : ObjData → ObjData) (c : State) : State where
  servers := fun s => { c.servers s with ls := lsMapObj f (c.servers s).ls }
  receiving := fun s => (c.receiving s).map f
  updates := c.updates
  removes := c.removes

/-- A put of other data. -/
def Event.mapObj (f : ObjData → ObjData) : Event → Event
  | .put s od => .put s (f (ownedBy s od))
  | ev => ev

variable {f : ObjData → ObjData} (hf : ChangesData f)

theorem map_update (f : ObjData → ObjData) (g : Nat → List ObjData) (n : Nat) (l : List ObjData) :
    (fun i => (Function.update g n l i).map f) = Function.update (fun i => (g i).map f) n (l.map f) := by
  funext i
  rw [update_apply, update_apply]
  split
  · rfl
  · rfl

include hf

section

variable (ls : SsStorage)

variable (odsc : ObjDescriptor)

theorem lsFindNoVersion_mapObj :
    lsFindNoVersion (lsMapObj f ls) odsc = (lsFindNoVersion ls odsc).map f := by
  unfold lsFindNoVersion
  simp only [lsMapObj, SsStorage.index, find?_map, comp_def, hf.objDesc]

theorem lsFind_mapObj : lsFind (lsMapObj f ls) odsc = (lsFind ls odsc).map f := by
  unfold lsFind
  simp only [lsMapObj, SsStorage.index, find?_map, comp_def, hf.objDesc]

theorem lsRemoveNoVersion_mapObj :
    lsRemoveNoVersion (lsMapObj f ls) odsc = lsMapObj f (lsRemoveNoVersion ls odsc) := by
  simp only [lsRemoveNoVersion, lsMapObj, SsStorage.index, map_update, eraseP_map, comp_def, hf.objDesc]

theorem lsAddObj_mapObj (od : ObjData) : lsAddObj (lsMapObj f ls) (f od) = lsMapObj f (lsAddObj ls od) := by
  -- Adding at the head of a bin, which both branches of `lsAddObj` end with.
  have hadd : ∀ ls : SsStorage,
      ({ lsMapObj f ls with
          numObj := (lsMapObj f ls).numObj + 1
          objHash := Function.update (lsMapObj f ls).objHash ((lsMapObj f ls).index od.objDesc.version)
            (f od :: (lsMapObj f ls).objHash ((lsMapObj f ls).index od.objDesc.version)) } : SsStorage) =
        lsMapObj f { ls with
          numObj := ls.numObj + 1
          objHash := Function.update ls.objHash (ls.index od.objDesc.version)
            (od :: ls.objHash (ls.index od.objDesc.version)) } := by
    intro ls
    simp only [lsMapObj, SsStorage.index, map_update, map_cons]
  unfold lsAddObj
  rw [hf.objDesc, lsFindNoVersion_mapObj hf]
  -- Contents play no role in the search, so both stores take the same branch.
  cases lsFindNoVersion ls od.objDesc with
  | none => exact hadd ls
  | some e =>
    simp only [Option.map_some, hf.refcnt]
    split
    · rw [lsRemoveNoVersion_mapObj hf]
      exact hadd _
    · exact hadd ls

theorem lsRemoveAll_mapObj (name : String) (version : UInt32) :
    lsRemoveAll (lsMapObj f ls) name version = lsMapObj f (lsRemoveAll ls name version) := by
  have hround : ∀ ls i, lsRemoveFrom name version (lsMapObj f ls) i =
      lsMapObj f (lsRemoveFrom name version ls i) := by
    intro ls i
    simp only [lsRemoveFrom, lsMapObj, map_update, filter_map, length_map,
      comp_def, removeMatches, hf.objDesc]
  unfold lsRemoveAll
  show (range ls.sizeHash).foldl (lsRemoveFrom name version) (lsMapObj f ls) = _
  induction range ls.sizeHash using reverseRecOn with
  | nil => rfl
  | append_singleton l i ih => rw [foldl_append, foldl_append, ih]; exact hround _ i

end

omit hf in
theorem mapObj_update (c : State) (t : Nat) (srv : DsServer) (receiving : Nat → List ObjData)
    (updates : Nat → Nat → List ObjDescriptor) (removes : Nat → List (String × UInt32)) :
    State.mapObj f ⟨Function.update c.servers t srv, receiving, updates, removes⟩ =
      ⟨Function.update (c.mapObj f).servers t { srv with ls := lsMapObj f srv.ls },
        fun s => (receiving s).map f, updates, removes⟩ := by
  have hservers : (fun s => { Function.update c.servers t srv s with
        ls := lsMapObj f (Function.update c.servers t srv s).ls }) =
      Function.update (c.mapObj f).servers t { srv with ls := lsMapObj f srv.ls } := by
    funext s
    rw [update_apply, update_apply]
    split
    · rfl
    · rfl
  rw [← hservers]
  rfl

omit hf in
theorem objPutUpdateDht_mapObj (S : SharedSpace) (s : Nat) (odsc : ObjDescriptor) (c : State) :
    objPutUpdateDht S s odsc (c.mapObj f) = (objPutUpdateDht S s odsc c).mapObj f := by
  unfold objPutUpdateDht
  induction S.peers odsc.bb using reverseRecOn with
  | nil => rfl
  | append_singleton l t ih =>
    rw [foldl_append, foldl_append, ih]
    simp only [foldl_cons, foldl_nil]
    split
    · rw [State.addEntrySelf, State.addEntrySelf, mapObj_update]
      rfl
    · rfl

omit hf in
theorem ownedBy_of_owner_eq {s : Nat} {od : ObjData} (h : od.objDesc.owner = s) : ownedBy s od = od := by
  subst h
  rfl

theorem dsgrpcObjPut_mapObj (S : SharedSpace) (s : Nat) (od : ObjData) (c : State) :
    dsgrpcObjPut S s (f (ownedBy s od)) (c.mapObj f) = (dsgrpcObjPut S s od c).mapObj f := by
  have hown : ownedBy s (f (ownedBy s od)) = f (ownedBy s od) := ownedBy_of_owner_eq (by rw [hf.objDesc]; rfl)
  rw [dsgrpcObjPut, dsgrpcObjPut, ← objPutUpdateDht_mapObj, hown, hf.objDesc]
  simp only [State.mapObj, map_update, map_append, map_cons, map_nil]

theorem objPutCompletion_mapObj (s i : Nat) (c : State) :
    objPutCompletion s i (c.mapObj f) = (objPutCompletion s i c).mapObj f := by
  have hrec : (c.mapObj f).receiving s = (c.receiving s).map f := rfl
  rw [objPutCompletion, objPutCompletion, hrec, getElem?_map]
  cases (c.receiving s)[i]? with
  | none => rfl
  | some od =>
    simp only [Option.map_some, eraseIdx_map]
    rw [mapObj_update, map_update, ← lsAddObj_mapObj hf]
    rfl

omit hf in
theorem dsgrpcObjUpdate_mapObj (s t : Nat) (c : State) :
    dsgrpcObjUpdate s t (c.mapObj f) = (dsgrpcObjUpdate s t c).mapObj f := by
  have hupd : (c.mapObj f).updates s t = c.updates s t := rfl
  rw [dsgrpcObjUpdate, dsgrpcObjUpdate, hupd]
  cases c.updates s t with
  | nil => rfl
  | cons o rest =>
    simp only [State.addEntrySelf]
    rw [mapObj_update]
    rfl

theorem dsgrpcRemoveService_mapObj (t i : Nat) (c : State) :
    dsgrpcRemoveService t i (c.mapObj f) = (dsgrpcRemoveService t i c).mapObj f := by
  have hrem : (c.mapObj f).removes t = c.removes t := rfl
  rw [dsgrpcRemoveService, dsgrpcRemoveService, hrem]
  cases (c.removes t)[i]? with
  | none => rfl
  | some request =>
    simp only
    rw [mapObj_update, ← lsRemoveAll_mapObj hf]
    rfl

theorem step_mapObj (S : SharedSpace) (c : State) (ev : Event) :
    step S (c.mapObj f) (ev.mapObj f) = (step S c ev).mapObj f := by
  cases ev with
  | put s od => exact dsgrpcObjPut_mapObj hf S s od c
  | complete s i => exact objPutCompletion_mapObj hf s i c
  | update s t => exact dsgrpcObjUpdate_mapObj s t c
  | remove name version => rfl
  | removeService t i => exact dsgrpcRemoveService_mapObj hf t i c

theorem FromHistory.mapObj {h : List ObjData} {c : State} (hc : FromHistory h c) :
    FromHistory (h.map f) (c.mapObj f) := by
  have hdesc : (h.map f).map (·.objDesc) = h.map (·.objDesc) := by
    rw [map_map]
    exact map_congr_left fun od _ => hf.objDesc od
  refine ⟨fun s i od hod => ?_, fun s od hod => ?_, ?_, ?_⟩
  · obtain ⟨od₀, hod₀, rfl⟩ := mem_map.1 hod
    exact mem_map_of_mem (hc.store s i od₀ hod₀)
  · obtain ⟨od₀, hod₀, rfl⟩ := mem_map.1 hod
    exact mem_map_of_mem (hc.receiving s od₀ hod₀)
  · rw [hdesc]
    exact hc.table
  · rw [hdesc]
    exact hc.updates

/-- A run with other data reaches the same state, with the other data. -/
theorem run_mapObj (S : SharedSpace) (m : Nat) (events : List Event) :
    run S m (events.map (Event.mapObj f)) = (run S m events).mapObj f := by
  induction events using reverseRecOn with
  | nil => rfl
  | append_singleton events ev ih =>
    rw [map_append, map_singleton, run_append_singleton, run_append_singleton, ih]
    exact step_mapObj hf S _ ev

end

end DataSpaces.Cluster
