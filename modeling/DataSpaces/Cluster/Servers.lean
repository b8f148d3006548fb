import DataSpaces.Space.HashCache
import DataSpaces.Store.Retention

/-!
# A cluster of servers

The servers of a shared space as a state machine. A put reaches one server, which posts the transfer
of the data, records the descriptor in its own DHT entry if `ssd_hash` selects it, and sends an
`ss_obj_update` message to every other selected entry. The transfer completes later, and messages
arrive later; the messages between two servers arrive in order, but the transfers to one server complete in
any order. A remove request is a message to every server.

`ClusterInv` says what a server holds in terms of the history of puts: its store is a run over the
completed puts to it, and its descriptor table is a run over an interleaving of what the servers sent to
it. The invariant holds along every run in which no remove finds an object and the transfers of one name, box
and version bin complete in the order of their puts (`clusterInv_run`).
-/

namespace DataSpaces.Cluster

open Lib Geometry Space Store List Function

/-! ## The shared space -/

/-- A shared space as `ssd_alloc` returned it. -/
structure SharedSpace where
  platform : Platform
  domain : Domain
  ss : Sspace
  spaceOf : SpaceOf platform domain ss

namespace SharedSpace

variable (S : SharedSpace)

/-- The ranks of the entries that `ssd_hash` selects for a box. There is one space, so the cache of
`ssd_hash` is invisible. -/
def peers (bb : Bbox) : List Nat :=
  ((ssdHashFresh S.platform S.ss bb).getD []).filterMap fun k => (S.ss.entTab[k]?).map DhtEntry.rank

/-- The number of servers. -/
def numSp : Nat := S.ss.entTab.length

theorem peers_eq_filter (bb : Bbox) : S.peers bb =
      ((ssdHashFresh S.platform S.ss bb).getD []).filter fun k => (S.ss.entTab[k]?).isSome := by
  unfold peers
  induction (ssdHashFresh S.platform S.ss bb).getD [] with
  | nil => rfl
  | cons k l ih =>
    cases hk : S.ss.entTab[k]? with
    | none => simp [hk, ih]
    | some e => simp [hk, ih, S.spaceOf.rank_eq hk]

theorem peers_nodup (bb : Bbox) : (S.peers bb).Nodup := by
  rw [peers_eq_filter]
  apply Nodup.filter
  cases h : ssdHashFresh S.platform S.ss bb with
  | none => exact nodup_nil
  | some l => exact (ssdHashFresh_pairwise h).imp Nat.ne_of_lt

theorem peers_congr {b c : Bbox} (h : bboxEquals b c = true) : S.peers b = S.peers c := by
  unfold peers
  rw [ssdHashFresh_congr h]

theorem mem_peers_iff (b : DomainBox S.domain) (t : Nat) :
    t ∈ S.peers b.box ↔ ∃ x ∈ b.box, S.ss.TouchesCell S.platform t x := by
  obtain ⟨l, hl, hmem⟩ := mem_ssdHashFresh_iff S.spaceOf b
  rw [peers_eq_filter, hl, Option.getD_some, mem_filter, hmem, and_iff_left_iff_imp]
  -- A selected position is one of the table.
  rintro ⟨x, -, htouch⟩
  have hentry : ∃ e, S.ss.entTab[t]? = some e := by
    unfold Sspace.TouchesCell at htouch
    split at htouch
    · obtain ⟨e, he, -⟩ := htouch
      exact ⟨e, he⟩
    · obtain ⟨e, he, -⟩ := htouch
      exact ⟨e, he⟩
  obtain ⟨e, he⟩ := hentry
  rw [he]
  rfl

end SharedSpace

/-! ## States and events -/

/-- The state of the servers and of the messages between them. -/
structure State where
  servers : Nat → DsServer
  /-- transfers that `dsgrpc_obj_put` posted at a server -/
  receiving : Nat → List ObjData
  /-- `ss_obj_update` messages from one server to another -/
  updates : Nat → Nat → List ObjDescriptor
  /-- `cp_remove` messages to a server -/
  removes : Nat → List (String × UInt32)

def clusterAlloc (maxVersions : Nat) : State :=
  ⟨fun _ => dsServerAlloc maxVersions, fun _ => [], fun _ _ => [], fun _ => []⟩

inductive Event where
  | put (server : Nat) (od : ObjData)
  | complete (server i : Nat)
  | update (src dst : Nat)
  | remove (name : String) (version : UInt32)
  | removeService (server i : Nat)

/-- `dht_add_entry` on `ssd->ent_self` of a server. -/
def State.addEntrySelf (c : State) (t : Nat) (odsc : ObjDescriptor) : State :=
  { c with
    servers := Function.update c.servers t
      { c.servers t with entSelf := dhtAddEntry (c.servers t).entSelf odsc } }

/-- Send an `ss_obj_update` message. -/
def State.sendUpdate (c : State) (s t : Nat) (odsc : ObjDescriptor) : State :=
  { c with
    updates := Function.update c.updates s
      (Function.update (c.updates s) t (c.updates s t ++ [odsc])) }

/-- Update the descriptor tables at the entries of `ssd_hash`. For a box that no entry is selected for, the
source goes on with an entry that it never set; here nothing is updated. -/
def objPutUpdateDht (S : SharedSpace) (s : Nat) (odsc : ObjDescriptor) (c : State) : State :=
  (S.peers odsc.bb).foldl
    (fun c t => if t = s then c.addEntrySelf s odsc else c.sendUpdate s t odsc) c

/-- The object with its owner set to the server that handles the put. -/
def ownedBy (s : Nat) (od : ObjData) : ObjData := { od with objDesc := { od.objDesc with owner := s } }

/-- A put request at server `s`: post the transfer, then update the directory. -/
def dsgrpcObjPut (S : SharedSpace) (s : Nat) (od : ObjData) (c : State) : State :=
  objPutUpdateDht S s (ownedBy s od).objDesc
    { c with receiving := Function.update c.receiving s (c.receiving s ++ [ownedBy s od]) }

/-- One of the transfers at server `s` completes. The transports complete them in any order. -/
def objPutCompletion (s i : Nat) (c : State) : State :=
  match (c.receiving s)[i]? with
  | none => c
  | some od =>
    { c with
      servers := Function.update c.servers s
        { c.servers s with ls := lsAddObj (c.servers s).ls od }
      receiving := Function.update c.receiving s ((c.receiving s).eraseIdx i) }

/-- Server `t` handles the oldest update message from `s`. -/
def dsgrpcObjUpdate (s t : Nat) (c : State) : State :=
  match c.updates s t with
  | [] => c
  | odsc :: rest =>
    State.addEntrySelf
      { c with updates := Function.update c.updates s (Function.update (c.updates s) t rest) }
      t { odsc with owner := s }

/-- A client sends a remove request to every server. -/
def dcgRemove (S : SharedSpace) (name : String) (version : UInt32) (c : State) : State :=
  { c with removes := fun t => if t < S.numSp then c.removes t ++ [(name, version)] else c.removes t }

/-- Server `t` handles one of the remove requests that it was sent. -/
def dsgrpcRemoveService (t i : Nat) (c : State) : State :=
  match (c.removes t)[i]? with
  | none => c
  | some (name, version) =>
    { c with
      servers := Function.update c.servers t
        { c.servers t with ls := lsRemoveAll (c.servers t).ls name version }
      removes := Function.update c.removes t ((c.removes t).eraseIdx i) }

def step (S : SharedSpace) (c : State) : Event → State
  | .put s od => dsgrpcObjPut S s od c
  | .complete s i => objPutCompletion s i c
  | .update s t => dsgrpcObjUpdate s t c
  | .remove name version => dcgRemove S name version c
  | .removeService t i => dsgrpcRemoveService t i c

def run (S : SharedSpace) (maxVersions : Nat) (events : List Event) : State :=
  events.foldl (step S) (clusterAlloc maxVersions)

/-- The objects put by an event, with their owners. -/
def Event.puts : Event → List ObjData
  | .put s od => [ownedBy s od]
  | .complete _ _ | .update _ _ | .remove _ _ | .removeService _ _ => []

/-- The objects put during a run, in the order in which the servers handled them. -/
def history (events : List Event) : List ObjData := events.flatMap Event.puts

/-- No transfer and no update message is under way. -/
structure Settled (c : State) : Prop where
  receiving : ∀ s, c.receiving s = []
  updates : ∀ s t, c.updates s t = []

/-- No transfer and no message at all is under way. -/
structure Quiescent (c : State) : Prop extends Settled c where
  removes : ∀ t, c.removes t = []

theorem run_append (S : SharedSpace) (m : Nat) (a b : List Event) :
    run S m (a ++ b) = b.foldl (step S) (run S m a) := foldl_append

theorem run_append_singleton (S : SharedSpace) (m : Nat) (events : List Event) (ev : Event) :
    run S m (events ++ [ev]) = step S (run S m events) ev := run_append S m events [ev]

theorem history_append_singleton (events : List Event) (ev : Event) :
    history (events ++ [ev]) = history events ++ ev.puts := by
  simp [history]

/-! ## What a put does -/

/-- The effect of the loop over the selected entries; an entry occurs at most once. -/
theorem foldl_updateDht (s : Nat) (odsc : ObjDescriptor) :
    ∀ (l : List Nat), l.Nodup → ∀ c : State,
      let c' := l.foldl (fun c t => if t = s then c.addEntrySelf s odsc else c.sendUpdate s t odsc) c
      (∀ t, c'.servers t = if t = s ∧ t ∈ l then
          { c.servers t with entSelf := dhtAddEntry (c.servers t).entSelf odsc }
        else c.servers t) ∧
      (∀ a t, c'.updates a t =
        if a = s ∧ t ≠ s ∧ t ∈ l then c.updates a t ++ [odsc] else c.updates a t) ∧
      c'.receiving = c.receiving ∧ c'.removes = c.removes := by
  intro l
  -- By induction on the peers: the sender stores the descriptor itself, all others get a message.
  induction l with
  | nil => intro _ c; simp
  | cons u l ih =>
    intro hnd c
    obtain ⟨hu, hnd⟩ := nodup_cons.1 hnd
    rw [foldl_cons]
    by_cases hus : u = s
    · subst hus
      rw [if_pos rfl]
      obtain ⟨hsrv, hupd, hrec, hrem⟩ := ih hnd (c.addEntrySelf u odsc)
      refine ⟨fun t => ?_, fun a t => ?_, hrec, hrem⟩
      · rw [hsrv, State.addEntrySelf]
        by_cases ht : t = u
        · subst ht
          simp [hu]
        · simp [ht]
      · rw [hupd, State.addEntrySelf]
        by_cases ht : t = u <;> simp [ht]
    · rw [if_neg hus]
      obtain ⟨hsrv, hupd, hrec, hrem⟩ := ih hnd (c.sendUpdate s u odsc)
      refine ⟨fun t => ?_, fun a t => ?_, hrec, hrem⟩
      · rw [hsrv, State.sendUpdate]
        by_cases ht : t = s
        · subst ht
          simp [Ne.symm hus]
        · simp [ht]
      · rw [hupd, State.sendUpdate]
        by_cases ha : a = s
        · subst ha
          by_cases ht : t = u
          · subst ht
            simp [hu, hus]
          · simp [ht]
        · simp [ha]

section

variable (S : SharedSpace) (s : Nat) (od : ObjData) (c : State)

theorem dsgrpcObjPut_servers (t : Nat) :
    (dsgrpcObjPut S s od c).servers t = if t = s ∧ t ∈ S.peers od.objDesc.bb then
        { c.servers t with entSelf := dhtAddEntry (c.servers t).entSelf (ownedBy s od).objDesc }
      else c.servers t :=
  (foldl_updateDht s (ownedBy s od).objDesc _ (S.peers_nodup _) _).1 t

theorem dsgrpcObjPut_updates (a t : Nat) : (dsgrpcObjPut S s od c).updates a t =
      if a = s ∧ t ≠ s ∧ t ∈ S.peers od.objDesc.bb then c.updates a t ++ [(ownedBy s od).objDesc]
      else c.updates a t :=
  (foldl_updateDht s (ownedBy s od).objDesc _ (S.peers_nodup _) _).2.1 a t

theorem dsgrpcObjPut_receiving : (dsgrpcObjPut S s od c).receiving =
      Function.update c.receiving s (c.receiving s ++ [ownedBy s od]) :=
  (foldl_updateDht s (ownedBy s od).objDesc _ (S.peers_nodup _) _).2.2.1

theorem dsgrpcObjPut_removes : (dsgrpcObjPut S s od c).removes = c.removes :=
  (foldl_updateDht s (ownedBy s od).objDesc _ (S.peers_nodup _) _).2.2.2

end

@[simp] theorem ownedBy_owner (s : Nat) (od : ObjData) : (ownedBy s od).objDesc.owner = s := rfl

@[simp] theorem ownedBy_bb (s : Nat) (od : ObjData) : (ownedBy s od).objDesc.bb = od.objDesc.bb := rfl

section

variable {s i : Nat} {c : State} {od : ObjData}

theorem objPutCompletion_entSelf (a : Nat) :
    ((objPutCompletion s i c).servers a).entSelf = (c.servers a).entSelf := by
  unfold objPutCompletion
  split
  · rfl
  · by_cases ha : a = s
    · subst ha
      simp
    · simp [ha]

theorem objPutCompletion_updates : (objPutCompletion s i c).updates = c.updates := by
  unfold objPutCompletion
  split <;> rfl

theorem objPutCompletion_removes : (objPutCompletion s i c).removes = c.removes := by
  unfold objPutCompletion
  split <;> rfl

theorem objPutCompletion_ls (h : (c.receiving s)[i]? = some od) (a : Nat) :
    ((objPutCompletion s i c).servers a).ls =
      if a = s then lsAddObj (c.servers a).ls od else (c.servers a).ls := by
  rw [objPutCompletion, h]
  by_cases ha : a = s
  · subst ha
    simp
  · simp [ha]

theorem objPutCompletion_receiving (h : (c.receiving s)[i]? = some od) (a : Nat) :
    (objPutCompletion s i c).receiving a = if a = s then (c.receiving s).eraseIdx i else c.receiving a := by
  rw [objPutCompletion, h]
  exact update_apply _ _ _ _

end

section

variable {s t : Nat} {c : State} {o : ObjDescriptor} {rest : List ObjDescriptor}

theorem dsgrpcObjUpdate_ls (a : Nat) : ((dsgrpcObjUpdate s t c).servers a).ls = (c.servers a).ls := by
  unfold dsgrpcObjUpdate
  split
  · rfl
  · by_cases ha : a = t
    · subst ha
      simp [State.addEntrySelf]
    · simp [State.addEntrySelf, ha]

theorem dsgrpcObjUpdate_receiving : (dsgrpcObjUpdate s t c).receiving = c.receiving := by
  unfold dsgrpcObjUpdate
  split <;> rfl

theorem dsgrpcObjUpdate_removes : (dsgrpcObjUpdate s t c).removes = c.removes := by
  unfold dsgrpcObjUpdate
  split <;> rfl

theorem dsgrpcObjUpdate_entSelf (h : c.updates s t = o :: rest) (a : Nat) :
    ((dsgrpcObjUpdate s t c).servers a).entSelf =
      if a = t then dhtAddEntry (c.servers a).entSelf { o with owner := s }
      else (c.servers a).entSelf := by
  rw [dsgrpcObjUpdate, h]
  by_cases ha : a = t
  · subst ha
    simp [State.addEntrySelf]
  · simp [State.addEntrySelf, ha]

theorem dsgrpcObjUpdate_updates (h : c.updates s t = o :: rest) (a u : Nat) :
    (dsgrpcObjUpdate s t c).updates a u = if a = s ∧ u = t then rest else c.updates a u := by
  rw [dsgrpcObjUpdate, h]
  by_cases ha : a = s
  · subst ha
    simp [State.addEntrySelf, update_apply]
  · simp [State.addEntrySelf, ha]

end

/-! ## The invariant -/

/-- The puts that server `s` handled. -/
def putsAt (h : List ObjData) (s : Nat) : List ObjData := h.filter fun od => od.objDesc.owner = s

/-- The descriptors that server `s` recorded at, or sent to, server `t`. -/
def sent (S : SharedSpace) (h : List ObjData) (s t : Nat) : List ObjDescriptor :=
  ((putsAt h s).filter fun od => t ∈ S.peers od.objDesc.bb).map (·.objDesc)

/-- The name and the box of an object. -/
def objKey (od : ObjData) : String × List (Nat × Nat) := slotKey od.objDesc

/-- The puts of version bin `i`. -/
def inBin (m i : Nat) (h : List ObjData) : List ObjData :=
  h.filter fun od => od.objDesc.version.toNat % m = i

/-- The puts of one name, box and version bin, in their order. -/
def slotPuts (m i : Nat) (k : String × List (Nat × Nat)) (h : List ObjData) : List ObjData :=
  (inBin m i h).filter fun od => objKey od = k

/-- What the servers hold after a history of puts. -/
structure ClusterInv (S : SharedSpace) (m : Nat) (h : List ObjData) (c : State) : Prop where
  /-- The store of a server is a run over its completed puts; the others are being received. Of one name, box
  and version bin the earlier ones are completed. -/
  store : ∀ s, ∃ done, (c.servers s).ls = lsRun m done ∧
    ∀ i k, slotPuts m i k (putsAt h s) = slotPuts m i k (done ++ c.receiving s)
  /-- The descriptor table of a server is a run over an interleaving of what arrived from each of the
  servers; the rest is under way. -/
  table : ∀ t, ∃ arrived, (c.servers t).entSelf = dhtRun m arrived ∧
    ∀ s, sent S h s t = (arrived.filter fun o => o.owner = s) ++ c.updates s t
  /-- A server sends no message to itself. -/
  no_self : ∀ t, c.updates t t = []

theorem putsAt_append_singleton (h : List ObjData) (od : ObjData) (s : Nat) :
    putsAt (h ++ [od]) s = if od.objDesc.owner = s then putsAt h s ++ [od] else putsAt h s := by
  unfold putsAt
  rw [filter_append]
  by_cases hs : od.objDesc.owner = s <;> simp [hs]

theorem sent_append_singleton (S : SharedSpace) (h : List ObjData) (od : ObjData) (s t : Nat) :
    sent S (h ++ [od]) s t =
      if od.objDesc.owner = s ∧ t ∈ S.peers od.objDesc.bb then sent S h s t ++ [od.objDesc]
      else sent S h s t := by
  unfold sent
  rw [putsAt_append_singleton]
  by_cases hs : od.objDesc.owner = s
  · rw [if_pos hs, filter_append]
    by_cases ht : t ∈ S.peers od.objDesc.bb <;> simp [hs, ht]
  · simp [hs]

theorem owner_of_mem_sent {S : SharedSpace} {h : List ObjData} {s t : Nat} {o : ObjDescriptor}
    (ho : o ∈ sent S h s t) : o.owner = s := by
  obtain ⟨od, hod, rfl⟩ := mem_map.1 ho
  simpa using of_mem_filter (mem_of_mem_filter hod)

/-- The store of a server has no object of the name and version. -/
def StoresNone (c : State) (t : Nat) (name : String) (version : UInt32) : Prop :=
  ∀ j < (c.servers t).ls.sizeHash, ∀ od ∈ (c.servers t).ls.objHash j, removeMatches name version od = false

/-- A remove that is handled finds no object of its name and version. -/
def RemoveFindsNothing (c : State) : Event → Prop
  | .removeService t i => ∀ request ∈ (c.removes t)[i]?, StoresNone c t request.1 request.2
  | _ => True

/-- A transfer completes after the earlier ones of its name, box and version bin. -/
def CompletesInOrder (c : State) : Event → Prop
  | .complete s i => ∀ od ∈ (c.receiving s)[i]?, ∀ od' ∈ (c.receiving s).take i, objKey od' = objKey od →
      (c.servers s).ls.index od'.objDesc.version ≠ (c.servers s).ls.index od.objDesc.version
  | _ => True

instance (c : State) (ev : Event) : Decidable (CompletesInOrder c ev) :=
  match ev with
  | .complete s i => inferInstanceAs (Decidable (∀ od ∈ (c.receiving s)[i]?, ∀ od' ∈ (c.receiving s).take i,
      objKey od' = objKey od → _ ≠ _))
  | .put _ _ | .update _ _ | .remove _ _ | .removeService _ _ => isTrue trivial

theorem slotPuts_append (m i : Nat) (k : String × List (Nat × Nat)) (h h' : List ObjData) :
    slotPuts m i k (h ++ h') = slotPuts m i k h ++ slotPuts m i k h' := by
  rw [slotPuts, inBin, filter_append, filter_append]
  rfl

theorem mem_slotPuts {m i : Nat} {k : String × List (Nat × Nat)} {h : List ObjData} {od : ObjData} :
    od ∈ slotPuts m i k h ↔ od ∈ h ∧ od.objDesc.version.toNat % m = i ∧ objKey od = k := by
  simp only [slotPuts, inBin, mem_filter, decide_eq_true_eq, and_assoc]

/-- Taking an item to the front changes no slot in which it is the first one. -/
theorem slotPuts_cons_eraseIdx {m j : Nat} {l : List ObjData} {od : ObjData} (hod : l[j]? = some od)
    (hfirst : ∀ od' ∈ l.take j, objKey od' = objKey od →
      od'.objDesc.version.toNat % m ≠ od.objDesc.version.toNat % m) (i : Nat)
    (k : String × List (Nat × Nat)) : slotPuts m i k (od :: l.eraseIdx j) = slotPuts m i k l := by
  obtain ⟨hlt, rfl⟩ := List.getElem?_eq_some_iff.1 hod
  have hsplit : l = l.take j ++ ([l[j]] ++ l.drop (j + 1)) := by
    rw [singleton_append, ← drop_eq_getElem_cons hlt, take_append_drop]
  rw [eraseIdx_eq_take_drop_succ, ← singleton_append]
  conv_rhs => rw [hsplit]
  simp only [slotPuts_append, ← append_assoc]
  congr 1
  -- Either the item is not in the slot, or nothing before it is.
  by_cases hslot : l[j].objDesc.version.toNat % m = i ∧ objKey l[j] = k
  · have hnone : slotPuts m i k (l.take j) = [] := by
      refine eq_nil_iff_forall_not_mem.2 fun od' hod' => ?_
      obtain ⟨hmem, hbin, hkey⟩ := mem_slotPuts.1 hod'
      exact hfirst od' hmem (hkey.trans hslot.2.symm) (hbin.trans hslot.1.symm)
    rw [hnone, append_nil, nil_append]
  · have hnone : slotPuts m i k [l[j]] = [] := by
      refine eq_nil_iff_forall_not_mem.2 fun od' hod' => hslot ?_
      obtain ⟨hmem, hboth⟩ := mem_slotPuts.1 hod'
      rwa [mem_singleton.1 hmem] at hboth
    rw [hnone, append_nil, nil_append]

namespace ClusterInv

variable {S : SharedSpace} {m : Nat} {h : List ObjData} {c : State}

theorem alloc : ClusterInv S m [] (clusterAlloc m) where
  store := fun _ => ⟨[], rfl, fun _ _ => rfl⟩
  table := fun _ => ⟨[], rfl, fun _ => rfl⟩
  no_self := fun _ => rfl

theorem put (hi : ClusterInv S m h c) (s : Nat) (od : ObjData) :
    ClusterInv S m (h ++ [ownedBy s od]) (dsgrpcObjPut S s od c) where
  store := by
    intro a
    obtain ⟨done, hls, hslots⟩ := hi.store a
    refine ⟨done, ?_, fun i k => ?_⟩
    · rw [dsgrpcObjPut_servers]
      split
      · exact hls
      · exact hls
    · rw [putsAt_append_singleton, dsgrpcObjPut_receiving]
      by_cases ha : a = s
      · subst ha
        rw [ownedBy_owner, if_pos rfl, update_self, ← append_assoc, slotPuts_append, hslots,
          slotPuts_append m i k (done ++ _)]
      · rw [ownedBy_owner, if_neg (Ne.symm ha), update_of_ne ha, hslots]
  table := by
    intro t
    obtain ⟨arrived, hent, hsent⟩ := hi.table t
    by_cases hself : t = s ∧ t ∈ S.peers od.objDesc.bb
    · -- The server is an entry of its own put: the descriptor arrives at once.
      obtain ⟨rfl, hpeer⟩ := hself
      refine ⟨arrived ++ [(ownedBy t od).objDesc], ?_, fun a => ?_⟩
      · rw [dsgrpcObjPut_servers, if_pos ⟨rfl, hpeer⟩, dhtRun_append_singleton, ← hent]
      · have hupd : (dsgrpcObjPut S t od c).updates a t = c.updates a t := by
          rw [dsgrpcObjPut_updates, if_neg]
          exact fun h => h.2.1 rfl
        rw [sent_append_singleton, hupd, filter_append, hsent, ownedBy_owner, ownedBy_bb]
        by_cases ha : a = t
        · subst ha
          rw [if_pos ⟨rfl, hpeer⟩, hi.no_self, append_nil, append_nil, filter_cons_of_pos (by simp)]
          rfl
        · rw [if_neg fun h => ha h.1.symm, filter_cons_of_neg (by simp [Ne.symm ha])]
          simp
    · refine ⟨arrived, ?_, fun a => ?_⟩
      · rw [dsgrpcObjPut_servers, if_neg hself, hent]
      · rw [sent_append_singleton, dsgrpcObjPut_updates, hsent, ownedBy_owner, ownedBy_bb]
        by_cases ha : a = s ∧ t ≠ s ∧ t ∈ S.peers od.objDesc.bb
        · rw [if_pos ha, if_pos ⟨ha.1.symm, ha.2.2⟩, append_assoc]
        · rw [if_neg ha, if_neg]
          rintro ⟨ha', hpeer⟩
          exact ha ⟨ha'.symm, fun ht => hself ⟨ht, hpeer⟩, hpeer⟩
  no_self := by
    intro t
    rw [dsgrpcObjPut_updates, if_neg, hi.no_self]
    rintro ⟨ht, hne, -⟩
    exact hne ht

variable (hi : ClusterInv S m h c)

include hi

theorem sizeHash (s : Nat) : (c.servers s).ls.sizeHash = m := by
  obtain ⟨done, hls, -⟩ := hi.store s
  rw [hls, lsRun_sizeHash]

theorem complete {s i : Nat} (horder : CompletesInOrder c (.complete s i)) :
    ClusterInv S m h (objPutCompletion s i c) := by
  cases hrec : (c.receiving s)[i]? with
  | none =>
    rw [objPutCompletion, hrec]
    exact hi
  | some od =>
    refine ⟨fun a => ?_, fun t => ?_, ?_⟩
    · obtain ⟨done, hls, hslots⟩ := hi.store a
      rw [objPutCompletion_receiving hrec, objPutCompletion_ls hrec]
      by_cases ha : a = s
      · -- The transfer moves to the completed puts.
        subst ha
        have hfirst := horder od hrec
        simp only [SsStorage.index, hi.sizeHash] at hfirst
        refine ⟨done ++ [od], ?_, fun j k => ?_⟩
        · rw [if_pos rfl, lsRun_append_singleton, ← hls]
        · rw [if_pos rfl, hslots, append_assoc, singleton_append, slotPuts_append, slotPuts_append,
            slotPuts_cons_eraseIdx hrec hfirst]
      · exact ⟨done, by rw [if_neg ha, hls], fun j k => by rw [if_neg ha, hslots]⟩
    · rw [objPutCompletion_entSelf, objPutCompletion_updates]
      exact hi.table t
    · rw [objPutCompletion_updates]
      exact hi.no_self

theorem update (s t : Nat) : ClusterInv S m h (dsgrpcObjUpdate s t c) := by
  cases hupd : c.updates s t with
  | nil =>
    rw [dsgrpcObjUpdate, hupd]
    exact hi
  | cons o rest =>
    have hst : s ≠ t := by
      rintro rfl
      rw [hi.no_self] at hupd
      cases hupd
    -- Only `s` sends on this channel, so setting the owner to `s` changes nothing.
    have hos : o.owner = s := by
      obtain ⟨arrived, -, hsent⟩ := hi.table t
      refine owner_of_mem_sent (S := S) (h := h) (t := t) ?_
      rw [hsent, hupd]
      exact mem_append_right _ mem_cons_self
    have howner : { o with owner := s } = o := by rw [← hos]
    refine ⟨fun a => ?_, fun u => ?_, fun u => ?_⟩
    · rw [dsgrpcObjUpdate_ls, dsgrpcObjUpdate_receiving]
      exact hi.store a
    · obtain ⟨arrived, hent, hsent⟩ := hi.table u
      by_cases hu : u = t
      · -- The oldest message moves to what arrived.
        subst hu
        refine ⟨arrived ++ [o], ?_, fun a => ?_⟩
        · rw [dsgrpcObjUpdate_entSelf hupd, if_pos rfl, howner, dhtRun_append_singleton, ← hent]
        · rw [hsent, filter_append, dsgrpcObjUpdate_updates hupd]
          by_cases ha : a = s
          · subst ha
            rw [if_pos ⟨rfl, rfl⟩, hupd, filter_cons_of_pos (by simp [hos]), append_assoc]
            rfl
          · rw [if_neg fun h => ha h.1, filter_cons_of_neg (by simp [hos, Ne.symm ha])]
            simp
      · refine ⟨arrived, ?_, fun a => ?_⟩
        · rw [dsgrpcObjUpdate_entSelf hupd, if_neg hu, hent]
        · rw [hsent, dsgrpcObjUpdate_updates hupd, if_neg fun h => hu h.2]
    · rw [dsgrpcObjUpdate_updates hupd, if_neg, hi.no_self]
      rintro ⟨rfl, rfl⟩
      exact hst rfl

/-- One step; a remove that finds nothing only takes its message off the list. -/
theorem step (ev : Event) (hok : RemoveFindsNothing c ev) (horder : CompletesInOrder c ev) :
    ClusterInv S m (h ++ ev.puts) (Cluster.step S c ev) := by
  cases ev with
  | put s od => exact hi.put s od
  | complete s i =>
    rw [Event.puts, append_nil]
    exact hi.complete horder
  | update s t =>
    rw [Event.puts, append_nil]
    exact hi.update s t
  -- The requests are only under way: no store has changed.
  | remove name version =>
    rw [Event.puts, append_nil]
    exact ⟨hi.store, hi.table, hi.no_self⟩
  | removeService t i =>
    rw [Event.puts, append_nil, Cluster.step, dsgrpcRemoveService]
    -- A remove that finds no object leaves the store as it is.
    cases hmsg : (c.removes t)[i]? with
    | none => exact hi
    | some request =>
      obtain ⟨name, version⟩ := request
      have hsame : lsRemoveAll (c.servers t).ls name version = (c.servers t).ls :=
        lsRemoveAll_eq_self (hok (name, version) hmsg)
      simp only [hsame, update_eq_self]
      exact ⟨hi.store, hi.table, hi.no_self⟩

end ClusterInv

def Event.isRemove : Event → Bool
  | .remove _ _ => true
  | .removeService _ _ => true
  | _ => false

/-- Every event of a run from `c` meets a condition in the state in which it happens. -/
def Along (S : SharedSpace) (ok : State → Event → Prop) : State → List Event → Prop
  | _, [] => True
  | c, ev :: events => ok c ev ∧ Along S ok (step S c ev) events

instance (S : SharedSpace) (ok : State → Event → Prop) [∀ c ev, Decidable (ok c ev)] :
    ∀ c events, Decidable (Along S ok c events)
  | _, [] => isTrue trivial
  | c, ev :: events =>
    have := instDecidableAlong S ok (step S c ev) events
    inferInstanceAs (Decidable (_ ∧ _))

section

variable {S : SharedSpace} {m : Nat} {ok ok' : State → Event → Prop} {c : State} {a b events : List Event}

theorem along_append : Along S ok c (a ++ b) ↔ Along S ok c a ∧ Along S ok (a.foldl (step S) c) b := by
  induction a generalizing c with
  | nil => simp [Along]
  | cons ev a ih => simp [Along, ih, and_assoc]

theorem Along.mono (h : Along S ok c events) (himp : ∀ c, ∀ ev ∈ events, ok c ev → ok' c ev) :
    Along S ok' c events := by
  induction events generalizing c with
  | nil => trivial
  | cons ev events ih =>
    exact ⟨himp c ev mem_cons_self h.1, ih h.2 fun c ev' hev' => himp c ev' (mem_cons_of_mem _ hev')⟩

/-- Along the run, no remove finds an object. -/
def RemovesFindNothing (S : SharedSpace) (m : Nat) (events : List Event) : Prop :=
  Along S RemoveFindsNothing (clusterAlloc m) events

/-- Along the run, the transfers of one name, box and version bin to a server complete in the order of the
puts. -/
def TransfersInOrder (S : SharedSpace) (m : Nat) (events : List Event) : Prop :=
  Along S CompletesInOrder (clusterAlloc m) events

instance (S : SharedSpace) (m : Nat) (events : List Event) : Decidable (TransfersInOrder S m events) :=
  inferInstanceAs (Decidable (Along _ _ _ _))

theorem removesFindNothing_of_puts (h : ∀ ev ∈ events, ev.isRemove = false) :
    RemovesFindNothing S m events := by
  have hall : ∀ c, Along S (fun _ _ => True) c events := by
    induction events with
    | nil => exact fun _ => trivial
    | cons ev events ih => exact fun c => ⟨trivial, ih (fun ev' hev' => h ev' (mem_cons_of_mem _ hev')) _⟩
  refine (hall _).mono fun c ev hev _ => ?_
  cases ev with
  | removeService t i => cases h _ hev
  | _ => trivial

theorem clusterInv_run (S : SharedSpace) (m : Nat) (events : List Event)
    (hok : RemovesFindNothing S m events) (horder : TransfersInOrder S m events) :
    ClusterInv S m (history events) (run S m events) := by
  induction events using reverseRecOn with
  | nil => exact ClusterInv.alloc
  | append_singleton events ev ih =>
    rw [run_append_singleton, history_append_singleton]
    obtain ⟨hok, hev, -⟩ := along_append.1 hok
    obtain ⟨horder, hevo, -⟩ := along_append.1 horder
    exact (ih hok horder).step ev hev hevo

end

/-! ## A line of four cells over two servers -/

theorem spaceOf_line :
    SpaceOf referencePlatform (lineDomain 4 (by decide) (by decide)) (twoSpaces false) := by
  refine ⟨.v2, 2, 1, by decide, by decide, nofun, ?_⟩
  have hok := twoSpaces_allocated false
  simpa [ssdAlloc, lineDomain] using hok

/-- The line of four cells, hashed by version 2: server `0` owns the first half, server `1` the second
one. -/
def lineSpace : SharedSpace where
  platform := referencePlatform
  domain := lineDomain 4 (by decide) (by decide)
  ss := twoSpaces false
  spaceOf := spaceOf_line

theorem lineSpace_owned : ∀ x ∈ lineSpace.domain.box, ∃ k, lineSpace.ss.OwnsCell lineSpace.platform k x := by
  intro x hx
  rcases lineSpace.spaceOf.spaceV1_or_spaceV2 with ⟨K, n, tab, -, -, hss⟩ | ⟨n, hss⟩
  · have hv : lineSpace.ss.hashVersion = .v2 := by decide
    rw [hss.version] at hv
    cases hv
  · exact hss.exists_owner hx

/-- A put of an object over the whole line to server `0`, until its transfer and its one message have
arrived. -/
def lineEvents (od : ObjData) : List Event := [.put 0 od, .complete 0 0, .update 0 1]

end DataSpaces.Cluster
