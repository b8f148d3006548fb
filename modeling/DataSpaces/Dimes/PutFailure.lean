import DataSpaces.Dimes.LastWriter
import DataSpaces.Dimes.Storage
import DataSpaces.Dart.Sends

/-!
# A DIMES put that fails

`dimes_obj_put` sends the location of an object to the servers of its box one after the other, and
`dimes_client_put` frees the buffer of the object when that fails. Nothing takes back the messages that are
on their way already, and a message whose `rpc_send` failed may still be in the list of its peer.

`failed_put_iff` says for which failures a freed buffer is named by no server and by no message: those of
the first message, if it was not queued. When the memory for a later message is missing, `err` is still the
result of the send before, and the put reports success for an object that was never stored.
-/

namespace DataSpaces.Dimes.Failing

open Lib Store Cluster Dart List Function

/-! ## The source -/

/-- What the surroundings of the client decide during a put. -/
structure PutEvents where
  /-- `dimes_memory_alloc` -/
  obtained : Bool
  /-- for the servers in the order of `dht_nodes` -/
  sends : Nat → SendResult
  /-- the last result of `rpc_process_event` while PAMI waits for the sends; 0 on other platforms -/
  waitErr : Int
  /-- `dimes_memory_free` -/
  freed : Bool

/-- The end of the loop that sends the locations, with the servers to which a message is on its way. -/
structure SendLoop where
  err : Int
  finished : Bool
  sent : List Nat
deriving DecidableEq, Repr

/-- The loop of `dimes_obj_put`, with the results of the sends that are left. -/
def sendLoop : List Nat → (Nat → SendResult) → Int → SendLoop
  | [], _, err => ⟨err, true, []⟩
  | peer :: rest, sends, err =>
    match sends 0 with
    | .noMsg => ⟨err, false, []⟩
    | .result err queued =>
      if err < 0 then ⟨err, false, if queued then [peer] else []⟩
      else
        let r := sendLoop rest (fun i => sends (i + 1)) err
        { r with sent := peer :: r.sent }

/-- The result of `dimes_obj_put`. -/
structure ObjPut where
  err : Int
  stored : Bool
  sent : List Nat
deriving DecidableEq, Repr

/-- What follows the loop. -/
def SendLoop.objPut (r : SendLoop) (waitErr : Int) : ObjPut :=
  if r.finished = false then ⟨r.err, false, r.sent⟩
  else if waitErr < 0 then ⟨waitErr, false, r.sent⟩
  else ⟨0, true, r.sent⟩

/-- `dht_nodes` are the servers that `ssd_hash` selects; `-12` is `-ENOMEM`. -/
def dimesObjPut (dhtNodes : List Nat) (e : PutEvents) : ObjPut :=
  if dhtNodes = [] then ⟨-12, false, []⟩ else (sendLoop dhtNodes e.sends (-12)).objPut e.waitErr

/-- The metadata servers with the messages on their way to them, and the next local object index and the
storage of each client. -/
structure State where
  servers : Nat → MetadataStorage
  inFlight : Nat → List HdrDimesPut
  nextIndex : Nat → Nat
  storage : Nat → List (DimesStorageGroup String DimesMemoryObj)

def start (maxVersions : Nat) : State where
  servers := fun _ => metadataSAlloc maxVersions
  inFlight := fun _ => []
  nextIndex := fun _ => 0
  storage := fun _ => []

/-- A message with this location is on its way to each of the servers. -/
def dispatch (hdr : HdrDimesPut) (sent : List Nat) (inFlight : Nat → List HdrDimesPut) :
    Nat → List HdrDimesPut :=
  sent.foldl (fun inFlight t => update inFlight t (inFlight t ++ [hdr])) inFlight

/-- The arguments of a put: the client, its current group and the object. -/
structure PutCall where
  client : Nat
  groupName : String
  odsc : ObjDescriptor

def State.putHdr (s : State) (call : PutCall) : HdrDimesPut :=
  ⟨⟨call.client, s.nextIndex call.client⟩, { call.odsc with owner := call.client }⟩

/-- The result of `dimes_client_put`, and whether it has released the buffer of the object. -/
structure ClientPut where
  err : Int
  released : Bool
  state : State

/-- An index is used up. -/
def State.nextObj (s : State) (client : Nat) : State :=
  { s with nextIndex := update s.nextIndex client (s.nextIndex client + 1) }

def State.send (s : State) (hdr : HdrDimesPut) (sent : List Nat) : State :=
  { s with inFlight := dispatch hdr sent s.inFlight }

def State.store (m : Nat) (s : State) (call : PutCall) (hdr : HdrDimesPut) : State :=
  let storage := storageAddObj m (s.storage call.client) call.groupName ⟨hdr.objId, hdr.odsc⟩
  { s with storage := update s.storage call.client storage }

/-- `hash` gives the servers of an object. -/
def dimesClientPut (m : Nat) (hash : ObjDescriptor → List Nat) (s : State) (call : PutCall) (e : PutEvents) :
    ClientPut :=
  let hdr := s.putHdr call
  let s := s.nextObj call.client
  if e.obtained = false then ⟨-1, false, s⟩
  else
    let r := dimesObjPut (hash hdr.odsc) e
    let s := s.send hdr r.sent
    if r.err < 0 then ⟨r.err, e.freed, s⟩
    else ⟨0, false, if r.stored then s.store m call hdr else s⟩

/-- What can happen: a put, the delivery of the first message to a server, and freeing a group. -/
inductive Event where
  | put (call : PutCall) (e : PutEvents)
  | deliver (server : Nat)
  | syncGroup (client : Nat) (groupName : String)

def step (m : Nat) (hash : ObjDescriptor → List Nat) (s : State) : Event → Option State
  | .put call e => some (dimesClientPut m hash s call e).state
  | .deliver t =>
    match s.inFlight t with
    | [] => none
    | hdr :: rest => some { s with
        servers := update s.servers t (metadataSAddObjLocation (s.servers t) hdr)
        inFlight := update s.inFlight t rest }
  | .syncGroup client name => some { s with
      storage := update s.storage client (putSyncGroup m (s.storage client) name).2 }

/-! ## The statement -/

/-- A server has a location of the object, or a message with one is on its way. -/
def State.Names (s : State) (id : DimesObjId) : Prop :=
  ∃ t hdr, hdr.objId = id ∧ (hdr ∈ s.inFlight t ∨ ∃ i v, hdr ∈ (s.servers t).locations i v)

/-- The storage has the object. -/
def InStorage (storage : List (DimesStorageGroup String DimesMemoryObj)) (id : DimesObjId) : Prop :=
  ∃ p ∈ storage, ∃ i, ∃ memObj ∈ p.versionTab i, memObj.objId = id

/-- If the put returns an error and has released the buffer, then nothing names the buffer. -/
def NoDangling (m : Nat) (hash : ObjDescriptor → List Nat) (s : State) (call : PutCall) (e : PutEvents) :
    Prop :=
  let r := dimesClientPut m hash s call e
  r.err < 0 → r.released = true →
    ¬ r.state.Names (s.putHdr call).objId ∧ ¬ InStorage (r.state.storage call.client) (s.putHdr call).objId

/-- If the buffer is freed, then no send but the first one has failed, this one was not queued, and waiting
for the sends has not failed. -/
def FailsAtOnce (dhtNodes : List Nat) (e : PutEvents) : Prop :=
  e.obtained = true → e.freed = true →
    (∀ i < dhtNodes.length, SentBefore e.sends i → ∀ err queued, e.sends i = .result err queued → err < 0 →
      i = 0 ∧ queued = false) ∧
    (dhtNodes ≠ [] → SentBefore e.sends dhtNodes.length → 0 ≤ e.waitErr)

/-! ## The loop -/

/-- How the loop ends. -/
inductive LoopEnd (dhtNodes : List Nat) (sends : Nat → SendResult) (err : Int) : SendLoop → Prop where
  | finished {err' : Int} (hall : SentBefore sends dhtNodes.length) :
      LoopEnd dhtNodes sends err ⟨err', true, dhtNodes⟩
  | noMsg {k : Nat} {err' : Int} (hk : k < dhtNodes.length) (hsent : SentBefore sends k)
      (hstop : sends k = .noMsg) (herr : k = 0 ∧ err' = err ∨ 0 < k ∧ 0 ≤ err') :
      LoopEnd dhtNodes sends err ⟨err', false, dhtNodes.take k⟩
  | failed {k : Nat} {err' : Int} {queued : Bool} (hk : k < dhtNodes.length) (hsent : SentBefore sends k)
      (hstop : sends k = .result err' queued) (hneg : err' < 0) :
      LoopEnd dhtNodes sends err
        ⟨err', false, dhtNodes.take k ++ if queued then (dhtNodes.drop k).take 1 else []⟩

theorem loopEnd_sendLoop (dhtNodes : List Nat) (sends : Nat → SendResult) (err : Int) :
    LoopEnd dhtNodes sends err (sendLoop dhtNodes sends err) := by
  induction dhtNodes generalizing sends err with
  | nil => exact .finished sentBefore_zero
  | cons peer rest ih =>
    rw [sendLoop]
    cases h0 : sends 0 with
    | noMsg => exact .noMsg (Nat.succ_pos _) sentBefore_zero h0 (Or.inl ⟨rfl, rfl⟩)
    | result err' queued =>
      dsimp only
      by_cases hneg : err' < 0
      · rw [if_pos hneg]
        exact .failed (Nat.succ_pos _) sentBefore_zero h0 hneg
      · rw [if_neg hneg]
        have hok : (sends 0).Succeeded := by
          rw [h0]
          exact succeeded_result.2 (not_lt.1 hneg)
        -- The rest of the loop begins with the result of this send.
        have hend := ih (fun i => sends (i + 1)) err'
        generalize sendLoop rest (fun i => sends (i + 1)) err' = r at hend ⊢
        cases hend with
        | finished hall => exact .finished (sentBefore_succ hok hall)
        | noMsg hk hsent hstop herr =>
          refine .noMsg (Nat.succ_lt_succ hk) (sentBefore_succ hok hsent) hstop (Or.inr ⟨Nat.succ_pos _, ?_⟩)
          rcases herr with ⟨-, rfl⟩ | ⟨-, hle⟩
          · exact not_lt.1 hneg
          · exact hle
        | failed hk hsent hstop hneg' =>
          exact .failed (Nat.succ_lt_succ hk) (sentBefore_succ hok hsent) hstop hneg'

/-! ## What a failed put leaves -/

section

variable {dhtNodes : List Nat} {e : PutEvents}

theorem dimesObjPut_of_ne_nil (h : dhtNodes ≠ []) :
    dimesObjPut dhtNodes e = (sendLoop dhtNodes e.sends (-12)).objPut e.waitErr := if_neg h

/-- An error leaves no message on its way. -/
theorem sent_eq_nil_iff : ((dimesObjPut dhtNodes e).err < 0 → (dimesObjPut dhtNodes e).sent = []) ↔
    (∀ i < dhtNodes.length, SentBefore e.sends i → ∀ err queued, e.sends i = .result err queued → err < 0 →
      i = 0 ∧ queued = false) ∧ (dhtNodes ≠ [] → SentBefore e.sends dhtNodes.length → 0 ≤ e.waitErr) := by
  by_cases hnil : dhtNodes = []
  · subst hnil
    simp [dimesObjPut]
  have hpos : 0 < dhtNodes.length := length_pos_iff.2 hnil
  have hfail : ∀ {err queued}, err < 0 → ¬ (SendResult.result err queued).Succeeded :=
    fun hneg => fun h => absurd (succeeded_result.1 h) (not_le.2 hneg)
  rw [dimesObjPut_of_ne_nil hnil]
  have hend := loopEnd_sendLoop dhtNodes e.sends (-12)
  generalize sendLoop dhtNodes e.sends (-12) = r at hend ⊢
  cases hend with
  | finished hall =>
    have hno : ∀ i < dhtNodes.length, SentBefore e.sends i → ∀ err queued,
        e.sends i = .result err queued → err < 0 → i = 0 ∧ queued = false := by
      intro i hi _ err queued hres hneg
      exact (hfail hneg (hres ▸ hall i hi)).elim
    rw [and_iff_right hno]
    by_cases hwait : e.waitErr < 0
    · simp [SendLoop.objPut, hwait, hnil, hall]
    · simp [SendLoop.objPut, hwait, not_lt.1 hwait]
  | noMsg hk hsent hstop herr =>
    have hnot : ¬ (e.sends _).Succeeded := hstop ▸ succeeded_noMsg
    refine iff_of_true (fun hneg => ?_) ⟨fun i _ hi err queued hres hneg => ?_, fun _ hall => ?_⟩
    · rcases herr with ⟨rfl, -⟩ | ⟨-, hle⟩
      · exact take_zero (l := dhtNodes)
      · exact absurd hneg (not_lt.2 hle)
    · have heq := hsent.eq_of_stop hnot hi (hres ▸ hfail hneg)
      rw [heq, hstop] at hres
      cases hres
    · exact (hnot (hall _ hk)).elim
  | @failed k err queued hk hsent hstop hneg =>
    have hnot : ¬ (e.sends k).Succeeded := hstop ▸ hfail hneg
    have hsentNil : (dhtNodes.take k ++ if queued then (dhtNodes.drop k).take 1 else []) = [] ↔
        k = 0 ∧ queued = false := by
      cases queued <;> simp [hnil, hk]
    show (err < 0 → (dhtNodes.take k ++ if queued then (dhtNodes.drop k).take 1 else []) = []) ↔ _
    rw [hsentNil]
    constructor
    · intro hclean
      refine ⟨fun i _ hi err' queued' hres hneg' => ?_, fun _ hall => (hnot (hall k hk)).elim⟩
      have heq := hsent.eq_of_stop hnot hi (hres ▸ hfail hneg')
      rw [heq, hstop] at hres
      cases hres
      exact heq ▸ hclean hneg
    · exact fun hcond _ => hcond.1 k hk hsent err queued hstop hneg

end

/-! ## Runs -/

section

variable {m : Nat} {hash : ObjDescriptor → List Nat} {s s' : State} {hdr : HdrDimesPut} {sent : List Nat}
  {id : DimesObjId} {t : Nat} {name : String}

theorem mem_dispatch {hdr' : HdrDimesPut} {inFlight : Nat → List HdrDimesPut} :
    hdr' ∈ dispatch hdr sent inFlight t ↔ hdr' ∈ inFlight t ∨ (hdr' = hdr ∧ t ∈ sent) := by
  induction sent generalizing inFlight with
  | nil => simp [dispatch]
  | cons u sent ih =>
    show hdr' ∈ dispatch hdr sent (update inFlight u (inFlight u ++ [hdr])) t ↔ _
    rw [ih]
    by_cases htu : t = u
    · subst htu
      rw [update_self, mem_append, mem_singleton]
      simp only [mem_cons, true_or, and_true]
      tauto
    · rw [update_of_ne htu, mem_cons, or_iff_right htu]

theorem names_send : (s.send hdr sent).Names id ↔ s.Names id ∨ (hdr.objId = id ∧ sent ≠ []) := by
  simp only [State.Names, State.send, mem_dispatch]
  constructor
  · rintro ⟨t, hdr', hid, (hmem | ⟨rfl, ht⟩) | hserver⟩
    · exact Or.inl ⟨t, hdr', hid, Or.inl hmem⟩
    · exact Or.inr ⟨hid, ne_nil_of_mem ht⟩
    · exact Or.inl ⟨t, hdr', hid, Or.inr hserver⟩
  · rintro (⟨t, hdr', hid, hmem | hserver⟩ | ⟨hid, hne⟩)
    · exact ⟨t, hdr', hid, Or.inl (Or.inl hmem)⟩
    · exact ⟨t, hdr', hid, Or.inr hserver⟩
    · obtain ⟨t, ht⟩ := exists_mem_of_ne_nil _ hne
      exact ⟨t, hdr, hid, Or.inl (Or.inr ⟨rfl, ht⟩)⟩

theorem inStorage_storageAddObj {storage : List (DimesStorageGroup String DimesMemoryObj)}
    {memObj : DimesMemoryObj} (h : InStorage (storageAddObj m storage name memObj) id) :
    InStorage storage id ∨ memObj.objId = id := by
  obtain ⟨p, hp, i, found, hfound, hid⟩ := h
  rcases stored_insertMemObj.1 ⟨p, hp, hfound⟩ with ⟨g, hg, hstored⟩ | ⟨rfl, -⟩
  · exact Or.inl ⟨g, hg, i, found, hstored, hid⟩
  · exact Or.inr hid

/-- An object that a client or a server knows. -/
def State.Knows (s : State) (id : DimesObjId) : Prop := s.Names id ∨ ∃ c, InStorage (s.storage c) id

theorem State.Knows.of_send (h : (s.send hdr sent).Knows id) : s.Knows id ∨ hdr.objId = id := by
  rcases h with hnames | hstored
  · exact (names_send.1 hnames).imp Or.inl And.left
  · exact Or.inl (Or.inr hstored)

theorem State.Knows.of_store {call : PutCall} (h : (s.store m call hdr).Knows id) :
    s.Knows id ∨ hdr.objId = id := by
  rcases h with hnames | ⟨c, hstored⟩
  · exact Or.inl (Or.inl hnames)
  · dsimp only [State.store] at hstored
    by_cases hc : c = call.client
    · subst hc
      rw [update_self] at hstored
      exact (inStorage_storageAddObj hstored).imp_left fun h => Or.inr ⟨_, h⟩
    · rw [update_of_ne hc] at hstored
      exact Or.inl (Or.inr ⟨c, hstored⟩)

section

variable {call : PutCall} {e : PutEvents}

theorem dimesClientPut_noMemory (h : e.obtained = false) :
    dimesClientPut m hash s call e = ⟨-1, false, s.nextObj call.client⟩ := if_pos h

theorem dimesClientPut_failed (h : e.obtained = true)
    (hneg : (dimesObjPut (hash (s.putHdr call).odsc) e).err < 0) :
    dimesClientPut m hash s call e = ⟨(dimesObjPut (hash (s.putHdr call).odsc) e).err, e.freed,
      (s.nextObj call.client).send (s.putHdr call) (dimesObjPut (hash (s.putHdr call).odsc) e).sent⟩ := by
  unfold dimesClientPut
  dsimp only
  rw [if_neg (Bool.not_eq_false _ ▸ h), if_pos hneg]

theorem dimesClientPut_ok (h : e.obtained = true)
    (hle : 0 ≤ (dimesObjPut (hash (s.putHdr call).odsc) e).err) : dimesClientPut m hash s call e = ⟨0, false,
      if (dimesObjPut (hash (s.putHdr call).odsc) e).stored then
        ((s.nextObj call.client).send (s.putHdr call) (dimesObjPut (hash (s.putHdr call).odsc) e).sent).store m
          call (s.putHdr call) else (s.nextObj call.client).send (s.putHdr call)
        (dimesObjPut (hash (s.putHdr call).odsc) e).sent⟩ := by
  unfold dimesClientPut
  dsimp only
  rw [if_neg (Bool.not_eq_false _ ▸ h), if_neg (not_lt.2 hle)]

end

/-- A put makes no other object known than its own. -/
theorem knows_dimesClientPut {call : PutCall} {e : PutEvents}
    (h : (dimesClientPut m hash s call e).state.Knows id) : s.Knows id ∨ (s.putHdr call).objId = id := by
  cases hobtained : e.obtained with
  | false =>
    rw [dimesClientPut_noMemory hobtained] at h
    exact Or.inl h
  | true =>
    by_cases hneg : (dimesObjPut (hash (s.putHdr call).odsc) e).err < 0
    · rw [dimesClientPut_failed hobtained hneg] at h
      exact h.of_send
    · rw [dimesClientPut_ok hobtained (not_lt.1 hneg)] at h
      dsimp only at h
      split at h
      · rcases h.of_store with h | h
        · exact h.of_send
        · exact Or.inr h
      · exact h.of_send

theorem nextIndex_dimesClientPut (call : PutCall) (e : PutEvents) :
    (dimesClientPut m hash s call e).state.nextIndex =
      update s.nextIndex call.client (s.nextIndex call.client + 1) := by
  unfold dimesClientPut
  dsimp only
  split
  · rfl
  · split
    · rfl
    · dsimp only
      split <;> rfl

theorem knows_deliver {rest : List HdrDimesPut} (hmsg : s.inFlight t = hdr :: rest)
    (h : State.Knows { s with
      servers := update s.servers t (metadataSAddObjLocation (s.servers t) hdr)
      inFlight := update s.inFlight t rest } id) : s.Knows id := by
  rcases h with ⟨u, hdr', hid, hmem⟩ | hstored
  · left
    dsimp only at hmem
    by_cases hut : u = t
    · subst hut
      rw [update_self, update_self] at hmem
      rcases hmem with hmem | ⟨i, v, hmem⟩
      · exact ⟨u, hdr', hid, Or.inl (hmsg ▸ mem_cons_of_mem _ hmem)⟩
      · rw [metadataSAddObjLocation_locations] at hmem
        split at hmem
        · rcases mem_cons.1 hmem with rfl | hmem
          · exact ⟨u, hdr', hid, Or.inl (hmsg ▸ mem_cons_self)⟩
          · exact ⟨u, hdr', hid, Or.inr ⟨i, v, mem_of_mem_filter hmem⟩⟩
        · exact ⟨u, hdr', hid, Or.inr ⟨i, v, hmem⟩⟩
    · rw [update_of_ne hut, update_of_ne hut] at hmem
      exact ⟨u, hdr', hid, hmem⟩
  · exact Or.inr hstored

theorem knows_syncGroup {client : Nat}
    (h : State.Knows { s with
      storage := update s.storage client (putSyncGroup m (s.storage client) name).2 } id) :
    s.Knows id := by
  rcases h with hnames | ⟨c, hstored⟩
  · exact Or.inl hnames
  · right
    dsimp only at hstored
    by_cases hc : c = client
    · subst hc
      rw [update_self, putSyncGroup_snd] at hstored
      obtain ⟨p, hp, hrest⟩ := hstored
      exact ⟨c, p, mem_of_mem_eraseP hp, hrest⟩
    · rw [update_of_ne hc] at hstored
      exact ⟨c, hstored⟩

/-- The indices of known objects are used up. -/
def Fresh (s : State) : Prop := ∀ id, s.Knows id → id.localObjIndex < s.nextIndex id.dartId

theorem fresh_start (m : Nat) : Fresh (start m) := by
  rintro id (⟨t, hdr, -, hmem | ⟨i, v, hmem⟩⟩ | ⟨c, p, hp, -⟩)
  · exact (not_mem_nil hmem).elim
  · exact (not_mem_nil hmem).elim
  · exact (not_mem_nil hp).elim

theorem Fresh.put (h : Fresh s) (call : PutCall) (e : PutEvents) :
    Fresh (dimesClientPut m hash s call e).state := by
  intro id hknows
  rw [nextIndex_dimesClientPut]
  by_cases hid : id.dartId = call.client
  · rw [hid, update_self]
    rcases knows_dimesClientPut hknows with hknows | rfl
    · exact (hid ▸ h id hknows).trans (Nat.lt_succ_self _)
    · exact Nat.lt_succ_self _
  · rw [update_of_ne hid]
    rcases knows_dimesClientPut hknows with hknows | rfl
    · exact h id hknows
    · exact (hid rfl).elim

theorem Fresh.step {ev : Event} (h : Fresh s) (hstep : step m hash s ev = some s') : Fresh s' := by
  cases ev with
  | put call e =>
    cases hstep
    exact h.put call e
  | deliver t =>
    cases hmsg : s.inFlight t with
    | nil => simp [Failing.step, hmsg] at hstep
    | cons hdr rest =>
      simp only [Failing.step, hmsg, Option.some.injEq] at hstep
      subst hstep
      exact fun id hknows => h id (knows_deliver hmsg hknows)
  | syncGroup client name =>
    cases hstep
    exact fun id hknows => h id (knows_syncGroup hknows)

theorem fresh_of_reaches (h : Reaches (step m hash) (start m) s) : Fresh s :=
  h.invariant (fresh_start m) fun _ _ _ hfresh hstep => hfresh.step hstep

theorem Fresh.not_knows (h : Fresh s) (call : PutCall) : ¬ s.Knows (s.putHdr call).objId :=
  fun hknows => Nat.lt_irrefl _ (h _ hknows)

end

/-! ## The result -/

/-- A failed put leaves no message if and only if nothing names its buffer. -/
theorem Fresh.noDangling_iff {m : Nat} {hash : ObjDescriptor → List Nat} {s : State} (h : Fresh s)
    (call : PutCall) (e : PutEvents) : NoDangling m hash s call e ↔ (e.obtained = true → e.freed = true →
      (dimesObjPut (hash (s.putHdr call).odsc) e).err < 0 →
        (dimesObjPut (hash (s.putHdr call).odsc) e).sent = []) := by
  have hknown := h.not_knows call
  have hnames : ¬ (s.nextObj call.client).Names (s.putHdr call).objId := fun hn => hknown (Or.inl hn)
  have hstored : ¬ InStorage (s.storage call.client) (s.putHdr call).objId :=
    fun hs => hknown (Or.inr ⟨_, hs⟩)
  unfold NoDangling
  cases hobtained : e.obtained with
  | false =>
    -- There is no buffer, and so none is released.
    rw [dimesClientPut_noMemory hobtained]
    exact iff_of_true (fun _ hreleased => by cases hreleased) fun hfalse => by cases hfalse
  | true =>
    by_cases hneg : (dimesObjPut (hash (s.putHdr call).odsc) e).err < 0
    · rw [dimesClientPut_failed hobtained hneg]
      dsimp only
      rw [names_send, or_iff_right hnames]
      have hsent : (¬ ((s.putHdr call).objId = (s.putHdr call).objId ∧
          (dimesObjPut (hash (s.putHdr call).odsc) e).sent ≠ [])) ↔
          (dimesObjPut (hash (s.putHdr call).odsc) e).sent = [] := by simp
      rw [hsent]
      exact ⟨fun hclean _ hfreed _ => (hclean hneg hfreed).1,
        fun hclean _ hfreed => ⟨hclean rfl hfreed hneg, hstored⟩⟩
    · rw [dimesClientPut_ok hobtained (not_lt.1 hneg)]
      exact iff_of_true (fun hlt => absurd hlt (lt_irrefl 0)) fun _ _ hlt => absurd hlt hneg

/-- In every state that puts, deliveries and frees can lead to, and for every put: after an error a released
buffer is named by no server, no message and not by the storage, if and only if the put failed before its
first message was on its way. -/
theorem failed_put_iff (m : Nat) (hash : ObjDescriptor → List Nat) (s : State)
    (h : Reaches (step m hash) (start m) s) (call : PutCall) (e : PutEvents) :
    NoDangling m hash s call e ↔ FailsAtOnce (hash (s.putHdr call).odsc) e := by
  rw [(fresh_of_reaches h).noDangling_iff, FailsAtOnce]
  exact imp_congr_right fun _ => imp_congr_right fun _ => sent_eq_nil_iff

/-! ## The line over two servers -/

def lineHash (odsc : ObjDescriptor) : List Nat := lineSpace.peers odsc.bb

/-- A put of the whole line by client 5. -/
def lineCall : PutCall := ⟨5, "default", (segmentObj 0 3).objDesc⟩

/-- The first message cannot be sent. -/
def firstFails : PutEvents := ⟨true, fun _ => .result (-1) false, 0, true⟩

/-- The second message cannot be sent. -/
def secondFails : PutEvents := ⟨true, fun i => if i = 0 then .result 0 false else .result (-1) false, 0, true⟩

theorem failed_put_first : NoDangling 1 lineHash (start 1) lineCall firstFails := by
  refine (failed_put_iff 1 lineHash (start 1) (Reaches.refl _) lineCall firstFails).2 fun _ _ => ⟨?_, ?_⟩
  · intro i _ hsent err queued hres _
    have hi : i = 0 := by
      by_contra hne
      exact absurd (succeeded_result.1 (hsent 0 (Nat.pos_of_ne_zero hne))) (by decide)
    cases hres
    exact ⟨hi, rfl⟩
  · exact fun _ _ => le_rfl

/-- Server 0 will have a location of the buffer that was freed when the message to server 1 failed. -/
theorem failed_put_dangles : (dimesClientPut 1 lineHash (start 1) lineCall secondFails).err = -1 ∧
      (dimesClientPut 1 lineHash (start 1) lineCall secondFails).released = true ∧
      ((dimesClientPut 1 lineHash (start 1) lineCall secondFails).state.inFlight 0).map HdrDimesPut.objId =
        [⟨5, 0⟩] ∧ ¬ NoDangling 1 lineHash (start 1) lineCall secondFails := by
  have hput : dimesObjPut (lineHash ((start 1).putHdr lineCall).odsc) secondFails = ⟨-1, false, [0]⟩ := by
    decide
  refine ⟨by decide, by decide, by decide, fun h => ?_⟩
  have hnil := ((fresh_start 1).noDangling_iff lineCall secondFails).1 h rfl rfl (by rw [hput]; decide)
  rw [hput] at hnil
  cases hnil

end DataSpaces.Dimes.Failing
