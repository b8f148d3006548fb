import DataSpaces.Cluster.Complete
import DataSpaces.Lib.Runs

/-!
# The messages of a get

`dcg_obj_get` waits three times: for the list of peers, for their descriptors and for the parts. Here a
get is a state machine together with its messages. A message that arrives at a server or at the client
is handled by it and may be followed by another one; the messages arrive in any order, and the servers
go on with puts and removes in between.

`exists_return` is about termination: along a run a get can only be handed over from message to message
finitely often, so it returns unless it comes to wait with no message under way. `DescInv` and `PartsInv`
tie the second and the third wait to the messages.
-/

namespace DataSpaces.Cluster

open Lib Geometry Space Store Client Copy List Function
open Option (some.inj bind_eq_some_iff bind_some map_eq_some_iff map_some)

/-! ## The source -/

/-- A message of a get that is under way or being served. -/
inductive GetMessage where
  /-- the request `ss_obj_get_dht_peers` -/
  | getDhtPeers
  /-- the peer ids that a server sends for it, up to the marker `-1` -/
  | dhtPeers (tab : List Nat)
  /-- the request `ss_obj_get_desc` to a peer -/
  | getDesc (peer : Nat)
  /-- the answer of the peer -/
  | desc (reply : DescReply)
  /-- the table of descriptors, which the client fetches after the answer -/
  | descTable (odTab : List ObjDescriptor)
  /-- the request `ss_obj_get` for piece number `i` -/
  | getPart (i : Nat) (odsc : ObjDescriptor)
  /-- the data of piece number `i` -/
  | part (i : Nat) (data : Mem)

/-- The place in `dcg_obj_get`: one of its three waits, or its end. -/
inductive GetPhase where
  | peers
  | descriptors
  | parts
  | returned (result : GetResult)

/-- A get and its messages; `time` counts what else the servers have handled. -/
structure GetState where
  time : Nat
  phase : GetPhase
  fPeerReceived : Bool
  qhPeeridTab : List Nat
  qte : QueryTranEntry
  messages : List GetMessage

def GetState.send (g : GetState) (msg : GetMessage) : GetState := { g with messages := g.messages ++ [msg] }

/-- The peer ids of the entries that `ssd_hash` selects, if it ends. -/
def dsgrpcObjSendDhtPeers (S : SharedSpace) (bb : Bbox) : Option (List Nat) :=
  (ssdHashFresh S.platform S.ss bb).map fun deTab =>
    deTab.filterMap fun k => (S.ss.entTab[k]?).map DhtEntry.rank

def getDhtPeersCompletion (g : GetState) (tab : List Nat) : GetState :=
  { g with
    qhPeeridTab := tab
    qte := { g.qte with qhNumPeer := tab.length }
    fPeerReceived := true }

/-- A message has arrived at a server, or at the client. -/
def GetState.handle (S : SharedSpace) (c : State) (g : GetState) : GetMessage → Option GetState
  | .getDhtPeers => (dsgrpcObjSendDhtPeers S g.qte.qObj.bb).map fun tab => g.send (.dhtPeers tab)
  | .dhtPeers tab => some (getDhtPeersCompletion g tab)
  | .getDesc t => some (g.send (.desc (dsgrpcObjGetDesc (c.servers t) g.qte.qObj)))
  | .desc (.notFound versions) => some { g with qte := dcgrpcObjGetDesc g.qte (.notFound versions) }
  | .desc (.found odTab) => some (g.send (.descTable odTab))
  | .descTable odTab => some { g with qte := dcgrpcObjGetDesc g.qte (.found odTab) }
  | .getPart i odsc =>
    match dsgrpcObjGet (c.servers odsc.owner) odsc with
    -- The server has no such object and does not answer.
    | none => some g
    | some data => some (g.send (.part i data))
  | .part i data =>
    some { g with
      qte := objDataGetCompletion { g.qte with
        odList := g.qte.odList.modify i fun od => { od with data := data } } }

/-- Ask every peer for its descriptors, and wait. -/
def getObjDescriptors (g : GetState) : GetState :=
  { g with
    phase := .descriptors
    qte := { g.qte with fOdscRecv := false }
    messages := g.messages ++ g.qhPeeridTab.map .getDesc }

/-- Ask the owner of every piece for its data, and wait. -/
def dcgObjDataGet (g : GetState) : GetState :=
  { g with
    phase := .parts
    messages := g.messages ++ g.qte.odList.zipIdx.map fun p =>
      .getPart p.2 { p.1.objDesc with version := g.qte.qObj.version } }

/-- What `dcg_obj_get` waits for. -/
def GetState.awaited (g : GetState) : Bool :=
  match g.phase with
  | .peers => g.fPeerReceived
  | .descriptors => g.qte.fOdscRecv
  | .parts => g.qte.fComplete
  | .returned _ => true

/-- What `dcg_obj_get` does after a wait. -/
def GetState.proceed (od : ObjData) (g : GetState) : Option GetState :=
  match g.phase with
  | .peers => some (getObjDescriptors g)
  | .descriptors => some (if g.qte.fErr then { g with phase := .returned .noData } else dcgObjDataGet g)
  | .parts => some { g with phase := .returned (.done (ssdCopyList od g.qte.odList).data) }
  | .returned _ => none

/-- The entry is allocated and the peers are asked for. -/
def dcgObjGetStart (q : ObjDescriptor) (time : Nat) : GetState where
  time := time
  phase := .peers
  fPeerReceived := false
  qhPeeridTab := []
  qte := qteAlloc q 0
  messages := [.getDhtPeers]

inductive GetAction where
  /-- the servers handle something else -/
  | tick
  /-- message number `i` arrives -/
  | deliver (i : Nat)
  /-- the wait is over -/
  | resume

/-- One step; `env` are the states of the servers. -/
def getStep (S : SharedSpace) (env : Nat → State) (od : ObjData) (g : GetState) :
    GetAction → Option GetState
  | .tick => some { g with time := g.time + 1 }
  | .deliver i =>
    (g.messages[i]?).bind fun msg =>
      GetState.handle S (env g.time) { g with messages := g.messages.eraseIdx i } msg
  -- The loop of DC_WAIT_COMPLETION ends when its condition holds.
  | .resume => if g.awaited then g.proceed od else none

def GetState.Blocked (g : GetState) : Prop := g.awaited = false

def GetState.Returned (g : GetState) : Prop := ∃ result, g.phase = .returned result

/-! ## Messages that arrive -/

variable {g g' : GetState} {S : SharedSpace} {od : ObjData} {msg : GetMessage} {a : GetAction}

/-- A message under way can arrive next, unless it makes a server compute for ever. -/
theorem deliver_of_mem (S : SharedSpace) (env : Nat → State) (od : ObjData)
    (hmsg : msg ∈ g.messages) :
    ∃ i rest, g.messages.Perm (msg :: rest) ∧
      getStep S env od g (.deliver i) = GetState.handle S (env g.time) { g with messages := rest } msg := by
  obtain ⟨i, hi, rfl⟩ := mem_iff_getElem.1 hmsg
  refine ⟨i, g.messages.eraseIdx i, (getElem_cons_eraseIdx_perm hi).symm, ?_⟩
  rw [getStep, getElem?_eq_getElem hi, bind_some]

/-- Every step is time passing, the arrival of a message, or the end of a wait. -/
theorem getStep_cases {env : Nat → State} (h : getStep S env od g a = some g') :
    g' = { g with time := g.time + 1 } ∨
      (∃ msg rest, g.messages.Perm (msg :: rest) ∧
        GetState.handle S (env g.time) { g with messages := rest } msg = some g') ∨
      (g.awaited = true ∧ g.proceed od = some g') := by
  cases a with
  | tick => exact Or.inl (some.inj h).symm
  | deliver i =>
    obtain ⟨msg, hmsg, hhandle⟩ := bind_eq_some_iff.1 h
    obtain ⟨hi, rfl⟩ := List.getElem?_eq_some_iff.1 hmsg
    exact Or.inr (Or.inl ⟨_, _, (getElem_cons_eraseIdx_perm hi).symm, hhandle⟩)
  | resume =>
    rw [getStep, Option.ite_none_right_eq_some] at h
    exact Or.inr (Or.inr h)

theorem reaches_later (S : SharedSpace) (env : Nat → State) (od : ObjData) (g : GetState) {n : Nat}
    (hn : g.time ≤ n) : Reaches (getStep S env od) g { g with time := n } := by
  obtain ⟨k, rfl⟩ := Nat.exists_eq_add_of_le hn
  induction k with
  | zero => exact Reaches.refl g
  | succ k ih => exact (ih (Nat.le_add_right _ _)).trans (Reaches.head (a := .tick) rfl (Reaches.refl _))

/-! ## Termination -/

/-- How often a message is still handed over. -/
def GetMessage.hops : GetMessage → Nat
  | .getDhtPeers => 2
  | .dhtPeers _ => 1
  | .getDesc _ => 3
  | .desc _ => 2
  | .descTable _ => 1
  | .getPart _ _ => 2
  | .part _ _ => 1

def GetState.hops (g : GetState) : Nat := (g.messages.map GetMessage.hops).sum

/-- The number of waits and of the end ahead. -/
def GetPhase.ahead : GetPhase → Nat
  | .peers => 3
  | .descriptors => 2
  | .parts => 1
  | .returned _ => 0

theorem send_hops (g : GetState) (msg : GetMessage) : (g.send msg).hops = g.hops + msg.hops := by
  simp [GetState.send, GetState.hops]

theorem addTable_qObj (odTab : List ObjDescriptor) (qte : QueryTranEntry) :
    (addTable qte odTab).qObj = qte.qObj := by
  induction odTab generalizing qte with
  | nil => rfl
  | cons o odTab ih =>
    rw [addTable, foldl_cons, ← addTable, ih]
    split <;> rfl

theorem dcgrpcObjGetDesc_qObj (qte : QueryTranEntry) (reply : DescReply) :
    (dcgrpcObjGetDesc qte reply).qObj = qte.qObj := by
  cases reply with
  | notFound versions => rfl
  | found odTab => exact addTable_qObj odTab _

/-- What every arrival of a message has in common: the client stays in its wait, and what follows the
message has fewer hops. -/
structure Handled (g : GetState) (msg : GetMessage) (g' : GetState) : Prop where
  phase_eq : g'.phase = g.phase
  time_eq : g'.time = g.time
  qObj_eq : g'.qte.qObj = g.qte.qObj
  hops_lt : g'.hops < g.hops + msg.hops

theorem handled_of_eq_some {c : State} (h : GetState.handle S c g msg = some g') : Handled g msg g' := by
  -- A handler either sends a message with fewer hops ahead or only changes the transaction.
  have hsend : ∀ {next : GetMessage}, next.hops < msg.hops → Handled g msg (g.send next) :=
    fun hlt => ⟨rfl, rfl, rfl, by rw [send_hops]; exact Nat.add_lt_add_left hlt _⟩
  have hpos : 0 < msg.hops := by cases msg <;> simp [GetMessage.hops]
  have hentry : ∀ {qte : QueryTranEntry}, qte.qObj = g.qte.qObj → Handled g msg { g with qte := qte } :=
    fun hq => ⟨rfl, rfl, hq, Nat.lt_add_of_pos_right hpos⟩
  cases msg with
  | getDhtPeers =>
    obtain ⟨tab, -, rfl⟩ := map_eq_some_iff.1 h
    exact hsend (by decide : 1 < 2)
  | dhtPeers tab =>
    obtain rfl := some.inj h
    exact ⟨rfl, rfl, rfl, Nat.lt_add_of_pos_right hpos⟩
  | getDesc t =>
    obtain rfl := some.inj h
    exact hsend (by decide : 2 < 3)
  | desc reply =>
    cases reply with
    | notFound versions =>
      obtain rfl := some.inj h
      exact hentry rfl
    | found odTab =>
      obtain rfl := some.inj h
      exact hsend (by decide : 1 < 2)
  | descTable odTab =>
    obtain rfl := some.inj h
    exact hentry (dcgrpcObjGetDesc_qObj _ _)
  -- The error path of `dsgrpc_obj_get` sends nothing, which also takes hops away.
  | getPart i odsc =>
    rw [GetState.handle] at h
    split at h
    · obtain rfl := some.inj h
      exact hentry rfl
    · obtain rfl := some.inj h
      exact hsend (by decide : 1 < 2)
  | part i data =>
    obtain rfl := some.inj h
    exact hentry rfl

/-- The end of a wait leads to the next one, or to the end. -/
theorem proceed_eq_some (h : g.proceed od = some g') :
    g'.phase.ahead < g.phase.ahead ∧ g'.qte.qObj = g.qte.qObj := by
  unfold GetState.proceed at h
  split at h
  · next hphase =>
    obtain rfl := some.inj h
    simp [hphase, getObjDescriptors, GetPhase.ahead]
  · next hphase =>
    obtain rfl := some.inj h
    split <;> simp [hphase, dcgObjDataGet, GetPhase.ahead]
  · next hphase =>
    obtain rfl := some.inj h
    simp [hphase, GetPhase.ahead]
  · cases h

theorem handle_isSome {c : State} (hash : ∃ tab, dsgrpcObjSendDhtPeers S g.qte.qObj.bb = some tab)
    (msg : GetMessage) : ∃ g', GetState.handle S c g msg = some g' := by
  cases msg with
  | getDhtPeers =>
    obtain ⟨tab, htab⟩ := hash
    exact ⟨g.send (.dhtPeers tab), by rw [GetState.handle, htab, map_some]⟩
  | desc reply => cases reply <;> exact ⟨_, rfl⟩
  | getPart i odsc =>
    rw [GetState.handle]
    split <;> exact ⟨_, rfl⟩
  | _ => exact ⟨_, rfl⟩

theorem getStep_qObj {env : Nat → State} (h : getStep S env od g a = some g') : g'.qte.qObj = g.qte.qObj := by
  rcases getStep_cases h with rfl | ⟨msg, rest, -, hhandle⟩ | ⟨-, hproceed⟩
  · rfl
  · exact (handled_of_eq_some hhandle).qObj_eq
  · exact (proceed_eq_some hproceed).2

/-! ## The way to a return -/

section

variable {S : SharedSpace} {env : Nat → State} {od : ObjData}

variable (env od) in
/-- A get that has not returned takes a step towards its end, unless it waits for nothing. -/
theorem exists_step_ahead {g : GetState} (hash : ∃ tab, dsgrpcObjSendDhtPeers S g.qte.qObj.bb = some tab)
    (hwait : g.Blocked → g.messages ≠ []) (hret : ¬ g.Returned) : ∃ a g', getStep S env od g a = some g' ∧
      toLex (g'.phase.ahead, g'.hops) < toLex (g.phase.ahead, g.hops) := by
  -- A blocked get can take one of its messages, any other can go on to its next phase.
  by_cases hblocked : g.Blocked
  · obtain ⟨msg, hmsg⟩ := exists_mem_of_ne_nil _ (hwait hblocked)
    obtain ⟨i, rest, hperm, hstep⟩ := deliver_of_mem S env od hmsg
    obtain ⟨g', hhandle⟩ := handle_isSome (S := S) (c := env g.time)
      (g := { g with messages := rest }) hash msg
    have hhandled := handled_of_eq_some hhandle
    refine ⟨.deliver i, g', hstep.trans hhandle, ?_⟩
    have hsum : g.hops = ({ g with messages := rest } : GetState).hops + msg.hops := by
      have hmap := (hperm.map GetMessage.hops).sum_eq
      rw [map_cons, sum_cons, Nat.add_comm] at hmap
      exact hmap
    rw [Prod.Lex.toLex_lt_toLex, hsum]
    exact Or.inr ⟨congrArg GetPhase.ahead hhandled.phase_eq, hhandled.hops_lt⟩
  · have hawaited : g.awaited = true := Bool.eq_true_of_not_eq_false hblocked
    have hproceed : ∃ g', g.proceed od = some g' := by
      unfold GetState.proceed
      split
      · exact ⟨_, rfl⟩
      · exact ⟨_, rfl⟩
      · exact ⟨_, rfl⟩
      · next result hphase => exact absurd ⟨result, hphase⟩ hret
    obtain ⟨g', hg'⟩ := hproceed
    refine ⟨.resume, g', by rw [getStep, if_pos hawaited, hg'], ?_⟩
    rw [Prod.Lex.toLex_lt_toLex]
    exact Or.inl (proceed_eq_some hg').1

/-- If a get never comes to wait for nothing, then it can always return. -/
theorem exists_return {g : GetState} (hash : ∃ tab, dsgrpcObjSendDhtPeers S g.qte.qObj.bb = some tab)
    (hwait : ∀ g', Reaches (getStep S env od) g g' → g'.Blocked → g'.messages ≠ []) :
    ∃ g', Reaches (getStep S env od) g g' ∧ g'.Returned := by
  -- Every step comes closer to the end, first by the waits and then by the hops.
  apply exists_reaches_of_work (fun g : GetState => toLex (g.phase.ahead, g.hops))
    (P := fun g => (∃ tab, dsgrpcObjSendDhtPeers S g.qte.qObj.bb = some tab) ∧
      ∀ g', Reaches (getStep S env od) g g' → g'.Blocked → g'.messages ≠ []) _ ⟨hash, hwait⟩
  rintro g ⟨hash, hwait⟩ hret
  obtain ⟨a, g', hstep, hlt⟩ := exists_step_ahead env od hash (hwait g (Reaches.refl g)) hret
  refine ⟨a, g', hstep, ⟨?_, fun g'' hg'' => hwait g'' (hg''.head hstep)⟩, hlt⟩
  rw [getStep_qObj hstep]
  exact hash

end

/-! ## The second wait -/

section

/-- The peer of a request for descriptors. -/
def GetMessage.askedPeer : GetMessage → Option Nat
  | .getDesc t => some t
  | _ => none

/-- An answer with descriptors, or its table. -/
def GetMessage.arriving : GetMessage → Option DescReply
  | .desc reply => some reply
  | .descTable odTab => some (.found odTab)
  | _ => none

def GetMessage.isDesc (msg : GetMessage) : Bool := msg.askedPeer.isSome || msg.arriving.isSome

theorem length_of_isDesc {l : List GetMessage} (h : ∀ msg ∈ l, msg.isDesc = true) :
    (l.filterMap GetMessage.askedPeer).length + (l.filterMap GetMessage.arriving).length = l.length := by
  induction l with
  | nil => rfl
  | cons msg l ih =>
    have hl := ih fun msg' hmsg' => h msg' (mem_cons_of_mem _ hmsg')
    have hmsg := h msg mem_cons_self
    cases msg with
    | getDesc _ | desc _ | descTable _ =>
      simp only [filterMap_cons, GetMessage.askedPeer, GetMessage.arriving, length_cons]
      omega
    | _ => cases hmsg

/-- The answer of server `t` at the time `τ t`. -/
def answerAt (env : Nat → State) (q : ObjDescriptor) (τ : Nat → Nat) (t : Nat) : DescReply :=
  dsgrpcObjGetDesc ((env (τ t)).servers t) q

/-- During the second wait every peer has been asked, has answered, or its answer has been counted. The
servers `answeredBy` have answered, at the times `τ`, and `replies` have been counted. -/
structure DescInv (env : Nat → State) (q : ObjDescriptor) (peers : List Nat) (start : Nat) (τ : Nat → Nat)
    (answeredBy : List Nat) (replies : List DescReply) (g : GetState) : Prop where
  phase_eq : g.phase = .descriptors
  kind : ∀ msg ∈ g.messages, msg.isDesc = true
  asked : (g.messages.filterMap GetMessage.askedPeer ++ answeredBy).Perm peers
  arrive : (g.messages.filterMap GetMessage.arriving ++ replies).Perm
    (answeredBy.map (answerAt env q τ))
  times : ∀ t ∈ answeredBy, start ≤ τ t ∧ τ t ≤ g.time
  started : start ≤ g.time
  entry : QteInv q peers.length replies g.qte

namespace DescInv

variable {S : SharedSpace} {env : Nat → State} {q : ObjDescriptor} {peers : List Nat} {start : Nat}
  {τ : Nat → Nat} {answeredBy : List Nat} {replies : List DescReply} {g g' : GetState}

section

variable (h : DescInv env q peers start τ answeredBy replies g)

include h

theorem later {n : Nat} (hn : g.time ≤ n) :
    DescInv env q peers start τ answeredBy replies { g with time := n } :=
  { h with
    times := fun t ht => ⟨(h.times t ht).1, (h.times t ht).2.trans hn⟩
    started := h.started.trans hn }

theorem count : g.messages.length + replies.length = peers.length := by
  have hasked := h.asked.length_eq
  have harrive := h.arrive.length_eq
  have hlen := length_of_isDesc h.kind
  rw [length_append] at hasked harrive
  rw [length_map] at harrive
  omega

/-- Nothing is under way exactly when all answers have been counted. -/
theorem messages_eq_nil_iff (hne : peers ≠ []) : g.messages = [] ↔ g.qte.fOdscRecv = true := by
  have hcount := h.count
  have hpos := length_pos_iff.2 hne
  rw [h.entry.fOdscRecv_eq, decide_eq_true_iff, ← length_eq_zero_iff]
  omega

theorem asked_of_perm {l : List GetMessage} (hperm : g.messages.Perm l) :
    (l.filterMap GetMessage.askedPeer ++ answeredBy).Perm peers :=
  ((hperm.filterMap _).symm.append_right _).trans h.asked

theorem arrive_of_perm {l : List GetMessage} (hperm : g.messages.Perm l) :
    (l.filterMap GetMessage.arriving ++ replies).Perm (answeredBy.map (answerAt env q τ)) :=
  ((hperm.filterMap _).symm.append_right _).trans h.arrive

theorem st_of_arriving {reply : DescReply} (hreply : reply ∈ g.messages.filterMap GetMessage.arriving) :
    ∀ o ∈ reply.table, o.st = q.st := by
  intro o ho
  obtain ⟨t, -, rfl⟩ := mem_map.1 (h.arrive.mem_iff.1 (mem_append_left _ hreply))
  exact st_of_mem_table ho

end

variable {rest : List GetMessage}

section

variable (h : DescInv env q peers start τ answeredBy replies g)

include h

/-- A message is followed by another one. -/
theorem kind_send {msg next : GetMessage} (hperm : g.messages.Perm (msg :: rest)) (hnext : next.isDesc = true) :
    ∀ msg' ∈ rest ++ [next], msg'.isDesc = true :=
  forall_mem_append.2 ⟨fun msg' hmsg' => h.kind msg' (hperm.mem_iff.2 (mem_cons_of_mem _ hmsg')),
    forall_mem_singleton.2 hnext⟩

/-- A server answers a request. -/
theorem answer (hnd : peers.Nodup) {t : Nat} (hperm : g.messages.Perm (.getDesc t :: rest)) :
    DescInv env q peers start (update τ t g.time) (answeredBy ++ [t]) replies
      (GetState.send { g with messages := rest }
        (.desc (dsgrpcObjGetDesc ((env g.time).servers t) q))) where
  phase_eq := h.phase_eq
  kind := h.kind_send hperm rfl
  asked := by
    have hasked := h.asked_of_perm hperm
    refine Perm.trans ?_ hasked
    simp only [GetState.send, filterMap_append, filterMap_cons, GetMessage.askedPeer,
      filterMap_nil, append_nil, ← append_assoc]
    exact perm_append_singleton t _
  arrive := by
    have harrive := h.arrive_of_perm hperm
    -- The peer has not answered before.
    have hnew : t ∉ answeredBy := by
      have hnodup := (h.asked_of_perm hperm).nodup_iff.2 hnd
      rw [filterMap_cons, GetMessage.askedPeer, cons_append, nodup_cons] at hnodup
      exact fun ht => hnodup.1 (mem_append_right _ ht)
    have hsame : answeredBy.map (answerAt env q (update τ t g.time)) =
        answeredBy.map (answerAt env q τ) := by
      refine map_congr_left fun u hu => ?_
      rw [answerAt, answerAt, update_of_ne (ne_of_mem_of_not_mem hu hnew)]
    simp only [GetState.send, filterMap_append, filterMap_cons, GetMessage.arriving,
      filterMap_nil, map_append, map_cons, map_nil, hsame] at harrive ⊢
    have hnow : answerAt env q (update τ t g.time) t =
        dsgrpcObjGetDesc ((env g.time).servers t) q := by
      rw [answerAt, update_self]
    rw [hnow, append_assoc]
    refine Perm.trans ?_ (harrive.append_right _)
    rw [append_assoc]
    exact Perm.append_left _ perm_append_comm
  times := by
    intro u hu
    by_cases hut : u = t
    · rw [hut, update_self]
      exact ⟨h.started, le_rfl⟩
    · rw [update_of_ne hut]
      rcases mem_append.1 hu with hu | hu
      · exact h.times u hu
      · exact absurd (mem_singleton.1 hu) hut
  started := h.started
  entry := h.entry

/-- An answer is counted: at once if it is not-found, otherwise with its table. -/
theorem receive {msg : GetMessage} {reply : DescReply} (hmsg : msg.askedPeer = none)
    (hreply : msg.arriving = some reply) (hperm : g.messages.Perm (msg :: rest)) :
    DescInv env q peers start τ answeredBy (replies ++ [reply])
      { g with messages := rest, qte := dcgrpcObjGetDesc g.qte reply } where
  phase_eq := h.phase_eq
  kind := fun msg' hmsg' => h.kind msg' (hperm.mem_iff.2 (mem_cons_of_mem _ hmsg'))
  asked := by
    have hasked := h.asked_of_perm hperm
    rwa [filterMap_cons, hmsg] at hasked
  arrive := by
    have harrive := h.arrive_of_perm hperm
    rw [filterMap_cons, hreply] at harrive
    refine Perm.trans ?_ harrive
    rw [← append_assoc]
    exact perm_append_singleton reply _
  times := h.times
  started := h.started
  entry := by
    refine h.entry.step reply (h.st_of_arriving ?_)
    exact mem_filterMap.2 ⟨msg, hperm.mem_iff.2 mem_cons_self, hreply⟩

/-- The client starts to fetch a table. -/
theorem fetch {odTab : List ObjDescriptor} (hperm : g.messages.Perm (.desc (.found odTab) :: rest)) :
    DescInv env q peers start τ answeredBy replies
      (GetState.send { g with messages := rest } (.descTable odTab)) where
  phase_eq := h.phase_eq
  kind := h.kind_send hperm rfl
  asked := by
    have hasked := h.asked_of_perm hperm
    simpa [GetState.send, filterMap_cons, GetMessage.askedPeer] using hasked
  arrive := by
    have harrive := h.arrive_of_perm hperm
    refine Perm.trans ?_ harrive
    simp only [GetState.send, filterMap_append, filterMap_cons, GetMessage.arriving, filterMap_nil]
    exact (perm_append_singleton _ _).append_right _
  times := h.times
  started := h.started
  entry := h.entry

/-- A message arrives during the second wait. -/
theorem handle (hnd : peers.Nodup) {msg : GetMessage} (hperm : g.messages.Perm (msg :: rest))
    (hhandle : GetState.handle S (env g.time) { g with messages := rest } msg = some g') :
    ∃ τ' answeredBy' replies', DescInv env q peers start τ' answeredBy' replies' g' := by
  have hkind := h.kind msg (hperm.mem_iff.2 mem_cons_self)
  cases msg with
  | getDesc t =>
    obtain rfl := some.inj hhandle
    simp only [h.entry.qObj_eq]
    exact ⟨_, _, _, h.answer hnd hperm⟩
  | desc reply =>
    cases reply with
    | notFound versions =>
      obtain rfl := some.inj hhandle
      exact ⟨_, _, _, h.receive rfl rfl hperm⟩
    | found odTab =>
      obtain rfl := some.inj hhandle
      exact ⟨_, _, _, h.fetch hperm⟩
  | descTable odTab =>
    obtain rfl := some.inj hhandle
    exact ⟨_, _, _, h.receive rfl rfl hperm⟩
  | _ => cases hkind

end

/-! ### All answers have been counted -/

variable (h : DescInv env q peers start τ answeredBy replies g) (hdone : g.messages = [])

include h hdone

theorem answeredBy_perm : answeredBy.Perm peers := by
  have hasked := h.asked
  rwa [hdone] at hasked

theorem replies_perm : replies.Perm (peers.map (answerAt env q τ)) := by
  have harrive := h.arrive
  rw [hdone] at harrive
  exact harrive.trans ((h.answeredBy_perm hdone).map _)

theorem mem_answered {p : ObjDescriptor} : p ∈ answered replies ↔
      ∃ t ∈ peers, ∃ o ∈ dhtFindEntryAll ((env (τ t)).servers t).entSelf q, clip q o = p := by
  rw [answered, ((h.replies_perm hdone).flatMap_right _).mem_iff]
  simp only [answerAt, flatMap_map, mem_flatMap, dsgrpcObjGetDesc_table, mem_map]

theorem fErr_eq_false_iff :
    g.qte.fErr = false ↔ ∀ t ∈ peers, dhtFindEntryAll ((env (τ t)).servers t).entSelf q ≠ [] := by
  rw [h.entry.fErr_eq, any_eq_false]
  simp only [(h.replies_perm hdone).mem_iff, forall_mem_map, answerAt, dsgrpcObjGetDesc_isNotFound,
    List.isEmpty_iff, ne_eq]

end DescInv

end

/-! ## The third wait -/

section

def GetMessage.isPart : GetMessage → Bool
  | .getPart _ _ => true
  | .part _ _ => true
  | _ => false

/-- During the third wait every piece has been asked for, is under way, has been counted, or is lost. -/
structure PartsInv (lost : Nat) (g : GetState) : Prop where
  phase_eq : g.phase = .parts
  kind : ∀ msg ∈ g.messages, msg.isPart = true
  count : g.qte.numPartsRec + g.messages.length + lost = g.qte.sizeOd
  complete_eq : g.qte.fComplete = decide (g.qte.numPartsRec = g.qte.sizeOd)

namespace PartsInv

variable {S : SharedSpace} {c : State} {od : ObjData} {lost : Nat} {g g' : GetState} (h : PartsInv lost g)

include h

theorem later (n : Nat) : PartsInv lost { g with time := n } := { h with }

variable {msg : GetMessage} {rest : List GetMessage}

/-- The owner of a piece does not answer. -/
theorem lose (hperm : g.messages.Perm (msg :: rest)) :
    PartsInv (lost + 1) { g with messages := rest } where
  phase_eq := h.phase_eq
  kind := fun msg' hmsg' => h.kind msg' (hperm.mem_iff.2 (mem_cons_of_mem _ hmsg'))
  count := by
    have hcount := h.count
    rw [hperm.length_eq, length_cons] at hcount
    push_cast at hcount ⊢
    omega
  complete_eq := h.complete_eq

/-- A message arrives during the third wait. A request is lost if the owner has no object for it. -/
theorem handle (hperm : g.messages.Perm (msg :: rest))
    (hhandle : GetState.handle S c { g with messages := rest } msg = some g') :
    (PartsInv lost g' ∧ ∀ i odsc, .getPart i odsc ∈ g'.messages → .getPart i odsc ∈ g.messages) ∨
      PartsInv (lost + 1) g' ∧
        ∃ i odsc, msg = .getPart i odsc ∧ dsgrpcObjGet (c.servers odsc.owner) odsc = none := by
  have hkind := h.kind msg (hperm.mem_iff.2 mem_cons_self)
  have hrest : ∀ msg' ∈ rest, msg' ∈ g.messages := fun msg' hmsg' =>
    hperm.mem_iff.2 (mem_cons_of_mem _ hmsg')
  have hlen : g.messages.length = rest.length + 1 := hperm.length_eq
  have hcount := h.count
  cases msg with
  | getPart i odsc =>
    rw [GetState.handle] at hhandle
    split at hhandle
    · next hnone =>
      obtain rfl := some.inj hhandle
      exact Or.inr ⟨h.lose hperm, i, odsc, rfl, hnone⟩
    · next data hsome =>
      obtain rfl := some.inj hhandle
      refine Or.inl ⟨⟨h.phase_eq, fun msg' hmsg' => ?_, ?_, h.complete_eq⟩, fun j o hmsg' => ?_⟩
      · rcases mem_append.1 hmsg' with hmsg' | hmsg'
        · exact h.kind msg' (hrest msg' hmsg')
        · rw [mem_singleton.1 hmsg']
          rfl
      · rw [GetState.send, length_append, length_singleton, ← hlen]
        exact hcount
      · rcases mem_append.1 hmsg' with hmsg' | hmsg'
        · exact hrest _ hmsg'
        · cases mem_singleton.1 hmsg'
  | part i data =>
    obtain rfl := some.inj hhandle
    rw [hlen] at hcount
    push_cast at hcount
    refine Or.inl ⟨⟨h.phase_eq, fun msg' hmsg' => h.kind msg' (hrest msg' hmsg'), ?_, ?_⟩,
      fun j o hmsg' => hrest _ hmsg'⟩
    · show g.qte.numPartsRec + 1 + rest.length + lost = g.qte.sizeOd
      omega
    · -- Before this part some piece was missing.
      show (g.qte.fComplete || g.qte.numPartsRec + 1 == g.qte.sizeOd) =
        decide (g.qte.numPartsRec + 1 = g.qte.sizeOd)
      have hno : g.qte.fComplete = false := by
        rw [h.complete_eq, decide_eq_false_iff_not]
        omega
      rw [hno, Bool.false_or]
      rfl
  | _ => cases hkind

/-- The third wait is over when nothing is under way and nothing is lost. -/
theorem fComplete_iff : g.qte.fComplete = true ↔ g.messages = [] ∧ lost = 0 := by
  have hcount := h.count
  rw [h.complete_eq, decide_eq_true_iff, ← length_eq_zero_iff]
  omega

/-- What is lost is not found again. -/
theorem not_returned {env : Nat → State} (hpos : 0 < lost) (hreach : Reaches (getStep S env od) g g') :
    ¬ g'.Returned := by
  have hinv : ∃ lost, 0 < lost ∧ PartsInv lost g' := by
    refine hreach.invariant (P := fun g => ∃ lost, 0 < lost ∧ PartsInv lost g) ⟨lost, hpos, h⟩ ?_
    rintro g a g' ⟨lost, hpos, h⟩ hstep
    rcases getStep_cases hstep with rfl | ⟨msg, rest, hperm, hhandle⟩ | ⟨hawaited, -⟩
    · exact ⟨lost, hpos, h.later _⟩
    · rcases h.handle hperm hhandle with ⟨h', -⟩ | ⟨h', -⟩
      · exact ⟨lost, hpos, h'⟩
      · exact ⟨lost + 1, Nat.succ_pos _, h'⟩
    · rw [GetState.awaited, h.phase_eq] at hawaited
      exact absurd (h.fComplete_iff.1 hawaited).2 hpos.ne'
  obtain ⟨lost', -, h'⟩ := hinv
  rintro ⟨result, hresult⟩
  rw [h'.phase_eq] at hresult
  cases hresult

end PartsInv

variable {env : Nat → State} {q : ObjDescriptor} {peers answeredBy : List Nat} {start : Nat} {τ : Nat → Nat}
  {replies : List DescReply}

/-- The third wait begins: every kept piece is asked for. -/
theorem DescInv.parts {g : GetState}
    (h : DescInv env q peers start τ answeredBy replies g) (hne : peers ≠ []) (hdone : g.messages = [])
    (herr : g.qte.fErr = false) : PartsInv 0 (dcgObjDataGet g) where
  phase_eq := rfl
  kind := by
    intro msg hmsg
    simp only [dcgObjDataGet, hdone, nil_append] at hmsg
    obtain ⟨p, -, rfl⟩ := mem_map.1 hmsg
    rfl
  count := by
    show g.qte.numPartsRec + ((dcgObjDataGet g).messages.length : Int) + (0 : Nat) = g.qte.sizeOd
    rw [h.entry.numPartsRec_eq, h.entry.sizeOd_eq]
    simp [dcgObjDataGet, hdone]
  complete_eq := by
    -- Some peer answered with a descriptor, so there is a piece.
    obtain ⟨t, ht⟩ := exists_mem_of_ne_nil _ hne
    obtain ⟨o, ho⟩ := exists_mem_of_ne_nil _ ((h.fErr_eq_false_iff hdone).1 herr t ht)
    obtain ⟨p, hp, -⟩ := exists_mem_foldl_addNew objDescEquals_iff_pieceKey
      ((h.mem_answered hdone).2 ⟨t, ht, o, ho, rfl⟩)
    have hpos : 0 < (pieces (answered replies)).length := length_pos_of_mem hp
    show g.qte.fComplete = decide (g.qte.numPartsRec = g.qte.sizeOd)
    rw [h.entry.fComplete_eq, h.entry.numPartsRec_eq, h.entry.sizeOd_eq, h.entry.odList_eq, length_map]
    symm
    rw [decide_eq_false_iff_not]
    omega

theorem DescInv.mem_parts {g : GetState}
    (h : DescInv env q peers start τ answeredBy replies g) (hdone : g.messages = []) {odsc : ObjDescriptor} :
    (∃ i, .getPart i odsc ∈ (dcgObjDataGet g).messages) ↔
      ∃ p ∈ pieces (answered replies), { p with version := q.version } = odsc := by
  have hmem : ∀ i, .getPart i odsc ∈ (dcgObjDataGet g).messages ↔
      ∃ p, (pieces (answered replies))[i]? = some p ∧ { p with version := q.version } = odsc := by
    intro i
    simp only [dcgObjDataGet, hdone, nil_append, mem_map, Prod.exists,
      mk_mem_zipIdx_iff_getElem?, GetMessage.getPart.injEq, h.entry.odList_eq, h.entry.qObj_eq,
      getElem?_map, map_eq_some_iff]
    constructor
    · rintro ⟨_, i', ⟨p, hp, rfl⟩, rfl, hodsc⟩
      exact ⟨p, hp, hodsc⟩
    · rintro ⟨p, hp, hodsc⟩
      exact ⟨objDataAlloc p, i, ⟨p, hp, rfl⟩, rfl, hodsc⟩
  simp only [hmem, mem_iff_getElem?]
  exact ⟨fun ⟨i, p, hp, hodsc⟩ => ⟨p, ⟨i, hp⟩, hodsc⟩, fun ⟨p, ⟨i, hp⟩, hodsc⟩ => ⟨i, p, hp, hodsc⟩⟩

end

end DataSpaces.Cluster
