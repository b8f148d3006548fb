import DataSpaces.Cluster.Servers
import DataSpaces.Store.Overlap
import DataSpaces.Dart.Sends

/-!
# A put that fails at the server

`dsgrpc_obj_put` allocates the object and a message, posts the transfer of the data and updates the
directory. When one of these fails it frees the message and the object and returns an error. The callback of
the transfer, `obj_put_completion`, adds the object to the storage and frees the message too; it runs inside
`rpc_receive_direct` on some transports and later on others.

`failed_obj_put_iff` says which failures leave no trace: those before the transfer is posted. A failed
directory update after it leaves a freed object in the storage, or a transfer that will put it there, and the
message is freed twice; the peers that were updated before keep their entries. The buffer of the data is
allocated apart from the object, and no error path frees it.
-/

namespace DataSpaces.Cluster.Failing

open Lib Geometry Space Store Dart List Function

/-! ## The source -/

/-- When the callback of a transfer runs: before `rpc_receive_direct` returns, or after it. -/
inductive Timing where
  | before
  | later
deriving DecidableEq, Repr

/-- What the surroundings of the server decide during a put. -/
structure PutFaults where
  timing : Timing
  /-- `obj_data_alloc` -/
  odObtained : Bool
  /-- `msg_buf_alloc` -/
  msgObtained : Bool
  /-- `rpc_receive_direct`; a positive result means that nothing was posted -/
  receiveErr : Int
  /-- the update message to each of the peers in the order of `dht_tab` -/
  sends : Nat → SendResult
  /-- `cq_check_match`, called by the first peer -/
  matchErr : Int

/-- The update of one peer: the error, and whether the peer has or will get an entry; `-12` is `-ENOMEM`. -/
def updatePeer (s minRank : Nat) (matchErr : Int) (peer : Nat) (send : SendResult) : Int × Bool :=
  if peer = s then (if s = minRank ∧ matchErr < 0 then matchErr else 0, true)
  else
    match send with
    | .noMsg => (-12, false)
    | .result err queued => if err < 0 then (err, queued) else (0, true)

/-- The end of `obj_put_update_dht`, with the peers that have or will get an entry. -/
structure UpdateDht where
  err : Int
  entries : List Nat
deriving DecidableEq, Repr

/-- The loop of `obj_put_update_dht`. -/
def updateLoop (s minRank : Nat) (matchErr : Int) : List Nat → (Nat → SendResult) → UpdateDht
  | [], _ => ⟨0, []⟩
  | peer :: rest, sends =>
    let u := updatePeer s minRank matchErr peer (sends 0)
    let made := if u.2 then [peer] else []
    if u.1 < 0 then ⟨u.1, made⟩
    else
      let r := updateLoop s minRank matchErr rest fun i => sends (i + 1)
      ⟨r.err, made ++ r.entries⟩

def objPutUpdateDht (s : Nat) (dhtTab : List Nat) (f : PutFaults) : UpdateDht :=
  updateLoop s (dhtTab.headD 0) f.matchErr dhtTab f.sends

/-- The memory of a put. `obj_data_alloc` allocates the object and the buffer of its data. -/
inductive Block where
  | od
  | data
  | msg
deriving DecidableEq, Repr

/-- The result of a put. The freed blocks are those of the call and of the callback of its transfer, whether
it has run or not. -/
structure ObjPut where
  err : Int
  allocated : List Block
  freed : List Block
  posted : Bool
  entries : List Nat
deriving DecidableEq, Repr

def objPut (s : Nat) (dhtTab : List Nat) (f : PutFaults) : ObjPut :=
  if f.odObtained = false then ⟨-12, [], [], false, []⟩
  else if f.msgObtained = false then ⟨-12, [.od, .data], [.od], false, []⟩
  else if f.receiveErr < 0 then ⟨f.receiveErr, [.od, .data, .msg], [.msg, .od], false, []⟩
  else
    let posted := decide (f.receiveErr = 0)
    let callback := if posted then [Block.msg] else []
    let r := objPutUpdateDht s dhtTab f
    if r.err = 0 then ⟨0, [.od, .data, .msg], callback, posted, r.entries⟩
    else ⟨r.err, [.od, .data, .msg], callback ++ [.msg, .od], posted, r.entries⟩

/-- The transfer of the object: its callback has run, or it is under way. -/
def receiveData (timing : Timing) (s : Nat) (od : ObjData) (c : State) : State :=
  match timing with
  | .before => { c with
      servers := update c.servers s { c.servers s with ls := lsAddObj (c.servers s).ls od } }
  | .later => { c with receiving := update c.receiving s (c.receiving s ++ [od]) }

/-- The entries of the descriptor. -/
def recordEntries (s : Nat) (odsc : ObjDescriptor) (entries : List Nat) (c : State) : State :=
  entries.foldl (fun c t => if t = s then c.addEntrySelf s odsc else c.sendUpdate s t odsc) c

/-- The servers after a put with a given result. -/
def ObjPut.state (r : ObjPut) (timing : Timing) (s : Nat) (od : ObjData) (c : State) : State :=
  recordEntries s (ownedBy s od).objDesc r.entries
    (if r.posted then receiveData timing s (ownedBy s od) c else c)

/-- A put request at server `s`, with its failures. -/
def dsgrpcObjPut (S : SharedSpace) (s : Nat) (od : ObjData) (f : PutFaults) (c : State) : ObjPut × State :=
  let r := objPut s (S.peers od.objDesc.bb) f
  (r, r.state f.timing s od c)

/-! ## The statement -/

/-- Every allocated block among `blocks` is freed once. -/
def FreedOnce (blocks allocated freed : List Block) : Prop :=
  ∀ b ∈ allocated, b ∈ blocks → freed.count b = 1

/-- The put has stored nothing and will store nothing, it has made no entry, and the servers are as before. -/
structure NoTrace (blocks : List Block) (r : ObjPut) (c c' : State) : Prop where
  posted : r.posted = false
  entries : r.entries = []
  state : c' = c
  freed : FreedOnce blocks r.allocated r.freed

/-- A put that returns an error leaves no trace. -/
def FailsClean (blocks : List Block) (S : SharedSpace) (s : Nat) (od : ObjData) (f : PutFaults) (c : State) :
    Prop :=
  (dsgrpcObjPut S s od f c).1.err < 0 →
    NoTrace blocks (dsgrpcObjPut S s od f c).1 c (dsgrpcObjPut S s od f c).2

/-- The update of the `k`-th peer. -/
def PutFaults.peerUpdate (f : PutFaults) (s : Nat) (dhtTab : List Nat) (k : Nat) (peer : Nat) : Int × Bool :=
  updatePeer s (dhtTab.headD 0) f.matchErr peer (f.sends k)

/-- The updates of the directory fail at the `k`-th peer. -/
structure UpdateFails (s : Nat) (dhtTab : List Nat) (f : PutFaults) (k : Nat) (peer : Nat) : Prop where
  getElem : dhtTab[k]? = some peer
  before : ∀ j < k, ∀ u, dhtTab[j]? = some u → 0 ≤ (f.peerUpdate s dhtTab j u).1
  fails : (f.peerUpdate s dhtTab k peer).1 < 0

/-- The data is received, now or later, or was not posted. -/
structure Received (f : PutFaults) : Prop where
  od : f.odObtained = true
  msg : f.msgObtained = true
  receive : 0 ≤ f.receiveErr

/-- Once the data was received, the directory fails at most at its first peer, without an entry, and the
transfer was not posted. -/
def FailsUnposted (s : Nat) (dhtTab : List Nat) (f : PutFaults) : Prop :=
  Received f → ∀ k peer, UpdateFails s dhtTab f k peer →
    0 < f.receiveErr ∧ k = 0 ∧ (f.peerUpdate s dhtTab k peer).2 = false

/-- Nothing fails once there is an object. -/
def FailsUnallocated (s : Nat) (dhtTab : List Nat) (f : PutFaults) : Prop :=
  f.odObtained = true → Received f ∧ ∀ k peer, ¬ UpdateFails s dhtTab f k peer

/-! ## The updates of the directory -/

theorem updatePeer_entry {s minRank peer : Nat} {matchErr : Int} {send : SendResult}
    (h : 0 ≤ (updatePeer s minRank matchErr peer send).1) :
    (updatePeer s minRank matchErr peer send).2 = true := by
  unfold updatePeer at h ⊢
  by_cases hself : peer = s
  · rw [if_pos hself]
  · rw [if_neg hself] at h ⊢
    cases send with
    | noMsg => exact absurd h (by decide)
    | result err queued =>
      dsimp only at h ⊢
      by_cases hneg : err < 0
      · rw [if_pos hneg] at h
        exact absurd h (not_le.2 hneg)
      · rw [if_neg hneg]

/-- The loop updates all peers, or ends at the first whose update fails. -/
theorem updateLoop_cases (s minRank : Nat) (matchErr : Int) (peers : List Nat) (sends : Nat → SendResult) :
    let update := fun k peer => updatePeer s minRank matchErr peer (sends k)
    ((∀ k peer, peers[k]? = some peer → 0 ≤ (update k peer).1) ∧
      updateLoop s minRank matchErr peers sends = ⟨0, peers⟩) ∨
    (∃ k peer, peers[k]? = some peer ∧ (∀ j < k, ∀ u, peers[j]? = some u → 0 ≤ (update j u).1) ∧
      (update k peer).1 < 0 ∧ updateLoop s minRank matchErr peers sends =
        ⟨(update k peer).1, peers.take k ++ if (update k peer).2 then [peer] else []⟩) := by
  induction peers generalizing sends with
  | nil => exact Or.inl ⟨fun _ _ hu => (Option.some_ne_none _ hu.symm).elim, rfl⟩
  | cons peer rest ih =>
    dsimp only
    rw [updateLoop]
    by_cases hneg : (updatePeer s minRank matchErr peer (sends 0)).1 < 0
    · simp only [if_pos hneg]
      exact Or.inr ⟨0, peer, rfl, fun _ hj => (Nat.not_lt_zero _ hj).elim, hneg, rfl⟩
    · have hok := not_lt.1 hneg
      simp only [if_neg hneg, updatePeer_entry hok, if_true]
      rcases ih fun i => sends (i + 1) with ⟨hall, heq⟩ | ⟨k, t, hk, hbefore, hfails, heq⟩
      · refine Or.inl ⟨fun k u hu => ?_, by rw [heq]; rfl⟩
        cases k with
        | zero =>
          cases hu
          exact hok
        | succ k => exact hall k u hu
      · refine Or.inr ⟨k + 1, t, hk, fun j hj u hu => ?_, hfails, by rw [heq]; rfl⟩
        cases j with
        | zero =>
          cases hu
          exact hok
        | succ j => exact hbefore j (Nat.lt_of_succ_lt_succ hj) u hu

section

variable {s : Nat} {dhtTab : List Nat} {f : PutFaults}

variable (s dhtTab f) in
/-- The updates succeed at all peers, or fail at one of them. -/
theorem objPutUpdateDht_cases :
    ((∀ k peer, ¬ UpdateFails s dhtTab f k peer) ∧ objPutUpdateDht s dhtTab f = ⟨0, dhtTab⟩) ∨
    (∃ k peer, UpdateFails s dhtTab f k peer ∧ objPutUpdateDht s dhtTab f = ⟨(f.peerUpdate s dhtTab k peer).1,
        dhtTab.take k ++ if (f.peerUpdate s dhtTab k peer).2 then [peer] else []⟩) := by
  rcases updateLoop_cases s (dhtTab.headD 0) f.matchErr dhtTab f.sends with
    ⟨hall, heq⟩ | ⟨k, peer, hk, hbefore, hfails, heq⟩
  · exact Or.inl ⟨fun k peer h => absurd h.fails (not_lt.2 (hall k peer h.getElem)), heq⟩
  · exact Or.inr ⟨k, peer, ⟨hk, hbefore, hfails⟩, heq⟩

theorem UpdateFails.eq {k k' peer peer' : Nat} (h : UpdateFails s dhtTab f k peer)
    (h' : UpdateFails s dhtTab f k' peer') : k = k' ∧ peer = peer' := by
  have hk : k = k' := by
    rcases Nat.lt_trichotomy k k' with hlt | heq | hgt
    · exact absurd h.fails (not_lt.2 (h'.before k hlt peer h.getElem))
    · exact heq
    · exact absurd h'.fails (not_lt.2 (h.before k' hgt peer' h'.getElem))
  subst hk
  exact ⟨rfl, Option.some.inj (h.getElem.symm.trans h'.getElem)⟩

/-! ## The cases of a put -/

/-- How a put ends. -/
inductive PutEnd (s : Nat) (dhtTab : List Nat) (f : PutFaults) : ObjPut → Prop where
  | noObject (hod : f.odObtained = false) : PutEnd s dhtTab f ⟨-12, [], [], false, []⟩
  | noMsg (hod : f.odObtained = true) (hmsg : f.msgObtained = false) :
      PutEnd s dhtTab f ⟨-12, [.od, .data], [.od], false, []⟩
  | notReceived (hod : f.odObtained = true) (hmsg : f.msgObtained = true) (hneg : f.receiveErr < 0) :
      PutEnd s dhtTab f ⟨f.receiveErr, [.od, .data, .msg], [.msg, .od], false, []⟩
  | ok (hrec : Received f) (hall : ∀ k peer, ¬ UpdateFails s dhtTab f k peer) :
      PutEnd s dhtTab f ⟨0, [.od, .data, .msg], if f.receiveErr = 0 then [.msg] else [],
        decide (f.receiveErr = 0), dhtTab⟩
  | failed {k peer : Nat} (hrec : Received f) (hfails : UpdateFails s dhtTab f k peer) :
      PutEnd s dhtTab f ⟨(f.peerUpdate s dhtTab k peer).1, [.od, .data, .msg],
        (if f.receiveErr = 0 then [.msg] else []) ++ [.msg, .od], decide (f.receiveErr = 0),
        dhtTab.take k ++ if (f.peerUpdate s dhtTab k peer).2 then [peer] else []⟩

theorem putEnd_objPut (s : Nat) (dhtTab : List Nat) (f : PutFaults) :
    PutEnd s dhtTab f (objPut s dhtTab f) := by
  unfold objPut
  cases hod : f.odObtained with
  | false => exact .noObject hod
  | true =>
  cases hmsg : f.msgObtained with
  | false => exact .noMsg hod hmsg
  | true =>
  by_cases hneg : f.receiveErr < 0
  · simp only [if_pos hneg]
    exact .notReceived hod hmsg hneg
  · have hrec : Received f := ⟨hod, hmsg, not_lt.1 hneg⟩
    simp only [if_neg hneg, decide_eq_true_eq]
    rcases objPutUpdateDht_cases s dhtTab f with
      ⟨hall, heq⟩ | ⟨k, peer, hfails, heq⟩
    · rw [heq]
      exact .ok hrec hall
    · rw [heq, if_neg hfails.fails.ne]
      exact .failed hrec hfails

end

/-! ## The result -/

theorem freedOnce_object : FreedOnce [.od, .msg] [.od, .data, .msg] [.msg, .od] := by
  unfold FreedOnce
  decide

theorem freedOnce_nil {blocks freed : List Block} : FreedOnce blocks [] freed :=
  fun _ hb => (not_mem_nil hb).elim

section

variable {blocks : List Block} {S : SharedSpace} {s : Nat} {od : ObjData} {f : PutFaults} {c : State}
  {r : ObjPut} {timing : Timing}

theorem ObjPut.state_eq_self (hposted : r.posted = false)
    (hentries : r.entries = []) : r.state timing s od c = c := by
  rw [ObjPut.state, hposted, hentries]
  rfl

theorem ObjPut.noTrace_iff : NoTrace blocks r c (r.state timing s od c) ↔
      r.posted = false ∧ r.entries = [] ∧ FreedOnce blocks r.allocated r.freed := by
  refine ⟨fun h => ⟨h.posted, h.entries, h.freed⟩, ?_⟩
  rintro ⟨hposted, hentries, hfreed⟩
  exact ⟨hposted, hentries, ObjPut.state_eq_self hposted hentries, hfreed⟩

theorem Received.not_noMsg (h : Received f) : f.msgObtained ≠ false := by
  rw [h.msg]
  decide

theorem Received.not_noObject (h : Received f) : f.odObtained ≠ false := by
  rw [h.od]
  decide

theorem peerEntries_eq_nil {dhtTab : List Nat} {k peer : Nat} {entry : Bool} (hk : dhtTab[k]? = some peer) :
    (dhtTab.take k ++ if entry then [peer] else []) = [] ↔ k = 0 ∧ entry = false := by
  have hne : dhtTab ≠ [] := by
    rintro rfl
    cases hk
  cases entry <;> simp [hne]

theorem failsClean_object_iff :
    FailsClean [.od, .msg] S s od f c ↔ FailsUnposted s (S.peers od.objDesc.bb) f := by
  unfold FailsClean dsgrpcObjPut
  dsimp only
  rw [ObjPut.noTrace_iff]
  have hend := putEnd_objPut s (S.peers od.objDesc.bb) f
  generalize objPut s (S.peers od.objDesc.bb) f = r at hend ⊢
  cases hend with
  | noObject hod =>
    exact iff_of_true (fun _ => ⟨rfl, rfl, freedOnce_nil⟩) fun hrec => (hrec.not_noObject hod).elim
  | noMsg hod hmsg =>
    refine iff_of_true (fun _ => ⟨rfl, rfl, ?_⟩) fun hrec => (hrec.not_noMsg hmsg).elim
    unfold FreedOnce
    decide
  | notReceived hod hmsg hneg =>
    exact iff_of_true (fun _ => ⟨rfl, rfl, freedOnce_object⟩) fun hrec => absurd hrec.receive (not_le.2 hneg)
  | ok hrec hall =>
    exact iff_of_true (fun hlt => absurd hlt (lt_irrefl 0)) fun _ k peer h => (hall k peer h).elim
  | @failed k peer hrec hfails =>
    rw [peerEntries_eq_nil hfails.getElem, decide_eq_false_iff_not]
    constructor
    · -- The failing peer is the only one.
      rintro hclean - k' peer' hfails'
      obtain ⟨rfl, rfl⟩ := hfails.eq hfails'
      obtain ⟨hposted, hentries, -⟩ := hclean hfails.fails
      exact ⟨lt_of_le_of_ne hrec.receive (Ne.symm hposted), hentries⟩
    · intro hclean _
      obtain ⟨hpos, hentries⟩ := hclean hrec k peer hfails
      refine ⟨hpos.ne', hentries, ?_⟩
      rw [if_neg hpos.ne']
      exact freedOnce_object

/-- No path frees the buffer of the data. -/
theorem data_not_mem_freed (dhtTab : List Nat) : .data ∉ (objPut s dhtTab f).freed := by
  have hend := putEnd_objPut s dhtTab f
  generalize objPut s dhtTab f = r at hend ⊢
  cases hend with
  | ok => split <;> simp
  | failed => split <;> simp
  | _ => simp

theorem failsClean_data_iff :
    FailsClean [.od, .data, .msg] S s od f c ↔ FailsUnallocated s (S.peers od.objDesc.bb) f := by
  unfold FailsClean dsgrpcObjPut
  dsimp only
  rw [ObjPut.noTrace_iff]
  have hdata := data_not_mem_freed (s := s) (f := f) (S.peers od.objDesc.bb)
  have hend := putEnd_objPut s (S.peers od.objDesc.bb) f
  generalize objPut s (S.peers od.objDesc.bb) f = r at hend hdata ⊢
  -- An error with an object has not freed the data.
  have hleak : .data ∈ r.allocated → ¬ FreedOnce [.od, .data, .msg] r.allocated r.freed := by
    intro hmem hfreed
    have hone := hfreed .data hmem (by decide)
    rw [count_eq_zero_of_not_mem hdata] at hone
    cases hone
  cases hend with
  | noObject hod =>
    refine iff_of_true (fun _ => ⟨rfl, rfl, freedOnce_nil⟩) fun hobtained => ?_
    rw [hod] at hobtained
    cases hobtained
  | noMsg hod hmsg =>
    refine iff_of_false (fun h => hleak ?_ (h (by decide)).2.2) fun h => ?_
    · exact mem_cons_of_mem _ mem_cons_self
    · exact (h hod).1.not_noMsg hmsg
  | notReceived hod hmsg hneg =>
    refine iff_of_false (fun h => hleak ?_ (h hneg).2.2) fun h => ?_
    · exact mem_cons_of_mem _ mem_cons_self
    · exact absurd (h hod).1.receive (not_le.2 hneg)
  | ok hrec hall => exact iff_of_true (fun hlt => absurd hlt (lt_irrefl 0)) fun _ => ⟨hrec, hall⟩
  | @failed k peer hrec hfails =>
    refine iff_of_false (fun h => hleak ?_ (h hfails.fails).2.2) fun h => ?_
    · exact mem_cons_of_mem _ mem_cons_self
    · exact (h hrec.od).2 k peer hfails

/-- For every put and every point at which it can fail, on transports of both kinds. The object and its
message are released once and nothing else remains, if and only if the put does not fail after its transfer
was posted or an entry was made; with the buffer of the data this holds only if nothing fails once there is an
object. -/
theorem failed_obj_put_iff (S : SharedSpace) (s : Nat) (od : ObjData) (f : PutFaults) (c : State) :
    (FailsClean [.od, .msg] S s od f c ↔ FailsUnposted s (S.peers od.objDesc.bb) f) ∧
      (FailsClean [.od, .data, .msg] S s od f c ↔ FailsUnallocated s (S.peers od.objDesc.bb) f) :=
  ⟨failsClean_object_iff, failsClean_data_iff⟩

end

/-! ## The line over two servers -/

/-- The table of the peer has the descriptor, or the message with it is on its way. -/
def NamedAt (c : State) (s t : Nat) (odsc : ObjDescriptor) : Prop :=
  (∃ i, odsc ∈ (c.servers t).entSelf.odscHash i) ∨ odsc ∈ c.updates s t

/-- The message to server 1 cannot be sent. -/
def secondPeerFails (timing : Timing) : PutFaults where
  timing := timing
  odObtained := true
  msgObtained := true
  receiveErr := 0
  sends := fun _ => .result (-1) false
  matchErr := 0

theorem objPut_secondPeerFails (timing : Timing) :
    objPut 0 (lineSpace.peers (segmentObj 0 3).objDesc.bb) (secondPeerFails timing) =
      ⟨-1, [.od, .data, .msg], [.msg, .msg, .od], true, [0]⟩ := by
  cases timing <;> decide

/-- A put of the whole line at server 0 fails at server 1: its message is freed twice, and server 0 keeps the
freed object and an entry. -/
theorem failed_obj_put_remains :
    let r := dsgrpcObjPut lineSpace 0 (segmentObj 0 3) (secondPeerFails .before) (clusterAlloc 1)
    r.1 = ⟨-1, [.od, .data, .msg], [.msg, .msg, .od], true, [0]⟩ ∧
      (∃ i, ownedBy 0 (segmentObj 0 3) ∈ (r.2.servers 0).ls.objHash i) ∧
      NamedAt r.2 0 0 (ownedBy 0 (segmentObj 0 3)).objDesc ∧
      ¬ FailsClean [.od, .msg] lineSpace 0 (segmentObj 0 3) (secondPeerFails .before) (clusterAlloc 1) ∧
      ¬ FailsClean [.od, .msg] lineSpace 0 (segmentObj 0 3) (secondPeerFails .later) (clusterAlloc 1) := by
  have hresult : ∀ timing,
      (dsgrpcObjPut lineSpace 0 (segmentObj 0 3) (secondPeerFails timing) (clusterAlloc 1)).1 =
        ⟨-1, [.od, .data, .msg], [.msg, .msg, .od], true, [0]⟩ := objPut_secondPeerFails
  have hneg : (-1 : Int) < 0 := by decide
  have hnot : ∀ timing,
      ¬ FailsClean [.od, .msg] lineSpace 0 (segmentObj 0 3) (secondPeerFails timing) (clusterAlloc 1) := by
    intro timing hclean
    have hposted := (hclean (by rw [hresult]; exact hneg)).posted
    rw [hresult] at hposted
    cases hposted
  exact ⟨hresult _, ⟨0, mem_cons_self⟩, Or.inl ⟨0, mem_cons_self⟩, hnot _, hnot _⟩

end DataSpaces.Cluster.Failing
