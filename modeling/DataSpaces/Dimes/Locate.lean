import DataSpaces.Dimes.Get
import DataSpaces.Lib.Runs

/-!
# Locating while requests are posted

`dimes_locate_data` counts a request in `qh_num_req_posted` and then sends it. On InfiniBand `rpc_send`
handles messages before the request leaves, so answers to earlier requests are counted, and compared with
the number of posted requests, while some requests are not posted yet. The comparison is not with the
number of peers.

`locate_counts` says that the wait does not end early: in that window the request that is being sent is
counted and has no answer. The flag is set exactly when every request has been posted and answered, and
then `num_fetch` is the number of fetch entries, one for each owner and part.
-/

namespace DataSpaces.Dimes

open Lib Geometry Store Client List Option

/-! ## The source -/

/-- A query entry while its locations are asked for. -/
structure LocateRun where
  qte : QueryTranEntryD
  /-- the rest of `qh_peerid_tab` in the loop of `dimes_locate_data` -/
  toPost : List Nat
  /-- the peer of the request that is counted and has not left -/
  sending : Option Nat
  /-- peers whose request has left and that have not replied -/
  waiting : List Nat
  /-- tables of locations that are being fetched -/
  receiving : List (List HdrDimesPut)

def locateStart (q : ObjDescriptor) (peers : List Nat) : LocateRun where
  qte := qteAllocD q 0
  toPost := peers
  sending := none
  waiting := []
  receiving := []

inductive LocateEvent where
  /-- the loop counts its next request and calls `rpc_send` -/
  | post
  /-- the request leaves, and `rpc_send` returns -/
  | leave
  /-- the reply of a peer is handled -/
  | reply (peer : Nat) (r : LocateReply)
  /-- the table number `i` has been fetched -/
  | table (i : Nat)

/-- Messages are handled inside `rpc_send`, and in the wait after the loop. -/
def LocateRun.handles (s : LocateRun) : Bool := s.sending.isSome || s.toPost.isEmpty

/-- One event; `none` if it cannot happen. -/
def locateStep (s : LocateRun) : LocateEvent → Option LocateRun
  | .post =>
    match s.sending, s.toPost with
    | none, peer :: rest =>
      some { s with
        qte := { s.qte with qhNumReqPosted := s.qte.qhNumReqPosted + 1 }
        toPost := rest
        sending := some peer }
    | _, _ => none
  | .leave => s.sending.map fun peer => { s with sending := none, waiting := peer :: s.waiting }
  | .reply peer r =>
    if s.handles = true ∧ peer ∈ s.waiting then
      match r with
      | .notFound =>
        some { s with
          qte := dcgrpcDimesLocateData s.qte .notFound
          waiting := s.waiting.erase peer }
      -- A server without locations replies `-1`; the handler takes an empty table for an error.
      | .found [] => none
      | .found (hdr :: tab) =>
        some { s with
          waiting := s.waiting.erase peer
          receiving := (hdr :: tab) :: s.receiving }
    else none
  | .table i =>
    if s.handles = true then
      (s.receiving[i]?).map fun tab =>
        { s with
          qte := dcgrpcDimesLocateData s.qte (.found tab)
          receiving := s.receiving.eraseIdx i }
    else none

/-- All requests have been posted and answered, with their tables. -/
def LocateRun.AllLocated (s : LocateRun) : Prop :=
  s.toPost = [] ∧ s.sending = none ∧ s.waiting = [] ∧ s.receiving = []

/-! ## Runs -/

/-- How many posted requests have no answer. -/
def LocateRun.pending (s : LocateRun) : Nat :=
  s.sending.toList.length + s.waiting.length + s.receiving.length

variable {s s' : LocateRun} {e : LocateEvent}

theorem LocateRun.allLocated_iff : s.AllLocated ↔ s.toPost.length = 0 ∧ s.pending = 0 := by
  have hsending : s.sending = none ↔ s.sending.toList.length = 0 := by cases s.sending <;> simp
  rw [AllLocated, pending, hsending, ← length_eq_zero_iff, ← length_eq_zero_iff (l := s.waiting),
    ← length_eq_zero_iff (l := s.receiving)]
  omega

/-- When messages are handled inside `rpc_send`, the request that is being sent is pending. -/
theorem LocateRun.handles_cases (h : s.handles = true) :
    s.sending.toList.length = 1 ∨ s.toPost.length = 0 := by
  rw [handles, Bool.or_eq_true, isSome_iff_exists, isEmpty_iff_length_eq_zero] at h
  refine h.imp_left fun ⟨peer, hpeer⟩ => ?_
  rw [hpeer]
  rfl

/-- What holds of a query with `numPeer` peers between any two handlers: `toPost` requests have not been
posted, and `pending` posted ones have no answer. -/
structure LocateRunInv (q : ObjDescriptor) (numPeer : Nat) (qte : QueryTranEntryD) (toPost pending : Nat) :
    Prop where
  qObj_eq : qte.qObj = q
  fetchList_eq : ∃ hdrs, qte.fetchList = fetchEntries q hdrs
  numFetch_eq : qte.numFetch = qte.fetchList.length
  posted_eq : qte.qhNumReqPosted + toPost = numPeer
  received_eq : qte.qhNumReqReceived + pending = qte.qhNumReqPosted
  complete_iff : qte.fLocateDataComplete = true ↔ 0 < numPeer ∧ toPost = 0 ∧ pending = 0

def LocateRun.Inv (q : ObjDescriptor) (numPeer : Nat) (s : LocateRun) : Prop :=
  LocateRunInv q numPeer s.qte s.toPost.length s.pending

theorem locateRunInv_start (q : ObjDescriptor) (peers : List Nat) :
    (locateStart q peers).Inv q peers.length where
  qObj_eq := rfl
  fetchList_eq := ⟨[], rfl⟩
  numFetch_eq := rfl
  posted_eq := Nat.zero_add _
  received_eq := rfl
  complete_iff := by
    refine ⟨fun h => Bool.noConfusion h, fun h => ?_⟩
    exact absurd h.2.1 (Nat.ne_of_gt h.1)

section

variable {q : ObjDescriptor} {numPeer : Nat} {qte : QueryTranEntryD} {toPost pending : Nat}

/-- One more request is posted. -/
theorem LocateRunInv.post (h : LocateRunInv q numPeer qte (toPost + 1) pending) :
    LocateRunInv q numPeer { qte with qhNumReqPosted := qte.qhNumReqPosted + 1 } toPost (pending + 1) where
  qObj_eq := h.qObj_eq
  fetchList_eq := h.fetchList_eq
  numFetch_eq := h.numFetch_eq
  posted_eq := (Nat.add_right_comm _ _ _).trans h.posted_eq
  received_eq := congrArg (· + 1) h.received_eq
  complete_iff := by
    show qte.fLocateDataComplete = true ↔ _
    rw [h.complete_iff]
    omega

/-- A peer has answered. Before the last request is posted another one is pending. -/
theorem LocateRunInv.answer (h : LocateRunInv q numPeer qte toPost (pending + 1))
    (hwindow : toPost = 0 ∨ 0 < pending) (r : LocateReply) :
    LocateRunInv q numPeer (dcgrpcDimesLocateData qte r) toPost pending := by
  obtain ⟨hdrs, hlist⟩ := h.fetchList_eq
  obtain ⟨hlist', hnum, hframe⟩ := dcgrpcDimesLocateData_spec h.qObj_eq hlist h.numFetch_eq r
  have hposted := h.posted_eq
  have hreceived := h.received_eq
  refine ⟨?_, ⟨_, hlist'⟩, hnum, ?_, ?_, ?_⟩
  · rw [hframe]
    exact h.qObj_eq
  · rw [hframe]
    exact hposted
  · rw [hframe]
    show qte.qhNumReqReceived + 1 + _ = qte.qhNumReqPosted
    omega
  · have hnot : qte.fLocateDataComplete = false := by
      rw [← Bool.not_eq_true, h.complete_iff]
      omega
    rw [hframe]
    show (qte.fLocateDataComplete || qte.qhNumReqReceived + 1 == qte.qhNumReqPosted) = true ↔ _
    rw [hnot, Bool.false_or, beq_iff_eq]
    omega

theorem LocateRun.Inv.step (h : s.Inv q numPeer) (hstep : locateStep s e = some s') : s'.Inv q numPeer := by
  rw [LocateRun.Inv, LocateRun.pending] at h
  cases e with
  | post =>
    simp only [locateStep] at hstep
    split at hstep
    · next peer rest hsending htoPost =>
      obtain rfl := some.inj hstep
      rw [hsending, htoPost] at h
      rw [LocateRun.Inv, LocateRun.pending]
      convert h.post using 1
      simp only [toList_some, toList_none, length_cons, length_nil]
      omega
    · cases hstep
  | leave =>
    obtain ⟨peer, hsending, rfl⟩ := map_eq_some_iff.1 hstep
    rw [hsending] at h
    rw [LocateRun.Inv, LocateRun.pending]
    convert h using 1
    simp only [toList_some, toList_none, length_cons, length_nil]
    omega
  | reply peer r =>
    simp only [locateStep, ite_none_right_eq_some] at hstep
    obtain ⟨⟨hhandles, hpeer⟩, hstep⟩ := hstep
    have hcases := LocateRun.handles_cases hhandles
    rw [← length_erase_add_one hpeer] at h
    cases r with
    | notFound =>
      obtain rfl := some.inj hstep
      refine LocateRunInv.answer ?_ ?_ .notFound
      · convert h using 1
        simp only [LocateRun.pending]
        omega
      · simp only [LocateRun.pending]
        omega
    | found tab =>
      cases tab with
      | nil => cases hstep
      | cons hdr tab =>
        obtain rfl := some.inj hstep
        rw [LocateRun.Inv, LocateRun.pending]
        convert h using 1
        simp only [length_cons]
        omega
  | table i =>
    simp only [locateStep, ite_none_right_eq_some] at hstep
    obtain ⟨hhandles, hstep⟩ := hstep
    obtain ⟨tab, htab, rfl⟩ := map_eq_some_iff.1 hstep
    obtain ⟨hi, -⟩ := List.getElem?_eq_some_iff.1 htab
    have hcases := LocateRun.handles_cases hhandles
    rw [← length_eraseIdx_add_one hi] at h
    refine LocateRunInv.answer h ?_ (.found tab)
    show _ ∨ 0 < s.sending.toList.length + s.waiting.length + (s.receiving.eraseIdx i).length
    omega

end

/-- The flag and the fetch list of a query with `numPeer` peers. -/
structure LocateCounts (numPeer : Nat) (s : LocateRun) : Prop where
  /-- The flag is set when all requests have been posted and answered, and not before. -/
  complete : s.qte.fLocateDataComplete = true ↔ 0 < numPeer ∧ s.AllLocated
  numFetch_eq : s.qte.numFetch = s.qte.fetchList.length
  distinct : (s.qte.fetchList.map entryKey).Nodup

/-- For any peers and answers, and for any schedule of the messages. -/
theorem locate_counts (q : ObjDescriptor) (peers : List Nat) (s : LocateRun)
    (h : Reaches locateStep (locateStart q peers) s) : LocateCounts peers.length s := by
  have hinv : s.Inv q peers.length :=
    h.invariant (locateRunInv_start q peers) fun _ _ _ hs hstep => hs.step hstep
  obtain ⟨hdrs, hlist⟩ := hinv.fetchList_eq
  refine ⟨?_, hinv.numFetch_eq, ?_⟩
  · rw [hinv.complete_iff, LocateRun.allLocated_iff]
  · rw [hlist]
    exact nodup_foldl_addNew sameEntry_iff_entryKey _

/-- Two peers: the first one has answered completely before the second request leaves. -/
theorem locate_counts_two_peers :
    let q : ObjDescriptor := ⟨"field", .columnMajor, 0, 1, ⟨1, fun _ => 0, fun _ => 3⟩, 8⟩
    let hdr : HdrDimesPut := ⟨⟨0, 5⟩, q⟩
    let early : List LocateEvent := [.post, .leave, .post, .reply 4 (.found [hdr, hdr]), .table 0]
    let late : List LocateEvent := [.leave, .reply 7 .notFound]
    ∃ s s', runSteps locateStep (locateStart q [4, 7]) early = some s ∧ runSteps locateStep s late = some s' ∧
      s.qte.fLocateDataComplete = false ∧ s'.qte.fLocateDataComplete = true ∧ LocateCounts 2 s' ∧
      s'.qte.numFetch = 1 := by
  intro q hdr early late
  obtain ⟨s, hs⟩ : ∃ s, runSteps locateStep (locateStart q [4, 7]) early = some s := ⟨_, rfl⟩
  obtain ⟨s', hs'⟩ : ∃ s', runSteps locateStep s late = some s' := by
    rw [← some.inj hs]
    exact ⟨_, rfl⟩
  have hrun : runSteps locateStep (locateStart q [4, 7]) (early ++ late) = some s' := by
    rw [runSteps_append, hs, bind_some, hs']
  have hfinal := some.inj hrun
  refine ⟨s, s', hs, hs', ?_, ?_, locate_counts q [4, 7] s' ⟨early ++ late, hrun⟩, ?_⟩
  · rw [← some.inj hs]
    rfl
  · rw [← hfinal]
    rfl
  · rw [← hfinal]
    rfl

end DataSpaces.Dimes
