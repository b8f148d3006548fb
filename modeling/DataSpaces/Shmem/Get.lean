import DataSpaces.Client.Get
import DataSpaces.Lib.Runs
import DataSpaces.Shmem.Descriptors

/-!
# A get with shared memory objects

The list of pieces has for each answer a block of full descriptors and then one of clipped descriptors. The
client does not note where the blocks are. It divides the length of the list by twice the number of peers,
and takes that for the length of every block: `dcg_obj_data_get` fetches the pieces at the places of the
second blocks, from shared memory if their owner is on the same node, and `ssd_copy_list_shmem` copies them
to the buffer.

`shmemGet_right_iff` says when this is right. As a whole it is right only if no answer lists anything, since
the table of duplicates is left otherwise. Apart from that, all answers have to bring equally many new
descriptors, and none may be listed twice, unless all owners are on the node of the client: what was dropped
stays counted in `size_od`, so that the parts that arrive from other nodes do not complete the get.
-/

namespace DataSpaces.Shmem

open Lib Geometry Store Client Copy List Option

/-! ## The source -/

/-- The node of the client. -/
structure ShmNode where
  /-- `on_same_node` for the peer with this id -/
  sameNode : Nat → Bool
  /-- the shared memory with the name of a descriptor -/
  shmOpen : ObjDescriptor → Option Mem

/-- The block length of `dcg_obj_assemble`. -/
def numsOf (qte : QueryTranEntry) : Nat := (qte.numOd / ((qte.qhNumPeer * 2 : Nat) : Int)).toNat

/-- The block length of `dcg_obj_data_get`, which is at least one. -/
def blockSizeOf (qte : QueryTranEntry) : Nat := if numsOf qte < 1 then 1 else numsOf qte

/-- Read the piece at place `i` from shared memory: its own, or that of the object `b` places before, which
the client takes for the full one. If there is neither, the client exits. -/
def fetchLocal (N : ShmNode) (b i : Nat) (odList : List ObjData) (od : ObjData) : Option (List ObjData) :=
  match N.shmOpen od.objDesc with
  | some mem =>
    some (odList.set i { od with data := memcpy od.data 0 mem 0 (objDataSize od.objDesc) })
  | none =>
    (odList[i - b]?).bind fun whole =>
      (N.shmOpen whole.objDesc).map fun mem =>
        (odList.set (i - b) { whole with data := mem }).set i (ssdCopy od { whole with data := mem })

/-- `dcg_obj_data_get`, and the wait after it. -/
structure FetchState where
  qte : QueryTranEntry
  odIndx : Nat
  /-- the request for the piece at `odIndx` has not left -/
  sending : Bool
  shmemFlag : Bool
  /-- places of the pieces that were requested and have not arrived -/
  outstanding : List Nat
  /-- the loop is over -/
  finished : Bool

def fetchStart (qte : QueryTranEntry) : FetchState where
  qte := { qte with sizeOd := qte.sizeOd / 2 }
  odIndx := 0
  sending := false
  shmemFlag := false
  outstanding := []
  finished := false

inductive FetchEvent where
  /-- the next round of the loop, or its end -/
  | next
  /-- the request leaves, and `rpc_receive` returns -/
  | leave
  /-- the data of the piece at place `i` arrives -/
  | arrive (i : Nat) (data : Mem)

/-- One event; `none` if it cannot happen. Messages are handled inside `rpc_receive`, before the request
leaves, and in the wait. -/
def fetchStep (N : ShmNode) (b : Nat) (s : FetchState) : FetchEvent → Option FetchState
  | .next =>
    if s.sending = true ∨ s.finished = true then none
    else
      match s.qte.odList[s.odIndx]? with
      -- Without a request there is nothing to wait for.
      | none => some { s with
          qte := { s.qte with fComplete := s.qte.fComplete || !s.shmemFlag }
          finished := true }
      | some od =>
        if s.odIndx % (b * 2) < b then some { s with odIndx := s.odIndx + 1 }
        else if N.sameNode od.objDesc.owner then
          (fetchLocal N b s.odIndx s.qte.odList od).map fun odList => { s with
            qte := { s.qte with odList := odList, numPartsRec := s.qte.numPartsRec + 1 }
            odIndx := s.odIndx + 1 }
        else some { s with shmemFlag := true, sending := true }
  | .leave =>
    if s.sending = true then
      some { s with sending := false, odIndx := s.odIndx + 1, outstanding := s.odIndx :: s.outstanding }
    else none
  | .arrive i data =>
    if (s.sending = true ∨ s.finished = true) ∧ i ∈ s.outstanding then
      some { s with
        qte := objDataGetCompletion { s.qte with
          odList := s.qte.odList.modify i fun od => { od with data := data } }
        outstanding := s.outstanding.erase i }
    else none

/-- The loop of `ssd_copy_list_shmem`; `none` if it divides by zero. -/
def ssdCopyListShmem (nums : Nat) : Nat → List ObjData → ObjData → Option ObjData
  | _, [], toObj => some toObj
  | i, od :: odList, toObj =>
    if nums * 2 = 0 then none
    else ssdCopyListShmem nums (i + 1) odList (if nums ≤ i % (nums * 2) then ssdCopy toObj od else toObj)

def dcgObjAssembleShmem (qte : QueryTranEntry) (od : ObjData) : Option ObjData :=
  ssdCopyListShmem (numsOf qte) 0 qte.odList od

/-- The loop is over and all requested pieces have arrived. -/
def FetchState.AllArrived (s : FetchState) : Prop := s.finished = true ∧ s.outstanding = []

/-! ## What a get should do -/

/-- The places that are taken for clipped pieces with block length `b` hold the clipped descriptors of what
was listed, each once, and the full one of each is `b` places before. -/
structure ExactPieces (q : ObjDescriptor) (odscs descs : List ObjDescriptor) (b : Nat) : Prop where
  distinct : ((secondHalves b 0 descs).map pieceKey).Nodup
  exact : ∀ k, k ∈ (secondHalves b 0 descs).map pieceKey ↔ k ∈ odscs.map (itemKey q)
  own_full : ∀ i c, descs[i]? = some c → b ≤ i % (b * 2) →
    ∃ o ∈ odscs, pieceKey c = itemKey q o ∧ descs[i - b]? = some (full q o)

/-- The get uses the right pieces and completes, apart from the table of duplicates. -/
structure RightPieces (N : ShmNode) (q : ObjDescriptor) (replies : List ShmemReply) : Prop where
  fetched : ExactPieces q (listed replies) ((shmemPhase q replies).odList.map ObjData.objDesc)
    (blockSizeOf (shmemPhase q replies))
  nums_ne_zero : (shmemPhase q replies).odList ≠ [] → numsOf (shmemPhase q replies) ≠ 0
  /-- Along every run the pieces that are fetched are the ones to copy. -/
  copied : ∀ s, Reaches (fetchStep N (blockSizeOf (shmemPhase q replies)))
    (fetchStart (shmemPhase q replies)) s → ∀ toObj, dcgObjAssembleShmem s.qte toObj =
      some (ssdCopyList toObj (secondHalves (blockSizeOf (shmemPhase q replies)) 0 s.qte.odList))
  complete : ∀ s, Reaches (fetchStep N (blockSizeOf (shmemPhase q replies)))
    (fetchStart (shmemPhase q replies)) s → (s.qte.fComplete = true ↔ s.AllArrived)
  finishes : ∀ s, Reaches (fetchStep N (blockSizeOf (shmemPhase q replies)))
    (fetchStart (shmemPhase q replies)) s →
      ∃ s', Reaches (fetchStep N (blockSizeOf (shmemPhase q replies))) s s' ∧ s'.AllArrived

/-- The get uses the right pieces and completes, without leaving the table of duplicates. -/
structure ShmemGetRight (N : ShmNode) (q : ObjDescriptor) (replies : List ShmemReply) : Prop where
  inside : ∀ before r after, replies = before ++ r :: after →
    TableInside q (handleReplies (qteAlloc q replies.length) before) r
  pieces : RightPieces N q replies

/-- All answers bring equally many new descriptors, and none is listed twice unless all owners are on the
node of the client. -/
structure EvenReplies (N : ShmNode) (q : ObjDescriptor) (replies : List ShmemReply) : Prop where
  even : ∃ b, ∀ g ∈ newPieces q replies, g.length = b
  counted : (∀ o ∈ listed replies, N.sameNode o.owner = true) ∨ ((listed replies).map (itemKey q)).Nodup

/-- The shared memory of a listed object exists if its owner is on the node of the client. -/
def ShmServes (N : ShmNode) (q : ObjDescriptor) (replies : List ShmemReply) : Prop :=
  ∀ o ∈ listed replies, N.sameNode o.owner = true → (N.shmOpen (full q o)).isSome = true

/-! ## Copying the pieces -/

theorem ssdCopyListShmem_eq {nums : Nat} (hpos : nums ≠ 0) (i : Nat) (odList : List ObjData)
    (toObj : ObjData) :
    ssdCopyListShmem nums i odList toObj = some (ssdCopyList toObj (secondHalves nums i odList)) := by
  induction odList generalizing i toObj with
  | nil => rfl
  | cons od odList ih =>
    rw [ssdCopyListShmem, if_neg (by omega), ih, secondHalves]
    split <;> rfl

/-! ## Fetching the pieces -/

section

variable {N : ShmNode} {b : Nat}

/-- How many pieces the loop has still to fetch. -/
def remaining (descs : List ObjDescriptor) (b i : Nat) : Nat := (secondHalves b i (descs.drop i)).length

variable {i : Nat} {od : ObjData}

theorem remaining_of_le {descs : List ObjDescriptor} (h : descs.length ≤ i) : remaining descs b i = 0 := by
  rw [remaining, drop_eq_nil_of_le h]
  rfl

theorem remaining_eq {descs : List ObjDescriptor} {d : ObjDescriptor} (h : descs[i]? = some d) :
    remaining descs b i = remaining descs b (i + 1) + if b ≤ i % (b * 2) then 1 else 0 := by
  obtain ⟨hi, rfl⟩ := List.getElem?_eq_some_iff.1 h
  rw [remaining, remaining, drop_eq_getElem_cons hi, secondHalves]
  split <;> rfl

variable {odList : List ObjData} {qte : QueryTranEntry}

/-- Reading from shared memory changes no descriptor. -/
theorem map_objDesc_fetchLocal {odList' : List ObjData} (hod : odList[i]? = some od)
    (h : fetchLocal N b i odList od = some odList') :
    odList'.map ObjData.objDesc = odList.map ObjData.objDesc := by
  have hdesc : (odList.map ObjData.objDesc)[i]? = some od.objDesc := by
    rw [getElem?_map, hod, map_some]
  rw [fetchLocal] at h
  split at h
  · obtain rfl := some.inj h
    exact map_set_eq hdesc
  · obtain ⟨whole, hwhole, h⟩ := bind_eq_some_iff.1 h
    obtain ⟨mem, -, rfl⟩ := map_eq_some_iff.1 h
    have hfirst : (odList.set (i - b) { whole with data := mem }).map ObjData.objDesc =
        odList.map ObjData.objDesc := by
      apply map_set_eq
      rw [getElem?_map, hwhole, map_some]
    rw [map_set_eq, hfirst]
    rw [hfirst]
    exact hdesc

/-- The piece at place `i` can be read from shared memory, if its owner is on the node. -/
def Readable (N : ShmNode) (b : Nat) (descs : List ObjDescriptor) : Prop :=
  ∀ i c, descs[i]? = some c → b ≤ i % (b * 2) → N.sameNode c.owner = true →
    ∃ d, descs[i - b]? = some d ∧ (N.shmOpen d).isSome = true

theorem exists_fetchLocal (hread : Readable N b (odList.map ObjData.objDesc))
    (hod : odList[i]? = some od) (hsecond : b ≤ i % (b * 2)) (hnode : N.sameNode od.objDesc.owner = true) :
    ∃ odList', fetchLocal N b i odList od = some odList' := by
  obtain ⟨d, hd, hopen⟩ := hread i od.objDesc (by rw [getElem?_map, hod]; rfl) hsecond hnode
  rw [getElem?_map] at hd
  obtain ⟨whole, hwhole, rfl⟩ := map_eq_some_iff.1 hd
  obtain ⟨mem, hmem⟩ := isSome_iff_exists.1 hopen
  rw [fetchLocal, hwhole, bind_some, hmem]
  split
  · exact ⟨_, rfl⟩
  · exact ⟨_, rfl⟩

/-- What holds while the pieces `descs` are fetched and `size` parts are waited for. -/
structure FetchInv (N : ShmNode) (b : Nat) (descs : List ObjDescriptor) (size : Int) (nums : Nat)
    (s : FetchState) : Prop where
  descs_eq : s.qte.odList.map ObjData.objDesc = descs
  sizeOd_eq : s.qte.sizeOd = size
  nums_eq : numsOf s.qte = nums
  parts_eq : s.qte.numPartsRec + s.outstanding.length + remaining descs b s.odIndx = remaining descs b 0
  finished_le : s.finished = true → descs.length ≤ s.odIndx ∧ s.sending = false
  sending_at : s.sending = true → remaining descs b s.odIndx = remaining descs b (s.odIndx + 1) + 1
  flag_false : s.shmemFlag = false → s.sending = false ∧ s.outstanding = []
  /-- After the last request some piece has not arrived before the loop is over. -/
  flag_true : s.shmemFlag = true → s.finished = true ∨ s.sending = true ∨ s.outstanding ≠ []
  flag_remote : s.shmemFlag = true → ∃ d ∈ secondHalves b 0 descs, N.sameNode d.owner = false
  flag_local : s.shmemFlag = false → ∀ j < s.odIndx, ∀ d, descs[j]? = some d → b ≤ j % (b * 2) →
    N.sameNode d.owner = true
  complete_iff : s.qte.fComplete = true ↔
    s.finished = true ∧ (s.shmemFlag = false ∨ s.qte.numPartsRec = size)

variable {descs : List ObjDescriptor} {size : Int} {nums : Nat} {s s' : FetchState}

namespace FetchInv

variable (h : FetchInv N b descs size nums s)

include h

variable {i : Nat} {od : ObjData}

theorem getElem? (hod : s.qte.odList[i]? = some od) : descs[i]? = some od.objDesc := by
  rw [← h.descs_eq, getElem?_map, hod, map_some]

theorem fComplete_of_not_finished (hfinished : s.finished = false) : s.qte.fComplete = false := by
  rw [← Bool.not_eq_true, h.complete_iff, hfinished]
  simp

theorem shmemFlag_of_sending (hsending : s.sending = true) : s.shmemFlag = true := by
  rw [← Bool.not_eq_false]
  intro hflag
  exact Bool.noConfusion ((h.flag_false hflag).1.symm.trans hsending)

theorem shmemFlag_of_mem (hi : i ∈ s.outstanding) : s.shmemFlag = true := by
  rw [← Bool.not_eq_false]
  intro hflag
  rw [(h.flag_false hflag).2] at hi
  cases hi

/-- The next round starts with everything before it on the node, if it was so before. -/
theorem flag_local_succ (hod : s.qte.odList[s.odIndx]? = some od)
    (hthis : b ≤ s.odIndx % (b * 2) → N.sameNode od.objDesc.owner = true) (hflag : s.shmemFlag = false) :
    ∀ j < s.odIndx + 1, ∀ d, descs[j]? = some d → b ≤ j % (b * 2) → N.sameNode d.owner = true := by
  intro j hj d hd hb
  rcases Nat.lt_succ_iff_lt_or_eq.1 hj with hlt | rfl
  · exact h.flag_local hflag j hlt d hd hb
  · rw [h.getElem? hod] at hd
    rw [← some.inj hd]
    exact hthis hb

/-- The loop ends: either nothing was requested, or some piece is still to come. -/
theorem finish (htotal : remaining descs b 0 ≤ size) (hsending : s.sending = false)
    (hfinished : s.finished = false) (hend : s.qte.odList.length ≤ s.odIndx) :
    FetchInv N b descs size nums
      { s with
        qte := { s.qte with fComplete := s.qte.fComplete || !s.shmemFlag }
        finished := true } := by
  have hparts := h.parts_eq
  have hlen : descs.length ≤ s.odIndx := by
    rw [← h.descs_eq, length_map]
    exact hend
  refine ⟨h.descs_eq, h.sizeOd_eq, h.nums_eq, hparts, fun _ => ⟨hlen, hsending⟩,
    h.sending_at, h.flag_false, fun _ => Or.inl rfl, h.flag_remote, h.flag_local, ?_⟩
  show (s.qte.fComplete || !s.shmemFlag) = true ↔
    true = true ∧ (s.shmemFlag = false ∨ s.qte.numPartsRec = size)
  rw [h.fComplete_of_not_finished hfinished]
  cases hflag : s.shmemFlag with
  | false => simp
  | true =>
    have hout : s.outstanding ≠ [] := by simpa [hfinished, hsending] using h.flag_true hflag
    have hpos := length_pos_iff.2 hout
    simp only [Bool.not_true, Bool.or_self, Bool.false_eq_true, Bool.true_eq_false, false_or, true_and,
      false_iff]
    omega

/-- A full descriptor is passed over. -/
theorem skip (hsending : s.sending = false) (hfinished : s.finished = false)
    (hod : s.qte.odList[s.odIndx]? = some od) (hfirst : s.odIndx % (b * 2) < b) :
    FetchInv N b descs size nums { s with odIndx := s.odIndx + 1 } := by
  have hrem := remaining_eq (b := b) (h.getElem? hod)
  rw [if_neg (Nat.not_le.2 hfirst), Nat.add_zero] at hrem
  refine ⟨h.descs_eq, h.sizeOd_eq, h.nums_eq, hrem ▸ h.parts_eq,
    fun hf => Bool.noConfusion (hfinished.symm.trans hf), fun hs => Bool.noConfusion (hsending.symm.trans hs),
    h.flag_false, h.flag_true, h.flag_remote, ?_, h.complete_iff⟩
  exact h.flag_local_succ hod fun hb => absurd hb (Nat.not_le.2 hfirst)

/-- A piece is read from shared memory. -/
theorem shm {odList : List ObjData} (hsending : s.sending = false) (hfinished : s.finished = false)
    (hod : s.qte.odList[s.odIndx]? = some od) (hsecond : b ≤ s.odIndx % (b * 2))
    (hnode : N.sameNode od.objDesc.owner = true)
    (hfetch : fetchLocal N b s.odIndx s.qte.odList od = some odList) :
    FetchInv N b descs size nums
      { s with
        qte := { s.qte with odList := odList, numPartsRec := s.qte.numPartsRec + 1 }
        odIndx := s.odIndx + 1 } := by
  have hparts := h.parts_eq
  have hrem := remaining_eq (b := b) (h.getElem? hod)
  rw [if_pos hsecond] at hrem
  refine ⟨(map_objDesc_fetchLocal hod hfetch).trans h.descs_eq, h.sizeOd_eq, h.nums_eq,
    ?_, fun hf => Bool.noConfusion (hfinished.symm.trans hf),
    fun hs => Bool.noConfusion (hsending.symm.trans hs), h.flag_false, h.flag_true, h.flag_remote,
    h.flag_local_succ hod fun _ => hnode, ?_⟩
  · show s.qte.numPartsRec + 1 + s.outstanding.length + remaining descs b (s.odIndx + 1) = _
    omega
  · show s.qte.fComplete = true ↔ s.finished = true ∧ _
    rw [h.fComplete_of_not_finished hfinished, hfinished]
    simp

/-- A request is posted. -/
theorem post (hfinished : s.finished = false) (hod : s.qte.odList[s.odIndx]? = some od)
    (hsecond : b ≤ s.odIndx % (b * 2)) (hnode : N.sameNode od.objDesc.owner = false) :
    FetchInv N b descs size nums { s with shmemFlag := true, sending := true } := by
  have hrem := remaining_eq (b := b) (h.getElem? hod)
  rw [if_pos hsecond] at hrem
  refine ⟨h.descs_eq, h.sizeOd_eq, h.nums_eq, h.parts_eq,
    fun hf => Bool.noConfusion (hfinished.symm.trans hf), fun _ => hrem, fun hf => Bool.noConfusion hf,
    fun _ => Or.inr (Or.inl rfl), fun _ => ?_, fun hf => Bool.noConfusion hf, ?_⟩
  · refine ⟨_, mem_secondHalves.2 ⟨s.odIndx, h.getElem? hod, ?_⟩, hnode⟩
    rw [Nat.zero_add]
    exact hsecond
  · show s.qte.fComplete = true ↔ s.finished = true ∧ _
    rw [h.fComplete_of_not_finished hfinished, hfinished]
    simp

/-- The request leaves. -/
theorem leave (hsending : s.sending = true) :
    FetchInv N b descs size nums
      { s with
        sending := false
        odIndx := s.odIndx + 1
        outstanding := s.odIndx :: s.outstanding } := by
  have hparts := h.parts_eq
  have hrem := h.sending_at hsending
  have hflag := h.shmemFlag_of_sending hsending
  refine ⟨h.descs_eq, h.sizeOd_eq, h.nums_eq, ?_,
    fun hf => Bool.noConfusion ((h.finished_le hf).2.symm.trans hsending), fun hs => Bool.noConfusion hs,
    fun hf => Bool.noConfusion (hf.symm.trans hflag), fun _ => Or.inr (Or.inr (cons_ne_nil _ _)),
    h.flag_remote, fun hf => Bool.noConfusion (hf.symm.trans hflag), h.complete_iff⟩
  show s.qte.numPartsRec + (s.odIndx :: s.outstanding).length + remaining descs b (s.odIndx + 1) = _
  rw [length_cons]
  push_cast
  omega

/-- A piece arrives. Inside `rpc_receive` the piece that is being requested is missing. -/
theorem arrive (htotal : remaining descs b 0 ≤ size) (data : Mem)
    (hhandles : s.sending = true ∨ s.finished = true) (hi : i ∈ s.outstanding) :
    FetchInv N b descs size nums
      { s with
        qte := objDataGetCompletion { s.qte with
          odList := s.qte.odList.modify i fun od => { od with data := data } }
        outstanding := s.outstanding.erase i } := by
  have hdescs : (s.qte.odList.modify i fun od => { od with data := data }).map ObjData.objDesc =
      s.qte.odList.map ObjData.objDesc := by
    apply map_modify_eq
    intro od
    rfl
  have hparts := h.parts_eq
  have hpos := length_pos_of_mem hi
  have herase := length_erase_of_mem hi
  have hflag := h.shmemFlag_of_mem hi
  have hnot : s.qte.fComplete = false := by
    rw [← Bool.not_eq_true, h.complete_iff, hflag]
    simp only [Bool.true_eq_false, false_or]
    omega
  refine ⟨hdescs.trans h.descs_eq, h.sizeOd_eq, h.nums_eq, ?_,
    h.finished_le, h.sending_at, fun hf => Bool.noConfusion (hf.symm.trans hflag),
    fun _ => hhandles.elim (Or.inr ∘ Or.inl) Or.inl, h.flag_remote, h.flag_local, ?_⟩
  · show s.qte.numPartsRec + 1 + (s.outstanding.erase i).length + remaining descs b s.odIndx = _
    rw [herase]
    omega
  · show (s.qte.fComplete || s.qte.numPartsRec + 1 == s.qte.sizeOd) = true ↔
      s.finished = true ∧ (s.shmemFlag = false ∨ s.qte.numPartsRec + 1 = size)
    rw [hnot, hflag, h.sizeOd_eq, Bool.false_or, beq_iff_eq]
    simp only [Bool.true_eq_false, false_or]
    refine ⟨fun heq => ⟨hhandles.resolve_left fun hsending => ?_, heq⟩, And.right⟩
    have hrest := h.sending_at hsending
    omega

/-- Every event keeps the invariant. -/
theorem step (htotal : remaining descs b 0 ≤ size) {e : FetchEvent} (hstep : fetchStep N b s e = some s') :
    FetchInv N b descs size nums s' := by
  cases e with
  | next =>
    simp only [fetchStep, ite_none_left_eq_some, not_or, Bool.not_eq_true] at hstep
    obtain ⟨⟨hsending, hfinished⟩, hstep⟩ := hstep
    split at hstep
    · next hnone =>
      obtain rfl := some.inj hstep
      exact h.finish htotal hsending hfinished (List.getElem?_eq_none_iff.1 hnone)
    · next od hod =>
      split at hstep
      · next hfirst =>
        obtain rfl := some.inj hstep
        exact h.skip hsending hfinished hod hfirst
      · next hsecond =>
        split at hstep
        · next hnode =>
          obtain ⟨odList, hfetch, rfl⟩ := map_eq_some_iff.1 hstep
          exact h.shm hsending hfinished hod (Nat.not_lt.1 hsecond) hnode hfetch
        · next hnode =>
          obtain rfl := some.inj hstep
          exact h.post hfinished hod (Nat.not_lt.1 hsecond) (Bool.not_eq_true _ ▸ hnode)
  | leave =>
    simp only [fetchStep, ite_none_right_eq_some] at hstep
    obtain ⟨hsending, hstep⟩ := hstep
    obtain rfl := some.inj hstep
    exact h.leave hsending
  | arrive i data =>
    simp only [fetchStep, ite_none_right_eq_some] at hstep
    obtain ⟨⟨hhandles, hi⟩, hstep⟩ := hstep
    obtain rfl := some.inj hstep
    exact h.arrive htotal data hhandles hi

/-- All pieces have arrived, so all are counted. -/
theorem numPartsRec_of_allArrived (harrived : s.AllArrived) : s.qte.numPartsRec = remaining descs b 0 := by
  have hparts := h.parts_eq
  rw [remaining_of_le (h.finished_le harrived.1).1, harrived.2] at hparts
  simpa using hparts

/-- The flag is set by the last piece if all are counted, or if all are on the node of the client. -/
theorem fComplete_iff
    (hcount : remaining descs b 0 = size ∨ ∀ d ∈ secondHalves b 0 descs, N.sameNode d.owner = true) :
    s.qte.fComplete = true ↔ s.AllArrived := by
  rw [h.complete_iff, FetchState.AllArrived]
  refine and_congr_right fun hfinished => ?_
  cases hflag : s.shmemFlag with
  | false => simp [(h.flag_false hflag).2]
  | true =>
    rcases hcount with hsize | hlocal
    · have hparts := h.parts_eq
      rw [remaining_of_le (h.finished_le hfinished).1] at hparts
      simp only [Bool.true_eq_false, false_or, ← length_eq_zero_iff]
      omega
    · obtain ⟨d, hd, hremote⟩ := h.flag_remote hflag
      rw [hlocal d hd] at hremote
      cases hremote

/-- After all pieces have arrived the flag depends on the count, if some piece was requested. -/
theorem numPartsRec_eq_size (harrived : s.AllArrived) (hcomplete : s.qte.fComplete = true)
    {d : ObjDescriptor} (hd : d ∈ secondHalves b 0 descs) (hremote : N.sameNode d.owner = false) :
    s.qte.numPartsRec = size := by
  apply (h.complete_iff.1 hcomplete).2.resolve_left
  intro hflag
  obtain ⟨j, hj, hb⟩ := mem_secondHalves.1 hd
  rw [Nat.zero_add] at hb
  have hlt := (List.getElem?_eq_some_iff.1 hj).1
  have hlocal := h.flag_local hflag j (hlt.trans_le (h.finished_le harrived.1).1) d hj hb
  exact Bool.noConfusion (hremote.symm.trans hlocal)

end FetchInv

theorem fetchInv_start (hparts : qte.numPartsRec = 0) (hcomplete : qte.fComplete = false) :
    FetchInv N b (qte.odList.map ObjData.objDesc) (qte.sizeOd / 2) (numsOf qte) (fetchStart qte) where
  descs_eq := rfl
  sizeOd_eq := rfl
  nums_eq := rfl
  parts_eq := by
    show qte.numPartsRec + (0 : Nat) + _ = _
    rw [hparts]
    simp [fetchStart]
  finished_le := fun h => Bool.noConfusion h
  sending_at := fun h => Bool.noConfusion h
  flag_false := fun _ => ⟨rfl, rfl⟩
  flag_true := fun h => Bool.noConfusion h
  flag_remote := fun h => Bool.noConfusion h
  flag_local := fun _ j hj => absurd hj (Nat.not_lt_zero j)
  complete_iff := by
    show qte.fComplete = true ↔ false = true ∧ _
    rw [hcomplete]
    simp

theorem fetchInv_of_reaches (hparts : qte.numPartsRec = 0) (hcomplete : qte.fComplete = false)
    (htotal : remaining (qte.odList.map ObjData.objDesc) b 0 ≤ qte.sizeOd / 2)
    (h : Reaches (fetchStep N b) (fetchStart qte) s) :
    FetchInv N b (qte.odList.map ObjData.objDesc) (qte.sizeOd / 2) (numsOf qte) s :=
  h.invariant (fetchInv_start hparts hcomplete) fun _ _ _ hinv hstep =>
    hinv.step htotal hstep

/-- A bound for the events that are left. -/
def FetchState.work (descs : List ObjDescriptor) (s : FetchState) : Nat :=
  3 * (descs.length - s.odIndx) + s.outstanding.length + (if s.sending then 0 else 1) +
    if s.finished then 0 else 1

variable (h : FetchInv N b descs size nums s)

include h

/-- A round of the loop can happen. -/
theorem FetchInv.progress_round (hread : Readable N b descs) (hsending : s.sending = false)
    (hfinished : s.finished = false) (hod : s.qte.odList[s.odIndx]? = some od) :
    ∃ s', fetchStep N b s .next = some s' ∧ s'.work descs < s.work descs := by
  have hrunning : ¬ (s.sending = true ∨ s.finished = true) := by simp [hsending, hfinished]
  have hlt : s.odIndx < descs.length := (List.getElem?_eq_some_iff.1 (h.getElem? hod)).1
  by_cases hfirst : s.odIndx % (b * 2) < b
  · refine ⟨{ s with odIndx := s.odIndx + 1 }, ?_, ?_⟩
    · simp only [fetchStep, if_neg hrunning, hod, if_pos hfirst]
    · simp only [FetchState.work]
      omega
  · cases hnode : N.sameNode od.objDesc.owner with
    | true =>
      obtain ⟨odList, hfetch⟩ := exists_fetchLocal (h.descs_eq ▸ hread) hod (Nat.not_lt.1 hfirst) hnode
      refine ⟨{ s with
        qte := { s.qte with odList := odList, numPartsRec := s.qte.numPartsRec + 1 }
        odIndx := s.odIndx + 1 }, ?_, ?_⟩
      · simp only [fetchStep, if_neg hrunning, hod, if_neg hfirst, hnode, if_true, hfetch, map_some]
      · simp only [FetchState.work]
        omega
    | false =>
      refine ⟨{ s with shmemFlag := true, sending := true }, ?_, ?_⟩
      · simp only [fetchStep, if_neg hrunning, hod, if_neg hfirst, hnode, Bool.false_eq_true, if_false]
      · simp [FetchState.work, hsending]

/-- Until all pieces have arrived some event can happen. -/
theorem FetchInv.progress (hread : Readable N b descs) (hleft : ¬ s.AllArrived) :
    ∃ e s', fetchStep N b s e = some s' ∧ s'.work descs < s.work descs := by
  cases hsending : s.sending with
  | true =>
    have hlt : s.odIndx < descs.length := by
      by_contra hge
      have hrem := h.sending_at hsending
      rw [remaining_of_le (Nat.not_lt.1 hge)] at hrem
      omega
    refine ⟨.leave, _, by rw [fetchStep, if_pos hsending], ?_⟩
    simp only [FetchState.work, hsending, length_cons, if_true, Bool.false_eq_true, if_false]
    omega
  | false =>
    cases hfinished : s.finished with
    | true =>
      obtain ⟨i, hi⟩ := exists_mem_of_ne_nil _ fun hnil => hleft ⟨hfinished, hnil⟩
      have hpos := length_pos_of_mem hi
      refine ⟨.arrive i default, _, by rw [fetchStep, if_pos ⟨Or.inr hfinished, hi⟩], ?_⟩
      simp only [FetchState.work, length_erase_of_mem hi]
      omega
    | false =>
      cases hod : s.qte.odList[s.odIndx]? with
      | none =>
        have hrunning : ¬ (s.sending = true ∨ s.finished = true) := by simp [hsending, hfinished]
        refine ⟨.next, _, by rw [fetchStep, if_neg hrunning, hod], ?_⟩
        simp [FetchState.work, hfinished]
      | some od =>
        obtain ⟨s', hstep, hlt⟩ := h.progress_round hread hsending hfinished hod
        exact ⟨.next, s', hstep, hlt⟩

/-- So all pieces can arrive. -/
theorem FetchInv.exists_allArrived (htotal : remaining descs b 0 ≤ size) (hread : Readable N b descs) :
    ∃ s', Reaches (fetchStep N b) s s' ∧ s'.AllArrived := by
  apply exists_reaches_of_work (P := FetchInv N b descs size nums) (FetchState.work descs) _ h
  intro s hinv hleft
  obtain ⟨e, s', hstep, hlt⟩ := hinv.progress hread hleft
  exact ⟨e, s', hstep, hinv.step htotal hstep, hlt⟩

end

/-! ## The places of the pieces -/

section

variable {q : ObjDescriptor} {odscs descs : List ObjDescriptor} {groups : List (List ObjDescriptor)} {b : Nat}

/-- One piece for each of the owners and boxes that are listed. -/
theorem ExactPieces.length_eq (h : ExactPieces q odscs descs b) :
    (secondHalves b 0 descs).length = (fresh (itemKey q) [] odscs).length := by
  have hperm : ((secondHalves b 0 descs).map pieceKey).Perm ((fresh (itemKey q) [] odscs).map (itemKey q)) := by
    rw [perm_ext_iff_of_nodup h.distinct (nodup_map_fresh [] odscs)]
    intro k
    rw [h.exact, mem_map_fresh]
    exact (and_iff_left not_mem_nil).symm
  simpa using hperm.length_eq

theorem ExactPieces.remaining_le (h : ExactPieces q odscs descs b) : remaining descs b 0 ≤ odscs.length := by
  rw [remaining, drop_zero, h.length_eq]
  exact (fresh_sublist [] odscs).length_le

/-- Blocks of the length `b` are found at their places. -/
theorem exactPieces_of_length_eq (hnd : (groups.flatten.map (itemKey q)).Nodup)
    (hkeys : ∀ k, k ∈ groups.flatten.map (itemKey q) ↔ k ∈ odscs.map (itemKey q))
    (hmem : ∀ o ∈ groups.flatten, o ∈ odscs) (hlen : ∀ g ∈ groups, g.length = b) :
    ExactPieces q odscs (paired (full q) (clip q) groups) b := by
  have hsecond : (secondHalves b 0 (paired (full q) (clip q) groups)).map pieceKey =
      groups.flatten.map (itemKey q) := by
    rw [secondHalves_paired hlen, List.map_map]
    rfl
  refine ⟨hsecond ▸ hnd, fun k => by rw [hsecond, hkeys], fun i c hc hi => ?_⟩
  obtain ⟨o, ho, rfl, hfull⟩ := getElem?_paired_sub hlen hi hc
  exact ⟨o, hmem o ho, rfl, hfull⟩

/-- Only blocks of the length `b` are. -/
theorem length_eq_of_exactPieces (h : ExactPieces q odscs (paired (full q) (clip q) groups) b) (hb : 0 < b)
    (hnd : (groups.flatten.map (itemKey q)).Nodup) (hmem : ∀ o ∈ groups.flatten, o ∈ odscs)
    {g : List ObjDescriptor} (hg : g ∈ groups) (hne : g ≠ []) : g.length = b := by
  -- The list of the keys has both keys of a descriptor at the places of its two pieces.
  have hmap : (paired (full q) (clip q) groups).map (itemKey q) =
      paired id id (groups.map (List.map (itemKey q))) := by
    rw [map_paired, paired_map]
    congr 1
    funext o
    exact itemKey_clip q o
  have hflat : (groups.map (List.map (itemKey q))).flatten = groups.flatten.map (itemKey q) :=
    map_flatten.symm
  rw [← length_map (f := itemKey q)]
  rw [← hflat] at hnd
  apply length_eq_of_pairs hnd hb _ (List.mem_map_of_mem hg) (by simpa using hne)
  intro k hk
  rw [hflat] at hk
  obtain ⟨o, ho, rfl⟩ := List.mem_map.1 hk
  obtain ⟨c, hc, hkey⟩ := List.mem_map.1 ((h.exact _).2 (List.mem_map_of_mem (hmem o ho)))
  obtain ⟨i, hi, hplace⟩ := mem_secondHalves.1 hc
  rw [Nat.zero_add] at hplace
  obtain ⟨o', -, hkey', hfull⟩ := h.own_full i c hi hplace
  refine ⟨i, hplace.trans (Nat.mod_le _ _), ?_, ?_⟩
  · rw [← hmap, getElem?_map, hi, map_some, itemKey_of_pieceKey_eq hkey]
  · rw [← hmap, getElem?_map, hfull, map_some, itemKey_full, ← hkey', hkey]

end

/-! ## When it is right -/

section

variable {N : ShmNode} {q : ObjDescriptor} {replies : List ShmemReply} {numPeer n b : Nat}
  {groups : List (List ObjDescriptor)} {qte : QueryTranEntry}

section

variable (h : PiecesInv q numPeer groups n qte)

include h

theorem PiecesInv.descs_eq : qte.odList.map ObjData.objDesc = paired (full q) (clip q) groups := by
  rw [h.odList_eq, List.map_map]
  exact List.map_id _

theorem PiecesInv.numsOf_eq : numsOf qte = groups.flatten.length / numPeer := by
  have hlen : qte.odList.length = groups.flatten.length * 2 := by
    rw [h.odList_eq, length_map, length_paired, Nat.mul_comm]
  rw [numsOf, h.numOd_eq, h.qhNumPeer_eq, hlen, ← Int.natCast_ediv, Int.toNat_natCast,
    Nat.mul_div_mul_right _ _ Nat.two_pos]

theorem PiecesInv.size_eq : qte.sizeOd / 2 = n := by
  have hsize := h.sizeOd_eq
  omega

end

theorem blockSizeOf_of_ne_zero (h : numsOf qte ≠ 0) : blockSizeOf qte = numsOf qte :=
  if_neg (by omega)

variable {descs odscs : List ObjDescriptor}

theorem ExactPieces.readable (h : ExactPieces q (listed replies) descs b)
    (hshm : ShmServes N q replies) : Readable N b descs := by
  intro i c hc hi hnode
  obtain ⟨o, ho, hkey, hfull⟩ := h.own_full i c hc hi
  refine ⟨full q o, hfull, hshm o ho ?_⟩
  have howner : c.owner = o.owner := congrArg Prod.fst hkey
  rwa [← howner]

/-- What is listed has a piece of the same owner. -/
theorem ExactPieces.exists_owner (h : ExactPieces q odscs descs b)
    {o : ObjDescriptor} (ho : o ∈ odscs) : ∃ c ∈ secondHalves b 0 descs, c.owner = o.owner := by
  obtain ⟨c, hc, hkey⟩ := List.mem_map.1 ((h.exact _).2 (List.mem_map_of_mem ho))
  exact ⟨c, hc, congrArg Prod.fst hkey⟩

theorem ExactPieces.owner_local (h : ExactPieces q odscs descs b)
    (hlocal : ∀ o ∈ odscs, N.sameNode o.owner = true) :
    ∀ c ∈ secondHalves b 0 descs, N.sameNode c.owner = true := by
  intro c hc
  obtain ⟨o, ho, hkey⟩ := List.mem_map.1 ((h.exact _).1 (List.mem_map_of_mem hc))
  have howner : o.owner = c.owner := congrArg Prod.fst hkey
  rw [← howner]
  exact hlocal o ho

/-- The invariant of the fetch phase after the answers. -/
theorem ExactPieces.fetchInv (hr : ∀ r ∈ replies, r.Unmarked)
    (h : ExactPieces q (listed replies) ((shmemPhase q replies).odList.map ObjData.objDesc) b)
    {s : FetchState} (hs : Reaches (fetchStep N b) (fetchStart (shmemPhase q replies)) s) :
    FetchInv N b ((shmemPhase q replies).odList.map ObjData.objDesc) (listed replies).length
      (numsOf (shmemPhase q replies)) s := by
  have hP := piecesInv_shmemPhase q hr
  rw [← hP.size_eq]
  apply fetchInv_of_reaches hP.numPartsRec_eq hP.fComplete_eq _ hs
  rw [hP.size_eq]
  exact Int.ofNat_le.2 h.remaining_le

/-- With even answers the block length is the number of new descriptors of each answer. -/
theorem EvenReplies.exactPieces (h : EvenReplies N q replies) (hr : ∀ r ∈ replies, r.Unmarked)
    (hne : replies ≠ []) : ((shmemPhase q replies).odList ≠ [] → numsOf (shmemPhase q replies) ≠ 0) ∧
      ExactPieces q (listed replies) ((shmemPhase q replies).odList.map ObjData.objDesc)
        (blockSizeOf (shmemPhase q replies)) := by
  obtain ⟨b, hb⟩ := h.even
  have hP := piecesInv_shmemPhase q hr
  have hlen := (forall_length_blocks q replies).2 hb
  have hflat : (blocks q replies).flatten.length = replies.length * b := by
    rw [length_flatten_of_eq hlen, length_blocks]
  have hnums : numsOf (shmemPhase q replies) = b := by
    rw [hP.numsOf_eq, hflat, Nat.mul_div_cancel_left _ (length_pos_iff.2 hne)]
  rcases Nat.eq_zero_or_pos b with rfl | hpos
  · -- Nothing is new, so nothing is listed.
    rw [Nat.mul_zero, length_eq_zero_iff] at hflat
    have hlist : paired (full q) (clip q) (blocks q replies) = [] := by
      rw [← length_eq_zero_iff, length_paired, hflat]
      rfl
    have hkeys := mem_keys_blocks q replies
    rw [hflat] at hkeys
    rw [hP.descs_eq, hlist]
    refine ⟨fun hodList => absurd ?_ hodList, ⟨nodup_nil, hkeys, fun i c hc => by cases hc⟩⟩
    rw [hP.odList_eq, hlist]
    rfl
  · have hne_zero : numsOf (shmemPhase q replies) ≠ 0 := by omega
    refine ⟨fun _ => hne_zero, ?_⟩
    rw [blockSizeOf_of_ne_zero hne_zero, hnums, hP.descs_eq]
    exact exactPieces_of_length_eq (nodup_blocks q replies) (mem_keys_blocks q replies)
      (fun o ho => mem_listed_of_mem_blocks q replies ho) hlen

theorem EvenReplies.rightPieces (h : EvenReplies N q replies) (hr : ∀ r ∈ replies, r.Unmarked)
    (hne : replies ≠ []) (hshm : ShmServes N q replies) : RightPieces N q replies := by
  obtain ⟨hnums, hexact⟩ := h.exactPieces hr hne
  refine ⟨hexact, hnums, fun s hs toObj => ?_, fun s hs => ?_, fun s hs => ?_⟩
  · have hinv := hexact.fetchInv hr hs
    have hlen : s.qte.odList.length = (shmemPhase q replies).odList.length := by
      rw [← length_map (f := ObjData.objDesc), hinv.descs_eq, length_map]
    rw [dcgObjAssembleShmem, hinv.nums_eq]
    cases hlist : s.qte.odList with
    | nil => rfl
    | cons od odList =>
      have hne_zero := hnums (by
        rw [hlist] at hlen
        exact length_pos_iff.1 (hlen ▸ Nat.succ_pos _))
      rw [blockSizeOf_of_ne_zero hne_zero, ssdCopyListShmem_eq hne_zero]
  · apply (hexact.fetchInv hr hs).fComplete_iff
    rcases h.counted with hlocal | hnodup
    · exact Or.inr (hexact.owner_local hlocal)
    · left
      rw [remaining, drop_zero, hexact.length_eq, fresh_eq_self_iff.2 hnodup]
  · exact (hexact.fetchInv hr hs).exists_allArrived (Int.ofNat_le.2 hexact.remaining_le)
      (hexact.readable hshm)

theorem RightPieces.evenReplies (h : RightPieces N q replies) (hr : ∀ r ∈ replies, r.Unmarked) :
    EvenReplies N q replies := by
  have hP := piecesInv_shmemPhase q hr
  refine ⟨?_, or_iff_not_imp_left.2 fun hremote => ?_⟩
  · by_cases hodList : (shmemPhase q replies).odList = []
    · refine ⟨0, (forall_length_blocks q replies).1 fun g hg => ?_⟩
      have hlen := length_paired (full q) (clip q) (blocks q replies)
      rw [← hP.descs_eq, hodList] at hlen
      have hflat : (blocks q replies).flatten = [] := length_eq_zero_iff.1 (by simpa using hlen.symm)
      exact length_eq_zero_iff.2 (flatten_eq_nil_iff.1 hflat g hg)
    · have hnums := h.nums_ne_zero hodList
      have hfetched := h.fetched
      rw [blockSizeOf_of_ne_zero hnums, hP.descs_eq] at hfetched
      refine ⟨numsOf (shmemPhase q replies), (forall_length_blocks q replies).1 (length_eq_of_mul_le ?_ ?_)⟩
      · intro g hg
        by_cases hnil : g = []
        · rw [hnil]
          exact Nat.zero_le _
        · exact (length_eq_of_exactPieces hfetched (Nat.pos_of_ne_zero hnums) (nodup_blocks q replies)
            (fun o ho => mem_listed_of_mem_blocks q replies ho) hg hnil).le
      · rw [length_blocks, hP.numsOf_eq]
        exact Nat.mul_div_le _ _
  · -- Some piece is requested, so the last one to arrive has to make the count right.
    push Not at hremote
    obtain ⟨o, ho, hnode⟩ := hremote
    obtain ⟨c, hc, howner⟩ := h.fetched.exists_owner ho
    obtain ⟨s, hs, harrived⟩ := h.finishes _ (Reaches.refl _)
    have hinv := h.fetched.fetchInv hr hs
    have hsize := hinv.numPartsRec_eq_size harrived ((h.complete s hs).2 harrived) hc
      (by rw [howner]; exact Bool.not_eq_true _ ▸ hnode)
    rw [hinv.numPartsRec_of_allArrived harrived, remaining, drop_zero, h.fetched.length_eq] at hsize
    exact fresh_eq_self_iff.1 ((fresh_sublist [] _).eq_of_length (Int.ofNat_inj.1 hsize))

/-- A get with shared memory objects is right as a whole only if no answer lists anything. If the memory
behind the table of duplicates does not look like it, the rest is right if and only if all answers bring
equally many new descriptors, and none is listed twice or all owners are on the node. -/
theorem shmemGet_right_iff (N : ShmNode) (q : ObjDescriptor) (replies : List ShmemReply) (hne : replies ≠ [])
    (hshm : ShmServes N q replies) : (ShmemGetRight N q replies ↔ ∀ r ∈ replies, r.listed = []) ∧
      ((∀ r ∈ replies, r.Unmarked) → (RightPieces N q replies ↔ EvenReplies N q replies)) := by
  refine ⟨⟨fun h r hr => ?_, fun hnil => ⟨?_, ?_⟩⟩, fun hr => ⟨fun h => h.evenReplies hr, fun h =>
    h.rightPieces hr hne hshm⟩⟩
  · obtain ⟨before, after, hsplit⟩ := append_of_mem hr
    exact (tableInside_iff ..).1 (h.inside before r after hsplit)
  · intro before r after hsplit
    exact (tableInside_iff ..).2 (hnil r (hsplit ▸ mem_append_right _ mem_cons_self))
  · have hunmarked : ∀ r ∈ replies, r.Unmarked := by
      intro r hr i hge hlt
      rw [hnil r hr] at hlt
      exact absurd hlt (Nat.not_lt_zero i)
    have hlisted : listed replies = [] := by
      rw [listed, flatten_eq_nil_iff]
      intro l hl
      obtain ⟨r, hr, rfl⟩ := List.mem_map.1 hl
      exact hnil r hr
    have hflat : (newPieces q replies).flatten = [] := by
      rw [newPieces, flatten_freshGroups, ← listed, hlisted]
      rfl
    have heven : EvenReplies N q replies :=
      ⟨⟨0, fun g hg => length_eq_zero_iff.2 (flatten_eq_nil_iff.1 hflat g hg)⟩,
        Or.inr (by rw [hlisted]; exact nodup_nil)⟩
    exact heven.rightPieces hunmarked hne hshm

/-- Two cells of a line, of a writer on another node. -/
def lineHalf (owner lo : Nat) : ObjDescriptor :=
  ⟨"field", .columnMajor, owner, 1, ⟨1, fun _ => lo, fun _ => lo + 1⟩, 8⟩

def lineQuery : ObjDescriptor := ⟨"field", .columnMajor, 0, 1, ⟨1, fun _ => 0, fun _ => 3⟩, 8⟩

def lineReply (owner lo : Nat) : ShmemReply := ⟨[lineHalf owner lo], fun _ => 0⟩

def remoteNode : ShmNode := ⟨fun _ => false, fun _ => none⟩

/-- Two peers list one half each. -/
theorem shmemGet_right_two_halves : RightPieces remoteNode lineQuery [lineReply 1 0, lineReply 2 2] ∧
      ¬ ShmemGetRight remoteNode lineQuery [lineReply 1 0, lineReply 2 2] := by
  obtain ⟨hright, hpieces⟩ := shmemGet_right_iff remoteNode lineQuery [lineReply 1 0, lineReply 2 2]
    (cons_ne_nil _ _) (fun o _ hnode => Bool.noConfusion hnode)
  constructor
  · refine (hpieces ?_).2 ⟨⟨1, by decide⟩, Or.inr (by decide)⟩
    intro r hr i hge hlt
    have hlen : r.listed.length = 1 ∧ r.behind i = 0 := by
      rcases mem_pair.1 hr with rfl | rfl
      · exact ⟨rfl, rfl⟩
      · exact ⟨rfl, rfl⟩
    omega
  · intro h
    exact cons_ne_nil _ _ (hright.1 h _ mem_cons_self)

/-- Both peers list the same half: the copy divides by zero, and the get waits for a second part after the
only one has arrived. -/
theorem shmemGet_same_half_wrong :
    let replies := [lineReply 1 0, lineReply 1 0]
    let qte := shmemPhase lineQuery replies
    ¬ RightPieces remoteNode lineQuery replies ∧ (∀ toObj, dcgObjAssembleShmem qte toObj = none) ∧
      ∃ s, Reaches (fetchStep remoteNode (blockSizeOf qte)) (fetchStart qte) s ∧ s.AllArrived ∧
        s.qte.numPartsRec = 1 ∧ s.qte.sizeOd = 2 ∧ s.qte.fComplete = false := by
  intro replies qte
  have hlist : qte.odList ≠ [] := ne_nil_of_length_pos (by decide)
  have hnums : numsOf qte = 0 := by decide
  refine ⟨fun h => h.nums_ne_zero hlist hnums, fun toObj => ?_, ?_⟩
  · obtain ⟨od, odList, hcons⟩ := exists_cons_of_ne_nil hlist
    rw [dcgObjAssembleShmem, hnums, hcons]
    rfl
  have hrun : (runSteps (fetchStep remoteNode (blockSizeOf qte)) (fetchStart qte)
      [.next, .next, .leave, .next, .arrive 1 default]).map (fun s => (s.finished, s.outstanding,
        s.qte.numPartsRec, s.qte.sizeOd, s.qte.fComplete)) = some (true, [], 1, 2, false) := by decide
  obtain ⟨s, hs, hfields⟩ := map_eq_some_iff.1 hrun
  simp only [Prod.mk.injEq] at hfields
  obtain ⟨hfinished, houtstanding, hfields⟩ := hfields
  exact ⟨s, ⟨_, hs⟩, ⟨hfinished, houtstanding⟩, hfields⟩

end

end DataSpaces.Shmem
