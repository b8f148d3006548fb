import DataSpaces.Client.Get
import DataSpaces.Lib.Runs

/-!
# The transaction of a query

While a get posts its requests and waits, the handlers of the client work on its transaction entry: a
not-found reply, the table of a found reply, which is fetched after the reply itself, and the data of a
part. Here the replies and tables are arbitrary, they come in any order, and they come also while requests
are still being posted.

`transaction_counts` is about every state of every run: between handlers `size_od`, `num_od` and the length
of `od_list` agree and no owner and box is listed twice, although the handler raises `size_od` by a whole
table first; the two flags are set by the last answer and by the last part.
-/

namespace DataSpaces.Client

open Lib Geometry Store List Option

/-! ## The source -/

/-- A transaction entry, and what the get still has to do or waits for. -/
structure Transaction where
  qte : QueryTranEntry
  /-- the rest of `qh_peerid_tab` in the loop of `get_obj_descriptors` -/
  toAsk : List Nat
  /-- peers that were asked and have not replied -/
  waiting : List Nat
  /-- tables that are being fetched -/
  receiving : List (List ObjDescriptor)
  /-- how many parts the loop of `dcg_obj_data_get` has requested, from the front of the list -/
  requested : Nat
  /-- parts that were requested and have not arrived -/
  outstanding : List Nat

/-- The peers are known, and none of them was asked. -/
def transactionStart (q : ObjDescriptor) (peers : List Nat) : Transaction where
  qte := qteAlloc q peers.length
  toAsk := peers
  waiting := []
  receiving := []
  requested := 0
  outstanding := []

inductive TransactionEvent where
  /-- `get_obj_descriptors` sends its next request -/
  | ask
  /-- a peer replies -/
  | reply (peer : Nat) (r : DescReply)
  /-- the table number `i` has been fetched -/
  | table (i : Nat)
  /-- `dcg_obj_data_get` sends its next request -/
  | request
  /-- the data of part number `i` arrives -/
  | part (i : Nat) (data : Mem)

/-- One event; `none` if it cannot happen. -/
def transactionStep (t : Transaction) : TransactionEvent → Option Transaction
  | .ask =>
    match t.toAsk with
    | [] => none
    | peer :: rest => some { t with toAsk := rest, waiting := peer :: t.waiting }
  | .reply peer r =>
    if peer ∈ t.waiting then
      match r with
      | .notFound versions =>
        some { t with
          qte := dcgrpcObjGetDesc t.qte (.notFound versions)
          waiting := t.waiting.erase peer }
      -- The handler posts a receive for the table; its completion is an event of its own.
      | .found odTab =>
        some { t with
          waiting := t.waiting.erase peer
          receiving := odTab :: t.receiving }
    else none
  | .table i =>
    (t.receiving[i]?).map fun odTab =>
      { t with
        qte := dcgrpcObjGetDesc t.qte (.found odTab)
        receiving := t.receiving.eraseIdx i }
  | .request =>
    -- The get has waited for `f_odsc_recv`, and goes on if no peer had nothing.
    if t.qte.fOdscRecv = true ∧ t.qte.fErr = false ∧ t.requested < t.qte.odList.length then
      some { t with
        requested := t.requested + 1
        outstanding := t.requested :: t.outstanding }
    else none
  | .part i data =>
    if i ∈ t.outstanding then
      some { t with
        qte := objDataGetCompletion { t.qte with
          odList := t.qte.odList.modify i fun od => { od with data := data } }
        outstanding := t.outstanding.erase i }
    else none

/-- All peers have been asked and have answered, with their tables. -/
def Transaction.AllAnswered (t : Transaction) : Prop :=
  t.toAsk = [] ∧ t.waiting = [] ∧ t.receiving = []

/-- All parts have been requested and have arrived. -/
def Transaction.AllArrived (t : Transaction) : Prop :=
  t.requested = t.qte.odList.length ∧ t.outstanding = []

/-! ## Entries -/

/-- The pieces are distinct, and `size_od` counts them and `left` descriptors more. -/
structure Entries (qte : QueryTranEntry) (left : Nat) : Prop where
  numOd_eq : qte.numOd = qte.odList.length
  sizeOd_eq : qte.sizeOd = qte.odList.length + left
  distinct : (qte.odList.map fun od => pieceKey od.objDesc).Nodup

variable {qte : QueryTranEntry} {t : Transaction} {odsc : ObjDescriptor}

theorem qtFindObj_eq_none_iff :
    qtFindObj qte odsc = none ↔ pieceKey odsc ∉ qte.odList.map fun od => pieceKey od.objDesc := by
  rw [qtFindObj, find?_eq_none]
  simp only [objDescEquals_iff_pieceKey, List.mem_map, not_exists, not_and]

/-- The storage type is not part of the key. -/
theorem Entries.qtAddObj {left : Nat} (h : Entries qte (left + 1))
    (hnew : qtFindObj qte odsc = none) : Entries (qtAddObj qte odsc) left where
  numOd_eq := by
    simp only [Client.qtAddObj, length_cons, h.numOd_eq, Nat.cast_succ]
  sizeOd_eq := by
    simp only [Client.qtAddObj, length_cons, h.sizeOd_eq]
    push_cast
    ring
  distinct := by
    rw [qtFindObj_eq_none_iff] at hnew
    exact nodup_cons.2 ⟨hnew, h.distinct⟩

/-- Each descriptor of the table becomes a piece or is taken off `size_od`. -/
theorem Entries.addTable (odTab : List ObjDescriptor) (h : Entries qte odTab.length) :
    Entries (addTable qte odTab) 0 := by
  induction odTab generalizing qte with
  | nil => exact h
  | cons odsc odTab ih =>
    rw [Client.addTable, foldl_cons, ← Client.addTable]
    apply ih
    cases hfind : qtFindObj qte odsc with
    | none => exact h.qtAddObj hfind
    | some od =>
      refine ⟨h.numOd_eq, ?_, h.distinct⟩
      simp only [h.sizeOd_eq, length_cons]
      push_cast
      ring

/-- Apart from the list and its counters the loop changes nothing. -/
theorem addTable_frame (qte : QueryTranEntry) (odTab : List ObjDescriptor) :
    addTable qte odTab = { qte with
      odList := (addTable qte odTab).odList
      numOd := (addTable qte odTab).numOd
      sizeOd := (addTable qte odTab).sizeOd } := by
  induction odTab generalizing qte with
  | nil => rfl
  | cons odsc odTab ih =>
    rw [addTable, foldl_cons, ← addTable]
    cases qtFindObj qte odsc with
    | none => exact ih _
    | some od => exact ih _

/-! ## Runs -/

/-- How many peers have not answered. -/
def Transaction.unanswered (t : Transaction) : Nat :=
  t.toAsk.length + t.waiting.length + t.receiving.length

theorem Transaction.unanswered_eq_zero : t.unanswered = 0 ↔ t.AllAnswered := by
  rw [unanswered, AllAnswered, ← length_eq_zero_iff, ← length_eq_zero_iff (l := t.waiting),
    ← length_eq_zero_iff (l := t.receiving)]
  omega

/-- What holds of a transaction with `numPeer` peers between any two handlers: `unanswered` peers have not
answered, `requested` parts were requested and `outstanding` of them have not arrived. -/
structure TransactionInv (numPeer : Nat) (qte : QueryTranEntry) (unanswered requested outstanding : Nat) :
    Prop where
  entries : Entries qte 0
  qhNumPeer_eq : qte.qhNumPeer = numPeer
  received_eq : qte.qhNumRepReceived + unanswered = numPeer
  fOdscRecv_iff : qte.fOdscRecv = true ↔ 0 < numPeer ∧ unanswered = 0
  /-- Parts are requested only from a list that is complete. -/
  requested_of : 0 < requested → unanswered = 0
  requested_le : requested ≤ qte.odList.length
  parts_nonneg : 0 ≤ qte.numPartsRec
  parts_eq : qte.numPartsRec + outstanding = requested
  fComplete_iff : qte.fComplete = true ↔ 0 < qte.odList.length ∧ qte.numPartsRec = qte.odList.length

def Transaction.Inv (numPeer : Nat) (t : Transaction) : Prop :=
  TransactionInv numPeer t.qte t.unanswered t.requested t.outstanding.length

theorem transactionInv_start (q : ObjDescriptor) (peers : List Nat) :
    (transactionStart q peers).Inv peers.length where
  entries := ⟨rfl, rfl, nodup_nil⟩
  qhNumPeer_eq := rfl
  received_eq := Nat.zero_add _
  fOdscRecv_iff := by
    have hun : (transactionStart q peers).unanswered = peers.length := rfl
    rw [hun]
    refine ⟨fun h => Bool.noConfusion h, fun h => ?_⟩
    omega
  requested_of := fun hpos => absurd hpos (Nat.lt_irrefl 0)
  requested_le := le_rfl
  parts_nonneg := le_rfl
  parts_eq := rfl
  fComplete_iff := by simp [transactionStart, qteAlloc]

/-- The counters of the entry after an answer. -/
theorem dcgrpcObjGetDesc_counters (qte : QueryTranEntry) (r : DescReply) :
    let qte' := dcgrpcObjGetDesc qte r
    qte'.qhNumPeer = qte.qhNumPeer ∧ qte'.qhNumRepReceived = qte.qhNumRepReceived + 1 ∧
      qte'.fOdscRecv = (qte.fOdscRecv || qte.qhNumRepReceived + 1 == qte.qhNumPeer) ∧
      qte'.numPartsRec = qte.numPartsRec ∧ qte'.fComplete = qte.fComplete := by
  cases r with
  | notFound versions => exact ⟨rfl, rfl, rfl, rfl, rfl⟩
  | found odTab =>
    simp only [dcgrpcObjGetDesc, countReply]
    rw [addTable_frame]
    exact ⟨rfl, rfl, rfl, rfl, rfl⟩

theorem Entries.dcgrpcObjGetDesc (h : Entries qte 0) (r : DescReply) :
    Entries (dcgrpcObjGetDesc qte r) 0 := by
  cases r with
  | notFound versions => exact ⟨h.numOd_eq, h.sizeOd_eq, h.distinct⟩
  | found odTab =>
    have hraised : Entries { qte with sizeOd := qte.sizeOd + odTab.length } odTab.length := by
      refine ⟨h.numOd_eq, ?_, h.distinct⟩
      simp only [h.sizeOd_eq, Nat.cast_zero, add_zero]
    have hadded := hraised.addTable
    exact ⟨hadded.numOd_eq, hadded.sizeOd_eq, hadded.distinct⟩

namespace TransactionInv

variable {numPeer unanswered requested outstanding : Nat}

/-- A peer has answered. As long as it had not, no part was requested. -/
theorem answer (h : TransactionInv numPeer qte (unanswered + 1) requested outstanding) (r : DescReply) :
    TransactionInv numPeer (dcgrpcObjGetDesc qte r) unanswered requested outstanding := by
  obtain ⟨hpeer, hreceived, hrecv, hparts, hcomplete⟩ := dcgrpcObjGetDesc_counters qte r
  have hzero : requested = 0 := Nat.eq_zero_of_not_pos fun hpos => Nat.succ_ne_zero _ (h.requested_of hpos)
  have hcount := h.received_eq
  have hpeers := h.qhNumPeer_eq
  have hsum := h.parts_eq
  refine ⟨h.entries.dcgrpcObjGetDesc r, hpeer.trans hpeers, by omega, ?_, by omega, by omega,
    hparts ▸ h.parts_nonneg, by rw [hparts]; exact hsum, ?_⟩
  · have hnot : qte.fOdscRecv = false := by
      rw [← Bool.not_eq_true, h.fOdscRecv_iff]
      omega
    rw [hrecv, hnot, Bool.false_or, beq_iff_eq]
    omega
  · have hnot : qte.fComplete = false := by
      rw [← Bool.not_eq_true, h.fComplete_iff]
      omega
    rw [hcomplete, hnot, hparts]
    refine ⟨fun hf => Bool.noConfusion hf, fun hdone => ?_⟩
    omega

/-- One more part is requested. -/
theorem request (h : TransactionInv numPeer qte unanswered requested outstanding)
    (hrecv : qte.fOdscRecv = true) (hlt : requested < qte.odList.length) :
    TransactionInv numPeer qte unanswered (requested + 1) (outstanding + 1) where
  entries := h.entries
  qhNumPeer_eq := h.qhNumPeer_eq
  received_eq := h.received_eq
  fOdscRecv_iff := h.fOdscRecv_iff
  requested_of := fun _ => (h.fOdscRecv_iff.1 hrecv).2
  requested_le := hlt
  parts_nonneg := h.parts_nonneg
  parts_eq := by
    have hsum := h.parts_eq
    omega
  fComplete_iff := h.fComplete_iff

/-- A part has arrived. -/
theorem part (h : TransactionInv numPeer qte unanswered requested (outstanding + 1)) (i : Nat) (data : Mem) :
    TransactionInv numPeer (objDataGetCompletion { qte with
      odList := qte.odList.modify i fun od => { od with data := data } }) unanswered requested outstanding := by
  have hlen : (qte.odList.modify i fun od => { od with data := data }).length = qte.odList.length :=
    length_modify ..
  have hkeys : (qte.odList.modify i fun od => { od with data := data }).map (fun od => pieceKey od.objDesc) =
      qte.odList.map fun od => pieceKey od.objDesc := by
    apply map_modify_eq
    intro od
    rfl
  have hsum := h.parts_eq
  have hle := h.requested_le
  have hnonneg := h.parts_nonneg
  refine ⟨⟨?_, ?_, hkeys ▸ h.entries.distinct⟩, h.qhNumPeer_eq, h.received_eq, h.fOdscRecv_iff,
    h.requested_of, ?_, ?_, ?_, ?_⟩
  · show qte.numOd = _
    rw [h.entries.numOd_eq, ← hlen]
    rfl
  · show qte.sizeOd = _
    rw [h.entries.sizeOd_eq, ← hlen]
    rfl
  · exact hle.trans_eq hlen.symm
  · show 0 ≤ qte.numPartsRec + 1
    omega
  · show qte.numPartsRec + 1 + outstanding = requested
    omega
  · have hnot : qte.fComplete = false := by
      rw [← Bool.not_eq_true, h.fComplete_iff]
      omega
    have hsize := h.entries.sizeOd_eq
    show (qte.fComplete || qte.numPartsRec + 1 == qte.sizeOd) = true ↔
      0 < (qte.odList.modify i _).length ∧ qte.numPartsRec + 1 = (qte.odList.modify i _).length
    rw [hnot, Bool.false_or, beq_iff_eq, hlen]
    omega

end TransactionInv

namespace Transaction.Inv

variable {numPeer : Nat} {t t' : Transaction} (h : t.Inv numPeer)

include h

/-- Every event keeps the invariant, and only the arrival of a part touches `f_complete`. -/
theorem step {e : TransactionEvent} (hstep : transactionStep t e = some t') :
    t'.Inv numPeer ∧ ((¬ ∃ i data, e = .part i data) → t'.qte.fComplete = t.qte.fComplete) := by
  have hanswer := fun r => (dcgrpcObjGetDesc_counters t.qte r).2.2.2.2
  rw [Inv] at h
  cases e with
  | ask =>
    rw [transactionStep] at hstep
    split at hstep
    · cases hstep
    · next peer rest hask =>
      obtain rfl := some.inj hstep
      have hun : t.unanswered = unanswered { t with toAsk := rest, waiting := peer :: t.waiting } := by
        simp only [unanswered, hask, length_cons]
        omega
      rw [hun] at h
      exact ⟨h, fun _ => rfl⟩
  | reply peer r =>
    simp only [transactionStep, ite_none_right_eq_some] at hstep
    have hpos := length_pos_of_mem hstep.1
    have herase := length_erase_of_mem hstep.1
    cases r with
    | notFound versions =>
      obtain rfl := some.inj hstep.2
      have hun : t.unanswered = unanswered { t with waiting := t.waiting.erase peer } + 1 := by
        simp only [unanswered, herase]
        omega
      rw [hun] at h
      exact ⟨h.answer (.notFound versions), fun _ => hanswer _⟩
    | found odTab =>
      obtain rfl := some.inj hstep.2
      have hun : t.unanswered = unanswered
          { t with waiting := t.waiting.erase peer, receiving := odTab :: t.receiving } := by
        simp only [unanswered, herase, length_cons]
        omega
      rw [hun] at h
      exact ⟨h, fun _ => rfl⟩
  | table i =>
    obtain ⟨odTab, htab, rfl⟩ := map_eq_some_iff.1 hstep
    obtain ⟨hi, -⟩ := List.getElem?_eq_some_iff.1 htab
    have hun : t.unanswered = unanswered { t with receiving := t.receiving.eraseIdx i } + 1 := by
      simp only [unanswered, length_eraseIdx_of_lt hi]
      omega
    rw [hun] at h
    exact ⟨h.answer (.found odTab), fun _ => hanswer _⟩
  | request =>
    simp only [transactionStep, ite_none_right_eq_some] at hstep
    obtain ⟨⟨hrecv, -, hlt⟩, hs'⟩ := hstep
    obtain rfl := some.inj hs'
    exact ⟨h.request hrecv hlt, fun _ => rfl⟩
  | part i data =>
    simp only [transactionStep, ite_none_right_eq_some] at hstep
    obtain ⟨hi, hs'⟩ := hstep
    obtain rfl := some.inj hs'
    rw [← length_erase_add_one hi] at h
    exact ⟨h.part i data, fun hpart => absurd ⟨i, data, rfl⟩ hpart⟩

theorem allAnswered_iff : t.qte.fOdscRecv = true ↔ 0 < numPeer ∧ t.AllAnswered := by
  rw [h.fOdscRecv_iff, unanswered_eq_zero]

theorem allArrived_iff : t.qte.fComplete = true ↔ t.qte.odList ≠ [] ∧ t.AllArrived := by
  have hsum := h.parts_eq
  have hle := h.requested_le
  have hnonneg := h.parts_nonneg
  rw [h.fComplete_iff, AllArrived, ← length_pos_iff, ← length_eq_zero_iff]
  omega

end Transaction.Inv

theorem transactionInv_of_reaches {q : ObjDescriptor} {peers : List Nat}
    (h : Reaches transactionStep (transactionStart q peers) t) : t.Inv peers.length :=
  h.invariant (transactionInv_start q peers) fun _ _ _ hinv hstep => (hinv.step hstep).1

/-- The counters and the flags of a transaction with `numPeer` peers, and how the flags change. -/
structure TransactionCounts (numPeer : Nat) (t : Transaction) : Prop where
  numOd_eq : t.qte.numOd = t.qte.odList.length
  sizeOd_eq : t.qte.sizeOd = t.qte.odList.length
  distinct : (t.qte.odList.map fun od => pieceKey od.objDesc).Nodup
  received : t.qte.fOdscRecv = true ↔ 0 < numPeer ∧ t.AllAnswered
  complete : t.qte.fComplete = true ↔ t.qte.odList ≠ [] ∧ t.AllArrived
  /-- The last answer sets `f_odsc_recv`, and nothing else does. -/
  becomes_received : ∀ e t', transactionStep t e = some t' →
    (t.qte.fOdscRecv = false ∧ t'.qte.fOdscRecv = true ↔ ¬ t.AllAnswered ∧ t'.AllAnswered)
  /-- The last part sets `f_complete`, and nothing else does. -/
  becomes_complete : ∀ e t', transactionStep t e = some t' →
    (t.qte.fComplete = false ∧ t'.qte.fComplete = true ↔ (∃ i data, e = .part i data) ∧ t'.AllArrived)

/-- For any peers, replies and tables, and in any order. -/
theorem transaction_counts (q : ObjDescriptor) (peers : List Nat) (t : Transaction)
    (h : Reaches transactionStep (transactionStart q peers) t) : TransactionCounts peers.length t := by
  have hinv := transactionInv_of_reaches h
  refine ⟨hinv.entries.numOd_eq, by rw [hinv.entries.sizeOd_eq, Nat.cast_zero, add_zero],
    hinv.entries.distinct, hinv.allAnswered_iff, hinv.allArrived_iff, ?_, ?_⟩
  · intro e t' hstep
    obtain ⟨hinv', -⟩ := hinv.step hstep
    rw [← Bool.not_eq_true, hinv.allAnswered_iff, hinv'.allAnswered_iff]
    -- Without peers everybody has answered from the start.
    have hnone : peers.length = 0 → t.AllAnswered := by
      intro hzero
      have hcount := hinv.received_eq
      rw [← Transaction.unanswered_eq_zero]
      omega
    grind
  · intro e t' hstep
    obtain ⟨hinv', hkeep⟩ := hinv.step hstep
    constructor
    · rintro ⟨hnot, hset⟩
      refine ⟨?_, (hinv'.allArrived_iff.1 hset).2⟩
      by_contra hpart
      rw [hkeep hpart, hnot] at hset
      cases hset
    · rintro ⟨⟨i, data, rfl⟩, harrived⟩
      simp only [transactionStep, ite_none_right_eq_some] at hstep
      obtain ⟨hi, hstep⟩ := hstep
      -- Something was requested, so the list is not empty.
      have hreq : t'.requested = t.requested := by rw [← some.inj hstep]
      have hpos := length_pos_of_mem hi
      have hsum := hinv.parts_eq
      have hnonneg := hinv.parts_nonneg
      have hlen := harrived.1
      rw [← Bool.not_eq_true, hinv.allArrived_iff, hinv'.allArrived_iff]
      refine ⟨fun hdone => ?_, length_pos_iff.1 (by omega), harrived⟩
      rw [hdone.2.2] at hi
      cases hi

/-- Two peers with the same descriptor in their tables, and the first part comes while the second one is
still being requested. -/
theorem transaction_counts_two_peers :
    let q : ObjDescriptor := ⟨"field", .columnMajor, 0, 1, ⟨1, fun _ => 0, fun _ => 3⟩, 8⟩
    let q' : ObjDescriptor := { q with owner := 1 }
    let data : Mem := fun _ => none
    let events : List TransactionEvent :=
      [.ask, .reply 4 (.found [q, q', q]), .ask, .reply 7 (.found [q']), .table 0, .table 0,
        .request, .part 0 data, .request, .part 1 data]
    ∃ t, runSteps transactionStep (transactionStart q [4, 7]) events = some t ∧
      TransactionCounts 2 t ∧ t.qte.sizeOd = 2 ∧ t.qte.fComplete = true := by
  intro q q' data events
  obtain ⟨t, ht⟩ : ∃ t, runSteps transactionStep (transactionStart q [4, 7]) events = some t := ⟨_, rfl⟩
  refine ⟨t, ht, transaction_counts q [4, 7] t ⟨events, ht⟩, ?_, ?_⟩
  · rw [← some.inj ht]
    rfl
  · rw [← some.inj ht]
    rfl

end DataSpaces.Client
