import DataSpaces.Store.Retention

/-!
# The descriptor phase of a query

A get asks the DHT entries of its box for descriptors. A server answers with the descriptors of the
queried name and version, clipped to the query, or with a not-found message (`dsgrpcObjGetDesc`). The
client counts the answers, keeps one piece for each owner and clipped box, and remembers whether some
answer was not-found (`dcgrpcObjGetDesc`).

`descriptorPhase_spec` describes the transaction entry after answers have arrived in some order: the
pieces are the answered descriptors without duplicates, the last one in front, and the counters agree
with their number.
-/

namespace DataSpaces.Client

open Lib Geometry Store List

/-! ## Answers of a server -/

/-- A descriptor as it is sent to the client: the storage type of the query, and the part of the box
inside the query. -/
def clip (q odsc : ObjDescriptor) : ObjDescriptor :=
  { odsc with st := q.st, bb := bboxIntersect q.bb odsc.bb }

inductive DescReply where
  | notFound (versions : List UInt32)
  | found (odTab : List ObjDescriptor)

/-- Answer of a server to `ss_obj_get_desc`. -/
def dsgrpcObjGetDesc (srv : DsServer) (q : ObjDescriptor) : DescReply :=
  match dhtFindEntryAll srv.entSelf q with
  | [] => .notFound (dhtFindVersions srv.entSelf q)
  | odsc :: rest => .found ((odsc :: rest).map (clip q))

/-- The descriptors of an answer. -/
def DescReply.table : DescReply → List ObjDescriptor
  | .notFound _ => []
  | .found odTab => odTab

def DescReply.isNotFound : DescReply → Bool
  | .notFound _ => true
  | .found _ => false

variable (srv : DsServer) (q : ObjDescriptor) (numPeer : Nat)

theorem dsgrpcObjGetDesc_table :
    (dsgrpcObjGetDesc srv q).table = (dhtFindEntryAll srv.entSelf q).map (clip q) := by
  unfold dsgrpcObjGetDesc
  cases dhtFindEntryAll srv.entSelf q with
  | nil => rfl
  | cons odsc rest => rfl

theorem dsgrpcObjGetDesc_isNotFound :
    (dsgrpcObjGetDesc srv q).isNotFound = (dhtFindEntryAll srv.entSelf q).isEmpty := by
  unfold dsgrpcObjGetDesc
  cases dhtFindEntryAll srv.entSelf q with
  | nil => rfl
  | cons odsc rest => rfl

/-! ## The transaction entry of the client -/

/-- `struct query_tran_entry` with the counters of its `struct query_dht`. -/
structure QueryTranEntry where
  qObj : ObjDescriptor
  odList : List ObjData
  sizeOd : Int
  numOd : Int
  numPartsRec : Int
  fOdscRecv : Bool
  fComplete : Bool
  fErr : Bool
  qhNumPeer : Nat
  qhNumRepReceived : Nat

/-- A fresh entry, after the list of peers has arrived. -/
def qteAlloc (q : ObjDescriptor) (numPeer : Nat) : QueryTranEntry where
  qObj := q
  odList := []
  sizeOd := 0
  numOd := 0
  numPartsRec := 0
  fOdscRecv := false
  fComplete := false
  fErr := false
  qhNumPeer := numPeer
  qhNumRepReceived := 0

/-- A piece with the same owner and box. -/
def qtFindObj (qte : QueryTranEntry) (odsc : ObjDescriptor) : Option ObjData :=
  qte.odList.find? fun od => objDescEquals od.objDesc odsc

/-- Add a piece; its data is allocated later. -/
def qtAddObj (qte : QueryTranEntry) (odsc : ObjDescriptor) : QueryTranEntry :=
  { qte with
    odList := objDataAlloc { odsc with st := qte.qObj.st } :: qte.odList
    numOd := qte.numOd + 1 }

/-- The loop of `obj_get_desc_completion` over the received table. -/
def addTable (qte : QueryTranEntry) (odTab : List ObjDescriptor) : QueryTranEntry :=
  odTab.foldl (fun qte odsc =>
    match qtFindObj qte odsc with
    | none => qtAddObj qte odsc
    | some _ => { qte with sizeOd := qte.sizeOd - 1 }) qte

/-- One more answer: the phase is over when all peers have answered. -/
def countReply (qte : QueryTranEntry) : QueryTranEntry :=
  { qte with
    qhNumRepReceived := qte.qhNumRepReceived + 1
    fOdscRecv := qte.fOdscRecv || qte.qhNumRepReceived + 1 == qte.qhNumPeer }

/-- Handle one answer. -/
def dcgrpcObjGetDesc (qte : QueryTranEntry) : DescReply → QueryTranEntry
  | .notFound _ => { countReply qte with fErr := true }
  | .found odTab => countReply (addTable { qte with sizeOd := qte.sizeOd + odTab.length } odTab)

/-- Handle the answers in the order of their arrival. -/
def descriptorPhase (q : ObjDescriptor) (numPeer : Nat) (replies : List DescReply) : QueryTranEntry :=
  replies.foldl dcgrpcObjGetDesc (qteAlloc q numPeer)

/-! ## Pieces without duplicates -/

/-- The owner and the box of a descriptor. -/
def pieceKey (o : ObjDescriptor) : Nat × List (Nat × Nat) := (o.owner, corners o.bb)

theorem objDescEquals_iff_pieceKey (o o' : ObjDescriptor) :
    objDescEquals o o' = true ↔ pieceKey o = pieceKey o' := by
  rw [objDescEquals_iff, pieceKey, pieceKey, Prod.mk.injEq, corners_eq_iff]

/-- The descriptors of answers, in the order of their arrival. -/
def answered (replies : List DescReply) : List ObjDescriptor := replies.flatMap DescReply.table

/-- The pieces that the client keeps of answered descriptors. -/
def pieces (odscs : List ObjDescriptor) : List ObjDescriptor := odscs.foldl (addNew objDescEquals) []

/-- The entry has one piece per answered owner and box, and its counters agree. -/
structure QteInv (q : ObjDescriptor) (numPeer : Nat) (replies : List DescReply)
    (qte : QueryTranEntry) : Prop where
  qObj_eq : qte.qObj = q
  odList_eq : qte.odList = (pieces (answered replies)).map objDataAlloc
  numOd_eq : qte.numOd = qte.odList.length
  sizeOd_eq : qte.sizeOd = qte.odList.length
  numPartsRec_eq : qte.numPartsRec = 0
  fComplete_eq : qte.fComplete = false
  fErr_eq : qte.fErr = replies.any DescReply.isNotFound
  qhNumPeer_eq : qte.qhNumPeer = numPeer
  received_eq : qte.qhNumRepReceived = replies.length
  fOdscRecv_eq : qte.fOdscRecv = decide (1 ≤ numPeer ∧ numPeer ≤ replies.length)

/-- The loop over a table: `left` descriptors are still counted in `size_od` but not looked at. -/
theorem addTable_spec {q : ObjDescriptor} (odTab : List ObjDescriptor) (hst : ∀ o ∈ odTab, o.st = q.st)
    (odscs : List ObjDescriptor) (qte : QueryTranEntry) (hq : qte.qObj = q)
    (hlist : qte.odList = (pieces odscs).map objDataAlloc) (hnum : qte.numOd = qte.odList.length)
    (hsize : qte.sizeOd = qte.odList.length + odTab.length) :
    let qte' := addTable qte odTab
    qte'.odList = (pieces (odscs ++ odTab)).map objDataAlloc ∧ qte'.numOd = qte'.odList.length ∧
      qte'.sizeOd = qte'.odList.length ∧
      qte' = { qte with odList := qte'.odList, numOd := qte'.numOd, sizeOd := qte'.sizeOd } := by
  -- The transaction expects as many objects as it has and the table still brings; every equal
  -- descriptor lowers that number by one.
  induction odTab generalizing odscs qte with
  | nil =>
    refine ⟨by rw [append_nil]; exact hlist, hnum, ?_, rfl⟩
    simpa [addTable] using hsize
  | cons o odTab ih =>
    have hsto : { o with st := qte.qObj.st } = o := by
      rw [hq, ← hst o mem_cons_self]
    have hpieces : pieces (odscs ++ [o]) = addNew objDescEquals (pieces odscs) o := by
      rw [pieces, foldl_append]
      rfl
    rw [length_cons] at hsize
    rw [addTable, foldl_cons, ← addTable, append_cons]
    have hany : (qtFindObj qte o).isSome = (pieces odscs).any fun y => objDescEquals y o := by
      rw [qtFindObj, hlist, find?_map, Option.isSome_map, Bool.eq_iff_iff, find?_isSome, any_eq_true]
      rfl
    -- The search for an equal descriptor is the test of `addNew`, which keeps the pieces distinct.
    cases hf : qtFindObj qte o with
    | none =>
      rw [hf] at hany
      have hnew : pieces (odscs ++ [o]) = o :: pieces odscs := by
        rw [hpieces, addNew, ← hany]
        rfl
      refine ih (fun o' ho' => hst o' (mem_cons_of_mem _ ho')) (odscs ++ [o]) (qtAddObj qte o) hq ?_ ?_ ?_
      · rw [qtAddObj, hsto, hnew, hlist]
        rfl
      · simp only [qtAddObj, length_cons, hnum]
        push_cast
        rfl
      · simp only [qtAddObj, length_cons, hsize]
        push_cast
        ring
    | some od =>
      rw [hf] at hany
      have hold : pieces (odscs ++ [o]) = pieces odscs := by
        rw [hpieces, addNew, ← hany]
        rfl
      refine ih (fun o' ho' => hst o' (mem_cons_of_mem _ ho')) (odscs ++ [o])
        { qte with sizeOd := qte.sizeOd - 1 } hq ?_ hnum ?_
      · rw [hold]
        exact hlist
      · simp only [hsize]
        push_cast
        ring

theorem qteInv_alloc : QteInv q numPeer [] (qteAlloc q numPeer) where
  qObj_eq := rfl
  odList_eq := rfl
  numOd_eq := rfl
  sizeOd_eq := rfl
  numPartsRec_eq := rfl
  fComplete_eq := rfl
  fErr_eq := rfl
  qhNumPeer_eq := rfl
  received_eq := rfl
  fOdscRecv_eq := by
    have hno : ¬ (1 ≤ numPeer ∧ numPeer ≤ ([] : List DescReply).length) := by
      rw [length_nil]
      omega
    rw [decide_eq_false hno]
    rfl

/-- The flag after one more answer. -/
theorem fOdscRecv_succ (n k : Nat) : (decide (1 ≤ n ∧ n ≤ k) || k + 1 == n) = decide (1 ≤ n ∧ n ≤ k + 1) := by
  rw [Bool.eq_iff_iff, Bool.or_eq_true, decide_eq_true_eq, beq_iff_eq, decide_eq_true_eq]
  omega

theorem QteInv.step {q : ObjDescriptor} {numPeer : Nat} {replies : List DescReply}
    {qte : QueryTranEntry} (h : QteInv q numPeer replies qte) (reply : DescReply)
    (hst : ∀ o ∈ reply.table, o.st = q.st) :
    QteInv q numPeer (replies ++ [reply]) (dcgrpcObjGetDesc qte reply) := by
  have hrecv : (qte.fOdscRecv || qte.qhNumRepReceived + 1 == qte.qhNumPeer) =
      decide (1 ≤ numPeer ∧ numPeer ≤ (replies ++ [reply]).length) := by
    rw [h.fOdscRecv_eq, h.received_eq, h.qhNumPeer_eq, fOdscRecv_succ, length_append, length_singleton]
  have hanswered : answered (replies ++ [reply]) = answered replies ++ reply.table := by
    simp [answered]
  cases reply with
  | notFound versions =>
    rw [DescReply.table, append_nil] at hanswered
    refine ⟨h.qObj_eq, ?_, h.numOd_eq, h.sizeOd_eq, h.numPartsRec_eq, h.fComplete_eq, ?_,
      h.qhNumPeer_eq, ?_, hrecv⟩
    · rw [hanswered]
      exact h.odList_eq
    · rw [any_append]
      exact (Bool.or_true _).symm
    · rw [length_append, ← h.received_eq]
      rfl
  | found odTab =>
    obtain ⟨hlist, hnum, hsize, hframe⟩ := addTable_spec odTab hst (answered replies)
      { qte with sizeOd := qte.sizeOd + odTab.length } h.qObj_eq h.odList_eq h.numOd_eq
      (by rw [h.sizeOd_eq])
    rw [dcgrpcObjGetDesc]
    -- Besides the list and its two counters the loop changes nothing.
    refine ⟨?_, ?_, hnum, hsize, ?_, ?_, ?_, ?_, ?_, ?_⟩
    · rw [countReply, hframe]
      exact h.qObj_eq
    · rw [hanswered]
      exact hlist
    · rw [countReply, hframe]
      exact h.numPartsRec_eq
    · rw [countReply, hframe]
      exact h.fComplete_eq
    · rw [countReply, hframe, any_append]
      exact h.fErr_eq.trans (Bool.or_false _).symm
    · rw [countReply, hframe]
      exact h.qhNumPeer_eq
    · rw [countReply, hframe, length_append, ← h.received_eq]
      rfl
    · rw [countReply, hframe]
      exact hrecv

/-- The transaction entry after answers in the storage type of the query. -/
theorem descriptorPhase_spec (replies : List DescReply)
    (hst : ∀ reply ∈ replies, ∀ o ∈ reply.table, o.st = q.st) :
    QteInv q numPeer replies (descriptorPhase q numPeer replies) := by
  induction replies using reverseRecOn with
  | nil => exact qteInv_alloc q numPeer
  | append_singleton replies reply ih =>
    rw [descriptorPhase, foldl_append, foldl_cons, foldl_nil, ← descriptorPhase]
    exact (ih fun r hr => hst r (mem_append_left _ hr)).step reply
      (hst reply (mem_append_right _ (mem_singleton_self reply)))

/-- The answers of servers are in the storage type of the query. -/
theorem st_of_mem_table {srv : DsServer} {q o : ObjDescriptor}
    (h : o ∈ (dsgrpcObjGetDesc srv q).table) : o.st = q.st := by
  rw [dsgrpcObjGetDesc_table] at h
  obtain ⟨o', -, rfl⟩ := mem_map.1 h
  rfl

end DataSpaces.Client
