import DataSpaces.Client.Descriptors
import DataSpaces.Dimes.Metadata
import DataSpaces.Dimes.Reads

/-!
# A DIMES get

The client asks the servers that `ssd_hash` selects for locations and waits until as many have answered
as it asked, with locations or without (`dimes_locate_data`). Every location gives an entry of the fetch
list, for the part of its object inside the query; a second entry with the same owner and part is
dropped. Then the client fetches the parts (`dimes_fetch_data`). The contiguous parts on other clients
come first: up to a number of reads are posted at a time, and each part is assembled when its reads are
done. The other parts follow in the order of the list. At no point does the client compare the parts with
the query.

`locatePhase_spec` describes the query entry after the answers. `dimesObjGet_eq_done_iff` says when the
get returns `0` and with which buffer, and `cellByte_fetched` where a cell of the buffer comes from.
-/

namespace DataSpaces.Dimes

open Lib Geometry Store Copy Client List

/-! ## Locations -/

inductive LocateReply where
  /-- return code `-1`: the server has no location -/
  | notFound
  | found (tab : List HdrDimesPut)

/-- Answer of a server to `dimes_locate_data_msg`. -/
def locateData (s : MetadataStorage) (odsc : ObjDescriptor) : LocateReply :=
  match (metadataSFindObjLocation s odsc).1 with
  | [] => .notFound
  | hdr :: rest => .found (hdr :: rest)

/-- The locations of an answer. -/
def LocateReply.table : LocateReply → List HdrDimesPut
  | .notFound => []
  | .found tab => tab

theorem locateData_table (s : MetadataStorage) (q : ObjDescriptor) :
    (locateData s q).table = (metadataSFindObjLocation s q).1 := by
  unfold locateData
  cases (metadataSFindObjLocation s q).1 with
  | nil => rfl
  | cons hdr rest => rfl

/-- `struct fetch_entry`: the location stands for the descriptor of the object, its id and the memory
region in the command. -/
structure FetchEntry where
  hdr : HdrDimesPut
  dstOdsc : ObjDescriptor

/-- `struct query_tran_entry_d` with the counters of its `struct query_dht_d`. -/
structure QueryTranEntryD where
  qObj : ObjDescriptor
  fetchList : List FetchEntry
  numFetch : Int
  fLocateDataComplete : Bool
  qhNumReqPosted : Nat
  qhNumReqReceived : Nat

/-- The entry after the requests have been posted to the peers. -/
def qteAllocD (q : ObjDescriptor) (numPeer : Nat) : QueryTranEntryD where
  qObj := q
  fetchList := []
  numFetch := 0
  fLocateDataComplete := false
  qhNumReqPosted := numPeer
  qhNumReqReceived := 0

def qtFindObjD (qte : QueryTranEntryD) (odsc : ObjDescriptor) : Option FetchEntry :=
  qte.fetchList.find? fun fetch => objDescEquals fetch.dstOdsc odsc

def qtAddObjWithCmdD (qte : QueryTranEntryD) (odsc : ObjDescriptor) (cmd : HdrDimesPut) :
    QueryTranEntryD :=
  { qte with fetchList := ⟨cmd, odsc⟩ :: qte.fetchList }

/-- One round of the loop over the received table. -/
def addLocation (qte : QueryTranEntryD) (hdr : HdrDimesPut) : QueryTranEntryD :=
  let odsc := partOf qte.qObj hdr.odsc
  match qtFindObjD qte odsc with
  | none => qtAddObjWithCmdD qte odsc hdr
  | some _ => { qte with numFetch := qte.numFetch - 1 }

/-- One more answer: the phase is over when as many were received as posted. -/
def QueryTranEntryD.countReply (qte : QueryTranEntryD) : QueryTranEntryD :=
  { qte with
    qhNumReqReceived := qte.qhNumReqReceived + 1
    fLocateDataComplete := qte.fLocateDataComplete || qte.qhNumReqReceived + 1 == qte.qhNumReqPosted }

def locateDataCompletionClient (qte : QueryTranEntryD) (tab : List HdrDimesPut) : QueryTranEntryD :=
  (tab.foldl addLocation { qte with numFetch := qte.numFetch + tab.length }).countReply

/-- Handle one answer. -/
def dcgrpcDimesLocateData (qte : QueryTranEntryD) : LocateReply → QueryTranEntryD
  | .notFound => qte.countReply
  | .found tab => locateDataCompletionClient qte tab

/-- Handle the answers in the order of their arrival. -/
def locatePhase (q : ObjDescriptor) (numPeer : Nat) (replies : List LocateReply) : QueryTranEntryD :=
  replies.foldl dcgrpcDimesLocateData (qteAllocD q numPeer)

/-! ## Fetching -/

/-- What the result of a fetch depends on at the client. -/
structure Reader where
  /-- `DIMES_CID` -/
  self : Nat
  /-- `get_available_rdma_buffer_size()` -/
  rdmaAvailable : Nat
  /-- `options.max_num_concurrent_rdma_read_op` -/
  maxReads : Nat
  /-- memory for the part can be allocated and its reads can be posted -/
  allocates : FetchEntry → Bool
  /-- `storage_lookup_obj` finds the object -/
  stores : DimesObjId → UInt32 → Bool

namespace Reader

variable (R : Reader)

/-- The entries that go to the fetch table. -/
def inFetchTab (fetch : FetchEntry) : Bool := readsBlock R.self fetch.hdr.odsc fetch.dstOdsc

/-- The second loop can handle an entry: an object of the client itself has to be in its storage. -/
def obtains (fetch : FetchEntry) : Bool :=
  if fetch.hdr.odsc.owner = R.self then R.stores fetch.hdr.objId fetch.hdr.odsc.version
  else R.allocates fetch

/-- The part of an entry, read from the memory that its location names. -/
def fetch (contents : HdrDimesPut → Mem) (f : FetchEntry) : ObjData :=
  ⟨f.dstOdsc, readPart R.self f.hdr.odsc f.dstOdsc (contents f.hdr), 0⟩

/-- The order in which the entries are assembled: those of the table as their reads are done, then the
others. -/
def assembly (fetchList : List FetchEntry) (order : List Nat) : List FetchEntry :=
  order.filterMap (fun i => (fetchList.filter R.inFetchTab)[i]?) ++
    fetchList.filter fun f => !R.inFetchTab f

/-- The reads of all entries of the table get done, and entry `e` is posted only when all but
`maxReads - 1` of the ones before it are done. -/
def Completes (fetchList : List FetchEntry) (order : List Nat) : Prop :=
  order.Perm (range (fetchList.filter R.inFetchTab).length) ∧
    ∀ t e, order[t]? = some e → e < t + R.maxReads

/-- No part is larger than the buffer, and all are obtained. -/
def CanFetch (fetchList : List FetchEntry) : Prop :=
  (∀ f ∈ fetchList, objDataSize f.dstOdsc ≤ R.rdmaAvailable) ∧
    ∀ f ∈ fetchList, if R.inFetchTab f then R.allocates f = true else R.obtains f = true

instance (fetchList : List FetchEntry) : Decidable (R.CanFetch fetchList) :=
  inferInstanceAs (Decidable (_ ∧ _))

end Reader

/-- Fetch the parts into the buffer; `none` if the fetch is given up, which leaves `f_complete` at `0` or
returns an error. -/
def dimesFetchData (R : Reader) (contents : HdrDimesPut → Mem) (od : ObjData)
    (fetchList : List FetchEntry) (order : List Nat) : Option ObjData :=
  if R.CanFetch fetchList then
    some (ssdCopyList od ((R.assembly fetchList order).map (R.fetch contents)))
  else none

inductive DimesResult where
  /-- the get returns an error, `-ENODATA` included -/
  | failed
  /-- the get waits for answers -/
  | waiting
  /-- the get returns `0`, with this buffer -/
  | done (data : Mem)

/-- A get into the buffer of `od`: `replies` are the answers of the servers in the order of their
arrival, `order` is the order in which the reads of the fetch table are done. -/
def dimesObjGet (R : Reader) (contents : HdrDimesPut → Mem) (od : ObjData) (numDhtNodes : Nat)
    (replies : List LocateReply) (order : List Nat) : DimesResult :=
  -- No peer is asked when `ssd_hash` selects none.
  if numDhtNodes = 0 then .failed
  else
    let qte := locatePhase od.objDesc numDhtNodes replies
    if qte.fLocateDataComplete then
      match dimesFetchData R contents od qte.fetchList order with
      | none => .failed
      | some od => .done od.data
    else .waiting

/-! ## The fetch list -/

/-- The entry of a location. -/
def entryOf (q : ObjDescriptor) (hdr : HdrDimesPut) : FetchEntry := ⟨hdr, partOf q hdr.odsc⟩

/-- Entries with the same owner and part. -/
def sameEntry (f g : FetchEntry) : Bool := objDescEquals f.dstOdsc g.dstOdsc

def entryKey (f : FetchEntry) : Nat × List (Nat × Nat) := pieceKey f.dstOdsc

theorem sameEntry_iff_entryKey (f g : FetchEntry) : sameEntry f g = true ↔ entryKey f = entryKey g :=
  objDescEquals_iff_pieceKey _ _

/-- The locations of answers, in the order of their arrival. -/
def located (replies : List LocateReply) : List HdrDimesPut := replies.flatMap LocateReply.table

/-- The entries that the client keeps for answered locations. -/
def fetchEntries (q : ObjDescriptor) (hdrs : List HdrDimesPut) : List FetchEntry :=
  (hdrs.map (entryOf q)).foldl (addNew sameEntry) []

theorem fetchEntries_append_singleton (q : ObjDescriptor) (hdrs : List HdrDimesPut) (hdr : HdrDimesPut) :
    fetchEntries q (hdrs ++ [hdr]) = addNew sameEntry (fetchEntries q hdrs) (entryOf q hdr) := by
  rw [fetchEntries, map_append, foldl_append]
  rfl

/-- The query entry after answers: one fetch entry for each owner and part, counted by `num_fetch`. -/
structure LocateInv (q : ObjDescriptor) (numPeer : Nat) (replies : List LocateReply)
    (qte : QueryTranEntryD) : Prop where
  qObj_eq : qte.qObj = q
  fetchList_eq : qte.fetchList = fetchEntries q (located replies)
  numFetch_eq : qte.numFetch = qte.fetchList.length
  posted_eq : qte.qhNumReqPosted = numPeer
  received_eq : qte.qhNumReqReceived = replies.length
  complete_eq : qte.fLocateDataComplete = decide (1 ≤ numPeer ∧ numPeer ≤ replies.length)

variable {q : ObjDescriptor} {qte : QueryTranEntryD}

/-- One round of the loop drops the entry or adds it. -/
theorem addLocation_eq (hq : qte.qObj = q) {hdrs : List HdrDimesPut}
    (hlist : qte.fetchList = fetchEntries q hdrs) (hdr : HdrDimesPut) :
    (addLocation qte hdr).fetchList = fetchEntries q (hdrs ++ [hdr]) ∧
      (addLocation qte hdr).numFetch - (addLocation qte hdr).fetchList.length =
        qte.numFetch - qte.fetchList.length - 1 ∧
      addLocation qte hdr = { qte with
        fetchList := (addLocation qte hdr).fetchList
        numFetch := (addLocation qte hdr).numFetch } := by
  -- The client drops a location with the owner and the part of the query of an earlier one.
  have hany : (qtFindObjD qte (partOf qte.qObj hdr.odsc)).isSome =
      (fetchEntries q hdrs).any fun f => sameEntry f (entryOf q hdr) := by
    rw [qtFindObjD, hlist, hq, Bool.eq_iff_iff, find?_isSome, any_eq_true]
    rfl
  rw [fetchEntries_append_singleton, addNew, ← hany, ← hlist]
  cases hf : qtFindObjD qte (partOf qte.qObj hdr.odsc) with
  | none =>
    have hadd : addLocation qte hdr = qtAddObjWithCmdD qte (partOf qte.qObj hdr.odsc) hdr := by
      simp only [addLocation, hf]
    rw [hadd]
    refine ⟨?_, ?_, rfl⟩
    · rw [← hq]
      rfl
    · simp only [qtAddObjWithCmdD, length_cons]
      push_cast
      ring
  | some f =>
    have hdrop : addLocation qte hdr = { qte with numFetch := qte.numFetch - 1 } := by
      simp only [addLocation, hf]
    rw [hdrop]
    refine ⟨rfl, ?_, rfl⟩
    ring

/-- The loop over a table: `left` locations are counted in `num_fetch` but not looked at yet. -/
theorem foldl_addLocation_spec (tab : List HdrDimesPut) (hdrs : List HdrDimesPut) (qte : QueryTranEntryD)
    (hq : qte.qObj = q) (hlist : qte.fetchList = fetchEntries q hdrs)
    (hnum : qte.numFetch = qte.fetchList.length + tab.length) : let qte' := tab.foldl addLocation qte
    qte'.fetchList = fetchEntries q (hdrs ++ tab) ∧ qte'.numFetch = qte'.fetchList.length ∧
      qte' = { qte with fetchList := qte'.fetchList, numFetch := qte'.numFetch } := by
  induction tab generalizing hdrs qte with
  | nil =>
    refine ⟨by rw [append_nil]; exact hlist, ?_, rfl⟩
    simpa using hnum
  | cons hdr tab ih =>
    obtain ⟨hlist', hcount, hframe⟩ := addLocation_eq hq hlist hdr
    rw [length_cons] at hnum
    rw [foldl_cons, append_cons]
    obtain ⟨hfinal, hfinalnum, hfinalframe⟩ := ih (hdrs ++ [hdr]) (addLocation qte hdr)
      (by rw [hframe]; exact hq) hlist' (by push_cast at hnum; omega)
    refine ⟨hfinal, hfinalnum, ?_⟩
    rw [hframe] at hfinalframe
    rw [hframe]
    exact hfinalframe

/-- An answer adds its entries and is counted; nothing else changes. -/
theorem dcgrpcDimesLocateData_spec {hdrs : List HdrDimesPut} (hq : qte.qObj = q)
    (hlist : qte.fetchList = fetchEntries q hdrs) (hnum : qte.numFetch = qte.fetchList.length)
    (reply : LocateReply) : let qte' := dcgrpcDimesLocateData qte reply
    qte'.fetchList = fetchEntries q (hdrs ++ reply.table) ∧ qte'.numFetch = qte'.fetchList.length ∧
      qte' = { qte.countReply with fetchList := qte'.fetchList, numFetch := qte'.numFetch } := by
  cases reply with
  | notFound =>
    refine ⟨?_, hnum, rfl⟩
    rw [LocateReply.table, append_nil]
    exact hlist
  | found tab =>
    obtain ⟨hlist', hnum', hframe⟩ := foldl_addLocation_spec tab hdrs
      { qte with numFetch := qte.numFetch + tab.length } hq hlist (by rw [hnum])
    refine ⟨hlist', hnum', ?_⟩
    simp only [dcgrpcDimesLocateData, locateDataCompletionClient, QueryTranEntryD.countReply]
    rw [hframe]

variable {numPeer : Nat} {replies : List LocateReply}

theorem LocateInv.step (h : LocateInv q numPeer replies qte)
    (reply : LocateReply) : LocateInv q numPeer (replies ++ [reply]) (dcgrpcDimesLocateData qte reply) := by
  obtain ⟨hlist, hnum, hframe⟩ := dcgrpcDimesLocateData_spec h.qObj_eq h.fetchList_eq h.numFetch_eq reply
  have hlocated : located (replies ++ [reply]) = located replies ++ reply.table := by simp [located]
  refine ⟨?_, by rw [hlocated]; exact hlist, hnum, ?_, ?_, ?_⟩
  · rw [hframe]
    exact h.qObj_eq
  · rw [hframe]
    exact h.posted_eq
  · rw [hframe, length_append, length_singleton, ← h.received_eq]
    rfl
  · -- The wait ends with the last reply, so without any request it never ends.
    rw [hframe, length_append, length_singleton, ← fOdscRecv_succ, ← h.complete_eq,
      ← h.received_eq, ← h.posted_eq]
    rfl

theorem locatePhase_spec (q : ObjDescriptor) (numPeer : Nat) (replies : List LocateReply) :
    LocateInv q numPeer replies (locatePhase q numPeer replies) := by
  induction replies using reverseRecOn with
  | nil =>
    refine ⟨rfl, rfl, rfl, rfl, rfl, ?_⟩
    rw [length_nil, decide_eq_false (by omega)]
    rfl
  | append_singleton replies reply ih =>
    rw [locatePhase, foldl_append, foldl_cons, foldl_nil, ← locatePhase]
    exact ih.step reply

/-- A get returns `0` when it asked some server, all have answered and the parts can be fetched. -/
theorem dimesObjGet_eq_done_iff (R : Reader) (contents : HdrDimesPut → Mem) (od : ObjData)
    (hnum : replies.length = numPeer) (order : List Nat)
    {data : Mem} : dimesObjGet R contents od numPeer replies order = .done data ↔
      (replies ≠ [] ∧ R.CanFetch (fetchEntries od.objDesc (located replies))) ∧
        data = (ssdCopyList od ((R.assembly (fetchEntries od.objDesc (located replies)) order).map
          (R.fetch contents))).data := by
  have hspec := locatePhase_spec od.objDesc numPeer replies
  have hnil : numPeer = 0 ↔ replies = [] := by rw [← hnum, length_eq_zero_iff]
  rw [dimesObjGet]
  by_cases hzero : numPeer = 0
  · simp [hnil.1 hzero, hzero]
  · have hflag : (locatePhase od.objDesc numPeer replies).fLocateDataComplete = true := by
      rw [hspec.complete_eq, decide_eq_true_iff]
      omega
    rw [if_neg hzero]
    simp only [hflag, if_true, hspec.fetchList_eq, dimesFetchData]
    have hsome : replies ≠ [] := fun h => hzero (hnil.2 h)
    by_cases hcan : R.CanFetch (fetchEntries od.objDesc (located replies))
    · simp [hcan, hsome, eq_comm]
    · simp [hcan]

/-! ## Where a cell comes from -/

section

variable {R : Reader} {contents : HdrDimesPut → Mem} {q : ObjDescriptor} {G : Bbox} {hdrs : List HdrDimesPut}
  {order : List Nat} {f : FetchEntry} {r : Nat}

theorem mem_fetchEntries (hf : f ∈ fetchEntries q hdrs) :
    ∃ hdr ∈ hdrs, entryOf q hdr = f := mem_map.1 (mem_of_mem_foldl_addNew hf)

/-- All entries are assembled. -/
theorem Reader.mem_assembly {fetchList : List FetchEntry} (hc : R.Completes fetchList order) :
    f ∈ R.assembly fetchList order ↔ f ∈ fetchList := by
  have htab : f ∈ order.filterMap (fun i => (fetchList.filter R.inFetchTab)[i]?) ↔
      f ∈ fetchList.filter R.inFetchTab := by
    rw [mem_filterMap]
    constructor
    · rintro ⟨i, -, hi⟩
      exact mem_of_getElem? hi
    · intro hf
      obtain ⟨i, hi⟩ := mem_iff_getElem?.1 hf
      refine ⟨i, hc.1.mem_iff.2 (mem_range.2 ?_), hi⟩
      exact (List.getElem?_eq_some_iff.1 hi).1
  rw [Reader.assembly, mem_append, htab, mem_filter, mem_filter]
  cases R.inFetchTab f <;> simp

/-- The buffer of a get that asked for the locations `hdrs`. -/
def fetched (R : Reader) (contents : HdrDimesPut → Mem) (q : ObjDescriptor) (hdrs : List HdrDimesPut)
    (order : List Nat) : Mem :=
  (ssdCopyList (objDataAlloc q) ((R.assembly (fetchEntries q hdrs) order).map (R.fetch contents))).data

/-- What a cell of the query gets from the part of a location. -/
def partByte (R : Reader) (contents : HdrDimesPut → Mem) (q : ObjDescriptor) (hdr : HdrDimesPut)
    (x : Coord) (r : Nat) : Option UInt8 :=
  readPart R.self hdr.odsc (partOf q hdr.odsc) (contents hdr)
    (q.size * cellOffset (partOf q hdr.odsc).bb (readCell q.bb (partOf q hdr.odsc).bb x) + r)

variable (hmeets : ∀ hdr ∈ hdrs, QueryMeets q hdr.odsc G)
  (hc : R.Completes (fetchEntries q hdrs) order) {x : Coord} (hx : x ∈ q.bb)

include hmeets hc hx

/-- A cell of the buffer comes from the entry that covers it and is assembled last. -/
theorem cellByte_fetched (hr : r < q.size) :
    fetched R contents q hdrs order (q.size * cellOffset q.bb x + r) =
      match (R.assembly (fetchEntries q hdrs) order).reverse.find? fun f => decide (x ∈ f.dstOdsc.bb) with
      | none => none
      | some f => partByte R contents q f.hdr x r := by
  -- Every part lies in the query, so the assembly is a sequence of exact copies.
  have hcopy : ∀ od ∈ (R.assembly (fetchEntries q hdrs) order).map (R.fetch contents),
      Copyable (objDataAlloc q).objDesc.bb od.objDesc.bb (objDataAlloc q).objDesc.size := by
    intro od hod
    obtain ⟨f, hf, rfl⟩ := mem_map.1 hod
    obtain ⟨hdr, hhdr, rfl⟩ := mem_fetchEntries ((Reader.mem_assembly hc).1 hf)
    exact (hmeets hdr hhdr).copyable
  have hbyte := cellByte_ssdCopyList hcopy (show x ∈ (objDataAlloc q).objDesc.bb from hx) hr
  rw [cellByte, ssdCopyList_objDesc] at hbyte
  refine hbyte.trans ?_
  rw [← map_reverse, find?_map]
  show (match Option.map (R.fetch contents) (List.find? (fun f => decide (x ∈ f.dstOdsc.bb)) _) with
    | none => none
    | some od => _) = _
  -- The last part that covers the cell decides.
  cases hfind : (R.assembly (fetchEntries q hdrs) order).reverse.find?
      fun f => decide (x ∈ f.dstOdsc.bb) with
  | none => rfl
  | some f =>
    have hmem := mem_reverse.1 (mem_of_find?_eq_some hfind)
    obtain ⟨hdr, -, rfl⟩ := mem_fetchEntries ((Reader.mem_assembly hc).1 hmem)
    rfl

variable (contents) in
/-- The cell comes from one of the locations that cover it. -/
theorem exists_fetched_from (hcov : ∃ hdr ∈ hdrs, x ∈ hdr.odsc.bb) :
    ∃ hdr ∈ hdrs, x ∈ hdr.odsc.bb ∧ ∀ r < q.size,
      fetched R contents q hdrs order (q.size * cellOffset q.bb x + r) = partByte R contents q hdr x r := by
  obtain ⟨hdr₀, hhdr₀, hx₀⟩ := hcov
  have hpart₀ : x ∈ (entryOf q hdr₀).dstOdsc.bb := (hmeets hdr₀ hhdr₀).mem_part.2 ⟨hx, hx₀⟩
  -- Its entry, or one with the same owner and part, is assembled.
  obtain ⟨f₀, hf₀, hkey⟩ := exists_mem_foldl_addNew sameEntry_iff_entryKey
    (mem_map_of_mem (f := entryOf q) hhdr₀)
  have hcov₀ : x ∈ f₀.dstOdsc.bb :=
    (mem_congr_of_bboxEquals (corners_eq_iff.1 (congrArg Prod.snd hkey))).2 hpart₀
  cases hfind : (R.assembly (fetchEntries q hdrs) order).reverse.find?
      fun f => decide (x ∈ f.dstOdsc.bb) with
  | none =>
    have hnone := find?_eq_none.1 hfind f₀ (mem_reverse.2 ((Reader.mem_assembly hc).2 hf₀))
    exact absurd (decide_eq_true hcov₀) hnone
  | some f =>
    have hmem := mem_reverse.1 (mem_of_find?_eq_some hfind)
    have hlast := find?_some hfind
    obtain ⟨hdr, hhdr, rfl⟩ := mem_fetchEntries ((Reader.mem_assembly hc).1 hmem)
    refine ⟨hdr, hhdr, ((hmeets hdr hhdr).mem_part.1 (of_decide_eq_true hlast)).2, fun r hr => ?_⟩
    rw [cellByte_fetched hmeets hc hx hr, hfind]
    rfl

/-- At the client that has the first located object with the cell, the cell comes from this object: the
part is not in the fetch table, and the later entries are assembled first. -/
theorem fetched_from_first {hdr : HdrDimesPut}
    (hfirst : hdrs.find? (fun hdr => decide (x ∈ hdr.odsc.bb)) = some hdr)
    (hself : R.self = hdr.odsc.owner) (hr : r < q.size) :
    fetched R contents q hdrs order (q.size * cellOffset q.bb x + r) = partByte R contents q hdr x r := by
  have hkey : ∀ f g : FetchEntry, entryKey f = entryKey g →
      decide (x ∈ f.dstOdsc.bb) = decide (x ∈ g.dstOdsc.bb) := by
    intro f g hk
    have hbox := corners_eq_iff.1 (congrArg Prod.snd hk)
    exact decide_eq_decide.2 (mem_congr_of_bboxEquals hbox)
  have hlist : (fetchEntries q hdrs).reverse.find? (fun f => decide (x ∈ f.dstOdsc.bb)) =
      some (entryOf q hdr) := by
    rw [fetchEntries, find?_reverse_foldl_addNew sameEntry_iff_entryKey hkey, find?_map]
    have hsame : hdrs.find? ((fun f : FetchEntry => decide (x ∈ f.dstOdsc.bb)) ∘ entryOf q) =
        hdrs.find? fun hdr => decide (x ∈ hdr.odsc.bb) := by
      apply find?_congr
      intro hdr' hhdr'
      rw [Function.comp_apply, decide_eq_decide]
      exact (hmeets hdr' hhdr').mem_part.trans (and_iff_right hx)
    rw [hsame, hfirst]
    rfl
  have hrows : R.inFetchTab (entryOf q hdr) = false := by
    show readsBlock R.self hdr.odsc _ = false
    simp [readsBlock, hself]
  -- The entries that are assembled after the table, read from their end.
  have hothers : ((fetchEntries q hdrs).filter fun f => !R.inFetchTab f).reverse.find?
      (fun f => decide (x ∈ f.dstOdsc.bb)) = some (entryOf q hdr) := by
    rw [← filter_reverse, find?_filter]
    obtain ⟨hp, before, after, heq, hbefore⟩ := find?_eq_some_iff_append.1 hlist
    refine find?_eq_some_iff_append.2 ⟨by simpa [hrows] using hp, before, after, heq, ?_⟩
    intro f hf
    have hno := hbefore f hf
    simp only [Bool.not_eq_true', decide_eq_false_iff_not] at hno
    simp [hno]
  rw [cellByte_fetched hmeets hc hx hr, Reader.assembly, reverse_append, find?_append, hothers]
  rfl

end

end DataSpaces.Dimes
