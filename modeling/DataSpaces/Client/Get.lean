import DataSpaces.Client.Descriptors
import DataSpaces.Copy.Objects

/-!
# The data phase of a query

After the descriptor phase the client asks the owner of every piece for its data. A server that finds an
object copies the common part into a fresh buffer and sends it (`dsgrpcObjGet`); a server that finds
none does not answer. The client counts the parts that arrive and assembles them when the count reaches
the number of pieces (`dcgObjGet`).

`dataPhase_spec` describes the transaction entry after the parts have arrived in some order. A get
returns data exactly when all peers answered, none of them with not-found, and all pieces were served
(`dcgObjGet_eq_done_iff`).
-/

namespace DataSpaces.Client

open Lib Geometry Store Copy List Option

/-- Answer of a server to `ss_obj_get`: the common part of the object that `ls_find` finds. The buffer
is allocated without clearing it. -/
def dsgrpcObjGet (srv : DsServer) (odsc : ObjDescriptor) : Option Mem :=
  (lsFind srv.ls odsc).map fun fromObj => (ssdCopy (objDataAlloc odsc) fromObj).data

/-- One more part has arrived. -/
def objDataGetCompletion (qte : QueryTranEntry) : QueryTranEntry :=
  { qte with
    numPartsRec := qte.numPartsRec + 1
    fComplete := qte.fComplete || qte.numPartsRec + 1 == qte.sizeOd }

/-- The answer to the request for piece number `i` arrives, if the owner answers. -/
def receivePart (servers : Nat → DsServer) (qte : QueryTranEntry) (i : Nat) : QueryTranEntry :=
  match qte.odList[i]? with
  | none => qte
  | some od =>
    match dsgrpcObjGet (servers od.objDesc.owner) { od.objDesc with version := qte.qObj.version } with
    -- The error path of `dsgrpc_obj_get`: no reply, the part stays empty.
    | none => qte
    | some data => objDataGetCompletion { qte with odList := qte.odList.set i { od with data := data } }

/-- The answers arrive in some order. -/
def dataPhase (servers : Nat → DsServer) (qte : QueryTranEntry) (order : List Nat) : QueryTranEntry :=
  order.foldl (receivePart servers) qte

inductive GetResult where
  /-- the get returns `-EAGAIN` -/
  | noData
  /-- the get waits for an answer that does not come -/
  | waiting
  /-- the get returns `0` and has filled the buffer -/
  | done (data : Mem)

/-- A get into the buffer of `od`: `replies` are the answers of the DHT peers in the order of their
arrival, `order` is the order in which the requests for the pieces are answered. -/
def dcgObjGet (servers : Nat → DsServer) (od : ObjData) (numPeer : Nat) (replies : List DescReply)
    (order : List Nat) : GetResult :=
  let qte := descriptorPhase od.objDesc numPeer replies
  if qte.fOdscRecv then
    -- Some peer has answered that it has no descriptors.
    if qte.fErr then .noData
    else
      let qte := dataPhase servers qte order
      if qte.fComplete then .done (ssdCopyList od qte.odList).data else .waiting
  else .waiting

/-! ## Parts -/

section

variable (servers : Nat → DsServer) (version : UInt32)

/-- The data that the owner of a piece sends. -/
def served (p : ObjDescriptor) : Option Mem := dsgrpcObjGet (servers p.owner) { p with version := version }

/-- A piece after its owner was asked. -/
def part (p : ObjDescriptor) : ObjData :=
  match served servers version p with
  | none => objDataAlloc p
  | some data => { objDataAlloc p with data := data }

@[simp] theorem part_objDesc (p : ObjDescriptor) : (part servers version p).objDesc = p := by
  unfold part
  split <;> rfl

/-- The entry after the answers for the pieces `asked` have arrived. -/
structure DataInv (ps : List ObjDescriptor) (asked : List Nat) (qte : QueryTranEntry) : Prop where
  version_eq : qte.qObj.version = version
  sizeOd_eq : qte.sizeOd = ps.length
  odList_eq : ∀ i, qte.odList[i]? =
    (ps[i]?).map fun p => if i ∈ asked then part servers version p else objDataAlloc p
  numPartsRec_eq : qte.numPartsRec =
    (asked.countP fun i => ((ps[i]?).bind (served servers version)).isSome : Nat)
  fComplete_eq : qte.fComplete = decide (0 < ps.length ∧ qte.numPartsRec = ps.length)

variable {servers version} {ps : List ObjDescriptor} {asked : List Nat} {qte : QueryTranEntry}

section

variable (h : DataInv servers version ps asked qte)

include h

/-- Asking an owner that does not answer leaves everything as it is. -/
theorem DataInv.unserved {i : Nat} (hno : (ps[i]?).bind (served servers version) = none) :
    DataInv servers version ps (asked ++ [i]) qte where
  version_eq := h.version_eq
  sizeOd_eq := h.sizeOd_eq
  odList_eq := by
    intro j
    rw [h.odList_eq j]
    cases hp : ps[j]? with
    | none => rfl
    | some p =>
      by_cases hji : j = i
      · -- The piece has no data, asked or not.
        subst hji
        have hpart : part servers version p = objDataAlloc p := by
          rw [hp, bind_some] at hno
          rw [part, hno]
        simp [hpart]
      · simp [hji]
  numPartsRec_eq := by
    rw [countP_append, h.numPartsRec_eq]
    simp [hno]
  fComplete_eq := h.fComplete_eq

/-- The data of a piece arrives for the first time. -/
theorem DataInv.arrive {i : Nat} (hnd : (asked ++ [i]).Nodup) (hlt : ∀ j ∈ asked ++ [i], j < ps.length)
    {p : ObjDescriptor} {data : Mem} (hp : ps[i]? = some p) (hserved : served servers version p = some data) :
    DataInv servers version ps (asked ++ [i])
      (objDataGetCompletion { qte with
        odList := qte.odList.set i { objDataAlloc p with data := data } }) := by
  have hcount : ((asked ++ [i]).countP fun j => ((ps[j]?).bind (served servers version)).isSome) =
      (asked.countP fun j => ((ps[j]?).bind (served servers version)).isSome) + 1 := by
    rw [countP_append]
    simp [hp, hserved]
  -- So far some piece is missing.
  have hfew : qte.numPartsRec < ps.length := by
    have hsub : asked ++ [i] ⊆ range ps.length := fun j hj => mem_range.2 (hlt j hj)
    have hlen := (hnd.subperm hsub).length_le
    rw [length_append, length_singleton, length_range] at hlen
    rw [h.numPartsRec_eq]
    exact_mod_cast Nat.lt_of_le_of_lt countP_le_length hlen
  refine ⟨h.version_eq, h.sizeOd_eq, fun j => ?_, ?_, ?_⟩
  · by_cases hji : j = i
    · subst hji
      have hin : j < qte.odList.length := by
        have hsome := h.odList_eq j
        rw [hp] at hsome
        exact (List.getElem?_eq_some_iff.1 hsome).1
      have hpart : part servers version p = { objDataAlloc p with data := data } := by
        rw [part, hserved]
      show (qte.odList.set j _)[j]? = _
      rw [getElem?_set_self hin, hp, map_some, if_pos (by simp), hpart]
    · show (qte.odList.set i _)[j]? = _
      rw [getElem?_set_ne (Ne.symm hji), h.odList_eq j]
      simp [hji]
  · show qte.numPartsRec + 1 = _
    rw [hcount, h.numPartsRec_eq]
    push_cast
    rfl
  · show (qte.fComplete || qte.numPartsRec + 1 == qte.sizeOd) =
      decide (0 < ps.length ∧ qte.numPartsRec + 1 = ps.length)
    have hno : qte.fComplete = false := by
      rw [h.fComplete_eq, decide_eq_false_iff_not]
      exact fun hdone => hfew.ne hdone.2
    rw [hno, Bool.false_or, h.sizeOd_eq, Bool.eq_iff_iff, beq_iff_eq, decide_eq_true_iff]
    refine ⟨fun heq => ⟨?_, heq⟩, And.right⟩
    exact Nat.zero_lt_of_lt (hlt i (mem_append_right _ (mem_singleton_self i)))

theorem DataInv.step {i : Nat} (hnd : (asked ++ [i]).Nodup) (hlt : ∀ j ∈ asked ++ [i], j < ps.length) :
    DataInv servers version ps (asked ++ [i]) (receivePart servers qte i) := by
  have hi := hlt i (mem_append_right _ (mem_singleton_self i))
  have hnew : i ∉ asked := fun hmem => (List.nodup_append.1 hnd).2.2 i hmem i (mem_singleton_self i) rfl
  have hp : ps[i]? = some (ps.get ⟨i, hi⟩) := getElem?_eq_getElem hi
  have hod : qte.odList[i]? = some (objDataAlloc (ps.get ⟨i, hi⟩)) := by
    rw [h.odList_eq i, hp, map_some, if_neg hnew]
  have hask : dsgrpcObjGet (servers (objDataAlloc (ps.get ⟨i, hi⟩)).objDesc.owner)
      { (objDataAlloc (ps.get ⟨i, hi⟩)).objDesc with version := qte.qObj.version } =
        served servers version (ps.get ⟨i, hi⟩) := by
    rw [h.version_eq]
    rfl
  rw [receivePart, hod]
  simp only [hask]
  cases hserved : served servers version (ps.get ⟨i, hi⟩) with
  | none => exact h.unserved (by rw [hp, bind_some, hserved])
  | some data => exact h.arrive hnd hlt hp hserved

end

/-- The entry after all requests that are answered have been answered, in any order. -/
theorem dataPhase_spec (h : DataInv servers version ps [] qte) (order : List Nat)
    (hperm : order.Perm (range ps.length)) :
    (dataPhase servers qte order).odList = ps.map (part servers version) ∧
      ((dataPhase servers qte order).fComplete = true ↔
        ps ≠ [] ∧ ∀ p ∈ ps, (served servers version p).isSome = true) := by
  have hrun : ∀ asked, asked.Nodup → (∀ j ∈ asked, j < ps.length) →
      DataInv servers version ps asked (dataPhase servers qte asked) := by
    intro asked
    induction asked using reverseRecOn with
    | nil => exact fun _ _ => h
    | append_singleton asked i ih =>
      intro hnd hlt
      have hinv := ih (List.nodup_append.1 hnd).1 fun j hj => hlt j (mem_append_left _ hj)
      rw [dataPhase, foldl_append]
      exact hinv.step hnd hlt
  have hmem : ∀ j, j ∈ order ↔ j < ps.length := fun j => by
    rw [hperm.mem_iff, mem_range]
  have hinv := hrun order (hperm.nodup_iff.2 nodup_range) fun j hj => (hmem j).1 hj
  constructor
  · apply ext_getElem?
    intro i
    rw [hinv.odList_eq i, getElem?_map]
    by_cases hi : i < ps.length
    · rw [getElem?_eq_getElem hi, map_some, if_pos ((hmem i).2 hi)]
      rfl
    · rw [getElem?_eq_none (Nat.le_of_not_lt hi)]
      rfl
  · rw [hinv.fComplete_eq, decide_eq_true_iff, hinv.numPartsRec_eq, hperm.countP_eq, Nat.cast_inj,
      length_pos_iff]
    -- All rounds counted a part exactly when all pieces are served.
    have hall : (range ps.length).countP
        (fun i => ((ps[i]?).bind (served servers version)).isSome) = ps.length ↔
          ∀ p ∈ ps, (served servers version p).isSome = true := by
      have hlen := countP_eq_length (l := range ps.length)
        (p := fun i => ((ps[i]?).bind (served servers version)).isSome)
      rw [length_range] at hlen
      rw [hlen]
      constructor
      · intro hrange p hp
        obtain ⟨i, hi, rfl⟩ := mem_iff_getElem.1 hp
        simpa [hi] using hrange i (mem_range.2 hi)
      · intro hps i hi
        rw [getElem?_eq_getElem (mem_range.1 hi), bind_some]
        exact hps _ (getElem_mem _)
    rw [hall]

end

/-! ## The result -/

section

variable {servers : Nat → DsServer} {version : UInt32} {od : ObjData} {numPeer : Nat}
  {replies : List DescReply}

/-- The pieces as they are assembled. -/
def assembled (servers : Nat → DsServer) (q : ObjDescriptor) (replies : List DescReply) : List ObjData :=
  (pieces (answered replies)).map (part servers q.version)

/-- A get returns data when all peers have answered, each with descriptors, and all pieces are served.
The buffer is then assembled from the pieces, whatever the order of their arrival. -/
theorem dcgObjGet_eq_done_iff (hst : ∀ reply ∈ replies, ∀ o ∈ reply.table, o.st = od.objDesc.st)
    (hnum : replies.length = numPeer) {order : List Nat}
    (hperm : order.Perm (range (pieces (answered replies)).length)) {data : Mem} :
    dcgObjGet servers od numPeer replies order = .done data ↔
      (replies ≠ [] ∧ (∀ reply ∈ replies, reply.isNotFound = false) ∧ pieces (answered replies) ≠ [] ∧
        ∀ p ∈ pieces (answered replies), (served servers od.objDesc.version p).isSome = true) ∧
      data = (ssdCopyList od (assembled servers od.objDesc replies)).data := by
  have hqte := descriptorPhase_spec od.objDesc numPeer replies hst
  have hdata : DataInv servers od.objDesc.version (pieces (answered replies)) []
      (descriptorPhase od.objDesc numPeer replies) := by
    refine ⟨by rw [hqte.qObj_eq], ?_, fun i => ?_, hqte.numPartsRec_eq, ?_⟩
    · rw [hqte.sizeOd_eq, hqte.odList_eq, length_map]
    · rw [hqte.odList_eq, getElem?_map]
      simp
    · rw [hqte.fComplete_eq, hqte.numPartsRec_eq]
      simp only [false_eq_decide_iff]
      omega
  obtain ⟨hlist, hcomplete⟩ := dataPhase_spec hdata order hperm
  have hrecv : (descriptorPhase od.objDesc numPeer replies).fOdscRecv = true ↔ replies ≠ [] := by
    rw [hqte.fOdscRecv_eq, decide_eq_true_iff, ← hnum, ← length_pos_iff]
    omega
  have herr : (descriptorPhase od.objDesc numPeer replies).fErr = false ↔
      ∀ reply ∈ replies, reply.isNotFound = false := by
    rw [hqte.fErr_eq, List.any_eq_false]
    simp
  rw [← hrecv, ← herr, ← hcomplete, dcgObjGet, assembled]
  simp only [hlist]
  -- The three flags decide.
  cases (descriptorPhase od.objDesc numPeer replies).fOdscRecv with
  | false => simp
  | true =>
    cases (descriptorPhase od.objDesc numPeer replies).fErr with
    | true => simp
    | false =>
      cases (dataPhase servers (descriptorPhase od.objDesc numPeer replies) order).fComplete with
      | false => simp
      | true => simp [eq_comm]

/-- Every cell of the buffer comes from the first answered piece that covers it. -/
theorem cellByte_assembled (servers : Nat → DsServer) {q : ObjDescriptor}
    (hcopy : ∀ p ∈ pieces (answered replies), Copyable q.bb p.bb q.size) {x : Coord} (hx : x ∈ q.bb)
    {r : Nat} (hr : r < q.size) :
    cellByte (ssdCopyList (objDataAlloc q) (assembled servers q replies)) x r =
      match (answered replies).find? fun p => decide (x ∈ p.bb) with
      | none => none
      | some p => (part servers q.version p).data
          (q.size * cellOffset p.bb (readCell q.bb p.bb x) + r) := by
  have hkey : ∀ o o' : ObjDescriptor, pieceKey o = pieceKey o' →
      decide (x ∈ o.bb) = decide (x ∈ o'.bb) := by
    intro o o' hk
    have hbox := corners_eq_iff.1 (congrArg Prod.snd hk)
    exact decide_eq_decide.2 (mem_congr_of_bboxEquals hbox)
  -- The list is assembled from its front, so its end wins, and that is what was answered first.
  have hfind : (assembled servers q replies).reverse.find? (fun od => decide (x ∈ od.objDesc.bb)) =
      ((answered replies).find? fun p => decide (x ∈ p.bb)).map (part servers q.version) := by
    rw [assembled, ← map_reverse, find?_map, ← find?_reverse_foldl_addNew objDescEquals_iff_pieceKey hkey]
    simp only [Function.comp_def, part_objDesc]
    rfl
  have hpieces : ∀ od ∈ assembled servers q replies,
      Copyable (objDataAlloc q).objDesc.bb od.objDesc.bb (objDataAlloc q).objDesc.size := by
    intro od hod
    obtain ⟨p, hp, rfl⟩ := List.mem_map.1 hod
    rw [part_objDesc]
    exact hcopy p hp
  rw [cellByte_ssdCopyList hpieces hx hr, hfind]
  cases (answered replies).find? fun p => decide (x ∈ p.bb) with
  | none => rfl
  | some p =>
    simp only [map_some, part_objDesc]
    rfl

/-- A byte of a served piece, at a cell that may lie beyond the piece along the outermost dimension. -/
theorem part_data (servers : Nat → DsServer) {p : ObjDescriptor} {fromObj : ObjData}
    (hver : p.version = version) (hfind : lsFind (servers p.owner).ls p = some fromObj)
    (hcopy : Copyable p.bb fromObj.objDesc.bb p.size) {y : Coord}
    (hlb : ∀ i < p.bb.numDims, p.bb.lb i ≤ y i) (hinner : ∀ i < p.bb.numDims - 1, y i ≤ p.bb.ub i)
    {r : Nat} (hr : r < p.size) : (part servers version p).data (p.size * cellOffset p.bb y + r) =
      if y ∈ p.bb ∧ y ∈ fromObj.objDesc.bb then
        fromObj.data (p.size * cellOffset fromObj.objDesc.bb (readCell p.bb fromObj.objDesc.bb y) + r)
      else none := by
  have hserved : served servers version p = some (ssdCopy (objDataAlloc p) fromObj).data := by
    rw [served, ← hver, dsgrpcObjGet, hfind]
    rfl
  have hdata : (part servers version p).data = (ssdCopy (objDataAlloc p) fromObj).data := by
    rw [part, hserved]
  rw [hdata]
  split
  · next hy =>
    show cellByte (ssdCopy (objDataAlloc p) fromObj) y r = _
    exact cellByte_ssdCopy_of_mem hcopy hy.1 hy.2 hr
  · next hy =>
    show cellByte (ssdCopy (objDataAlloc p) fromObj) y r = _
    exact cellByte_ssdCopy_of_not_mem hcopy hlb hinner hy hr

end

end DataSpaces.Client
