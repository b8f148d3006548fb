import DataSpaces.Cluster.Complete

/-!
# What fresh memory shows

`obj_data_alloc` does not clear the memory that it allocates. A put overwrites all bytes of its data,
`dsgrpc_obj_get` only those cells of its buffer that `ssd_copy` copies, from the first stored object that
meets the requested piece. Here a run is given the contents of all the memory that it allocates, one
assignment for every put and one for the buffer of the reply.

The reply to a request for a piece is the same for all contents if and only if the found object covers the
piece and the copy reads inside its data; then every byte is copied from that object (`same_replies_iff`).
The two tables of a server do not guarantee this: an object may replace another one in the store of its server
without the directory entries of the other one being replaced (`fresh_memory_sent`).
-/

namespace DataSpaces.Cluster.FreshMemory

open Lib Geometry Space Store Client Copy List Function Option

/-! ## Runs with the contents of fresh memory -/

/-- A put of a part of the domain, with the bytes that the client sends. -/
structure ClientPut (S : SharedSpace) where
  odsc : ObjDescriptor
  bytes : Nat → UInt8
  wf : odsc.bb.Wf
  inside : odsc.bb.Inside S.domain.box
  fits : ArrayFits S.domain.box odsc.size

/-- The data block after the transfer: what follows the data is as it was. -/
def ClientPut.content {S : SharedSpace} (p : ClientPut S) (fresh : Nat → UInt8) : Mem :=
  fun r => some (if r < objDataSize p.odsc then p.bytes r else fresh r)

/-- The object of a put at server `s`. -/
def ClientPut.received {S : SharedSpace} (p : ClientPut S) (s : Nat) (fresh : Nat → UInt8) : ObjData :=
  ownedBy s ⟨p.odsc, p.content fresh, 0⟩

/-- The events of a run, where a put has the bytes of its client. -/
inductive ClientEvent (S : SharedSpace) where
  | put (server : Nat) (p : ClientPut S)
  | complete (server i : Nat)
  | update (src dst : Nat)
  | remove (name : String) (version : UInt32)
  | removeService (server i : Nat)

def ClientEvent.event {S : SharedSpace} (fresh : Nat → UInt8) : ClientEvent S → Event
  | .put s p => .put s (p.received s fresh)
  | .complete s i => .complete s i
  | .update s t => .update s t
  | .remove name version => .remove name version
  | .removeService s i => .removeService s i

/-- The run in which event number `k` finds the contents `fresh k` in the memory that it allocates. -/
def runWith (S : SharedSpace) (m : Nat) (events : List (ClientEvent S)) (fresh : Nat → Nat → UInt8) : State :=
  run S m (events.mapIdx fun k ev => ev.event (fresh k))

/-- `dsgrpc_obj_get` with a given buffer. -/
def objGetInto (buffer : Mem) (srv : DsServer) (odsc : ObjDescriptor) : Option Mem :=
  (lsFind srv.ls odsc).map fun fromObj => (ssdCopy ⟨odsc, buffer, 0⟩ fromObj).data

/-- The bytes that a server sends after a run, if it answers. -/
def reply (S : SharedSpace) (m : Nat) (events : List (ClientEvent S)) (s : Nat) (odsc : ObjDescriptor)
    (fresh : Nat → Nat → UInt8) (buffer : Nat → UInt8) : Option (List (Option UInt8)) :=
  (objGetInto (fun r => some (buffer r)) ((runWith S m events fresh).servers s) odsc).map fun data =>
    (range (objDataSize odsc)).map data

/-! ## The statement -/

section

variable (S : SharedSpace) (m : Nat) (events : List (ClientEvent S)) (s : Nat) (p : ObjDescriptor)

/-- A piece that a directory entry of data of server `s` has produced for a query. -/
structure PieceOf (q o : ObjDescriptor) (fresh : Nat → Nat → UInt8) (t : Nat) : Prop where
  query_wf : q.bb.Wf
  query_dims : q.bb.numDims = S.domain.box.numDims
  entry : o ∈ dhtFindEntryAll ((runWith S m events fresh).servers t).entSelf q
  owner : o.owner = s
  piece : p = clip q o

/-- Two runs that differ in the contents of fresh memory only send the same bytes. -/
def SameReplies : Prop :=
  ∀ fresh buffer fresh' buffer', reply S m events s p fresh buffer = reply S m events s p fresh' buffer'

/-- Every byte of a reply is a byte of a put of the name and version, whatever fresh memory holds. -/
def CopiedReplies : Prop :=
  ∀ r < objDataSize p, (∃ fresh buffer, (reply S m events s p fresh buffer).isSome = true) →
    ∃ s' put, .put s' put ∈ events ∧ put.odsc.name = p.name ∧ put.odsc.version = p.version ∧
      ∃ i < objDataSize put.odsc, ∀ fresh buffer bytes, reply S m events s p fresh buffer = some bytes →
        bytes[r]? = some (some (put.bytes i))

/-- The object covers the piece, and its data has every cell that the copy reads. -/
def CoversReads (fromObj : ObjDescriptor) : Prop :=
  ∀ x ∈ p.bb, x ∈ fromObj.bb ∧
    p.size * (cellOffset fromObj.bb (readCell p.bb fromObj.bb x) + 1) ≤ objDataSize fromObj

/-- The piece is empty, or the server finds no object or one that covers the piece. -/
def Served : Prop :=
  p.size = 0 ∨ ∀ fromObj, lsFind ((runWith S m events fun _ _ => 0).servers s).ls p = some fromObj →
    CoversReads p fromObj.objDesc

end

/-! ## Tagged puts -/

/-- A memory that stands for a number. -/
def tag (k : Nat) : Mem := fun r => if r < k then some 0 else none

theorem tag_injective : Injective tag := by
  intro j k h
  rcases Nat.lt_trichotomy j k with hlt | heq | hgt
  · have hbyte := congrFun h j
    simp [tag, hlt] at hbyte
  · exact heq
  · have hbyte := congrFun h k
    simp [tag, hgt] at hbyte

/-- The number that a memory stands for. -/
noncomputable def untag : Mem → Nat := invFun tag

theorem untag_tag (k : Nat) : untag (tag k) = k := leftInverse_invFun tag_injective k

section

variable {S : SharedSpace} (m : Nat) (events : List (ClientEvent S))

/-- The event whose put has its number for data. -/
def ClientEvent.tagged (k : Nat) : ClientEvent S → Event
  | .put s p => .put s ⟨p.odsc, tag k, 0⟩
  | .complete s i => .complete s i
  | .update s t => .update s t
  | .remove name version => .remove name version
  | .removeService s i => .removeService s i

/-- The data of a put, given the event. -/
def ClientEvent.content (fresh : Nat → UInt8) : ClientEvent S → Mem
  | .put _ p => p.content fresh
  | _ => fun _ => none

/-- Replace the number of a put by its data. -/
noncomputable def fill (fresh : Nat → Nat → UInt8) (od : ObjData) : ObjData :=
  { od with data := ((events[untag od.data]?).map (·.content (fresh (untag od.data)))).getD od.data }

variable (fresh : Nat → Nat → UInt8)

theorem changesData_fill : ChangesData (fill events fresh) where
  objDesc := fun _ => rfl
  refcnt := fun _ => rfl

variable {events}

theorem fill_tagged {k s : Nat} {p : ClientPut S} (h : events[k]? = some (.put s p))
    (fresh : Nat → Nat → UInt8) :
    fill events fresh (ownedBy s ⟨p.odsc, tag k, 0⟩) = p.received s (fresh k) := by
  have hdata : (ownedBy s ⟨p.odsc, tag k, 0⟩).data = tag k := rfl
  rw [fill, hdata, untag_tag, h]
  rfl

theorem event_eq_mapObj {k : Nat} {ev : ClientEvent S} (h : events[k]? = some ev)
    (fresh : Nat → Nat → UInt8) : ev.event (fresh k) = (ev.tagged k).mapObj (fill events fresh) := by
  cases ev with
  | put s p =>
    show Event.put s _ = Event.put s _
    rw [fill_tagged h]
  | _ => rfl

/-- A run is the run of the tagged puts with the data filled in. -/
theorem runWith_eq : runWith S m events fresh =
      (run S m (events.mapIdx fun k ev => ev.tagged k)).mapObj (fill events fresh) := by
  rw [← run_mapObj (changesData_fill events fresh), runWith]
  congr 1
  apply ext_getElem?
  intro k
  rw [getElem?_map, getElem?_mapIdx, getElem?_mapIdx]
  cases h : events[k]? with
  | none => rfl
  | some ev =>
    exact congrArg some (event_eq_mapObj h fresh)

theorem mem_history_tagged {od : ObjData} (h : od ∈ history (events.mapIdx fun k ev => ev.tagged k)) :
    ∃ (k s : Nat) (p : ClientPut S), events[k]? = some (.put s p) ∧ od = ownedBy s ⟨p.odsc, tag k, 0⟩ := by
  obtain ⟨ev', hev', hod⟩ := mem_flatMap.1 h
  obtain ⟨k, hk⟩ := mem_iff_getElem?.1 hev'
  rw [getElem?_mapIdx] at hk
  obtain ⟨ev, hev, rfl⟩ := map_eq_some_iff.1 hk
  cases ev with
  | put s p => exact ⟨k, s, p, hev, mem_singleton.1 hod⟩
  | _ => exact (not_mem_nil hod).elim

/-- The server answers from the object of this put. -/
structure AnswersFrom (S : SharedSpace) (m : Nat) (events : List (ClientEvent S)) (s : Nat) (p : ObjDescriptor)
    (k s' : Nat) (put : ClientPut S) : Prop where
  event : events[k]? = some (.put s' put)
  found : ∀ fresh, lsFind ((runWith S m events fresh).servers s).ls p = some (put.received s' (fresh k))

variable (events) in
/-- Whatever fresh memory holds, the server finds no object, or the object of the same put. -/
theorem lsFind_runWith (s : Nat) (odsc : ObjDescriptor) :
    (∀ fresh, lsFind ((runWith S m events fresh).servers s).ls odsc = none) ∨
      ∃ k s' p, AnswersFrom S m events s odsc k s' p := by
  let c := run S m (events.mapIdx fun k ev => ev.tagged k)
  have hfind : ∀ fresh, lsFind ((runWith S m events fresh).servers s).ls odsc =
      (lsFind (c.servers s).ls odsc).map (fill events fresh) := by
    intro fresh
    rw [runWith_eq]
    exact lsFind_servers_mapObj (changesData_fill events fresh) s odsc
  cases h : lsFind (c.servers s).ls odsc with
  | none =>
    left
    intro fresh
    rw [hfind, h]
    rfl
  | some od =>
    right
    have hmem := (fromHistory_run S m _).store s _ od (lsFind_some h).1
    obtain ⟨k, s', p, hk, rfl⟩ := mem_history_tagged hmem
    refine ⟨k, s', p, hk, fun fresh => ?_⟩
    rw [hfind, h, map_some, fill_tagged hk]

end

/-! ## Pieces -/

/-- A piece of an array over the domain. -/
structure DomainPiece (S : SharedSpace) (p : ObjDescriptor) : Prop where
  wf : p.bb.Wf
  inside : p.bb.Inside S.domain.box
  fits : ArrayFits S.domain.box p.size

section

variable {S : SharedSpace} {m : Nat} {events : List (ClientEvent S)} {s : Nat} {p : ObjDescriptor}

theorem mem_history_runWith {fresh : Nat → Nat → UInt8} {od : ObjData}
    (h : od ∈ history (events.mapIdx fun k ev => ev.event (fresh k))) :
    ∃ (k s : Nat) (put : ClientPut S), od = put.received s (fresh k) := by
  obtain ⟨ev', hev', hod⟩ := mem_flatMap.1 h
  obtain ⟨k, hk⟩ := mem_iff_getElem?.1 hev'
  rw [getElem?_mapIdx] at hk
  obtain ⟨ev, -, rfl⟩ := map_eq_some_iff.1 hk
  cases ev with
  | put s put => exact ⟨k, s, put, mem_singleton.1 hod⟩
  | _ => exact (not_mem_nil hod).elim

/-- A directory entry is the descriptor of a put, so its pieces are pieces of the domain. -/
theorem PieceOf.domainPiece {q o : ObjDescriptor} {fresh : Nat → Nat → UInt8} {t : Nat}
    (h : PieceOf S m events s p q o fresh t) : DomainPiece S p := by
  obtain ⟨hmem, htest⟩ := mem_dhtFindEntryAll.1 h.entry
  obtain ⟨od, hod, rfl⟩ := List.mem_map.1 ((fromHistory_run S m _).table t _ o hmem)
  obtain ⟨k, s', put, rfl⟩ := mem_history_runWith hod
  have hdims : q.bb.numDims = put.odsc.bb.numDims := h.query_dims.trans put.inside.numDims_eq.symm
  have hmeet : ∃ x, x ∈ put.odsc.bb ∧ x ∈ q.bb :=
    (bboxDoesIntersect_iff_exists_mem put.wf h.query_wf hdims.symm).1 (objDescEqualsIntersect_iff.1 htest).2.2
  rw [h.piece]
  refine ⟨?_, (bboxIntersect_inside hdims).trans put.inside, put.fits⟩
  obtain ⟨x, hx, hxq⟩ := hmeet
  exact Bbox.wf_of_mem ((mem_bboxIntersect hdims).2 ⟨hxq, hx⟩)

variable {put : ClientPut S} {fresh : Nat → UInt8}

theorem copyable_of_lsFind (hp : DomainPiece S p) {s' : Nat} {ls : SsStorage}
    (h : lsFind ls p = some (put.received s' fresh)) : Copyable p.bb put.odsc.bb p.size := by
  have htest := (objDescEqualsIntersect_iff.1 (lsFind_some h).2).2.2
  refine hp.fits.copyable hp.inside put.inside ?_
  exact (bboxDoesIntersect_iff_exists_mem hp.wf put.wf
    (hp.inside.numDims_eq.trans put.inside.numDims_eq.symm)).1 htest

theorem ClientPut.content_of_lt {r : Nat} (h : r < objDataSize put.odsc) :
    put.content fresh r = some (put.bytes r) := by
  rw [ClientPut.content, if_pos h]

theorem ClientPut.content_of_le {r : Nat} (h : objDataSize put.odsc ≤ r) :
    put.content fresh r = some (fresh r) := by
  rw [ClientPut.content, if_neg (not_lt.2 h)]

end

/-! ## The bytes of a reply -/

section

variable {S : SharedSpace} {m : Nat} {events : List (ClientEvent S)} {s : Nat} {p : ObjDescriptor}

theorem reply_of_none {fresh : Nat → Nat → UInt8} {buffer : Nat → UInt8}
    (h : lsFind ((runWith S m events fresh).servers s).ls p = none) :
    reply S m events s p fresh buffer = none := by
  rw [reply, objGetInto, h]
  rfl

variable {k s' : Nat} {put : ClientPut S}

theorem AnswersFrom.reply_eq (h : AnswersFrom S m events s p k s' put) (fresh : Nat → Nat → UInt8)
    (buffer : Nat → UInt8) : reply S m events s p fresh buffer = some ((range (objDataSize p)).map
        (ssdCopy ⟨p, fun r => some (buffer r), 0⟩ (put.received s' (fresh k))).data) := by
  rw [reply, objGetInto, h.found]
  rfl

/-- Equal replies have equal bytes. -/
theorem AnswersFrom.byte_eq (h : AnswersFrom S m events s p k s' put) (hsame : SameReplies S m events s p)
    (fresh fresh' : Nat → Nat → UInt8) (buffer buffer' : Nat → UInt8) {i : Nat} (hi : i < objDataSize p) :
    (ssdCopy ⟨p, fun r => some (buffer r), 0⟩ (put.received s' (fresh k))).data i =
      (ssdCopy ⟨p, fun r => some (buffer' r), 0⟩ (put.received s' (fresh' k))).data i := by
  have hreply := hsame fresh buffer fresh' buffer'
  rw [h.reply_eq, h.reply_eq, some.injEq, map_inj_left] at hreply
  exact hreply i (mem_range.2 hi)

/-- Equal replies come from an object that covers the piece. -/
theorem served_of_sameReplies (hp : DomainPiece S p) (hsame : SameReplies S m events s p) :
    Served S m events s p := by
  rcases Nat.eq_zero_or_pos p.size with hzero | hpos
  · exact Or.inl hzero
  right
  intro fromObj hfound
  rcases lsFind_runWith m events s p with hnone | ⟨k, s', put, hans⟩
  · rw [hnone] at hfound
    cases hfound
  rw [hans.found, some.injEq] at hfound
  subst hfound
  have hcopy := copyable_of_lsFind hp (hans.found fun _ _ => 0)
  intro x hx
  have hcell : ∀ r < p.size, p.size * cellOffset p.bb x + r < objDataSize p :=
    fun r hr => hp.fits.cell_lt_objDataSize hp.inside hx hr
  have hmem : x ∈ put.odsc.bb := by
    by_contra hnot
    -- The buffer shows at a cell that is not copied.
    have hkept : ∀ buffer : Nat → UInt8,
        (ssdCopy ⟨p, fun r => some (buffer r), 0⟩ (put.received s' fun _ => 0)).data
          (p.size * cellOffset p.bb x + 0) = some (buffer (p.size * cellOffset p.bb x + 0)) := by
      intro buffer
      exact @cellByte_ssdCopy_of_not_mem ⟨p, fun r => some (buffer r), 0⟩ (put.received s' fun _ => 0) 0 hcopy x
        (fun i hi => (hx i hi).1)
        (fun i hi => (hx i (Nat.lt_of_lt_of_le hi (Nat.sub_le _ _))).2) (fun hboth => hnot hboth.2) hpos
    have hbyte := hans.byte_eq hsame (fun _ _ => 0) (fun _ _ => 0) (fun _ => 0) (fun _ => 1) (hcell 0 hpos)
    rw [hkept, hkept] at hbyte
    exact absurd hbyte (by decide)
  refine ⟨hmem, ?_⟩
  by_contra hlong
  -- The last byte of the cell is read behind the data.
  have hread : ∀ fresh : Nat → UInt8,
      (ssdCopy ⟨p, fun r => some 0, 0⟩ (put.received s' fresh)).data
        (p.size * cellOffset p.bb x + (p.size - 1)) =
      some (fresh (p.size * cellOffset put.odsc.bb (readCell p.bb put.odsc.bb x) + (p.size - 1))) := by
    intro fresh
    refine (@cellByte_ssdCopy_of_mem ⟨p, fun r => some 0, 0⟩ (put.received s' fresh) x (p.size - 1) hcopy hx
      hmem (Nat.sub_lt hpos Nat.one_pos)).trans ?_
    apply ClientPut.content_of_le
    have hlt : objDataSize put.odsc < p.size * cellOffset put.odsc.bb (readCell p.bb put.odsc.bb x) + p.size :=
      not_le.1 hlong
    exact Nat.le_sub_one_of_lt hlt |>.trans (Nat.add_sub_assoc hpos _).le
  have hbyte := hans.byte_eq hsame (fun _ _ => 0) (fun _ _ => 1) (fun _ => 0) (fun _ => 0)
    (hcell (p.size - 1) (Nat.sub_lt hpos Nat.one_pos))
  rw [hread, hread] at hbyte
  exact absurd hbyte (by decide)

/-- Every byte of a covered piece is a byte of the object. -/
theorem AnswersFrom.exists_byte (h : AnswersFrom S m events s p k s' put) (hp : DomainPiece S p)
    (hcover : CoversReads p put.odsc) {r : Nat} (hr : r < objDataSize p) :
    ∃ i < objDataSize put.odsc, ∀ fresh (buffer : Nat → UInt8),
      (ssdCopy ⟨p, fun r => some (buffer r), 0⟩ (put.received s' fresh)).data r = some (put.bytes i) := by
  obtain ⟨x, hx, j, hj, rfl⟩ := hp.fits.exists_cell_of_lt hp.inside hp.wf hr
  obtain ⟨hmem, hend⟩ := hcover x hx
  have hcopy := copyable_of_lsFind hp (h.found fun _ _ => 0)
  have hi : p.size * cellOffset put.odsc.bb (readCell p.bb put.odsc.bb x) + j < objDataSize put.odsc :=
    (Nat.add_lt_add_left hj _).trans_le hend
  refine ⟨_, hi, fun fresh buffer => ?_⟩
  refine (@cellByte_ssdCopy_of_mem ⟨p, fun r => some (buffer r), 0⟩ (put.received s' fresh) x j hcopy hx hmem
    hj).trans ?_
  exact ClientPut.content_of_lt hi

theorem copiedReplies_of_served (hp : DomainPiece S p) (hserved : Served S m events s p) :
    CopiedReplies S m events s p := by
  rintro r hr ⟨fresh, buffer, hanswer⟩
  rcases lsFind_runWith m events s p with hnone | ⟨k, s', put, hans⟩
  · rw [reply_of_none (hnone fresh)] at hanswer
    cases hanswer
  have hcover : CoversReads p put.odsc := by
    rcases hserved with hzero | hcover
    · rw [objDataSize, hzero, Nat.zero_mul] at hr
      exact (Nat.not_lt_zero _ hr).elim
    · exact hcover _ (hans.found fun _ _ => 0)
  obtain ⟨hname, hversion, -⟩ := objDescEqualsIntersect_iff.1 (lsFind_some (hans.found fun _ _ => 0)).2
  obtain ⟨i, hi, hbyte⟩ := hans.exists_byte hp hcover hr
  refine ⟨s', put, mem_of_getElem? hans.event, hname.symm, hversion.symm, i, hi, ?_⟩
  intro fresh buffer bytes hreply
  rw [hans.reply_eq, some.injEq] at hreply
  rw [← hreply, getElem?_map, getElem?_range hr, map_some, hbyte]

theorem sameReplies_of_copiedReplies (hcopied : CopiedReplies S m events s p) :
    SameReplies S m events s p := by
  intro fresh buffer fresh' buffer'
  rcases lsFind_runWith m events s p with hnone | ⟨k, s', put, hans⟩
  · rw [reply_of_none (hnone _), reply_of_none (hnone _)]
  have hfirst := hans.reply_eq fresh buffer
  have hsecond := hans.reply_eq fresh' buffer'
  rw [hfirst, hsecond, some.injEq, map_inj_left]
  intro r hr
  have hr' := mem_range.1 hr
  obtain ⟨_, put', -, -, -, i, -, hbyte⟩ := hcopied r hr' ⟨fresh, buffer, by rw [hfirst]; rfl⟩
  -- Both bytes are the same byte of the same put.
  have hone := hbyte _ _ _ hfirst
  have htwo := hbyte _ _ _ hsecond
  rw [getElem?_map, getElem?_range hr', map_some, some.injEq] at hone htwo
  rw [hone, htwo]

/-- For every run, every server and every piece that a directory entry of its data produced for a query: the
reply does not depend on the contents of fresh memory if and only if the piece is covered by the object that
the server finds, and then every byte is copied from a put of the name and version. -/
theorem same_replies_iff (S : SharedSpace) (m : Nat) (events : List (ClientEvent S)) (s : Nat)
    (p q o : ObjDescriptor) (fresh : Nat → Nat → UInt8) (t : Nat) (h : PieceOf S m events s p q o fresh t) :
    (SameReplies S m events s p ↔ Served S m events s p) ∧
      (CopiedReplies S m events s p ↔ Served S m events s p) := by
  have hp := h.domainPiece
  refine ⟨⟨served_of_sameReplies hp, fun hserved => ?_⟩, ⟨fun hcopied => ?_, copiedReplies_of_served hp⟩⟩
  · exact sameReplies_of_copiedReplies (copiedReplies_of_served hp hserved)
  · exact served_of_sameReplies hp (sameReplies_of_copiedReplies hcopied)

end

/-! ## When a piece is covered -/

/-- With elements of one size, an object that covers the piece has all that the copy reads; in ten dimensions
the copy reads other cells of the object. -/
theorem coversReads_iff {S : SharedSpace} {p fromObj : ObjDescriptor} (hp : DomainPiece S p)
    (hin : fromObj.bb.Inside S.domain.box) (hsize : fromObj.size = p.size) :
    CoversReads p fromObj ↔ ∀ x ∈ p.bb, x ∈ fromObj.bb := by
  refine ⟨fun h x hx => (h x hx).1, fun h x hx => ⟨h x hx, ?_⟩⟩
  have hdims : p.bb.numDims = fromObj.bb.numDims := hp.inside.numDims_eq.trans hin.numDims_eq.symm
  have hread : readCell p.bb fromObj.bb x ∈ fromObj.bb := by
    by_cases hten : p.bb.numDims = 10
    · have hle : fromObj.bb.lb 9 ≤ p.bb.lb 9 := (h p.bb.lb hp.wf.lb_mem 9 (by omega)).1
      rw [readCell, if_pos hten]
      intro i hi
      by_cases hi9 : i = 9
      · subst hi9
        have hx9 := hx 9 (by omega)
        have hxf := h x hx 9 hi
        rw [update_self]
        omega
      · rw [update_of_ne hi9]
        exact h x hx i hi
    · rw [readCell_of_ne hten]
      exact h x hx
  rw [← hsize]
  exact (hsize ▸ hp.fits : ArrayFits S.domain.box fromObj.size).cell_end_le_objDataSize hin hread

section

variable {S : SharedSpace} {m : Nat} {events : List (ClientEvent S)} {s : Nat} {p q o : ObjDescriptor} {t : Nat}
  (hpiece : PieceOf S m events s p q o (fun _ _ => 0) t) (hin : q.bb.Inside S.domain.box)

include hpiece hin

/-- Under a fixed placement, once all transfers and messages have arrived, the pieces are served by the puts
whose descriptors produced them. -/
theorem served_of_fixedPlacement {h : List ObjData}
    (hi : ClusterInv S m h (runWith S m events fun _ _ => 0)) (hq : Settled (runWith S m events fun _ _ => 0))
    (hplace : FixedPlacement S h) : Served S m events s p := by
  obtain ⟨od, rfl, -, hcurrent⟩ := (mem_dhtFindEntryAll_iff hi hq hplace hpiece.query_wf hin).1 hpiece.entry
  refine Or.inr fun fromObj hfound => ?_
  have hown := hcurrent.lsFind_eq hi hq hplace hin
  rw [hpiece.owner, ← hpiece.piece, hfound, some.injEq] at hown
  subst hown
  refine (coversReads_iff hpiece.domainPiece (hplace.inside _ hcurrent.mem) (by rw [hpiece.piece]; rfl)).2 ?_
  intro x hx
  rw [hpiece.piece] at hx
  exact ((hcurrent.mem_clip hplace hin).1 hx).2

/-- Such a run, with the transfers of one name, box and version bin in order, never shows fresh memory: every
byte of a reply is a byte of a put of the name and version. -/
theorem replies_of_fixedPlacement
    (hok : RemovesFindNothing S m (events.mapIdx fun _ ev => ev.event fun _ => 0))
    (horder : TransfersInOrder S m (events.mapIdx fun _ ev => ev.event fun _ => 0))
    (hq : Settled (runWith S m events fun _ _ => 0))
    (hplace : FixedPlacement S (history (events.mapIdx fun _ ev => ev.event fun _ => 0))) :
    CopiedReplies S m events s p ∧ SameReplies S m events s p := by
  have hserved := served_of_fixedPlacement hpiece hin (clusterInv_run S m _ hok horder) hq hplace
  have hcopied := copiedReplies_of_served hpiece.domainPiece hserved
  exact ⟨hcopied, sameReplies_of_copiedReplies hcopied⟩

end

/-! ## The line over two servers -/

/-- A put of the cells `lo` to `hi` of the line. -/
def linePut (lo hi : Nat) (hle : lo ≤ hi) (hhi : hi ≤ 3) : ClientPut lineSpace where
  odsc := (segmentObj lo hi).objDesc
  bytes := fun _ => 7
  wf := fun _ _ => hle
  inside := ⟨rfl, fun _ _ => ⟨Nat.zero_le _, hhi⟩⟩
  fits := arrayFits_line

/-- The cells 1 and 2 are put to server 0. -/
def onePut : List (ClientEvent lineSpace) := [.put 0 (linePut 1 2 (by decide) (by decide)), .complete 0 0]

/-- Then the cells 2 and 3 are put to it, of which server 0 has no directory entry. -/
def twoPuts : List (ClientEvent lineSpace) :=
  [.put 0 (linePut 1 2 (by decide) (by decide)), .put 0 (linePut 2 3 (by decide) (by decide)),
    .complete 0 0, .complete 0 0]

/-- The descriptor of the first put is an entry of server 0 after both runs. -/
theorem pieceOf_line (events : List (ClientEvent lineSpace))
    (h : dhtFindEntryAll ((runWith lineSpace 1 events fun _ _ => 0).servers 0).entSelf
      (segmentObj 0 3).objDesc = [(segmentObj 1 2).objDesc]) :
    PieceOf lineSpace 1 events 0 (segmentObj 1 2).objDesc (segmentObj 0 3).objDesc
      (segmentObj 1 2).objDesc (fun _ _ => 0) 0 where
  query_wf := fun _ _ => Nat.zero_le _
  query_dims := rfl
  entry := by
    rw [h]
    exact mem_cons_self
  owner := rfl
  piece := rfl

theorem same_replies_one_put : SameReplies lineSpace 1 onePut 0 (segmentObj 1 2).objDesc := by
  have hpiece := pieceOf_line onePut rfl
  refine (same_replies_iff _ _ _ _ _ _ _ _ _ hpiece).1.2 (Or.inr fun fromObj hfound => ?_)
  cases hfound
  refine (coversReads_iff hpiece.domainPiece ⟨rfl, fun _ _ => ⟨Nat.zero_le _, ?_⟩⟩ rfl).2 fun x hx => hx
  exact Nat.le_succ 2

theorem replies_of_fixedPlacement_line :
    CopiedReplies lineSpace 1 (onePut ++ [.update 0 1]) 0 (segmentObj 1 2).objDesc ∧
      SameReplies lineSpace 1 (onePut ++ [.update 0 1]) 0 (segmentObj 1 2).objDesc := by
  let put := linePut 1 2 (by decide) (by decide)
  have hplace : FixedPlacement lineSpace [ownedBy 0 (put.received 0 fun _ => 0)] :=
    { wf := forall_mem_singleton.2 put.wf
      dims := forall_mem_singleton.2 rfl
      inside := forall_mem_singleton.2 put.inside
      equal_or_disjoint := by simp only [forall_mem_singleton, bboxEquals_refl, true_or, implies_true]
      unreferenced := forall_mem_singleton.2 rfl
      version_set := forall_mem_singleton.2 (by decide)
      owner_lt := forall_mem_singleton.2 (by decide)
      same_server := by simp only [forall_mem_singleton, implies_true] }
  exact replies_of_fixedPlacement (pieceOf_line _ rfl) ⟨rfl, fun _ _ => ⟨le_rfl, le_rfl⟩⟩
    (removesFindNothing_of_puts (by decide)) (by decide)
    ⟨by rintro (_ | _) <;> rfl, by rintro (_ | _) (_ | _ | _) <;> rfl⟩ hplace

/-- The piece with the cells 1 and 2 is served from the object with the cells 2 and 3: the buffer shows at
cell 1. -/
theorem fresh_memory_sent : PieceOf lineSpace 1 twoPuts 0 (segmentObj 1 2).objDesc (segmentObj 0 3).objDesc
        (segmentObj 1 2).objDesc (fun _ _ => 0) 0 ∧
      (lsFind ((runWith lineSpace 1 twoPuts fun _ _ => 0).servers 0).ls (segmentObj 1 2).objDesc).map
        (fun od => (od.objDesc.bb.lb 0, od.objDesc.bb.ub 0)) = some (2, 3) ∧
      ¬ SameReplies lineSpace 1 twoPuts 0 (segmentObj 1 2).objDesc := by
  have hpiece := pieceOf_line twoPuts rfl
  refine ⟨hpiece, rfl, fun hsame => ?_⟩
  rcases served_of_sameReplies hpiece.domainPiece hsame with hzero | hcover
  · exact absurd hzero (by decide)
  · have hcell := (hcover _ rfl (fun _ => 1) fun _ _ => ⟨le_rfl, Nat.le_succ 1⟩).1 0 Nat.one_pos
    exact absurd hcell.1 (by decide)

end DataSpaces.Cluster.FreshMemory
