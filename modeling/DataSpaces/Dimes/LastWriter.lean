import DataSpaces.Dimes.Complete
import DataSpaces.Lib.Runs

/-!
# Which put a DIMES get returns

A DIMES put sends its location to the servers of its own box only, and there it displaces every location
that it meets, whole. So a put that overlaps an earlier one in part makes the rest of the earlier one
disappear at these servers, while other servers still return all of it.

`dimes_last_writer_iff` says for which sequences of puts of a variable every later query finds each cell
and returns the value of the last put of the cell: a put is either met by no later put, or the later puts
together cover it. Moreover every cell has to be the business of some server, and in ten dimensions the
puts have to lie in the first layer of the domain along the tenth one.
-/

namespace DataSpaces.Dimes

open Lib Geometry Space Store Copy List Function Client Cluster

/-! ## The source -/

/-- The metadata servers and the next local object index of each client, with a log of the locations that
were put. -/
structure DimesState where
  servers : Nat → MetadataStorage
  nextIndex : Nat → Nat
  log : List HdrDimesPut

def dimesAlloc (maxVersions : Nat) : DimesState := ⟨fun _ => metadataSAlloc maxVersions, fun _ => 0, []⟩

/-- Send the location to the servers of its box. It is an error if there are none. -/
def dimesObjPut (S : SharedSpace) (servers : Nat → MetadataStorage) (hdr : HdrDimesPut) :
    Option (Nat → MetadataStorage) :=
  if S.peers hdr.odsc.bb = [] then none
  else some ((S.peers hdr.odsc.bb).foldl (fun servers t =>
    update servers t (metadataSAddObjLocation (servers t) hdr)) servers)

/-- The location that a client puts. -/
def putHdr (s : DimesState) (call : Nat × ObjDescriptor) : HdrDimesPut :=
  ⟨⟨call.1, s.nextIndex call.1⟩, { call.2 with owner := call.1 }⟩

/-- A put by a client. It is complete when the servers have added the location. -/
def dimesClientPut (S : SharedSpace) (s : DimesState) (call : Nat × ObjDescriptor) : Option DimesState :=
  (dimesObjPut S s.servers (putHdr s call)).map fun servers =>
    { servers := servers
      nextIndex := update s.nextIndex call.1 (s.nextIndex call.1 + 1)
      log := s.log ++ [putHdr s call] }

/-! ## The statement -/

/-- The puts of the log are well-formed boxes of one variable and version in the domain, which fits into
memory. -/
structure OneVariable (S : SharedSpace) (name : String) (version : UInt32) (size : Nat)
    (log : List HdrDimesPut) : Prop where
  fits : ArrayFits S.domain.box size
  size_pos : 0 < size
  name_eq : ∀ hdr ∈ log, hdr.odsc.name = name
  version_eq : ∀ hdr ∈ log, hdr.odsc.version = version
  size_eq : ∀ hdr ∈ log, hdr.odsc.size = size
  wf : ∀ hdr ∈ log, hdr.odsc.bb.Wf
  inside : ∀ hdr ∈ log, hdr.odsc.bb.Inside S.domain.box

/-- A query of the variable and version in the domain. -/
structure QueryOf (S : SharedSpace) (name : String) (version : UInt32) (size : Nat)
    (q : ObjDescriptor) : Prop where
  name_eq : q.name = name
  version_eq : q.version = version
  size_eq : q.size = size
  wf : q.bb.Wf
  inside : q.bb.Inside S.domain.box

/-- The last put of a cell. -/
structure IsLastPut (log : List HdrDimesPut) (x : Coord) (hdr : HdrDimesPut) : Prop where
  mem : hdr ∈ log
  covers : x ∈ hdr.odsc.bb
  last : ∀ later, Follows log hdr later → x ∉ later.odsc.bb

/-- Every query finds each cell that was put, and a get that returns `0` has the value of the last put of
the cell, whatever was put and in whatever order the servers answer and the reads are done. -/
def LastWriterWins (S : SharedSpace) (name : String) (version : UInt32) (size : Nat) (s : DimesState) :
    Prop :=
  ∀ q, QueryOf S name version size q → ∀ x ∈ q.bb, ∀ hdr, IsLastPut s.log x hdr →
    (∃ t ∈ S.peers q.bb, ∃ loc ∈ locationsAt s.servers q t, x ∈ loc.odsc.bb) ∧
      ∀ bytes R arrival order data, arrival.Perm (S.peers q.bb) →
        R.Completes (getEntries s.servers q arrival) order →
        getResult s.servers bytes R q arrival order = .done data →
        ∀ r < size, data (size * cellOffset q.bb x + r) =
          bytesOf bytes hdr (size * cellOffset hdr.odsc.bb x + r)

/-- The box of one cell. -/
def cellBox (n : Nat) (x : Coord) : Bbox := ⟨n, x, x⟩

/-- Two locations share a cell. -/
def Meets (a b : HdrDimesPut) : Prop := ∃ x, x ∈ a.odsc.bb ∧ x ∈ b.odsc.bb

/-- When the last writer wins. -/
structure PutsReplace (S : SharedSpace) (log : List HdrDimesPut) : Prop where
  /-- Every cell that was put has a server. -/
  served : ∀ hdr ∈ log, ∀ x ∈ hdr.odsc.bb, S.peers (cellBox S.domain.box.numDims x) ≠ []
  /-- A put that a later one meets is covered by later ones. -/
  replaced : ∀ hdr ∈ log, (∃ later, Follows log hdr later ∧ Meets hdr later) →
    ∀ x ∈ hdr.odsc.bb, ∃ later, Follows log hdr later ∧ x ∈ later.odsc.bb
  /-- In ten dimensions a put that stays lies in the first layer of the domain. -/
  tenth : S.domain.box.numDims = 10 → ∀ hdr ∈ log,
    (∀ later, Follows log hdr later → ¬ Meets hdr later) → hdr.odsc.bb.ub 9 = S.domain.box.lb 9

/-! ## Runs of puts -/

/-- The locations of a log that were sent to server `t`. -/
def sentTo (S : SharedSpace) (log : List HdrDimesPut) (t : Nat) : List HdrDimesPut :=
  log.filter fun hdr => decide (t ∈ S.peers hdr.odsc.bb)

theorem foldl_update_apply {β : Type*} (f : β → β) (l : List Nat) (hnd : l.Nodup) (a : Nat → β) (t : Nat) :
    l.foldl (fun a t => update a t (f (a t))) a t = if t ∈ l then f (a t) else a t := by
  induction l generalizing a with
  | nil => rfl
  | cons u l ih =>
    rw [nodup_cons] at hnd
    rw [foldl_cons, ih hnd.2]
    by_cases htu : t = u
    · subst htu
      rw [if_neg hnd.1, if_pos mem_cons_self, update_self]
    · rw [update_of_ne htu]
      simp [htu]

/-- Each server has the locations that were sent to it, and no two puts have the same id. -/
structure DimesInv (S : SharedSpace) (m : Nat) (s : DimesState) : Prop where
  servers_eq : s.servers = storagesOf m (sentTo S s.log)
  fresh : ∀ hdr ∈ s.log, hdr.objId.localObjIndex < s.nextIndex hdr.objId.dartId
  ids : (s.log.map HdrDimesPut.objId).Nodup

variable {S : SharedSpace} {call : Nat × ObjDescriptor}

theorem sentTo_append_singleton (S : SharedSpace) (log : List HdrDimesPut) (hdr : HdrDimesPut) (t : Nat) :
    sentTo S (log ++ [hdr]) t =
      if t ∈ S.peers hdr.odsc.bb then sentTo S log t ++ [hdr] else sentTo S log t := by
  rw [sentTo, filter_append]
  by_cases ht : t ∈ S.peers hdr.odsc.bb
  · rw [if_pos ht, filter_cons_of_pos (by simpa using ht)]
    rfl
  · rw [if_neg ht, filter_cons_of_neg (by simpa using ht), filter_nil, append_nil]
    rfl

theorem DimesInv.put {m : Nat} {s s' : DimesState} (h : DimesInv S m s)
    (hs : dimesClientPut S s call = some s') : DimesInv S m s' := by
  obtain ⟨servers, hput, rfl⟩ := Option.map_eq_some_iff.1 hs
  rw [dimesObjPut, Option.ite_none_left_eq_some] at hput
  obtain ⟨-, hput⟩ := hput
  refine ⟨?_, fun hdr hhdr => ?_, ?_⟩
  · -- The put adds its location at the servers its box hashes to, at the others nothing happens.
    funext t
    dsimp only
    rw [← Option.some.inj hput,
      foldl_update_apply (metadataSAddObjLocation · (putHdr s call)) _ (S.peers_nodup _) s.servers t,
      h.servers_eq, storagesOf, storagesOf, sentTo_append_singleton]
    split
    · rw [afterAdditions_append_singleton]
    · rfl
  · dsimp only at hhdr ⊢
    rw [mem_append, mem_singleton] at hhdr
    rw [update_apply]
    rcases hhdr with hhdr | rfl
    · have hlt := h.fresh hdr hhdr
      split
      · next hc =>
        rw [hc] at hlt
        omega
      · exact hlt
    · rw [if_pos (show (putHdr s call).objId.dartId = call.1 from rfl)]
      exact Nat.lt_succ_self _
  · -- The index of the client is above those it has used.
    rw [map_append, map_singleton, List.nodup_append]
    refine ⟨h.ids, nodup_singleton _, fun id hid id' hid' heq => ?_⟩
    obtain ⟨hdr, hhdr, rfl⟩ := mem_map.1 hid
    rw [mem_singleton.1 hid'] at heq
    have hlt := h.fresh hdr hhdr
    rw [heq] at hlt
    exact Nat.lt_irrefl _ hlt

theorem DimesInv.of_reaches {m : Nat} {s : DimesState} (h : Reaches (dimesClientPut S) (dimesAlloc m) s) :
    DimesInv S m s :=
  h.invariant (P := DimesInv S m) ⟨rfl, fun _ hhdr => (not_mem_nil hhdr).elim, nodup_nil⟩
    fun _ _ _ hinv hs => hinv.put hs

/-! ## What the servers return -/

section

variable {S : SharedSpace} {name : String} {version : UInt32} {size m : Nat} {s : DimesState}
  (hinv : DimesInv S m s) (hv : OneVariable S name version size s.log)

include hinv in
theorem DimesInv.log_nodup : s.log.Nodup := Nodup.of_map _ hinv.ids

include hinv in
theorem DimesInv.eq_of_objId {a b : HdrDimesPut} (ha : a ∈ s.log) (hb : b ∈ s.log)
    (heq : a.objId = b.objId) : a = b := inj_on_of_nodup_map hinv.ids ha hb heq

include hv

theorem OneVariable.dims_eq {hdr : HdrDimesPut} (hhdr : hdr ∈ s.log) :
    hdr.odsc.bb.numDims = S.domain.box.numDims := (hv.inside hdr hhdr).numDims_eq

/-- The location of a put, as a box in the domain. -/
def OneVariable.domainBox {hdr : HdrDimesPut} (hhdr : hdr ∈ s.log) : DomainBox S.domain :=
  ⟨hdr.odsc.bb, hv.wf hdr hhdr, hv.inside hdr hhdr⟩

theorem displaces_iff_meets {new old : HdrDimesPut} (hnew : new ∈ s.log) (hold : old ∈ s.log) :
    displaces new old = true ↔ Meets old new := by
  rw [displaces, objDescByNameIntersect_iff, bboxDoesIntersect_iff_exists_mem (hv.wf new hnew)
    (hv.wf old hold) ((hv.dims_eq hnew).trans (hv.dims_eq hold).symm)]
  constructor
  · rintro ⟨-, x, hxn, hxo⟩
    exact ⟨x, hxo, hxn⟩
  · rintro ⟨x, hxo, hxn⟩
    exact ⟨(hv.name_eq new hnew).trans (hv.name_eq old hold).symm, x, hxn, hxo⟩

variable {q : ObjDescriptor} (hq : QueryOf S name version size q)

theorem OneVariable.oneDimesArray (hq : QueryOf S name version size q) :
    OneDimesArray (sentTo S s.log) q S.domain.box where
  fits := hq.size_eq ▸ hv.fits
  size_pos := hq.size_eq ▸ hv.size_pos
  query_wf := hq.wf
  query_inside := hq.inside
  wf := fun _ hdr hhdr _ => hv.wf hdr (mem_filter.1 hhdr).1
  inside := fun _ hdr hhdr _ => hv.inside hdr (mem_filter.1 hhdr).1
  size_eq := fun _ hdr hhdr _ => (hv.size_eq hdr (mem_filter.1 hhdr).1).trans hq.size_eq.symm

include hinv hq

/-- A server of the query returns the puts that were sent to it, meet the query and are not met by a
later one that was sent to it. -/
theorem mem_locationsAt_iff {t : Nat} {hdr : HdrDimesPut} : hdr ∈ locationsAt s.servers q t ↔
      (hdr ∈ s.log ∧ t ∈ S.peers hdr.odsc.bb ∧
        ∀ later, Follows s.log hdr later → t ∈ S.peers later.odsc.bb → ¬ Meets hdr later) ∧
      ∃ x, x ∈ q.bb ∧ x ∈ hdr.odsc.bb := by
  -- Among the puts of the variable the version plays no role.
  let hits : HdrDimesPut → HdrDimesPut → Bool := fun new old =>
    decide (t ∈ S.peers new.odsc.bb) && displacesIn m new old
  have hhits : ∀ {new old}, new ∈ s.log → old ∈ s.log →
      (hits new old = true ↔ t ∈ S.peers new.odsc.bb ∧ Meets old new) := by
    intro new old hnew hold
    rw [Bool.and_eq_true, decide_eq_true_iff, displacesIn_iff, hv.version_eq new hnew,
      hv.version_eq old hold, displaces_iff_meets hv hnew hold]
    exact and_congr_right fun _ => and_iff_right rfl
  have hsurv : Survives (displacesIn m) (sentTo S s.log t) hdr ↔
      t ∈ S.peers hdr.odsc.bb ∧ Survives hits s.log hdr := by
    have hfilter := survives_filter_iff hits s.log hdr
      (fun hdr => decide (t ∈ S.peers hdr.odsc.bb)) fun x _ _ hx => (Bool.and_eq_true_iff.1 hx).1
    rw [decide_eq_true_iff] at hfilter
    rw [← hfilter]
    constructor
    · exact fun h => h.mono fun x _ hx => (Bool.and_eq_true_iff.1 hx).2
    · exact fun h => h.mono fun x hx hdis => Bool.and_eq_true_iff.2 ⟨(mem_filter.1 hx).2, hdis⟩
  rw [hinv.servers_eq, mem_locationsAt, hsurv, survives_iff_of_nodup hinv.log_nodup]
  constructor
  · rintro ⟨⟨ht, hmem, hno⟩, hmatch⟩
    refine ⟨⟨hmem, ht, fun later hlater htl hmeets => ?_⟩, ?_⟩
    · have hhit := (hhits hlater.mem.2 hmem).2 ⟨htl, hmeets⟩
      rw [hno later hlater] at hhit
      cases hhit
    · obtain ⟨-, -, hint⟩ := objDescEqualsIntersect_iff.1 hmatch
      exact (bboxDoesIntersect_iff_exists_mem hq.wf (hv.wf hdr hmem)
        (hq.inside.numDims_eq.trans (hv.dims_eq hmem).symm)).1 hint
  · rintro ⟨⟨hmem, ht, hno⟩, hmeet⟩
    refine ⟨⟨ht, hmem, fun later hlater => ?_⟩, ?_⟩
    · rw [Bool.eq_false_iff]
      intro hhit
      obtain ⟨htl, hmeets⟩ := (hhits hlater.mem.2 hmem).1 hhit
      exact hno later hlater htl hmeets
    · refine objDescEqualsIntersect_iff.2 ⟨?_, ?_, ?_⟩
      · exact hq.name_eq.trans (hv.name_eq hdr hmem).symm
      · exact hq.version_eq.trans (hv.version_eq hdr hmem).symm
      · exact (bboxDoesIntersect_iff_exists_mem hq.wf (hv.wf hdr hmem)
          (hq.inside.numDims_eq.trans (hv.dims_eq hmem).symm)).2 hmeet

end

/-! ## Sufficiency -/

section

variable {S : SharedSpace} {name : String} {version : UInt32} {size m : Nat} {s : DimesState}
  (hinv : DimesInv S m s) (hv : OneVariable S name version size s.log) (hr : PutsReplace S s.log)
  {hdr : HdrDimesPut} {y : Coord} {t : Nat} {q : ObjDescriptor}

include hr in
/-- The last put of a cell is met by no later one. -/
theorem PutsReplace.not_meets {x : Coord} (hlast : IsLastPut s.log x hdr) :
    ∀ later, Follows s.log hdr later → ¬ Meets hdr later := by
  intro later hlater hmeets
  obtain ⟨newer, hnewer, hx⟩ := hr.replaced hdr hlast.mem ⟨later, hlater, hmeets⟩ x hlast.covers
  exact hlast.last newer hnewer hx

variable {x : Coord}

/-- A cell of the domain as a box. -/
theorem mem_cellBox {n : Nat} : y ∈ cellBox n x ↔ ∀ i < n, y i = x i := by
  constructor
  · intro h i hi
    have hy := h i hi
    exact le_antisymm hy.2 hy.1
  · intro h i hi
    rw [h i hi]
    exact ⟨le_rfl, le_rfl⟩

theorem mem_of_mem_cellBox {b : Bbox} (hx : x ∈ b) (hy : y ∈ cellBox b.numDims x) : y ∈ b := by
  intro i hi
  rw [mem_cellBox.1 hy i hi]
  exact hx i hi

/-- The servers of a cell are among those of every box that contains it. -/
theorem mem_peers_of_mem_cellBox {S : SharedSpace} (b : DomainBox S.domain) (hx : x ∈ b.box)
    (ht : t ∈ S.peers (cellBox S.domain.box.numDims x)) : t ∈ S.peers b.box := by
  have hcell : ∀ {y}, y ∈ cellBox S.domain.box.numDims x → y ∈ b.box := fun hy =>
    mem_of_mem_cellBox hx (b.dims_eq.symm ▸ hy)
  have hself : x ∈ cellBox S.domain.box.numDims x := mem_cellBox.2 fun _ _ => rfl
  let c : DomainBox S.domain := ⟨cellBox S.domain.box.numDims x, Bbox.wf_of_mem hself, rfl, by
    intro i hi
    exact b.mem_domain hx i hi⟩
  obtain ⟨y, hy, htouch⟩ := (S.mem_peers_iff c t).1 ht
  exact (S.mem_peers_iff b t).2 ⟨y, hcell hy, htouch⟩

include hinv hv hr

/-- Every location with a cell is its last put. -/
theorem eq_last_of_located (hq : QueryOf S name version size q)
    (hlast : IsLastPut s.log x hdr) {loc : HdrDimesPut} (hloc : loc ∈ locationsAt s.servers q t)
    (hx : x ∈ loc.odsc.bb) : loc = hdr := by
  obtain ⟨⟨hmem, ht, hkept⟩, -⟩ := (mem_locationsAt_iff hinv hv hq).1 hloc
  by_contra hne
  rcases follows_or_follows hmem hlast.mem hne with hlater | hlater
  · -- An earlier put of the cell is covered by later ones, also where this server comes in.
    obtain ⟨y, hy, htouch⟩ := (S.mem_peers_iff (hv.domainBox hmem) t).1 ht
    obtain ⟨newer, hnewer, hyn⟩ := hr.replaced loc hmem ⟨hdr, hlater, x, hx, hlast.covers⟩ y hy
    have htn : t ∈ S.peers newer.odsc.bb := (S.mem_peers_iff (hv.domainBox hnewer.mem.2) t).2 ⟨y, hyn, htouch⟩
    exact hkept newer hnewer htn ⟨y, hy, hyn⟩
  · exact hlast.last loc hlater hx

theorem located_of_replace (hq : QueryOf S name version size q) (hx : x ∈ q.bb)
    (hlast : IsLastPut s.log x hdr) :
    ∃ t ∈ S.peers q.bb, hdr ∈ locationsAt s.servers q t := by
  obtain ⟨t, ht⟩ := exists_mem_of_ne_nil _ (hr.served hdr hlast.mem x hlast.covers)
  refine ⟨t, mem_peers_of_mem_cellBox ⟨q.bb, hq.wf, hq.inside⟩ hx ht, ?_⟩
  refine (mem_locationsAt_iff hinv hv hq).2 ⟨⟨hlast.mem, ?_, ?_⟩, x, hx, hlast.covers⟩
  · exact mem_peers_of_mem_cellBox (hv.domainBox hlast.mem) hlast.covers ht
  · exact fun later hlater _ => hr.not_meets hlast later hlater

theorem lastWriterWins_of_replace : LastWriterWins S name version size s := by
  intro q hq x hx hdr hlast
  obtain ⟨t, ht, hloc⟩ := located_of_replace hinv hv hr hq hx hlast
  refine ⟨⟨t, ht, hdr, hloc, hlast.covers⟩, ?_⟩
  intro bytes R arrival order data hperm hcompletes hdone r hr'
  obtain ⟨-, rfl⟩ := getResult_eq_done_iff.1 hdone
  have ha := hv.oneDimesArray hq
  rw [hinv.servers_eq] at hcompletes hloc ⊢
  obtain ⟨loc, hmem, hxl, hbyte⟩ := exists_fetched_from (bytesOf bytes)
    (queryMeets_of_mem_flatMap ha arrival) hcompletes hx
    ⟨hdr, mem_flatMap.2 ⟨t, hperm.mem_iff.2 ht, hloc⟩, hlast.covers⟩
  -- What was fetched last is the last put.
  obtain ⟨t', -, hloc'⟩ := mem_flatMap.1 hmem
  have heq : loc = hdr :=
    eq_last_of_located hinv hv hr hq hlast (t := t') (by rw [hinv.servers_eq]; exact hloc') hxl
  subst heq
  have hm := queryMeets_of_mem ha hloc'
  -- In ten dimensions query and put both start in the first layer.
  have hself : ∀ i < q.bb.numDims, readCell q.bb loc.odsc.bb x i = x i := by
    rw [readCell_eq_iff hx]
    by_cases hten : q.bb.numDims = 10
    · have hnine : 9 < S.domain.box.numDims := by rw [← hq.inside.numDims_eq, hten]; decide
      have hub := hr.tenth (hq.inside.numDims_eq.symm.trans hten) loc hlast.mem (hr.not_meets hlast)
      have hqin := hq.inside.bounds 9 hnine
      have hlin := (hv.inside loc hlast.mem).bounds 9 hnine
      have hxq := hx 9 (by rw [hten]; decide)
      have hxl9 := hxl 9 (by rw [hv.dims_eq hlast.mem]; exact hnine)
      exact Or.inr (by omega)
    · exact Or.inl hten
  have hval := hbyte r (hq.size_eq ▸ hr')
  rw [partByte, hm.readPart_data hx hxl (hq.size_eq ▸ hr') _ hself, hq.size_eq] at hval
  exact hval

end

/-! ## Necessity -/

section

variable {S : SharedSpace} {name : String} {version : UInt32} {size m : Nat} {s : DimesState}
  (hinv : DimesInv S m s) (hv : OneVariable S name version size s.log)

include hinv hv

variable {hdr : HdrDimesPut} {q : ObjDescriptor} {x : Coord}

/-- The client of a location gets, and its server answers first: the cells of the location come from it. -/
theorem get_from_location (hq : QueryOf S name version size q) {t : Nat}
    (ht : t ∈ S.peers q.bb) {loc : HdrDimesPut} (hloc : loc ∈ locationsAt s.servers q t)
    (hx : x ∈ q.bb) (hxl : x ∈ loc.odsc.bb) (hlast : IsLastPut s.log x hdr)
    (hwins : LastWriterWins S name version size s) (bytes : HdrDimesPut → Nat → UInt8) :
    some (bytes hdr (size * cellOffset hdr.odsc.bb x + 0)) =
      bytesOf bytes loc (size * cellOffset loc.odsc.bb (readCell q.bb loc.odsc.bb x) + 0) := by
  have ha := hv.oneDimesArray hq
  obtain rfl := hq.size_eq
  have hperm : (t :: (S.peers q.bb).erase t).Perm (S.peers q.bb) := (perm_cons_erase ht).symm
  have hget := (hwins q hq x hx hdr hlast).2 bytes (ampleReader loc.odsc.owner)
    (t :: (S.peers q.bb).erase t) _ _ hperm (completes_ampleReader _ _)
    (getResult_ampleReader _ (cons_ne_nil _ _)) 0 hv.size_pos
  rw [hinv.servers_eq] at hget hloc
  rw [fetched_first_server ha hloc hx hxl hv.size_pos] at hget
  have hbyte : bytesOf bytes hdr (q.size * cellOffset hdr.odsc.bb x + 0) =
      some (bytes hdr (q.size * cellOffset hdr.odsc.bb x + 0)) := by
    refine if_pos ?_
    have hsize := hv.size_eq hdr hlast.mem
    have hlt := ArrayFits.cell_lt_objDataSize (d := hdr.odsc) (hsize ▸ hv.fits)
      (hv.inside hdr hlast.mem) hlast.covers (hsize ▸ hv.size_pos)
    rwa [hsize] at hlt
  rw [hbyte] at hget
  -- The bytes come from the location, or there are none.
  rcases (queryMeets_of_mem ha hloc).readPart_data_owner hx hxl hv.size_pos (bytesOf bytes loc)
    with hnone | hsome
  · exact absurd (hnone.symm.trans hget) nofun
  · exact hget.symm.trans hsome

/-- The last put of a cell is located, and the copies read the cell itself. -/
theorem located_of_lastWriterWins (hwins : LastWriterWins S name version size s)
    (hq : QueryOf S name version size q) (hx : x ∈ q.bb) (hlast : IsLastPut s.log x hdr) :
    ∃ t ∈ S.peers q.bb, hdr ∈ locationsAt s.servers q t ∧
      ∀ i < q.bb.numDims, readCell q.bb hdr.odsc.bb x i = x i := by
  obtain ⟨⟨t, ht, loc, hloc, hxl⟩, -⟩ := hwins q hq x hx hdr hlast
  obtain ⟨⟨hmem, -⟩, -⟩ := (mem_locationsAt_iff hinv hv hq).1 hloc
  have hsize := hv.size_eq hdr hlast.mem
  -- The last put has the mark at the cell, and nothing else has a mark.
  let bytes : HdrDimesPut → Nat → UInt8 := fun h p => if h.objId = hdr.objId then marker x h.odsc p else 0
  have hval := get_from_location hinv hv hq ht hloc hx hxl hlast hwins bytes
  have hmark : bytes hdr (size * cellOffset hdr.odsc.bb x + 0) = 1 := by
    show (if hdr.objId = hdr.objId then _ else _) = _
    rw [if_pos rfl, ← hsize]
    exact marker_self hlast.covers (hsize ▸ hv.size_pos)
  rw [hmark] at hval
  have hid : loc.objId = hdr.objId := by
    by_contra hne
    have hzero : ∀ p, bytesOf bytes loc p ≠ some 1 := by
      intro p
      simp only [bytesOf, bytes, if_neg hne]
      split
      · decide
      · exact nofun
    exact hzero _ hval.symm
  obtain rfl := hinv.eq_of_objId hmem hlast.mem hid
  refine ⟨t, ht, hloc, ?_⟩
  have hm : QueryMeets q loc.odsc S.domain.box := by
    rw [hinv.servers_eq] at hloc
    exact queryMeets_of_mem (hv.oneDimesArray hq) hloc
  refine readCell_eq_of_marked hm (hq.size_eq ▸ hv.size_pos) hxl ?_
  rw [hq.size_eq, hval]
  simp only [bytesOf, bytes, if_true]

omit hinv in
/-- The cell of a put as a query. -/
theorem queryOf_cell {hdr : HdrDimesPut} (hhdr : hdr ∈ s.log) (hx : x ∈ hdr.odsc.bb) :
    QueryOf S name version size { hdr.odsc with bb := cellBox S.domain.box.numDims x } where
  name_eq := hv.name_eq hdr hhdr
  version_eq := hv.version_eq hdr hhdr
  size_eq := hv.size_eq hdr hhdr
  wf := fun _ _ => le_rfl
  inside := ⟨rfl, fun i hi => (hv.domainBox hhdr).mem_domain hx i hi⟩

omit hv in
theorem DimesInv.exists_lastPut {hdr : HdrDimesPut} (hhdr : hdr ∈ s.log)
    (hx : x ∈ hdr.odsc.bb) : ∃ last, IsLastPut s.log x last := by
  obtain ⟨last, hmem, hcovers, hlast⟩ :=
    exists_last (P := fun h : HdrDimesPut => x ∈ h.odsc.bb) hinv.log_nodup ⟨hdr, hhdr, hx⟩
  exact ⟨last, hmem, hcovers, hlast⟩

variable (hwins : LastWriterWins S name version size s)

include hwins

/-- The query of the last put's cell alone is answered by a server of the cell. -/
theorem served_of_lastWriterWins :
    ∀ hdr ∈ s.log, ∀ x ∈ hdr.odsc.bb, S.peers (cellBox S.domain.box.numDims x) ≠ [] := by
  intro hdr hhdr x hx
  obtain ⟨last, hlast⟩ := hinv.exists_lastPut hhdr hx
  obtain ⟨t, ht, -⟩ := located_of_lastWriterWins hinv hv hwins (queryOf_cell hv hhdr hx)
    (mem_cellBox.2 fun _ _ => rfl) hlast
  exact ne_nil_of_mem ht

theorem replaced_of_lastWriterWins (hhdr : hdr ∈ s.log)
    (hmet : ∃ later, Follows s.log hdr later ∧ Meets hdr later) :
    ∀ x ∈ hdr.odsc.bb, ∃ later, Follows s.log hdr later ∧ x ∈ later.odsc.bb := by
  intro x hx
  by_contra hno
  have hlast : IsLastPut s.log x hdr := ⟨hhdr, hx, fun later hlater hxl => hno ⟨later, hlater, hxl⟩⟩
  -- Some server still returns the location, since it has to be found for the cell `x`.
  obtain ⟨t, -, hloc, -⟩ := located_of_lastWriterWins hinv hv hwins (queryOf_cell hv hhdr hx)
    (mem_cellBox.2 fun _ _ => rfl) hlast
  obtain ⟨hkept, -⟩ := (mem_locationsAt_iff hinv hv (queryOf_cell hv hhdr hx)).1 hloc
  -- It returns the location also for a query of its whole box, and with it the stale cell `z`.
  obtain ⟨later, hlater, z, hzh, hzl⟩ := hmet
  obtain ⟨last, hzlast⟩ := hinv.exists_lastPut hhdr hzh
  have hq : QueryOf S name version size hdr.odsc := ⟨hv.name_eq hdr hhdr, hv.version_eq hdr hhdr,
    hv.size_eq hdr hhdr, hv.wf hdr hhdr, hv.inside hdr hhdr⟩
  have hlocq : hdr ∈ locationsAt s.servers hdr.odsc t :=
    (mem_locationsAt_iff hinv hv hq).2 ⟨hkept, z, hzh, hzh⟩
  have hne : hdr.objId ≠ last.objId := by
    intro heq
    obtain rfl := hinv.eq_of_objId hhdr hzlast.mem heq
    exact hzlast.last later hlater hzl
  -- With the bytes of the last put of `z` told apart, the get returns the wrong one.
  have hval := get_from_location hinv hv hq hkept.2.1 hlocq hzh hzh hzlast hwins
    fun h _ => if h.objId = last.objId then 1 else 0
  simp only [bytesOf, if_neg hne, if_true] at hval
  split at hval
  · exact absurd (Option.some.inj hval) (by decide)
  · cases hval

theorem tenth_of_lastWriterWins (hten : S.domain.box.numDims = 10) (hhdr : hdr ∈ s.log)
    (hstays : ∀ later, Follows s.log hdr later → ¬ Meets hdr later) :
    hdr.odsc.bb.ub 9 = S.domain.box.lb 9 := by
  have hlast : ∀ x ∈ hdr.odsc.bb, IsLastPut s.log x hdr := fun x hx =>
    ⟨hhdr, hx, fun later hlater hxl => hstays later hlater ⟨x, hx, hxl⟩⟩
  -- Every query that contains a cell of the put starts in the same layer as the put.
  have hlayer : ∀ {q}, QueryOf S name version size q → ∀ x ∈ q.bb, x ∈ hdr.odsc.bb →
      q.bb.lb 9 = hdr.odsc.bb.lb 9 := by
    intro q hq x hxq hxh
    obtain ⟨t, -, -, hself⟩ := located_of_lastWriterWins hinv hv hwins hq hxq (hlast x hxh)
    rcases (readCell_eq_iff hxq).1 hself with hne | hlb
    · exact absurd (hq.inside.numDims_eq.trans hten) hne
    · exact hlb
  have hlb := (hv.wf hdr hhdr).lb_mem
  have hub := (hv.wf hdr hhdr).ub_mem
  have hwhole : QueryOf S name version size { hdr.odsc with bb := S.domain.box } :=
    ⟨hv.name_eq hdr hhdr, hv.version_eq hdr hhdr, hv.size_eq hdr hhdr, S.domain.wf, rfl,
      fun _ _ => ⟨le_rfl, le_rfl⟩⟩
  have hbottom := hlayer hwhole _ ((hv.domainBox hhdr).mem_domain hlb) hlb
  have htop := hlayer (queryOf_cell hv hhdr hub) hdr.odsc.bb.ub (mem_cellBox.2 fun _ _ => rfl) hub
  exact htop.trans hbottom.symm

theorem replace_of_lastWriterWins : PutsReplace S s.log where
  served := served_of_lastWriterWins hinv hv hwins
  replaced := fun _ hhdr hmet => replaced_of_lastWriterWins hinv hv hwins hhdr hmet
  tenth := fun hten _ hhdr hstays => tenth_of_lastWriterWins hinv hv hwins hten hhdr hstays

end

/-- After any sequence of puts of one variable and version, every query finds each cell that was put with
the value of its last put, exactly when the puts replace each other as a whole. -/
theorem dimes_last_writer_iff (S : SharedSpace) (m : Nat) (s : DimesState)
    (h : Reaches (dimesClientPut S) (dimesAlloc m) s) (name : String) (version : UInt32) (size : Nat)
    (hv : OneVariable S name version size s.log) :
    LastWriterWins S name version size s ↔ PutsReplace S s.log :=
  ⟨replace_of_lastWriterWins (DimesInv.of_reaches h) hv,
    lastWriterWins_of_replace (DimesInv.of_reaches h) hv⟩

/-! ## The line: a cell overwritten by the line, and the line by a cell -/

/-- The first put of cells `lo` to `hi` of the line by client `c`. -/
def linePut (c lo hi : Nat) : HdrDimesPut := ⟨⟨c, 0⟩, (ownedBy c (segmentObj lo hi)).objDesc⟩

theorem oneVariable_line {log : List HdrDimesPut}
    (h : ∀ hdr ∈ log, ∃ c lo hi, lo ≤ hi ∧ hi ≤ 3 ∧ hdr = linePut c lo hi) :
    OneVariable lineSpace "temperature" 1 8 log := by
  have hq : ∀ hdr ∈ log, QueryOf lineSpace "temperature" 1 8 hdr.odsc := by
    intro hdr hhdr
    obtain ⟨c, lo, hi, hle, hhi, rfl⟩ := h hdr hhdr
    exact ⟨rfl, rfl, rfl, fun _ _ => hle, rfl, fun _ _ => ⟨Nat.zero_le _, hhi⟩⟩
  exact ⟨arrayFits_line, by decide, fun hdr h => (hq hdr h).name_eq, fun hdr h => (hq hdr h).version_eq,
    fun hdr h => (hq hdr h).size_eq, fun hdr h => (hq hdr h).wf, fun hdr h => (hq hdr h).inside⟩

theorem lineLog {c lo hi c' lo' hi' : Nat} (h : lo ≤ hi) (hhi : hi ≤ 3) (h' : lo' ≤ hi') (hhi' : hi' ≤ 3) :
    ∀ hdr ∈ [linePut c lo hi, linePut c' lo' hi'], ∃ c lo hi, lo ≤ hi ∧ hi ≤ 3 ∧ hdr = linePut c lo hi := by
  intro hdr hhdr
  rcases mem_pair.1 hhdr with rfl | rfl
  · exact ⟨c, lo, hi, h, hhi, rfl⟩
  · exact ⟨c', lo', hi', h', hhi', rfl⟩

theorem lineSpace_served {x : Coord} (hx : x ∈ lineSpace.domain.box) :
    lineSpace.peers (cellBox lineSpace.domain.box.numDims x) ≠ [] := by
  have hself : x ∈ cellBox lineSpace.domain.box.numDims x := mem_cellBox.2 fun _ _ => rfl
  obtain ⟨k, hk⟩ := lineSpace_owned x hx
  let c : DomainBox lineSpace.domain :=
    ⟨cellBox lineSpace.domain.box.numDims x, Bbox.wf_of_mem hself, rfl, fun i hi => hx i hi⟩
  exact ne_nil_of_mem ((lineSpace.mem_peers_iff c k).2 ⟨x, hself, hk.touches⟩)

/-- Client `5` puts the first cell and client `6` the line. -/
theorem dimes_last_writer_line :
    ∃ s, runSteps (dimesClientPut lineSpace) (dimesAlloc 1)
        [(5, (segmentObj 0 0).objDesc), (6, (segmentObj 0 3).objDesc)] = some s ∧
      LastWriterWins lineSpace "temperature" 1 8 s := by
  obtain ⟨s, hrun, hlog⟩ : ∃ s, runSteps (dimesClientPut lineSpace) (dimesAlloc 1)
      [(5, (segmentObj 0 0).objDesc), (6, (segmentObj 0 3).objDesc)] = some s ∧
      s.log = [linePut 5 0 0, linePut 6 0 3] := ⟨_, rfl, rfl⟩
  have hv := oneVariable_line (hlog ▸ lineLog (by decide) (by decide) (by decide) (by decide))
  refine ⟨s, hrun, (dimes_last_writer_iff lineSpace 1 s ⟨_, hrun⟩ "temperature" 1 8 hv).2 ?_⟩
  refine ⟨fun hdr hhdr x hx => lineSpace_served ((hv.domainBox hhdr).mem_domain hx), ?_, nofun⟩
  rintro hdr - ⟨later, hlater, -⟩ x hx
  refine ⟨later, hlater, ?_⟩
  rw [hlog, follows_pair_iff] at hlater
  obtain ⟨rfl, rfl⟩ := hlater
  intro i hi
  exact ⟨Nat.zero_le _, (hx i hi).2.trans (Nat.zero_le 3)⟩

/-- Client `5` puts the line and client `6` its first cell: the second cell is lost. -/
theorem dimes_put_loses_cell :
    ∃ s, runSteps (dimesClientPut lineSpace) (dimesAlloc 1)
        [(5, (segmentObj 0 3).objDesc), (6, (segmentObj 0 0).objDesc)] = some s ∧
      OneVariable lineSpace "temperature" 1 8 s.log ∧
      IsLastPut s.log (fun _ => 1) (linePut 5 0 3) ∧
      (∀ t ∈ lineSpace.peers (segmentObj 1 1).objDesc.bb,
        locationsAt s.servers (segmentObj 1 1).objDesc t = []) ∧
      ¬ LastWriterWins lineSpace "temperature" 1 8 s := by
  obtain ⟨s, hrun, hlog, hnone⟩ : ∃ s, runSteps (dimesClientPut lineSpace) (dimesAlloc 1)
      [(5, (segmentObj 0 3).objDesc), (6, (segmentObj 0 0).objDesc)] = some s ∧
      s.log = [linePut 5 0 3, linePut 6 0 0] ∧
      locationsAt s.servers (segmentObj 1 1).objDesc 0 = [] := ⟨_, rfl, rfl, rfl⟩
  -- Cell 1 is the business of server 0 alone, and the second put has displaced the first one there.
  have hpeers : lineSpace.peers (segmentObj 1 1).objDesc.bb = [0] := by decide
  have hempty : ∀ t ∈ lineSpace.peers (segmentObj 1 1).objDesc.bb,
      locationsAt s.servers (segmentObj 1 1).objDesc t = [] := by
    intro t ht
    rw [hpeers, mem_singleton] at ht
    rw [ht, hnone]
  -- The second put does not cover cell 1.
  have hlast : IsLastPut s.log (fun _ => 1) (linePut 5 0 3) := by
    refine ⟨by rw [hlog]; exact mem_cons_self, by decide, fun later hlater => ?_⟩
    rw [hlog, follows_pair_iff] at hlater
    rw [hlater.2]
    decide
  refine ⟨s, hrun, oneVariable_line (hlog ▸ lineLog (by decide) (by decide) (by decide) (by decide)),
    hlast, hempty, fun hwins => ?_⟩
  have hq : QueryOf lineSpace "temperature" 1 8 (segmentObj 1 1).objDesc :=
    ⟨rfl, rfl, rfl, by decide, rfl, fun _ _ => ⟨Nat.zero_le 1, show 1 ≤ 3 by decide⟩⟩
  obtain ⟨⟨t, ht, loc, hloc, -⟩, -⟩ := hwins _ hq (fun _ => 1) (by decide) _ hlast
  rw [hempty t ht] at hloc
  exact not_mem_nil hloc

end DataSpaces.Dimes
