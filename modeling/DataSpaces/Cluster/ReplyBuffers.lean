import DataSpaces.Client.Get
import DataSpaces.Cluster.Servers
import DataSpaces.Space.Lookup
import DataSpaces.Store.Versions

/-!
# The buffers of the replies

Three requests are answered by a direct transfer out of a buffer of the server. The number of bytes to send
and the size of the buffer come from different places: `dsgrpc_obj_send_dht_peers` allocates room for the
peers that `ssd_hash` selects and sends room for all servers; `dsgrpc_obj_get_var_meta` sends as many bytes as
the client asks for out of a stored object; `dsgrpc_obj_get` sends the size of the requested piece out of a
buffer of that size and seven more bytes for the alignment, a sum that may wrap.

`reply_in_buffer_iff` says for every state of a server and every request when a transfer stays inside its
buffer. For the peers of a box this is when the box meets the part of every server in the space that answers;
for a box of the domain of that space, when every server is selected for a cell of the box.
-/

namespace DataSpaces.Cluster.Reply

open Lib Geometry Space Store

/-! ## The tables of a server -/

/-- A server looks spaces up at positions of its table, and each of them has an entry for every server. -/
structure TableOk (sizeSp : Nat) (t : SpaceTable) : Prop where
  default_lt : t.ssd < t.spaces.length
  entry_lt : ∀ e ∈ t.sspaceList, e.ssd < t.spaces.length
  entries : ∀ ss ∈ t.spaces, ss.entTab.length = sizeSp

theorem TableOk.lookup {P : Platform} {sizeSp : Nat} {t : SpaceTable} (h : TableOk sizeSp t)
    (maxVersions : Nat) (v : HashVersion) (gd : GlobalDimension) :
    TableOk sizeSp (lookupSspace P sizeSp maxVersions v t gd).2 ∧
      (lookupSspace P sizeSp maxVersions v t gd).1 <
        (lookupSspace P sizeSp maxVersions v t gd).2.spaces.length ∧
      t.spaces <+: (lookupSspace P sizeSp maxVersions v t gd).2.spaces := by
  unfold lookupSspace lookupSspaceWith
  split
  · exact ⟨h, h.default_lt, List.prefix_rfl⟩
  · split
    · next hfind => exact ⟨h, h.entry_lt _ (List.mem_of_find?_eq_some hfind), List.prefix_rfl⟩
    · split
      · exact ⟨h, h.default_lt, List.prefix_rfl⟩
      -- The new space is put behind the others.
      · next ss hss =>
        have hlen : (t.spaces ++ [ss]).length = t.spaces.length + 1 := List.length_append
        refine ⟨⟨?_, ?_, ?_⟩, hlen ▸ Nat.lt_succ_self _, List.prefix_append _ _⟩
        · exact hlen ▸ Nat.lt_succ_of_lt h.default_lt
        · intro e he
          rcases List.mem_cons.1 he with rfl | he
          · exact hlen ▸ Nat.lt_succ_self _
          · exact hlen ▸ Nat.lt_succ_of_lt (h.entry_lt e he)
        · intro ss' hss'
          rcases List.mem_append.1 hss' with hss' | hss'
          · exact h.entries ss' hss'
          · rw [List.mem_singleton.1 hss']
            exact length_entTab_of_ssdAlloc hss

/-- A result of the cache is one that was computed on a space of the table. -/
def Computed (P : Platform) (spaces : List Sspace) (c : SfcHashCache Nat) : Prop :=
  ∃ i ss l, spaces[i]? = some ss ∧ ssdHashFresh P ss c.shBb = some l ∧ c.shDeTab = l.map fun k => (i, k)

theorem computed_ssdHash {P : Platform} {spaces : List Sspace} {ssd : Sspace} {i : Nat}
    (hi : spaces[i]? = some ssd) {cache : List (SfcHashCache Nat)} (hcache : ∀ c ∈ cache, Computed P spaces c)
    {bb : Bbox} {r : List (EntryPtr Nat) × List (SfcHashCache Nat)}
    (hr : ssdHash P (fun _ => ssd) cache ⟨i, bb⟩ = some r) : ∀ c ∈ r.2, Computed P spaces c := by
  unfold ssdHash at hr
  split at hr
  · cases hr
    exact hcache
  · obtain ⟨deTab, hfresh, rfl⟩ := Option.map_eq_some_iff.1 hr
    obtain ⟨l, hl, rfl⟩ := Option.map_eq_some_iff.1 hfresh
    intro c hc
    rcases List.mem_append.1 hc with hc | hc
    · exact hcache c hc
    · rw [List.mem_singleton.1 hc]
      exact ⟨i, ssd, l, hi, hl, rfl⟩

theorem Computed.mono {P : Platform} {spaces spaces' : List Sspace} (hpre : spaces <+: spaces')
    {c : SfcHashCache Nat} (h : Computed P spaces c) : Computed P spaces' c := by
  obtain ⟨i, ss, l, hi, hl, htab⟩ := h
  obtain ⟨rest, rfl⟩ := hpre
  have hlt := (List.getElem?_eq_some_iff.1 hi).1
  exact ⟨i, ss, l, (List.getElem?_append_left hlt).trans hi, hl, htab⟩

/-! ## The source -/

/-- What the replies read of a server. The block of a stored object was allocated, so it is not larger than
half of the address space. -/
structure Gspace (P : Platform) where
  sizeSp : Nat
  maxVersions : Nat
  hashVersion : HashVersion
  spaces : SpaceTable
  cache : List (SfcHashCache Nat)
  ls : SsStorage
  table : TableOk sizeSp spaces
  computed : ∀ c ∈ cache, Computed P spaces.spaces c
  blocks : ∀ i, ∀ od ∈ ls.objHash i, (objDataSize od.objDesc + 7) % 2 ^ 64 < 2 ^ 63

/-- `struct hdr_obj_get`, with the fields that the replies read. -/
structure HdrObjGet where
  odsc : ObjDescriptor
  gdim : GlobalDimension

structure HdrVarMetaGet where
  currentVersion : UInt32
  length : Int32
  fName : String

inductive Request where
  | objSendDhtPeers (oh : HdrObjGet)
  | objGetVarMeta (oh : HdrVarMetaGet)
  | objGet (oh : HdrObjGet)

/-- What the allocator decides: whether all allocations of the request succeed, and the address of the block
that holds the data of the object which is sent. -/
structure Allocs where
  obtained : Bool
  addr : Nat

/-- A direct transfer: the number of bytes sent, and the number of bytes from the start of the buffer to its
end. -/
structure Transfer where
  size : Nat
  room : Nat
deriving DecidableEq, Repr

/-- `ALIGN_ADDR_QUAD_BYTES`. -/
def alignAddrQuadBytes (a : Nat) : Nat := (a + 7) / 8 * 8

/-- `obj_data_alloc` allocates seven bytes more than the data, in unsigned 64-bit arithmetic, and aligns the
start. -/
def dataRoom (odsc : ObjDescriptor) (addr : Nat) : Nat :=
  addr + (objDataSize odsc + 7) % 2 ^ 64 - alignAddrQuadBytes addr

/-- Conversion of an `int` to `size_t`. -/
def sizeT (n : Int32) : Nat := (n.toInt % 2 ^ 64).toNat

variable {P : Platform}

/-- The entries that `ssd_hash` returns for the box of a request, with the server after it; `none` when it does
not return. -/
def hashBox (g : Gspace P) (oh : HdrObjGet) : Option (List (EntryPtr Nat) × Gspace P) :=
  let found := lookupSspace P g.sizeSp g.maxVersions g.hashVersion g.spaces oh.gdim
  have hfound := g.table.lookup g.maxVersions g.hashVersion oh.gdim
  let ssd := found.2.spaces.get ⟨found.1, hfound.2.1⟩
  match hr : ssdHash P (fun _ => ssd) g.cache ⟨found.1, oh.odsc.bb⟩ with
  | none => none
  | some r =>
    some (r.1,
      { g with
        spaces := found.2
        cache := r.2
        table := hfound.1
        computed := computed_ssdHash (List.getElem?_eq_getElem hfound.2.1)
          (fun c hc => (g.computed c hc).mono hfound.2.2) hr })

/-- A transfer is started when what it needs is found and all allocations succeed. -/
def startTransfer {α : Type} (found : Option α) (e : Allocs) (transfer : α → Transfer) : Option Transfer :=
  found.bind fun a => if e.obtained then some (transfer a) else none

/-- The table of peers has an entry more for the end marker; `int` has four bytes. -/
def dsgrpcObjSendDhtPeers (g : Gspace P) (oh : HdrObjGet) (e : Allocs) : Option Transfer :=
  startTransfer (hashBox g oh) e fun r => ⟨4 * (g.sizeSp + 1), 4 * (r.1.length + 1)⟩

/-- The query has the same fields as that of `dsgrpc_obj_get_latest_meta`. -/
def dsgrpcObjGetVarMeta (g : Gspace P) (oh : HdrVarMetaGet) (e : Allocs) : Option Transfer :=
  startTransfer (lsFind g.ls (latestMetaQuery oh.fName oh.currentVersion)) e fun fromObj =>
    ⟨sizeT oh.length, dataRoom fromObj.objDesc e.addr⟩

/-- The transfer of `Client.dsgrpcObjGet`. -/
def dsgrpcObjGet (g : Gspace P) (oh : HdrObjGet) (e : Allocs) : Option Transfer :=
  startTransfer (lsFind g.ls oh.odsc) e fun _ => ⟨objDataSize oh.odsc, dataRoom oh.odsc e.addr⟩

/-- The transfer that a request starts, if any. -/
def reply (g : Gspace P) (e : Allocs) : Request → Option Transfer
  | .objSendDhtPeers oh => dsgrpcObjSendDhtPeers g oh e
  | .objGetVarMeta oh => dsgrpcObjGetVarMeta g oh e
  | .objGet oh => dsgrpcObjGet g oh e

/-! ## The statement -/

/-- Every transfer that the request starts stays inside its buffer. -/
def InBuffer (g : Gspace P) (e : Allocs) (request : Request) : Prop :=
  ∀ t, reply g e request = some t → t.size ≤ t.room

/-- The space whose entries are the peers of a request: that of the cached result for an equal box if there is
one which is not empty, and the one for the global dimensions of the request otherwise. -/
def Gspace.answering (g : Gspace P) (oh : HdrObjGet) : Option Sspace :=
  match shFind oh.odsc.bb g.cache with
  | some (p :: _) => g.spaces.spaces[p.1]?
  | _ =>
    let found := lookupSspace P g.sizeSp g.maxVersions g.hashVersion g.spaces oh.gdim
    found.2.spaces[found.1]?

/-- A box meets the part of the space that an entry has: an interval of the box one of the intervals of the
entry in version 1, the box itself one of its boxes in version 2. -/
def Meets (P : Platform) (ss : Sspace) (bb : Bbox) (de : DhtEntry) : Prop :=
  match ss.hashVersion with
  | .v1 => ∀ iTab, bboxToIntv2 P bb ss.maxDim = some iTab → ∃ itv ∈ iTab, dhtIntersect de itv = true
  | .v2 => ∃ c ∈ de.bbTab, bboxDoesIntersect bb c = true

/-- What the transfer asks of the state and of the header: the box meets the part of every server, the length
is not negative and within the block of the stored object behind the bytes that the alignment skips, the size
of the piece leaves seven bytes of the address space. -/
def Fits (g : Gspace P) (e : Allocs) : Request → Prop
  | .objSendDhtPeers oh => ∀ ss, g.answering oh = some ss → ∀ de ∈ ss.entTab, Meets P ss oh.odsc.bb de
  | .objGetVarMeta oh => ∀ fromObj, lsFind g.ls (latestMetaQuery oh.fName oh.currentVersion) = some fromObj →
      oh.length = 0 ∨ 0 < oh.length.toInt ∧
        oh.length.toInt + (alignAddrQuadBytes e.addr - e.addr : Nat) ≤
          ((objDataSize fromObj.objDesc + 7) % 2 ^ 64 : Nat)
  | .objGet oh => ∀ fromObj, lsFind g.ls oh.odsc = some fromObj → objDataSize oh.odsc + 7 < 2 ^ 64

/-! ## The room of an object -/

theorem le_alignAddrQuadBytes (a : Nat) : a ≤ alignAddrQuadBytes a := by
  unfold alignAddrQuadBytes
  omega

theorem alignAddrQuadBytes_le (a : Nat) : alignAddrQuadBytes a ≤ a + 7 := Nat.div_mul_le_self _ _

/-- The data of an object fits into its block if and only if the size of the block did not wrap. -/
theorem objDataSize_le_dataRoom_iff (odsc : ObjDescriptor) (addr : Nat) :
    objDataSize odsc ≤ dataRoom odsc addr ↔ objDataSize odsc + 7 < 2 ^ 64 := by
  have hlt : objDataSize odsc < 2 ^ 64 := Nat.mod_lt _ (by decide)
  have hle := le_alignAddrQuadBytes addr
  have hge := alignAddrQuadBytes_le addr
  unfold dataRoom
  constructor
  · intro hfits
    by_contra hwrap
    have hmod : (objDataSize odsc + 7) % 2 ^ 64 = objDataSize odsc + 7 - 2 ^ 64 := by
      rw [Nat.mod_eq_sub_mod (not_lt.1 hwrap), Nat.mod_eq_of_lt (by omega)]
    omega
  · intro hroom
    rw [Nat.mod_eq_of_lt hroom]
    omega

/-- A length is within the block behind the bytes that the alignment skips, unless it is negative. -/
theorem sizeT_le_dataRoom_iff {odsc : ObjDescriptor} (hblock : (objDataSize odsc + 7) % 2 ^ 64 < 2 ^ 63)
    (length : Int32) (addr : Nat) : sizeT length ≤ dataRoom odsc addr ↔
      length = 0 ∨ 0 < length.toInt ∧
        length.toInt + (alignAddrQuadBytes addr - addr : Nat) ≤ ((objDataSize odsc + 7) % 2 ^ 64 : Nat) := by
  have hlo : -2 ^ 31 ≤ length.toInt := Int32.le_toInt length
  have hhi : length.toInt < 2 ^ 31 := Int32.toInt_lt length
  have hzero : length = 0 ↔ length.toInt = 0 := Int32.toInt_inj.symm
  have hle := le_alignAddrQuadBytes addr
  rw [hzero, sizeT, dataRoom]
  omega

/-! ## The peers of a box -/

/-- The loops over the table collect the entries whose part the box meets. -/
theorem ssdHashFresh_eq_collectEntries {ss : Sspace} {bb : Bbox} {l : List Nat}
    (h : ssdHashFresh P ss bb = some l) :
    ∃ test, l = collectEntries ss test ∧ ∀ de, test de = true ↔ Meets P ss bb de := by
  unfold ssdHashFresh at h
  unfold Meets
  cases hv : ss.hashVersion with
  | v1 =>
    rw [hv] at h
    obtain ⟨iTab, hrun, rfl⟩ := Option.map_eq_some_iff.1 h
    refine ⟨_, rfl, fun de => ?_⟩
    simp [hrun]
  | v2 =>
    rw [hv] at h
    cases h
    exact ⟨_, rfl, fun de => List.any_eq_true⟩

theorem meets_of_ssdHashFresh_eq_none {ss : Sspace} {bb : Bbox} (h : ssdHashFresh P ss bb = none)
    (de : DhtEntry) : Meets P ss bb de := by
  unfold ssdHashFresh at h
  unfold Meets
  cases hv : ss.hashVersion with
  | v1 =>
    rw [hv] at h
    simp [Option.map_eq_none_iff.1 h]
  | v2 =>
    rw [hv] at h
    cases h

section

variable {ss : Sspace} {bb : Bbox} {l : List Nat} (h : ssdHashFresh P ss bb = some l)

include h

theorem forall_meets_iff :
    (∀ de ∈ ss.entTab, Meets P ss bb de) ↔ ∀ k < ss.entTab.length, k ∈ l := by
  obtain ⟨test, rfl, htest⟩ := ssdHashFresh_eq_collectEntries h
  rw [List.forall_mem_iff_forall_getElem]
  refine forall₂_congr fun k hk => ?_
  rw [mem_collectEntries, List.getElem?_eq_getElem hk, ← htest]
  simp

/-- As many entries as the table has are selected when each of them is. -/
theorem length_le_ssdHashFresh_iff :
    ss.entTab.length ≤ l.length ↔ ∀ k < ss.entTab.length, k ∈ l := by
  obtain ⟨test, rfl, htest⟩ := ssdHashFresh_eq_collectEntries h
  have hle := List.length_filter_le (fun k => (ss.entTab[k]?).any test) (List.range ss.entTab.length)
  have hiff := List.length_filter_eq_length_iff (p := fun k => (ss.entTab[k]?).any test)
    (l := List.range ss.entTab.length)
  rw [List.length_range] at hle hiff
  refine (hle.ge_iff_eq.trans hiff).trans ?_
  simp only [collectEntries, List.mem_filter, List.mem_range]
  exact forall₂_congr fun k hk => (and_iff_right hk).symm

end

/-- A cached result that is not empty has the entries of the space of its first pointer. -/
theorem length_of_shFind {spaces : List Sspace} {cache : List (SfcHashCache Nat)}
    (hcache : ∀ c ∈ cache, Computed P spaces c) {bb : Bbox} {p : EntryPtr Nat} {ps : List (EntryPtr Nat)}
    (h : shFind bb cache = some (p :: ps)) : ∃ ss l, spaces[p.1]? = some ss ∧
      ssdHashFresh P ss bb = some l ∧ (p :: ps).length = l.length := by
  obtain ⟨c, hfind, htab⟩ := Option.map_eq_some_iff.1 h
  obtain ⟨i, ss, l, hi, hl, htab'⟩ := hcache c (List.mem_of_find?_eq_some hfind)
  rw [htab] at htab'
  obtain ⟨k, ks, rfl, rfl, rfl⟩ := List.map_eq_cons_iff.1 htab'.symm
  exact ⟨ss, _, hi, (ssdHashFresh_congr (by simpa using List.find?_some hfind) ss).trans hl, by simp⟩

/-- The peers are the entries that the answering space has for the box. -/
theorem length_hashBox (g : Gspace P) (oh : HdrObjGet) : (hashBox g oh).map (fun r => r.1.length) =
    (g.answering oh).bind fun ss => (ssdHashFresh P ss oh.odsc.bb).map List.length := by
  have hlt := (g.table.lookup (P := P) g.maxVersions g.hashVersion oh.gdim).2.1
  generalize hfound : lookupSspace P g.sizeSp g.maxVersions g.hashVersion g.spaces oh.gdim = found at hlt
  have hbox : (hashBox g oh).map (fun r => r.1.length) =
      (ssdHash P (fun _ => found.2.spaces.get ⟨found.1, hlt⟩) g.cache ⟨found.1, oh.odsc.bb⟩).map
        fun r => r.1.length := by
    subst hfound
    unfold hashBox
    dsimp only
    split
    · next hr => exact (congrArg (Option.map fun r => r.1.length) hr).symm
    · next r hr => exact (congrArg (Option.map fun r => r.1.length) hr).symm
  rw [hbox, ssdHash, Gspace.answering, hfound]
  cases hfind : shFind oh.odsc.bb g.cache with
  | none => simp [hlt, freshCall, Function.comp_def]
  | some deTab =>
    cases deTab with
    | nil => simp [hlt, freshCall, Function.comp_def]
    | cons p ps =>
      obtain ⟨ss, l, hss, hl, hlen⟩ := length_of_shFind g.computed hfind
      simpa [hss, hl] using hlen

theorem entTab_length_of_answering {g : Gspace P} {oh : HdrObjGet} {ss : Sspace}
    (h : g.answering oh = some ss) : ss.entTab.length = g.sizeSp := by
  unfold Gspace.answering at h
  split at h
  · exact g.table.entries ss (List.mem_of_getElem? h)
  · exact (g.table.lookup _ _ _).1.entries ss (List.mem_of_getElem? h)

/-! ## The result -/

theorem forall_startTransfer_iff {α : Type} (found : Option α) (e : Allocs) (transfer : α → Transfer) :
    (∀ t, startTransfer found e transfer = some t → t.size ≤ t.room) ↔
      (e.obtained = true → ∀ a, found = some a → (transfer a).size ≤ (transfer a).room) := by
  unfold startTransfer
  cases found with
  | none => simp
  | some a => cases e.obtained <;> simp

/-- When `ssd_hash` does not return, no transfer is started, and a box without intervals meets every part. -/
theorem forall_hashBox_iff (g : Gspace P) (oh : HdrObjGet) :
    (∀ r, hashBox g oh = some r → g.sizeSp ≤ r.1.length) ↔
      ∀ ss, g.answering oh = some ss → ∀ de ∈ ss.entTab, Meets P ss oh.odsc.bb de := by
  have hpeers : (∀ r, hashBox g oh = some r → g.sizeSp ≤ r.1.length) ↔
      ∀ n, (hashBox g oh).map (fun r => r.1.length) = some n → g.sizeSp ≤ n := by
    cases hashBox g oh <;> simp
  rw [hpeers, length_hashBox]
  cases hss : g.answering oh with
  | none => simp
  | some ss =>
    cases hl : ssdHashFresh P ss oh.odsc.bb with
    | none => simpa [hl] using fun de _ => meets_of_ssdHashFresh_eq_none hl de
    | some l =>
      have hlen := length_le_ssdHashFresh_iff hl
      rw [entTab_length_of_answering hss] at hlen
      simp [hl, forall_meets_iff hl, hlen, entTab_length_of_answering hss]

/-- For every number of servers, every state of a server and every request. -/
theorem reply_in_buffer_iff (P : Platform) (g : Gspace P) (e : Allocs) :
    (∀ request, InBuffer g e request ↔ (e.obtained = true → Fits g e request)) ∧
      ∀ oh D ss, g.answering oh = some ss → SpaceOf P D ss → ∀ b : DomainBox D, b.box = oh.odsc.bb →
        (Fits g e (.objSendDhtPeers oh) ↔ ∀ k < g.sizeSp, ∃ x ∈ b.box, ss.TouchesCell P k x) := by
  refine ⟨fun request => ?_, fun oh D ss hss hspace b hb => ?_⟩
  · cases request with
    | objSendDhtPeers oh =>
      refine (forall_startTransfer_iff _ _ _).trans (imp_congr_right fun _ => ?_)
      rw [Fits, ← forall_hashBox_iff]
      refine forall₂_congr fun r _ => ?_
      dsimp only
      omega
    | objGetVarMeta oh =>
      refine (forall_startTransfer_iff _ _ _).trans (imp_congr_right fun _ => forall₂_congr fun od hod => ?_)
      exact sizeT_le_dataRoom_iff (g.blocks _ od (lsFind_some hod).1) _ _
    | objGet oh =>
      refine (forall_startTransfer_iff _ _ _).trans (imp_congr_right fun _ => forall₂_congr fun _ _ => ?_)
      exact objDataSize_le_dataRoom_iff oh.odsc e.addr
  · obtain ⟨l, hl, hmem⟩ := mem_ssdHashFresh_iff hspace b
    rw [hb] at hl
    simp only [Fits, hss, Option.some.injEq, forall_eq', forall_meets_iff hl, hmem,
      entTab_length_of_answering hss]

/-! ## The line over two servers -/

/-- Server 0 of the line of four cells, with one stored byte of metadata and one of data. -/
def lineGspace : Gspace lineSpace.platform where
  sizeSp := 2
  maxVersions := 1
  hashVersion := .v2
  spaces := ⟨⟨1, fun _ => 4⟩, 0, [], [lineSpace.ss]⟩
  cache := []
  ls := ⟨1, 1, fun _ => [⟨latestMetaQuery "a" 0, fun _ => some 0, 0⟩]⟩
  table := ⟨by decide, by decide, by decide⟩
  computed := by simp
  blocks := fun _ od hod => by
    rw [List.mem_singleton.1 hod]
    decide

/-- A request for the cells 0 and 1, which server 0 owns. -/
def halfRequest : HdrObjGet := ⟨⟨"a", .columnMajor, 0, 0, ⟨1, fun _ => 0, fun _ => 1⟩, 1⟩, ⟨1, fun _ => 4⟩⟩

/-- A request for a box of which the bytes are almost all that an address can name. -/
def hugeRequest : HdrObjGet :=
  ⟨⟨"VARMETA@a", .columnMajor, 0, 0, ⟨1, fun _ => 0, fun _ => 2 ^ 64 - 4⟩, 1⟩, ⟨1, fun _ => 4⟩⟩

/-- Each of the three requests can send more than its buffer has. -/
theorem reply_past_buffer :
    dsgrpcObjSendDhtPeers lineGspace halfRequest ⟨true, 0⟩ = some ⟨12, 8⟩ ∧
      dsgrpcObjGetVarMeta lineGspace ⟨0, 100, "a"⟩ ⟨true, 0⟩ = some ⟨100, 8⟩ ∧
      dsgrpcObjGet lineGspace hugeRequest ⟨true, 0⟩ = some ⟨2 ^ 64 - 3, 4⟩ ∧
      ¬ InBuffer lineGspace ⟨true, 0⟩ (.objSendDhtPeers halfRequest) := by
  have hpeers : dsgrpcObjSendDhtPeers lineGspace halfRequest ⟨true, 0⟩ = some ⟨12, 8⟩ := by
    decide
  refine ⟨hpeers, by decide, by decide, fun h => ?_⟩
  exact absurd (h _ hpeers) (by decide)

end DataSpaces.Cluster.Reply
