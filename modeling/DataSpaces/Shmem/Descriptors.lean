import DataSpaces.Client.Descriptors
import DataSpaces.Lib.PairedBlocks

/-!
# Descriptors with shared memory objects

In the build with shared memory objects a server answers with its descriptors twice: clipped to the query,
and then as they are. The client keeps a clipped descriptor if it has none with the same owner and box, and
then the full one that belongs to it. What it dropped it notes in the table `dupli_odsc`, which has as many
entries as there are clipped descriptors, but is used at the indices of the full ones. So every answer that
lists something makes it read behind the table (`tableInside_iff`), and the memory there is a parameter of
the model.

`piecesInv_shmemPhase` describes the list of pieces after the answers if that memory never contains the
index that is compared with it: for each answer, the last one in front, the full descriptors of what was
new, and then the clipped ones. The counter `size_od` counts what was dropped, too.
-/

namespace DataSpaces.Shmem

open Lib Geometry Store Client List Function

/-! ## The source -/

/-- A descriptor as it is stored, in the storage type of the query. -/
def full (q odsc : ObjDescriptor) : ObjDescriptor := { odsc with st := q.st }

/-- The table of an answer. -/
def shmemTable (q : ObjDescriptor) (odscs : List ObjDescriptor) : List ObjDescriptor :=
  odscs.map (clip q) ++ odscs.map (full q)

/-- The loop of `obj_get_desc_completion`: the entry, the memory from the start of `dupli_odsc` on, and the
indices at which it was used. -/
structure DescLoop where
  qte : QueryTranEntry
  dupliOdsc : Nat → Int
  used : List Nat

/-- The round for the descriptor at index `i`. -/
def descRound (halfSz : Nat) (s : DescLoop) (p : ObjDescriptor × Nat) : DescLoop :=
  if p.2 < halfSz then
    match qtFindObj s.qte p.1 with
    | none => { s with qte := qtAddObj s.qte p.1 }
    | some _ =>
      { s with
        dupliOdsc := update s.dupliOdsc (p.2 + halfSz) ((p.2 + halfSz : Nat) : Int)
        used := s.used ++ [p.2 + halfSz] }
  else
    { s with
      qte := if s.dupliOdsc p.2 = (p.2 : Int) then s.qte else qtAddObj s.qte p.1
      used := s.used ++ [p.2] }

/-- The loop over a table; `behind` is the memory behind `dupli_odsc`, which has `half_sz` entries. -/
def descLoop (qte : QueryTranEntry) (odTab : List ObjDescriptor) (behind : Nat → Int) : DescLoop :=
  let halfSz := odTab.length / 2
  odTab.zipIdx.foldl (descRound halfSz)
    { qte := { qte with sizeOd := qte.sizeOd + odTab.length }
      dupliOdsc := fun i => if i < halfSz then 0 else behind i
      used := [] }

def objGetDescCompletionShmem (qte : QueryTranEntry) (odTab : List ObjDescriptor) (behind : Nat → Int) :
    QueryTranEntry := countReply (descLoop qte odTab behind).qte

/-- What a peer lists, and the memory behind the table when its answer is handled. -/
structure ShmemReply where
  listed : List ObjDescriptor
  behind : Nat → Int

/-- Handle answers in the order of their arrival. -/
def handleReplies (qte : QueryTranEntry) (replies : List ShmemReply) : QueryTranEntry :=
  replies.foldl (fun qte r => objGetDescCompletionShmem qte (shmemTable qte.qObj r.listed) r.behind) qte

/-- The entry when all peers have answered, each with descriptors. -/
def shmemPhase (q : ObjDescriptor) (replies : List ShmemReply) : QueryTranEntry :=
  handleReplies (qteAlloc q replies.length) replies

/-! ## The table of duplicates -/

/-- The client uses the table inside its bounds. -/
def TableInside (q : ObjDescriptor) (qte : QueryTranEntry) (r : ShmemReply) : Prop :=
  ∀ i ∈ (descLoop qte (shmemTable q r.listed) r.behind).used,
    i < (shmemTable q r.listed).length / 2

theorem length_shmemTable (q : ObjDescriptor) (odscs : List ObjDescriptor) :
    (shmemTable q odscs).length = 2 * odscs.length := by
  rw [shmemTable, length_append, length_map, length_map]
  omega

/-- Only an answer that lists nothing does not make the client leave the table. -/
theorem tableInside_iff (q : ObjDescriptor) (qte : QueryTranEntry) (r : ShmemReply) :
    TableInside q qte r ↔ r.listed = [] := by
  rw [TableInside, descLoop, length_shmemTable, Nat.mul_div_cancel_left _ Nat.two_pos]
  constructor
  · intro h
    -- Otherwise the last round reads at the index of the last full descriptor.
    rcases eq_nil_or_concat r.listed with hnil | ⟨odscs, odsc, hlast⟩
    · exact hnil
    · have htab : shmemTable q r.listed = (r.listed.map (clip q) ++ odscs.map (full q)) ++ [full q odsc] := by
        simp [shmemTable, hlast]
      have hlen : (r.listed.map (clip q) ++ odscs.map (full q)).length = r.listed.length + odscs.length := by
        simp
      have hge : ¬ r.listed.length + odscs.length < r.listed.length := by omega
      have hread := h (r.listed.length + odscs.length) (by
        rw [htab, zipIdx_append, foldl_append, hlen]
        simp [descRound])
      exact absurd hread hge
  · rintro hnil i hi
    rw [hnil] at hi
    exact absurd hi not_mem_nil

/-! ## New descriptors -/

/-- The owner and the clipped box, by which pieces are told apart. -/
def itemKey (q odsc : ObjDescriptor) : Nat × List (Nat × Nat) := pieceKey (clip q odsc)

theorem bboxIntersect_self_left (b0 b1 : Bbox) :
    bboxIntersect b0 (bboxIntersect b0 b1) = bboxIntersect b0 b1 := by
  simp only [bboxIntersect, Bbox.mk.injEq, true_and]
  constructor
  · funext i
    split_ifs <;> omega
  · funext i
    split_ifs <;> omega

@[simp] theorem itemKey_clip (q odsc : ObjDescriptor) : itemKey q (clip q odsc) = itemKey q odsc := by
  simp only [itemKey, clip, bboxIntersect_self_left]

@[simp] theorem itemKey_full (q odsc : ObjDescriptor) : itemKey q (full q odsc) = itemKey q odsc := rfl

variable {q : ObjDescriptor} {seen : List (Nat × List (Nat × Nat))}

/-- A descriptor with the owner and box of a clipped one is clipped already. -/
theorem itemKey_of_pieceKey_eq {d odsc : ObjDescriptor} (h : pieceKey d = itemKey q odsc) :
    itemKey q d = itemKey q odsc := by
  obtain ⟨howner, hbox⟩ := Prod.mk.inj h
  obtain ⟨hdims, hbounds⟩ := bboxEquals_iff.1 (corners_eq_iff.1 hbox)
  have hsame : corners (bboxIntersect q.bb d.bb) = corners (bboxIntersect q.bb odsc.bb) := by
    rw [← bboxIntersect_self_left q.bb odsc.bb, corners_eq_iff, bboxEquals_iff]
    refine ⟨rfl, fun i hi => ?_⟩
    obtain ⟨hlb, hub⟩ := hbounds i (hdims ▸ hi)
    simp only [bboxIntersect, hlb, hub, clip]
    exact ⟨rfl, rfl⟩
  rw [itemKey, itemKey, pieceKey, pieceKey]
  exact Prod.ext howner hsame

/-- The pieces are found by the keys `seen`. -/
def Finds (q : ObjDescriptor) (odList : List ObjData) (seen : List (Nat × List (Nat × Nat))) : Prop :=
  ∀ o, (∃ od ∈ odList, pieceKey od.objDesc = itemKey q o) ↔ itemKey q o ∈ seen

section Rounds

variable {q : ObjDescriptor} {halfSz : Nat} {seen : List (Nat × List (Nat × Nat))}

theorem Finds.qtFindObj_isSome {qte : QueryTranEntry} (h : Finds q qte.odList seen) (o : ObjDescriptor) :
    (qtFindObj qte (clip q o)).isSome = true ↔ itemKey q o ∈ seen := by
  rw [← h o, qtFindObj, find?_isSome]
  simp only [objDescEquals_iff_pieceKey]
  rfl

theorem Finds.cons {odList : List ObjData} (h : Finds q odList seen) (o : ObjDescriptor) :
    Finds q (objDataAlloc (clip q o) :: odList) (itemKey q o :: seen) := by
  intro o'
  simp only [mem_cons, exists_eq_or_imp, h o']
  exact or_congr_left eq_comm

theorem qtAddObj_of_st {qte : QueryTranEntry} {odsc : ObjDescriptor} (hst : odsc.st = qte.qObj.st) :
    qtAddObj qte odsc = { qte with odList := objDataAlloc odsc :: qte.odList, numOd := qte.numOd + 1 } := by
  rw [qtAddObj, ← hst]

/-- The entry with more pieces in front. -/
def withPieces (qte : QueryTranEntry) (odscs : List ObjDescriptor) : QueryTranEntry :=
  { qte with
    odList := odscs.reverse.map objDataAlloc ++ qte.odList
    numOd := qte.numOd + odscs.length }

theorem withPieces_nil (qte : QueryTranEntry) : withPieces qte [] = qte := by
  simp [withPieces]

theorem withPieces_cons (qte : QueryTranEntry) (o : ObjDescriptor) (odscs : List ObjDescriptor) :
    withPieces { qte with odList := objDataAlloc o :: qte.odList, numOd := qte.numOd + 1 } odscs =
      withPieces qte (o :: odscs) := by
  simp only [withPieces, reverse_cons, map_append, append_assoc, length_cons]
  congr 1
  push_cast
  ring

variable {l : List ObjDescriptor}

/-- Later rounds use indices above those of earlier ones. -/
theorem foldl_clips_below {k : Nat} (hk : k + l.length ≤ halfSz) (s : DescLoop) {i : Nat}
    (hi : i < k + halfSz) :
    (((l.map (clip q)).zipIdx k).foldl (descRound halfSz) s).dupliOdsc i = s.dupliOdsc i := by
  induction l generalizing k s with
  | nil => rfl
  | cons o l ih =>
    rw [length_cons] at hk
    rw [map_cons, zipIdx_cons, foldl_cons, ih (by omega) _ (by omega), descRound,
      if_pos (by show k < halfSz; omega)]
    split
    · rfl
    · exact update_of_ne (by show i ≠ k + halfSz; omega) _ _

/-- The rounds for the clipped descriptors keep those that are new, and mark the index of the full one of
each of the others. -/
theorem foldl_clips {k : Nat} (hk : k + l.length ≤ halfSz) {s : DescLoop} (hq : s.qte.qObj = q)
    (hfinds : Finds q s.qte.odList seen) : let s' := ((l.map (clip q)).zipIdx k).foldl (descRound halfSz) s
    s'.qte = withPieces s.qte ((fresh (itemKey q) seen l).map (clip q)) ∧
      ∀ j, s'.dupliOdsc (k + j + halfSz) =
        if (freshFlags (itemKey q) seen l)[j]? = some false then ((k + j + halfSz : Nat) : Int)
        else s.dupliOdsc (k + j + halfSz) := by
  induction l generalizing k s seen with
  | nil => exact ⟨(withPieces_nil _).symm, fun j => rfl⟩
  | cons o l ih =>
    rw [length_cons] at hk
    rw [map_cons, zipIdx_cons, foldl_cons]
    have hround : descRound halfSz s (clip q o, k) =
        match qtFindObj s.qte (clip q o) with
        | none => { s with qte := qtAddObj s.qte (clip q o) }
        | some _ =>
          { s with
            dupliOdsc := update s.dupliOdsc (k + halfSz) ((k + halfSz : Nat) : Int)
            used := s.used ++ [k + halfSz] } := if_pos (by show k < halfSz; omega)
    have hsome := hfinds.qtFindObj_isSome o
    rw [hround, fresh, freshFlags]
    cases hfind : qtFindObj s.qte (clip q o) with
    | none =>
      rw [hfind] at hsome
      have hnew : itemKey q o ∉ seen := fun hmem => Bool.noConfusion (hsome.2 hmem)
      rw [if_neg hnew, if_neg hnew]
      have hadd := qtAddObj_of_st (show (clip q o).st = s.qte.qObj.st from hq ▸ rfl)
      have hfinds' : Finds q (qtAddObj s.qte (clip q o)).odList (itemKey q o :: seen) := by
        rw [hadd]
        exact hfinds.cons o
      obtain ⟨hqte, hmarks⟩ := ih (k := k + 1) (s := { s with qte := qtAddObj s.qte (clip q o) }) (by omega)
        hq hfinds'
      refine ⟨?_, fun j => ?_⟩
      · rw [hqte, map_cons, ← withPieces_cons, ← hadd]
      · cases j with
        | zero =>
          rw [foldl_clips_below (by omega) _ (by omega)]
          rfl
        | succ j =>
          have hj := hmarks j
          rwa [show k + 1 + j = k + (j + 1) by omega] at hj
    | some od =>
      rw [hfind] at hsome
      have hold : itemKey q o ∈ seen := hsome.1 rfl
      rw [if_pos hold, if_pos hold]
      obtain ⟨hqte, hmarks⟩ := ih (k := k + 1)
        (s := { s with
            dupliOdsc := update s.dupliOdsc (k + halfSz) ((k + halfSz : Nat) : Int)
            used := s.used ++ [k + halfSz] }) (by omega) hq hfinds
      refine ⟨hqte, fun j => ?_⟩
      cases j with
      | zero =>
        rw [foldl_clips_below (by omega) _ (by omega)]
        exact update_self ..
      | succ j =>
        have hj := hmarks j
        rw [show k + 1 + j = k + (j + 1) by omega] at hj
        simp only [update_of_ne (show k + (j + 1) + halfSz ≠ k + halfSz by omega)] at hj
        exact hj

/-- The rounds for the full descriptors keep those at an index without a mark. -/
theorem foldl_fulls {i : Nat} (hi : halfSz ≤ i) {s : DescLoop} (hq : s.qte.qObj = q)
    (hmarks : ∀ j < l.length, s.dupliOdsc (i + j) = ((i + j : Nat) : Int) ↔
      (freshFlags (itemKey q) seen l)[j]? = some false) :
    (((l.map (full q)).zipIdx i).foldl (descRound halfSz) s).qte =
      withPieces s.qte ((fresh (itemKey q) seen l).map (full q)) := by
  induction l generalizing i s seen with
  | nil => exact (withPieces_nil _).symm
  | cons o l ih =>
    have hhead := hmarks 0 (Nat.succ_pos _)
    have htail : ∀ j < l.length, s.dupliOdsc (i + 1 + j) = ((i + 1 + j : Nat) : Int) ↔
        (freshFlags (itemKey q) seen (o :: l))[j + 1]? = some false := by
      intro j hj
      have hj' := hmarks (j + 1) (Nat.succ_lt_succ hj)
      rwa [show i + (j + 1) = i + 1 + j by omega] at hj'
    rw [map_cons, zipIdx_cons, foldl_cons, descRound, if_neg (by show ¬ i < halfSz; omega)]
    rw [Nat.add_zero] at hhead
    by_cases hold : itemKey q o ∈ seen
    · have hflags : freshFlags (itemKey q) seen (o :: l) = false :: freshFlags (itemKey q) seen l :=
        if_pos hold
      rw [hflags] at hhead htail
      rw [fresh, if_pos hold, if_pos (hhead.2 rfl)]
      exact ih (Nat.le_succ_of_le hi) hq htail
    · have hflags : freshFlags (itemKey q) seen (o :: l) =
          true :: freshFlags (itemKey q) (itemKey q o :: seen) l := if_neg hold
      rw [hflags] at hhead htail
      have hkeep : ¬ s.dupliOdsc i = (i : Int) := fun heq => by simpa using hhead.1 heq
      have hadd := qtAddObj_of_st (show (full q o).st = s.qte.qObj.st from hq ▸ rfl)
      rw [fresh, if_neg hold, if_neg hkeep, map_cons, ← withPieces_cons, ← hadd]
      exact ih (Nat.le_succ_of_le hi) hq htail

end Rounds

/-! ## The pieces -/

/-- The memory behind the table does not contain the indices that are compared with it. -/
def ShmemReply.Unmarked (r : ShmemReply) : Prop :=
  ∀ i, r.listed.length ≤ i → i < 2 * r.listed.length → r.behind i ≠ (i : Int)

/-- One answer brings the clipped descriptors of what is new, and then the full ones. -/
theorem descLoop_shmemTable {qte : QueryTranEntry} (hq : qte.qObj = q) (hfinds : Finds q qte.odList seen)
    {r : ShmemReply} (hr : r.Unmarked) :
    (descLoop qte (shmemTable q r.listed) r.behind).qte =
      withPieces (withPieces { qte with sizeOd := qte.sizeOd + (2 * r.listed.length : Nat) }
        ((fresh (itemKey q) seen r.listed).map (clip q))) ((fresh (itemKey q) seen r.listed).map (full q)) := by
  rw [descLoop, length_shmemTable, Nat.mul_div_cancel_left _ Nat.two_pos, shmemTable, zipIdx_append,
    foldl_append, length_map]
  obtain ⟨hqte, hmarks⟩ := foldl_clips (show 0 + r.listed.length ≤ r.listed.length by omega)
    (s := { qte := { qte with sizeOd := qte.sizeOd + (2 * r.listed.length : Nat) }
            dupliOdsc := fun i => if i < r.listed.length then 0 else r.behind i
            used := [] }) hq hfinds
  rw [@foldl_fulls q r.listed.length seen _ _ (Nat.le_add_left _ _), hqte]
  · rw [hqte]
    exact hq
  · intro j hj
    have hmark := hmarks j
    rw [show 0 + j + r.listed.length = 0 + r.listed.length + j by omega] at hmark
    rw [hmark]
    split
    · next hflag => exact ⟨fun _ => hflag, fun _ => rfl⟩
    · next hflag =>
      refine ⟨fun heq => absurd heq ?_, fun h => absurd h hflag⟩
      simp only [if_neg (show ¬ 0 + r.listed.length + j < r.listed.length by omega)]
      exact hr _ (by omega) (by omega)

/-- The entry of a query to `numPeer` peers after answers: `groups` are the new descriptors of each answer,
the last answer in front, and `n` is how many were listed. -/
structure PiecesInv (q : ObjDescriptor) (numPeer : Nat) (groups : List (List ObjDescriptor)) (n : Nat)
    (qte : QueryTranEntry) : Prop where
  qObj_eq : qte.qObj = q
  odList_eq : qte.odList = (paired (full q) (clip q) groups).map objDataAlloc
  numOd_eq : qte.numOd = qte.odList.length
  sizeOd_eq : qte.sizeOd = (2 * n : Nat)
  numPartsRec_eq : qte.numPartsRec = 0
  fComplete_eq : qte.fComplete = false
  qhNumPeer_eq : qte.qhNumPeer = numPeer

/-- The pieces of groups are found by the keys of their descriptors. -/
theorem finds_paired {groups : List (List ObjDescriptor)}
    (hseen : ∀ k, k ∈ seen ↔ k ∈ groups.flatten.map (itemKey q)) :
    Finds q ((paired (full q) (clip q) groups).map objDataAlloc) seen := by
  intro o
  rw [hseen]
  constructor
  · rintro ⟨od, hod, hkey⟩
    obtain ⟨d, hd, rfl⟩ := mem_map.1 hod
    obtain ⟨g, hg, hdg⟩ := mem_flatMap.1 hd
    rw [← itemKey_of_pieceKey_eq hkey]
    rcases mem_append.1 hdg with hdg | hdg
    · obtain ⟨o', ho', rfl⟩ := mem_map.1 hdg
      exact mem_map.2 ⟨o', mem_flatten.2 ⟨g, hg, ho'⟩, (itemKey_full q o').symm⟩
    · obtain ⟨o', ho', rfl⟩ := mem_map.1 hdg
      exact mem_map.2 ⟨o', mem_flatten.2 ⟨g, hg, ho'⟩, (itemKey_clip q o').symm⟩
  · intro hmem
    obtain ⟨o', ho', hkey⟩ := mem_map.1 hmem
    obtain ⟨g, hg, ho'g⟩ := mem_flatten.1 ho'
    refine ⟨objDataAlloc (clip q o'), mem_map_of_mem (mem_flatMap.2 ⟨g, hg, ?_⟩), hkey⟩
    exact mem_append_right _ (mem_map_of_mem ho'g)

theorem PiecesInv.step {numPeer : Nat} {groups : List (List ObjDescriptor)} {n : Nat} {qte : QueryTranEntry}
    (h : PiecesInv q numPeer groups n qte) (hseen : ∀ k, k ∈ seen ↔ k ∈ groups.flatten.map (itemKey q))
    {r : ShmemReply} (hr : r.Unmarked) :
    PiecesInv q numPeer ((fresh (itemKey q) seen r.listed).reverse :: groups) (n + r.listed.length)
      (objGetDescCompletionShmem qte (shmemTable q r.listed) r.behind) := by
  have hfinds : Finds q qte.odList seen := h.odList_eq ▸ finds_paired hseen
  rw [objGetDescCompletionShmem, descLoop_shmemTable h.qObj_eq hfinds hr]
  refine ⟨h.qObj_eq, ?_, ?_, ?_, h.numPartsRec_eq, h.fComplete_eq, h.qhNumPeer_eq⟩
  · simp only [countReply, withPieces, h.odList_eq, paired, flatMap_cons, map_append,
      map_reverse, append_assoc]
  · simp only [countReply, withPieces, h.numOd_eq, length_append, length_map, length_reverse]
    push_cast
    ring
  · simp only [countReply, withPieces, h.sizeOd_eq]
    push_cast
    ring

/-- What is new in each answer. -/
def newPieces (q : ObjDescriptor) (replies : List ShmemReply) : List (List ObjDescriptor) :=
  freshGroups (itemKey q) [] (replies.map ShmemReply.listed)

/-- All descriptors that were listed. -/
def listed (replies : List ShmemReply) : List ObjDescriptor := (replies.map ShmemReply.listed).flatten

/-- The blocks of the list of pieces: it is built from the front. -/
def blocks (q : ObjDescriptor) (replies : List ShmemReply) : List (List ObjDescriptor) :=
  ((newPieces q replies).map List.reverse).reverse

/-- The pieces after all answers. -/
theorem piecesInv_shmemPhase (q : ObjDescriptor) {replies : List ShmemReply}
    (hr : ∀ r ∈ replies, r.Unmarked) :
    PiecesInv q replies.length (blocks q replies) (listed replies).length (shmemPhase q replies) := by
  -- The answers `replies'` are handled after those with the groups `groups`.
  have hrun : ∀ (replies' : List ShmemReply) (groups : List (List ObjDescriptor)) (n : Nat)
      (qte : QueryTranEntry) (seen : List (Nat × List (Nat × Nat))), (∀ r ∈ replies', r.Unmarked) →
      PiecesInv q replies.length groups n qte → (∀ k, k ∈ seen ↔ k ∈ groups.flatten.map (itemKey q)) →
      PiecesInv q replies.length
        (((freshGroups (itemKey q) seen (replies'.map ShmemReply.listed)).map List.reverse).reverse ++ groups)
        (n + (listed replies').length)
        (handleReplies qte replies') := by
    intro replies'
    induction replies' with
    | nil => exact fun groups n qte seen _ h _ => h
    | cons r replies' ih =>
      intro groups n qte seen hr h hseen
      rw [handleReplies, foldl_cons, ← handleReplies, h.qObj_eq]
      have hnext := ih _ _ _ (seen ++ r.listed.map (itemKey q))
        (fun r' hr' => hr r' (mem_cons_of_mem r hr')) (h.step hseen (hr r mem_cons_self)) (by
          intro k
          rw [mem_append, flatten_cons, map_append, mem_append, map_reverse,
            mem_reverse, mem_map_fresh, ← hseen k]
          tauto)
      simp only [map_cons, freshGroups, reverse_cons, append_assoc, singleton_append,
        listed, flatten_cons, length_append, ← Nat.add_assoc] at hnext ⊢
      exact hnext
  have hstart : PiecesInv q replies.length [] 0 (qteAlloc q replies.length) :=
    ⟨rfl, rfl, rfl, rfl, rfl, rfl, rfl⟩
  have hfinal := hrun replies [] 0 _ [] hr hstart (fun k => by simp)
  rwa [append_nil, Nat.zero_add] at hfinal

section Blocks

variable (q : ObjDescriptor) (replies : List ShmemReply)

theorem length_blocks : (blocks q replies).length = replies.length := by
  rw [blocks, length_reverse, length_map, newPieces, length_freshGroups, length_map]

theorem flatten_blocks : (blocks q replies).flatten = (fresh (itemKey q) [] (listed replies)).reverse := by
  rw [blocks, ← reverse_flatten, newPieces, flatten_freshGroups, listed]

theorem forall_length_blocks {b : Nat} :
    (∀ g ∈ blocks q replies, g.length = b) ↔ ∀ g ∈ newPieces q replies, g.length = b := by
  simp only [blocks, mem_reverse, forall_mem_map, length_reverse]

theorem nodup_blocks : ((blocks q replies).flatten.map (itemKey q)).Nodup := by
  rw [flatten_blocks, map_reverse, nodup_reverse]
  exact nodup_map_fresh [] _

theorem mem_keys_blocks (k : Nat × List (Nat × Nat)) :
    k ∈ (blocks q replies).flatten.map (itemKey q) ↔ k ∈ (listed replies).map (itemKey q) := by
  rw [flatten_blocks, map_reverse, mem_reverse, mem_map_fresh]
  exact and_iff_left not_mem_nil

theorem mem_listed_of_mem_blocks {o : ObjDescriptor} (h : o ∈ (blocks q replies).flatten) :
    o ∈ listed replies := by
  rw [flatten_blocks, mem_reverse] at h
  exact (fresh_sublist [] _).mem h

end Blocks

end DataSpaces.Shmem
