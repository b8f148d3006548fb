import DataSpaces.Dimes.Buffer

/-!
# Checkpoint and restart of the buffer allocator

`dimes_client_shmem_checkpoint_allocator` writes the blocks of both lists to a table, with offsets in place
of addresses. After a restart `dimes_client_shmem_restart_allocator` appends the blocks of the table to the
two lists.

What a restart should give is the old allocator moved to the new region (`DimesBuffer.move`). A moved
allocator goes on exactly as the old one (`Session.step_move`, `runSteps_move`), so this is all that has to
be restored. `dimesClientShmemRestartAllocator` does restore it from two empty lists, and only from them. But
`dimes_client_shmem_restart` calls `dimes_buffer_init` before, and that leaves one free block of the full
size in the list (`shmemRestart_not_roundTrip`). The block is the first one of the list, so every allocation
after a restart returns the base of the region, whatever lives there.
-/

namespace DataSpaces.Dimes

open Lib List Function

/-! ## The source -/

/-- `struct dimes_cr_allocator_block_info`. -/
structure CrAllocatorBlockInfo where
  size : Nat
  offset : Nat
  blockStatus : MemBlockStatus
deriving DecidableEq, Repr

/-- `struct dimes_cr_allocator_info`, followed by the table of blocks. The counts are 32 bits wide. -/
structure CrAllocator where
  numUsedBlocks : UInt32
  numFreeBlocks : UInt32
  shmemObjId : Int
  blocks : List CrAllocatorBlockInfo
deriving DecidableEq, Repr

def blockInfo (bufferPtr : Nat) (mb : DimesBufBlock) : CrAllocatorBlockInfo :=
  ⟨mb.blockSize, (mb.blockPtr + (2 ^ 64 - bufferPtr)) % 2 ^ 64, mb.blockStatus⟩

/-- The free blocks and then the blocks in use. -/
def dimesClientShmemCheckpointAllocator (s : DimesBuffer) (shmemObjId : Int) : CrAllocator :=
  ⟨UInt32.ofNat s.usedBlocks.length, UInt32.ofNat s.freeBlocks.length, shmemObjId,
    s.freeBlocks.map (blockInfo s.bufferPtr) ++ s.usedBlocks.map (blockInfo s.bufferPtr)⟩

def restartAllocatorInsertBlock (bufferPtr : Nat) (blocksList : List DimesBufBlock)
    (blkInfo : CrAllocatorBlockInfo) : List DimesBufBlock :=
  blocksList ++ [⟨blkInfo.size, ptrAdd bufferPtr blkInfo.offset, blkInfo.blockStatus⟩]

/-- The blocks of the table are appended to the lists. -/
def dimesClientShmemRestartAllocator (s : DimesBuffer) (cr : CrAllocator) : DimesBuffer :=
  let numFree := cr.numFreeBlocks.toNat
  let numUsed := cr.numUsedBlocks.toNat
  { s with
    freeBlocks := (cr.blocks.take numFree).foldl (restartAllocatorInsertBlock s.bufferPtr) s.freeBlocks
    usedBlocks := ((cr.blocks.drop numFree).take numUsed).foldl (restartAllocatorInsertBlock s.bufferPtr)
      s.usedBlocks }

/-- The allocator's part of `dimes_client_shmem_restart`, in a fresh process. -/
def dimesClientShmemRestart (baseAddr size : Nat) (cr : CrAllocator) : DimesBuffer :=
  dimesClientShmemRestartAllocator (dimesBufferInit dimesBufferStart baseAddr size).1 cr

/-! ## Moving an allocator to another region -/

section

variable (r r' : Region)

/-- The address with the same offset. -/
def Region.move (ptr : Nat) : Nat := r'.base + (ptr - r.base)

def DimesBufBlock.move (mb : DimesBufBlock) : DimesBufBlock := { mb with blockPtr := r.move r' mb.blockPtr }

def DimesBuffer.move (s : DimesBuffer) : DimesBuffer :=
  ⟨s.bufferSize, r.move r' s.bufferPtr, s.freeBlocks.map (DimesBufBlock.move r r'),
    s.usedBlocks.map (DimesBufBlock.move r r')⟩

def Session.move (t : Session) : Session :=
  ⟨t.buffer.move r r', t.live.map fun b => ⟨r.move r' b.start, b.size⟩⟩

/-- A call in terms of offsets. -/
inductive OffsetCall where
  | alloc (size : Nat)
  | free (offset : Nat)

/-- The call in a region. -/
def OffsetCall.within : OffsetCall → BufferCall
  | .alloc size => .alloc size
  | .free offset => .free (r.base + offset)

end

open DimesBufBlock (extent move)

/-- What a restart promises: the same blocks at the same offsets, again a partition of the region, and the
same outcome of all later calls. -/
structure RoundTrip (r r' : Region) (t : Session) (restarted : DimesBuffer) : Prop where
  free : restarted.freeBlocks = t.buffer.freeBlocks.map (move r r')
  used : restarted.usedBlocks = t.buffer.usedBlocks.map (move r r')
  covers : ∀ a, r'.base ≤ a ∧ a < r'.base + r'.size ↔
    ∃ mb ∈ restarted.freeBlocks ++ restarted.usedBlocks, mb.extent.Covers a
  apart : ((restarted.freeBlocks ++ restarted.usedBlocks).map extent).Pairwise Blk.Apart
  outcomes : ∀ calls : List OffsetCall,
    runSteps Session.step ⟨restarted, (t.move r r').live⟩ (calls.map (OffsetCall.within r')) =
      (runSteps Session.step t (calls.map (OffsetCall.within r))).map (Session.move r r')

section Commute

variable {r r' : Region} {s : DimesBuffer} {t : Session} {block mb : DimesBufBlock} {l : List DimesBufBlock}

@[simp] theorem move_blockSize : (mb.move r r').blockSize = mb.blockSize := rfl

@[simp] theorem move_blockPtr : (mb.move r r').blockPtr = r.move r' mb.blockPtr := rfl

theorem move_inj {p q : Nat} (hp : r.base ≤ p) (hq : r.base ≤ q) : r.move r' p = r.move r' q ↔ p = q := by
  unfold Region.move
  omega

variable {b c : DimesBufBlock} {test : DimesBufBlock → Bool}

theorem block_move_inj (hb : r.base ≤ b.blockPtr) (hc : r.base ≤ c.blockPtr)
    (h : b.move r r' = c.move r r') : b = c := by
  obtain ⟨bs, bp, bt⟩ := b
  obtain ⟨cs, cp, ct⟩ := c
  simp only [move, DimesBufBlock.mk.injEq] at h ⊢
  exact ⟨h.1, (move_inj hb hc).1 h.2.1, h.2.2⟩

theorem dimesBufInsertBlock_move : dimesBufInsertBlock (block.move r r') (l.map (move r r')) =
      (dimesBufInsertBlock block l).map (move r r') := by
  induction l with
  | nil => rfl
  | cons c l ih =>
    simp only [map_cons, dimesBufInsertBlock, move_blockSize, ih]
    by_cases hle : block.blockSize ≤ c.blockSize
    · rw [if_pos hle, if_pos hle, map_cons, map_cons]
    · rw [if_neg hle, if_neg hle, map_cons]

theorem lastMatch_move {test' : DimesBufBlock → Bool} (h : ∀ c ∈ l, test' (c.move r r') = test c) :
    lastMatch test' (l.map (move r r')) = (lastMatch test l).map (move r r') := by
  induction l using reverseRecOn with
  | nil => rfl
  | append_singleton l c ih =>
    rw [map_append, map_singleton, lastMatch_append, lastMatch_append, h c (by simp),
      ih fun d hd => h d (mem_append_left _ hd)]
    split
    · rfl
    · rfl

theorem mergeAfter_move {after : Option DimesBufBlock} (hl : ∀ c ∈ l, r.base ≤ c.blockPtr)
    (hafter : ∀ c, after = some c → r.base ≤ c.blockPtr) :
    mergeAfter (block.move r r') (l.map (move r r')) (after.map (move r r')) =
      ((mergeAfter block l after).1.move r r', (mergeAfter block l after).2.map (move r r')) := by
  cases after with
  | none => rfl
  | some c =>
    have herase := map_erase_of_forall (f := move r r') (l := l) (a := c)
      fun d hd => block_move_inj (hl d hd) (hafter c rfl)
    exact Prod.ext rfl herase

theorem mergeBefore_move {before : Option DimesBufBlock} (hl : ∀ c ∈ l, r.base ≤ c.blockPtr)
    (hbefore : ∀ c, before = some c → r.base ≤ c.blockPtr) :
    mergeBefore (block.move r r') (l.map (move r r')) (before.map (move r r')) =
      ((mergeBefore block l before).1.move r r', (mergeBefore block l before).2.map (move r r')) := by
  cases before with
  | none => rfl
  | some c =>
    have herase := map_erase_of_forall (f := move r r') (l := l) (a := c)
      fun d hd => block_move_inj (hl d hd) (hbefore c rfl)
    exact Prod.ext rfl herase

/-- A block with at least one address, all of them in the region. -/
def Inside (r : Region) (mb : DimesBufBlock) : Prop :=
  r.base ≤ mb.blockPtr ∧ 0 < mb.blockSize ∧ mb.blockPtr + mb.blockSize ≤ r.base + r.size

/-- The test of the scan gives the same result for moved blocks. -/
theorem contiguous_move (hsize : r'.size = r.size) (hb : Inside r b) (hc : Inside r c) :
    ((b.move r r').blockPtr == ptrAdd (c.move r r').blockPtr (c.move r r').blockSize) =
      (b.blockPtr == ptrAdd c.blockPtr c.blockSize) := by
  have hbase := r.base_pos
  have hfits := r.fits
  have hbase' := r'.base_pos
  have hfits' := r'.fits
  obtain ⟨hb1, hb2, hb3⟩ := hb
  obtain ⟨hc1, hc2, hc3⟩ := hc
  have hold : b.blockPtr = ptrAdd c.blockPtr c.blockSize ↔ b.blockPtr = c.blockPtr + c.blockSize :=
    eq_ptrAdd_iff (by omega) (by omega) (by omega)
  have hnew : r.move r' b.blockPtr = ptrAdd (r.move r' c.blockPtr) c.blockSize ↔
      r.move r' b.blockPtr = r.move r' c.blockPtr + c.blockSize := by
    unfold Region.move
    exact eq_ptrAdd_iff (by omega) (by omega) (by omega)
  rw [Bool.eq_iff_iff, beq_iff_eq, beq_iff_eq, hold, move_blockPtr, move_blockPtr, move_blockSize, hnew]
  unfold Region.move
  omega

theorem mem_of_lastMatch (h : lastMatch test l = some mb) : mb ∈ l :=
  ((lastMatch_finds fun _ _ => Iff.rfl).mem mb h).1

theorem dimesBufInsertBlockToFreelist_move (hsize : r'.size = r.size) (hblock : Inside r block)
    (hl : ∀ c ∈ l, Inside r c) : dimesBufInsertBlockToFreelist (block.move r r') (l.map (move r r')) =
      (dimesBufInsertBlockToFreelist block l).map (move r r') := by
  unfold dimesBufInsertBlockToFreelist
  simp only
  rw [lastMatch_move fun c hc => contiguous_move hsize (hl c hc) hblock,
    lastMatch_move fun c hc => contiguous_move hsize hblock (hl c hc),
    mergeAfter_move (fun c hc => (hl c hc).1) fun c hc => (hl c (mem_of_lastMatch hc)).1]
  rw [mergeBefore_move (fun c hc => (hl c ((mergeAfter_sublist _).mem hc)).1)
    fun c hc => (hl c (mem_of_lastMatch hc)).1, ← dimesBufInsertBlock_move]
  rfl

theorem BufferInv.inside (hinv : BufferInv r s) (hr : 0 < r.size)
    (hmb : mb ∈ s.freeBlocks ++ s.usedBlocks) : Inside r mb := by
  obtain ⟨hlower, hupper⟩ := hinv.bounds hmb
  have hext := mem_map_of_mem (f := extent) hmb
  rw [map_append] at hext
  exact ⟨hlower, (hinv.arena hr).tiling.pos _ hext, hupper⟩

/-- Splitting commutes with moving as long as the block is not larger than what is left of the region. -/
theorem splitBlock_move {size : Nat} (hsize : r'.size = r.size) (hlower : r.base ≤ mb.blockPtr)
    (hupper : mb.blockPtr + mb.blockSize ≤ r.base + r.size) (hle : size ≤ mb.blockSize) :
    splitBlock (mb.move r r') size =
      ((splitBlock mb size).1.move r r', (splitBlock mb size).2.map (move r r')) := by
  have hfits := r.fits
  have hfits' := r'.fits
  refine Prod.ext rfl ?_
  by_cases heq : mb.blockSize = size
  · rw [splitBlock_of_eq heq, splitBlock_of_eq (show (mb.move r r').blockSize = size from heq)]
    rfl
  · have hptr : ptrAdd (r.move r' mb.blockPtr) size = r.move r' (ptrAdd mb.blockPtr size) := by
      unfold Region.move ptrAdd
      omega
    rw [splitBlock_of_ne heq, splitBlock_of_ne (show (mb.move r r').blockSize ≠ size from heq),
      move_blockPtr, hptr]
    rfl

/-- An allocation in the moved buffer. -/
theorem dimesBufferAlloc_move (hsize : r'.size = r.size) (hinv : BufferInv r s) (size : Nat) :
    dimesBufferAlloc (s.move r r') size = ((dimesBufferAlloc s size).1.move r r',
      if (dimesBufferAlloc s size).2 = 0 then 0 else r.move r' (dimesBufferAlloc s size).2) := by
  have hfind : ((s.move r r').freeBlocks.find? fun c => decide (size ≤ c.blockSize)) =
      (s.freeBlocks.find? fun c => decide (size ≤ c.blockSize)).map (move r r') :=
    find?_map
  have herase : ((s.move r r').freeBlocks.eraseP fun c => decide (size ≤ c.blockSize)) =
      (s.freeBlocks.eraseP fun c => decide (size ≤ c.blockSize)).map (move r r') :=
    eraseP_map
  unfold dimesBufferAlloc
  rw [hfind, herase]
  by_cases hlarge : s.bufferSize < size
  · rw [if_pos hlarge, if_pos (show (s.move r r').bufferSize < size from hlarge)]
    rfl
  rw [if_neg hlarge, if_neg (show ¬ (s.move r r').bufferSize < size from hlarge)]
  cases hsome : s.freeBlocks.find? fun c => decide (size ≤ c.blockSize) with
  | none => rfl
  | some mb =>
    have hmb := mem_of_find?_eq_some hsome
    have hle : size ≤ mb.blockSize := by simpa using find?_some hsome
    obtain ⟨hlower, hupper⟩ := hinv.bounds (mem_append_left _ hmb)
    have hne : (splitBlock mb size).1.blockPtr ≠ 0 := Nat.ne_of_gt (Nat.lt_of_lt_of_le r.base_pos hlower)
    simp only [Option.map_some, splitBlock_move hsize hlower hupper hle, if_neg hne]
    have hused : dimesBufInsertBlock ((splitBlock mb size).1.move r r') (s.move r r').usedBlocks =
        (dimesBufInsertBlock (splitBlock mb size).1 s.usedBlocks).map (move r r') :=
      dimesBufInsertBlock_move
    rw [hused]
    cases (splitBlock mb size).2 with
    | none => rfl
    | some rest =>
      simp only [Option.map_some, Option.elim_some, dimesBufInsertBlock_move]
      rfl

/-- A release in the moved buffer. -/
theorem dimesBufferFree_move (hsize : r'.size = r.size) (hinv : BufferInv r s) (offset : Nat) :
    dimesBufferFree (s.move r r') (r'.base + offset) = (dimesBufferFree s (r.base + offset)).move r r' := by
  have hptr : (s.move r r').bufferPtr = r'.base := by
    show r'.base + (s.bufferPtr - r.base) = r'.base
    rw [hinv.bufferPtr, Nat.sub_self, Nat.add_zero]
  have htest : ∀ c ∈ s.usedBlocks, decide ((c.move r r').blockPtr = r'.base + offset) =
      decide (c.blockPtr = r.base + offset) := by
    intro c hc
    have hlower := (hinv.bounds (mem_append_right _ hc)).1
    rw [decide_eq_decide, move_blockPtr, Region.move]
    omega
  have hfind : ((s.move r r').usedBlocks.find? fun c => decide (c.blockPtr = r'.base + offset)) =
      (s.usedBlocks.find? fun c => decide (c.blockPtr = r.base + offset)).map
        (move r r') := by
    rw [← find?_congr htest]
    exact find?_map
  have herase : ((s.move r r').usedBlocks.eraseP fun c => decide (c.blockPtr = r'.base + offset)) =
      (s.usedBlocks.eraseP fun c => decide (c.blockPtr = r.base + offset)).map
        (move r r') := by
    rw [← eraseP_congr htest]
    exact eraseP_map
  have hbufferSize : (s.move r r').bufferSize = r'.size := hinv.bufferSize.trans hsize.symm
  rw [dimesBufferFree_base_add hptr hbufferSize, dimesBufferFree_base_add hinv.bufferPtr hinv.bufferSize,
    hsize]
  by_cases hout : r.size ≤ offset
  · rw [if_pos hout, if_pos hout]
  rw [if_neg hout, if_neg hout, releaseBlockAt, releaseBlockAt, hfind, herase]
  cases hsome : s.usedBlocks.find? fun c => decide (c.blockPtr = r.base + offset) with
  | none => rfl
  | some mb =>
    have hmb := mem_of_find?_eq_some hsome
    have hr := hinv.size_pos_of_mem_used hmb
    have hfree := dimesBufInsertBlockToFreelist_move hsize (hinv.inside hr (mem_append_right _ hmb))
      fun c hc => hinv.inside hr (mem_append_left _ hc)
    exact congrArg (fun free => DimesBuffer.mk _ _ free _) hfree

/-! ## The moved session goes on in the same way -/

section

variable (hinv : SessionInv r t)

include hinv

theorem SessionInv.base_le {b : Blk} (hb : b ∈ t.live) : r.base ≤ b.start := by
  obtain ⟨mb, hmb, rfl⟩ := mem_map.1 (hinv.live.mem_iff.2 hb)
  exact (hinv.buffer.bounds (mem_append_right _ hmb)).1

theorem SessionInv.move_start_eq_iff {b : Blk} (hb : b ∈ t.live) (offset : Nat) :
    r.move r' b.start = r'.base + offset ↔ b.start = r.base + offset := by
  have hle := hinv.base_le hb
  unfold Region.move
  omega

theorem SessionInv.mem_live_move_iff (offset : Nat) :
    r'.base + offset ∈ (t.move r r').live.map Blk.start ↔ r.base + offset ∈ t.live.map Blk.start := by
  simp only [Session.move, map_map, mem_map, comp_apply]
  exact exists_congr fun b => and_congr_right fun hb => hinv.move_start_eq_iff hb offset

theorem SessionInv.filter_live_move (offset : Nat) :
    (t.move r r').live.filter (fun b => decide (b.start ≠ r'.base + offset)) =
      (t.live.filter fun b => decide (b.start ≠ r.base + offset)).map
        fun b => ⟨r.move r' b.start, b.size⟩ := by
  rw [Session.move, filter_map]
  congr 1
  apply filter_congr
  intro b hb
  rw [comp_apply, decide_eq_decide]
  exact not_congr (hinv.move_start_eq_iff hb offset)

end

/-- One call in the moved session. -/
theorem Session.step_move (hsize : r'.size = r.size) (hinv : SessionInv r t) (call : OffsetCall) :
    (t.move r r').step (call.within r') = (t.step (call.within r)).map (Session.move r r') := by
  have hbuffer : (t.move r r').buffer = t.buffer.move r r' := rfl
  cases call with
  | alloc size =>
    have hne : r.move r' (dimesBufferAlloc t.buffer size).2 ≠ 0 :=
      Nat.ne_of_gt (Nat.lt_of_lt_of_le r'.base_pos (Nat.le_add_right _ _))
    simp only [OffsetCall.within, Session.step]
    by_cases hpos : 0 < size
    · rw [if_pos hpos, if_pos hpos, Option.map_some, hbuffer, dimesBufferAlloc_move hsize hinv.buffer]
      by_cases hfail : (dimesBufferAlloc t.buffer size).2 = 0
      · simp only [hfail, if_true, Session.move]
      · simp only [hfail, if_false, hne, Session.move, map_cons]
    · rw [if_neg hpos, if_neg hpos, Option.map_none]
  | free offset =>
    simp only [OffsetCall.within, Session.step, hinv.mem_live_move_iff]
    by_cases hpos : r.base + offset ∈ t.live.map Blk.start
    · rw [if_pos hpos, if_pos hpos, Option.map_some, hinv.filter_live_move, hbuffer,
        dimesBufferFree_move hsize hinv.buffer]
      rfl
    · rw [if_neg hpos, if_neg hpos, Option.map_none]

/-- All later calls. The induction is on the calls; the invariant of the old session is what the step lemma
needs. -/
theorem runSteps_move (hsize : r'.size = r.size) (hinv : SessionInv r t) (calls : List OffsetCall) :
    runSteps Session.step (t.move r r') (calls.map (OffsetCall.within r')) =
      (runSteps Session.step t (calls.map (OffsetCall.within r))).map (Session.move r r') := by
  induction calls generalizing t with
  | nil => rfl
  | cons call calls ih =>
    rw [map_cons, map_cons, runSteps, runSteps, Session.step_move hsize hinv]
    cases hstep : t.step (call.within r) with
    | none => rfl
    | some t' => exact ih (hinv.step hstep)

end Commute

/-! ## What the table restores -/

section

variable {r r' : Region} {s : DimesBuffer} {t : Session}

/-- The block that `restart_allocator_insert_block` makes of an entry. -/
def restoredBlock (bufferPtr : Nat) (blkInfo : CrAllocatorBlockInfo) : DimesBufBlock :=
  ⟨blkInfo.size, ptrAdd bufferPtr blkInfo.offset, blkInfo.blockStatus⟩

theorem foldl_restartAllocatorInsertBlock (bufferPtr : Nat) (infos : List CrAllocatorBlockInfo)
    (blocksList : List DimesBufBlock) : infos.foldl (restartAllocatorInsertBlock bufferPtr) blocksList =
      blocksList ++ infos.map (restoredBlock bufferPtr) := by
  induction infos generalizing blocksList with
  | nil => rw [foldl_nil, map_nil, append_nil]
  | cons info infos ih =>
    rw [foldl_cons, ih, restartAllocatorInsertBlock, append_assoc, map_cons]
    rfl

/-- Offsets lead to the moved blocks. -/
theorem restoredBlock_blockInfo (hsize : r'.size = r.size) (hinv : BufferInv r s) {mb : DimesBufBlock}
    (hmb : mb ∈ s.freeBlocks ++ s.usedBlocks) :
    restoredBlock r'.base (blockInfo s.bufferPtr mb) = mb.move r r' := by
  have hbase := r.base_pos
  have hfits := r.fits
  have hlt' := r'.base_lt
  have hfits' := r'.fits
  have hoffset : (mb.blockPtr + (2 ^ 64 - r.base)) % 2 ^ 64 = mb.blockPtr - r.base ∧
      ptrAdd r'.base (mb.blockPtr - r.base) = r'.base + (mb.blockPtr - r.base) := by
    unfold ptrAdd
    rcases Nat.eq_zero_or_pos r.size with hzero | hr
    · obtain ⟨hlower, hupper⟩ := hinv.bounds hmb
      omega
    · obtain ⟨hlower, hpos, hupper⟩ := hinv.inside hr hmb
      omega
  unfold restoredBlock blockInfo move Region.move
  rw [hinv.bufferPtr]
  simp only [hoffset.1, hoffset.2]

/-- From any lists, with counts that are not cut off, the moved blocks are appended. -/
theorem restartAllocator_checkpoint (hsize : r'.size = r.size) (hinv : BufferInv r s) (shmemObjId : Int)
    {before : DimesBuffer} (hptr : before.bufferPtr = r'.base) (hfree : s.freeBlocks.length < 2 ^ 32)
    (hused : s.usedBlocks.length < 2 ^ 32) :
    dimesClientShmemRestartAllocator before (dimesClientShmemCheckpointAllocator s shmemObjId) =
      { before with
        freeBlocks := before.freeBlocks ++ s.freeBlocks.map (move r r')
        usedBlocks := before.usedBlocks ++ s.usedBlocks.map (move r r') } := by
  have hnumFree : (UInt32.ofNat s.freeBlocks.length).toNat =
      (s.freeBlocks.map (blockInfo s.bufferPtr)).length := by
    rw [UInt32.toNat_ofNat', Nat.mod_eq_of_lt hfree, length_map]
  have hnumUsed : (UInt32.ofNat s.usedBlocks.length).toNat =
      (s.usedBlocks.map (blockInfo s.bufferPtr)).length := by
    rw [UInt32.toNat_ofNat', Nat.mod_eq_of_lt hused, length_map]
  have hrestore : ∀ l : List DimesBufBlock, (∀ mb ∈ l, mb ∈ s.freeBlocks ++ s.usedBlocks) →
      (l.map (blockInfo s.bufferPtr)).map (restoredBlock before.bufferPtr) =
        l.map (move r r') := by
    intro l hl
    rw [map_map, hptr]
    exact map_congr_left fun mb hmb => restoredBlock_blockInfo hsize hinv (hl mb hmb)
  simp only [dimesClientShmemRestartAllocator, dimesClientShmemCheckpointAllocator, hnumFree, hnumUsed,
    take_left, drop_left, take_length, foldl_restartAllocatorInsertBlock]
  rw [hrestore _ fun mb hmb => mem_append_left _ hmb, hrestore _ fun mb hmb => mem_append_right _ hmb]

/-- The number of free blocks after a restart, also if the count is cut off. -/
theorem restartAllocator_freeBlocks_length (before : DimesBuffer) (shmemObjId : Int) :
    (dimesClientShmemRestartAllocator before
      (dimesClientShmemCheckpointAllocator s shmemObjId)).freeBlocks.length =
      before.freeBlocks.length + s.freeBlocks.length % 2 ^ 32 := by
  simp only [dimesClientShmemRestartAllocator, dimesClientShmemCheckpointAllocator,
    foldl_restartAllocatorInsertBlock, length_append, length_map, length_take,
    UInt32.toNat_ofNat']
  have hle := Nat.mod_le s.freeBlocks.length (2 ^ 32)
  omega

/-- The moved allocator is what a restart promises. -/
theorem SessionInv.roundTrip_move (hsize : r'.size = r.size) (hinv : SessionInv r t) :
    RoundTrip r r' t (t.buffer.move r r') := by
  have hcovers : ∀ mb ∈ t.buffer.freeBlocks ++ t.buffer.usedBlocks, ∀ a,
      (mb.move r r').extent.Covers a ↔ r'.base ≤ a ∧ mb.extent.Covers (r.base + (a - r'.base)) := by
    intro mb hmb a
    have hlower := (hinv.buffer.bounds hmb).1
    simp only [Blk.Covers, Blk.fin, extent, move_blockPtr, move_blockSize, Region.move]
    omega
  refine ⟨rfl, rfl, fun a => ?_, ?_, runSteps_move hsize hinv⟩
  · have hold := hinv.covers (r.base + (a - r'.base))
    have hrange : r'.base ≤ a ∧ a < r'.base + r'.size ↔ r'.base ≤ a ∧
        (r.base ≤ r.base + (a - r'.base) ∧ r.base + (a - r'.base) < r.base + r.size) := by omega
    rw [hrange, hold]
    simp only [DimesBuffer.move, ← map_append, mem_map, exists_exists_and_eq_and]
    constructor
    · rintro ⟨hle, mb, hmb, hcov⟩
      exact ⟨mb, hmb, (hcovers mb hmb a).2 ⟨hle, hcov⟩⟩
    · rintro ⟨mb, hmb, hcov⟩
      obtain ⟨hle, hcov⟩ := (hcovers mb hmb a).1 hcov
      exact ⟨hle, mb, hmb, hcov⟩
  · have hold := hinv.apart
    rw [DimesBuffer.move, ← map_append, pairwise_map, pairwise_map]
    rw [pairwise_map] at hold
    refine (Pairwise.and_mem.1 hold).imp ?_
    rintro b c ⟨hb, hc, hbc⟩
    have hlowerb := (hinv.buffer.bounds hb).1
    have hlowerc := (hinv.buffer.bounds hc).1
    simp only [Blk.Apart, Blk.fin, extent, move_blockPtr, move_blockSize, Region.move] at hbc ⊢
    omega

/-- A first free block that is large enough is taken. -/
theorem dimesBufferAlloc_head {size : Nat} (mb : DimesBufBlock) {rest : List DimesBufBlock}
    (hfree : s.freeBlocks = mb :: rest) (hle : size ≤ mb.blockSize) (hbuffer : size ≤ s.bufferSize) :
    (dimesBufferAlloc s size).2 = mb.blockPtr := by
  have hfind : (s.freeBlocks.find? fun mb => decide (size ≤ mb.blockSize)) = some mb := by
    rw [hfree, find?_cons, decide_eq_true hle]
  unfold dimesBufferAlloc
  rw [if_neg (Nat.not_lt.2 hbuffer), hfind]
  rfl

/-- The moved buffer, spelled out. -/
theorem BufferInv.move_eq (hsize : r'.size = r.size) (hinv : BufferInv r s) :
    s.move r r' = ⟨r'.size, r'.base, s.freeBlocks.map (move r r'), s.usedBlocks.map (move r r')⟩ := by
  rw [DimesBuffer.move, hinv.bufferSize, hinv.bufferPtr, hsize, Region.move, Nat.sub_self, Nat.add_zero]

end

/-- A restart never restores the allocator: `dimes_buffer_init` has left a free block of the full size in
front of the restored ones, and every later allocation takes it, at the base of the region. What the table
holds is restored exactly when the lists were empty before. -/
theorem shmemRestart_not_roundTrip (r r' : Region) (hsize : r'.size = r.size) (t : Session)
    (h : Reaches Session.step (Session.init r) t) (shmemObjId : Int) :
    ¬ RoundTrip r r' t (dimesClientShmemRestart r'.base r'.size
      (dimesClientShmemCheckpointAllocator t.buffer shmemObjId)) ∧
    (∀ size, size ≤ r.size → (dimesBufferAlloc (dimesClientShmemRestart r'.base r'.size
      (dimesClientShmemCheckpointAllocator t.buffer shmemObjId)) size).2 = r'.base) ∧
    (t.buffer.freeBlocks.length < 2 ^ 32 → t.buffer.usedBlocks.length < 2 ^ 32 →
      ∀ before : DimesBuffer, before.bufferPtr = r'.base → before.bufferSize = r'.size →
        (RoundTrip r r' t (dimesClientShmemRestartAllocator before
          (dimesClientShmemCheckpointAllocator t.buffer shmemObjId)) ↔
          before.freeBlocks = [] ∧ before.usedBlocks = [])) := by
  have hinv := sessionInv_of_reaches h
  have hinit : (dimesBufferInit dimesBufferStart r'.base r'.size).1 =
      ⟨r'.size, r'.base, [⟨r'.size, r'.base, .freeBlock⟩], []⟩ := by
    unfold dimesBufferInit
    rw [if_pos (Nat.ne_of_gt r'.base_pos)]
    rfl
  refine ⟨fun hround => ?_, fun size hle => ?_, fun hfree hused before hptr hbuffer => ?_⟩
  · have hlen := congrArg List.length hround.free
    rw [dimesClientShmemRestart, restartAllocator_freeBlocks_length, hinit, length_map,
      length_singleton] at hlen
    omega
  · rw [dimesClientShmemRestart, hinit]
    rw [← hsize] at hle
    exact dimesBufferAlloc_head ⟨r'.size, r'.base, .freeBlock⟩ (foldl_restartAllocatorInsertBlock _ _ _)
      hle hle
  · rw [restartAllocator_checkpoint hsize hinv.buffer shmemObjId hptr hfree hused]
    constructor
    · intro hround
      exact ⟨append_left_eq_self.1 hround.free, append_left_eq_self.1 hround.used⟩
    · rintro ⟨hnoFree, hnoUsed⟩
      have hround := hinv.roundTrip_move hsize
      rw [hinv.buffer.move_eq hsize] at hround
      rwa [hnoFree, hnoUsed, hptr, hbuffer, nil_append, nil_append]

/-- One hundred bytes at another address. -/
def otherRegion : Region := ⟨8192, 100, by decide, by decide, by decide⟩

theorem shmemRestart_not_roundTrip_small :
    ¬ RoundTrip smallRegion otherRegion smallSession (dimesClientShmemRestart 8192 100
      (dimesClientShmemCheckpointAllocator smallSession.buffer 7)) :=
  (shmemRestart_not_roundTrip smallRegion otherRegion rfl smallSession smallSession_reached 7).1

/-- After the restart an allocation of 60 bytes returns addresses 8192 to 8251, and the restored live block
is at addresses 8232 to 8251. Without the restart the allocation fails. -/
theorem shmemRestart_overlaps :
    ¬ RoundTrip smallRegion otherRegion smallSession (dimesClientShmemRestart 8192 100
      (dimesClientShmemCheckpointAllocator smallSession.buffer 7)) ∧ (dimesClientShmemRestart 8192 100
      (dimesClientShmemCheckpointAllocator smallSession.buffer 7)).usedBlocks = [⟨20, 8232, .usedBlock⟩] ∧
    (dimesBufferAlloc (dimesClientShmemRestart 8192 100
      (dimesClientShmemCheckpointAllocator smallSession.buffer 7)) 60).2 = 8192 ∧
    ¬ (Blk.mk 8192 60).Apart ⟨8232, 20⟩ ∧ (dimesBufferAlloc smallSession.buffer 60).2 = 0 := by
  refine ⟨fun hround => absurd hround.free ?_, ?_⟩
  · decide
  · decide

end DataSpaces.Dimes
