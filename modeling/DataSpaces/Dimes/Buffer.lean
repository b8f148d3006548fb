import Mathlib.Data.List.Sort
import DataSpaces.Lib.Blocks
import DataSpaces.Lib.MatchList
import DataSpaces.Lib.Runs

/-!
# The DIMES buffer allocator

`dimes_buffer_alloc` and `dimes_buffer_free` hand out parts of one memory region. The allocator keeps its
blocks in two lists sorted by size, the free ones and the ones in use. An allocation takes the first free
block that is large enough and gives the part that it does not need back to the free list; a release joins
the block with the free blocks directly before and behind it.

The abstract side is the list of live blocks, what the caller was given and has not released (`Session`).
In every state of a session the two lists form an arena over the region, in the sense of `Lib.Blocks`, and
the blocks in use are the live ones (`sessionInv_of_reaches`). What the allocator promises follows from
that and from the order of the lists: `dimesBuffer_invariant` and `dimesBufferAlloc_best_fit`.

Addresses are numbers below `2 ^ 64` and sums of addresses wrap around. `malloc` of a list node succeeds.
-/

namespace DataSpaces.Dimes

open Lib List

/-! ## The source -/

inductive MemBlockStatus where
  | freeBlock
  | usedBlock
deriving DecidableEq, Repr

/-- `struct dimes_buf_block`. -/
structure DimesBufBlock where
  blockSize : Nat
  blockPtr : Nat
  blockStatus : MemBlockStatus
deriving DecidableEq, Repr

/-- The globals `dimes_buffer_size`, `dimes_buffer_ptr`, `free_blocks_list` and `used_blocks_list`. -/
structure DimesBuffer where
  bufferSize : Nat
  bufferPtr : Nat
  freeBlocks : List DimesBufBlock
  usedBlocks : List DimesBufBlock
deriving DecidableEq, Repr

/-- The globals before the first call. -/
def dimesBufferStart : DimesBuffer := ⟨0, 0, [], []⟩

/-- Pointer plus size. -/
def ptrAdd (ptr size : Nat) : Nat := (ptr + size) % 2 ^ 64

/-- Insert a block in front of the first one that is not smaller. -/
def dimesBufInsertBlock (block : DimesBufBlock) : List DimesBufBlock → List DimesBufBlock
  | [] => [block]
  | mb :: rest =>
    if block.blockSize ≤ mb.blockSize then block :: mb :: rest
    else mb :: dimesBufInsertBlock block rest

/-- The last block that passes the test: the scan of the free list goes on after a match. -/
def lastMatch (test : DimesBufBlock → Bool) (blocksList : List DimesBufBlock) : Option DimesBufBlock :=
  blocksList.foldl (fun found mb => if test mb then some mb else found) none

/-- Join with `contiguous_block_after`, which is unlinked. -/
def mergeAfter (block : DimesBufBlock) (blocksList : List DimesBufBlock) :
    Option DimesBufBlock → DimesBufBlock × List DimesBufBlock
  | none => (block, blocksList)
  | some after =>
    ({ block with blockSize := block.blockSize + after.blockSize }, blocksList.erase after)

/-- Join with `contiguous_block_before`, which is unlinked; the joined block starts where that one did. -/
def mergeBefore (block : DimesBufBlock) (blocksList : List DimesBufBlock) :
    Option DimesBufBlock → DimesBufBlock × List DimesBufBlock
  | none => (block, blocksList)
  | some before =>
    ({ block with
        blockSize := block.blockSize + before.blockSize
        blockPtr := before.blockPtr }, blocksList.erase before)

/-- Insert a block into the free list, joined with its free neighbours. -/
def dimesBufInsertBlockToFreelist (block : DimesBufBlock) (blocksList : List DimesBufBlock) :
    List DimesBufBlock :=
  -- Both neighbours are looked up before anything is joined.
  let before := lastMatch (fun mb => block.blockPtr == ptrAdd mb.blockPtr mb.blockSize) blocksList
  let after := lastMatch (fun mb => mb.blockPtr == ptrAdd block.blockPtr block.blockSize) blocksList
  let merged := mergeAfter block blocksList after
  let merged := mergeBefore merged.1 merged.2 before
  dimesBufInsertBlock { merged.1 with blockStatus := .freeBlock } merged.2

/-- `dimes_buffer_init`, with its return code. -/
def dimesBufferInit (s : DimesBuffer) (baseAddr size : Nat) : DimesBuffer × Int :=
  let s := { s with freeBlocks := [], usedBlocks := [], bufferPtr := baseAddr }
  if baseAddr ≠ 0 then
    ({ s with
        bufferSize := size
        freeBlocks := dimesBufInsertBlock ⟨size, baseAddr, .freeBlock⟩ s.freeBlocks }, 0)
  else (s, -1)

/-- What an allocation makes of the free block it takes: `new_used_mb`, the front, and `new_free_mb`, the
rest if there is one. -/
def splitBlock (mb : DimesBufBlock) (size : Nat) : DimesBufBlock × Option DimesBufBlock :=
  ({ mb with blockSize := size, blockStatus := .usedBlock },
    if mb.blockSize = size then none
    else some ⟨mb.blockSize - size, ptrAdd mb.blockPtr size, .freeBlock⟩)

/-- `dimes_buffer_alloc`, with the address that it stores; `0` is `NULL`. -/
def dimesBufferAlloc (s : DimesBuffer) (size : Nat) : DimesBuffer × Nat :=
  if s.bufferSize < size then (s, 0)
  else
    match s.freeBlocks.find? fun mb => decide (size ≤ mb.blockSize) with
    | none => (s, 0)
    | some mb =>
      let freeBlocks := s.freeBlocks.eraseP fun mb => decide (size ≤ mb.blockSize)
      let (newUsedMb, newFreeMb) := splitBlock mb size
      ({ s with
          freeBlocks := newFreeMb.elim freeBlocks fun mb => dimesBufInsertBlock mb freeBlocks
          usedBlocks := dimesBufInsertBlock newUsedMb s.usedBlocks },
        newUsedMb.blockPtr)

/-- Release the block in use that starts at the address, if there is one. -/
def releaseBlockAt (s : DimesBuffer) (ptr : Nat) : DimesBuffer :=
  match s.usedBlocks.find? fun mb => decide (mb.blockPtr = ptr) with
  | none => s
  | some mb =>
    { s with
      usedBlocks := s.usedBlocks.eraseP fun mb => decide (mb.blockPtr = ptr)
      freeBlocks := dimesBufInsertBlockToFreelist mb s.freeBlocks }

/-- `dimes_buffer_free`; addresses outside of the buffer are ignored. -/
def dimesBufferFree (s : DimesBuffer) (ptr : Nat) : DimesBuffer :=
  if ptr = 0 ∨ s.bufferPtr = 0 then s
  else if ptr < s.bufferPtr ∨ ptrAdd (ptrAdd s.bufferPtr s.bufferSize) (2 ^ 64 - 1) < ptr then s
  else releaseBlockAt s ptr

/-! ## Regions and sessions -/

/-- A memory region: its base is an address other than `0`, and it does not leave the address space. -/
structure Region where
  base : Nat
  size : Nat
  base_pos : 0 < base
  base_lt : base < 2 ^ 64
  fits : base + size ≤ 2 ^ 64

/-- The addresses of a block. -/
def DimesBufBlock.extent (block : DimesBufBlock) : Blk := ⟨block.blockPtr, block.blockSize⟩

open DimesBufBlock (extent)

/-- The allocator and the blocks that its caller was given and has not released. -/
structure Session where
  buffer : DimesBuffer
  live : List Blk

/-- After `dimes_buffer_init`. -/
def Session.init (r : Region) : Session := ⟨(dimesBufferInit dimesBufferStart r.base r.size).1, []⟩

inductive BufferCall where
  | alloc (size : Nat)
  | free (ptr : Nat)

/-- The calls of a caller: allocations of at least one byte, releases of live blocks. -/
def Session.step (t : Session) : BufferCall → Option Session
  | .alloc size =>
    if 0 < size then
      let result := dimesBufferAlloc t.buffer size
      some ⟨result.1, if result.2 = 0 then t.live else ⟨result.2, size⟩ :: t.live⟩
    else none
  | .free ptr =>
    if ptr ∈ t.live.map Blk.start then
      some ⟨dimesBufferFree t.buffer ptr, t.live.filter fun b => decide (b.start ≠ ptr)⟩
    else none

/-! ## Insertion by size -/

def BySize (b c : DimesBufBlock) : Prop := b.blockSize ≤ c.blockSize

instance : DecidableRel BySize := fun b c => inferInstanceAs (Decidable (b.blockSize ≤ c.blockSize))

instance : IsTrans DimesBufBlock BySize := ⟨fun _ _ _ => Nat.le_trans⟩

instance : Std.Total BySize := ⟨fun b c => Nat.le_total b.blockSize c.blockSize⟩

theorem dimesBufInsertBlock_eq (block : DimesBufBlock) (l : List DimesBufBlock) :
    dimesBufInsertBlock block l = l.orderedInsert BySize block := by
  induction l with
  | nil => rfl
  | cons mb l ih =>
    rw [dimesBufInsertBlock, orderedInsert_cons, ih]
    rfl

theorem dimesBufInsertBlock_perm (block : DimesBufBlock) (l : List DimesBufBlock) :
    (dimesBufInsertBlock block l).Perm (block :: l) := by
  rw [dimesBufInsertBlock_eq]
  exact perm_orderedInsert BySize block l

/-- A list of blocks of one status, sorted by size. -/
structure Listed (status : MemBlockStatus) (l : List DimesBufBlock) : Prop where
  sorted : l.Pairwise BySize
  blockStatus : ∀ mb ∈ l, mb.blockStatus = status

variable {l : List DimesBufBlock} {ptr : Nat} {r : Region} {t : Session} {status : MemBlockStatus}

theorem Listed.insert (h : Listed status l) {block : DimesBufBlock}
    (hblock : block.blockStatus = status) : Listed status (dimesBufInsertBlock block l) where
  sorted := by
    rw [dimesBufInsertBlock_eq]
    exact h.sorted.orderedInsert block l
  blockStatus mb hmb := by
    rcases mem_cons.1 ((dimesBufInsertBlock_perm block l).mem_iff.1 hmb) with rfl | hmb
    · exact hblock
    · exact h.blockStatus mb hmb

theorem Listed.sublist {l' : List DimesBufBlock} (h : Listed status l)
    (hsub : l'.Sublist l) : Listed status l' :=
  ⟨h.sorted.sublist hsub, fun mb hmb => h.blockStatus mb (hsub.mem hmb)⟩

/-! ## Joining with the neighbours -/

theorem lastMatch_append (test : DimesBufBlock → Bool) (l : List DimesBufBlock) (mb : DimesBufBlock) :
    lastMatch test (l ++ [mb]) = if test mb then some mb else lastMatch test l := by
  rw [lastMatch, foldl_append]
  rfl

/-- The block is one of the list with the property, if there is one. -/
structure Finds (P : DimesBufBlock → Prop) (l : List DimesBufBlock) (found : Option DimesBufBlock) :
    Prop where
  mem : ∀ mb, found = some mb → mb ∈ l ∧ P mb
  all : found = none → ∀ mb ∈ l, ¬ P mb

/-- The scan finds a block with the property that its test decides. -/
theorem lastMatch_finds {test : DimesBufBlock → Bool} {P : DimesBufBlock → Prop}
    (h : ∀ mb ∈ l, test mb = true ↔ P mb) : Finds P l (lastMatch test l) := by
  induction l using reverseRecOn with
  | nil => exact ⟨fun mb hmb => by simp [lastMatch] at hmb, fun _ mb hmb => absurd hmb not_mem_nil⟩
  | append_singleton l c ih =>
    have hc : test c = true ↔ P c := h c (by simp)
    obtain ⟨hmem, hall⟩ := ih fun mb hmb => h mb (mem_append_left _ hmb)
    rw [lastMatch_append]
    by_cases htest : test c = true
    · rw [if_pos htest]
      refine ⟨fun mb hmb => ?_, fun hnone => by cases hnone⟩
      rw [Option.some.injEq] at hmb
      subst hmb
      exact ⟨by simp, hc.1 htest⟩
    · rw [if_neg htest]
      refine ⟨fun mb hmb => ⟨mem_append_left _ (hmem mb hmb).1, (hmem mb hmb).2⟩, ?_⟩
      intro hnone mb hmb
      rcases mem_append.1 hmb with hmb | hmb
      · exact hall hnone mb hmb
      · rw [mem_singleton.1 hmb]
        exact fun hP => htest (hc.2 hP)

/-- In a region a sum that wraps around is not the address of a block. -/
theorem eq_ptrAdd_iff {size q : Nat} (hfit : ptr + size ≤ 2 ^ 64) (hpos : 0 < q) (hq : q < 2 ^ 64) :
    q = ptrAdd ptr size ↔ q = ptr + size := by
  unfold ptrAdd
  rcases Nat.eq_or_lt_of_le hfit with heq | hlt
  · rw [heq, Nat.mod_self]
    omega
  · rw [Nat.mod_eq_of_lt hlt]

section

variable {r : Region} {lo hi : Nat} {block : DimesBufBlock} {l used : List DimesBufBlock}

/-- What is known of a block next to the lists while it is being released. -/
abbrev Detached (lo hi : Nat) (block : DimesBufBlock) (l used : List DimesBufBlock) : Prop :=
  Tiling lo hi (block.extent :: (l ++ used).map extent)

section

variable (h : Detached lo hi block l used)

include h

theorem Detached.unlink {mb : DimesBufBlock} (hmb : mb ∈ l) :
    Tiling lo hi (block.extent :: mb.extent :: (l.erase mb ++ used).map extent) := by
  apply h.perm
  rw [← map_cons, ← cons_append]
  exact ((perm_cons_erase hmb).append_right used).map _ |>.cons _

theorem mergeAfter_spec {after : Option DimesBufBlock}
    (hafter : Finds (fun mb => block.extent.fin = mb.extent.start) l after)
    (hsep : ∀ b ∈ l, ∀ c ∈ l, b.extent.fin ≠ c.extent.start) :
    Detached lo hi (mergeAfter block l after).1 (mergeAfter block l after).2 used ∧
      ∀ mb ∈ (mergeAfter block l after).2, (mergeAfter block l after).1.extent.fin ≠ mb.extent.start := by
  cases after with
  | none => exact ⟨h, hafter.all rfl⟩
  | some mb =>
    obtain ⟨hmb, hstart⟩ := hafter.mem mb rfl
    have hfin : (mergeAfter block l (some mb)).1.extent.fin = mb.extent.fin := by
      simp only [mergeAfter, extent, Blk.fin] at hstart ⊢
      omega
    refine ⟨(Detached.unlink h hmb).join hstart rfl rfl, fun c hc => ?_⟩
    rw [hfin]
    exact hsep mb hmb c (mem_of_mem_erase hc)

theorem mergeBefore_spec {before : Option DimesBufBlock}
    (hbefore : Finds (fun mb => mb.extent.fin = block.extent.start) l before)
    (hsep : ∀ b ∈ l, ∀ c ∈ l, b.extent.fin ≠ c.extent.start) :
    Detached lo hi (mergeBefore block l before).1 (mergeBefore block l before).2 used ∧
      (mergeBefore block l before).1.extent.fin = block.extent.fin ∧ ∀ mb ∈ (mergeBefore block l before).2,
        mb.extent.fin ≠ (mergeBefore block l before).1.extent.start := by
  cases before with
  | none => exact ⟨h, rfl, hbefore.all rfl⟩
  | some mb =>
    obtain ⟨hmb, hfin⟩ := hbefore.mem mb rfl
    refine ⟨?_, ?_, fun c hc => hsep c (mem_of_mem_erase hc) mb hmb⟩
    · refine ((Detached.unlink h hmb).perm (Perm.swap _ _ _)).join hfin rfl ?_
      exact Nat.add_comm _ _
    · simp only [mergeBefore, extent, Blk.fin] at hfin ⊢
      omega

end

theorem mergeAfter_sublist (after : Option DimesBufBlock) : (mergeAfter block l after).2.Sublist l := by
  cases after with
  | none => exact Sublist.refl l
  | some _ => exact erase_sublist

theorem mergeBefore_sublist (before : Option DimesBufBlock) : (mergeBefore block l before).2.Sublist l := by
  cases before with
  | none => exact Sublist.refl l
  | some _ => exact erase_sublist

/-- The block before is still in the list when the block behind is unlinked. -/
theorem Finds.mergeAfter {before after : Option DimesBufBlock} (hpos : 0 < block.extent.size)
    (hbefore : Finds (fun mb => mb.extent.fin = block.extent.start) l before)
    (hafter : Finds (fun mb => block.extent.fin = mb.extent.start) l after) :
    Finds (fun mb => mb.extent.fin = (mergeAfter block l after).1.extent.start)
      (mergeAfter block l after).2 before := by
  cases after with
  | none => exact hbefore
  | some mb' =>
    refine ⟨fun mb heq => ?_, fun hnone mb hmb => hbefore.all hnone mb (mem_of_mem_erase hmb)⟩
    obtain ⟨hmb, hend⟩ := hbefore.mem mb heq
    obtain ⟨-, hbegin⟩ := hafter.mem mb' rfl
    refine ⟨(mem_erase_of_ne ?_).2 hmb, hend⟩
    rintro rfl
    unfold Blk.fin at hend hbegin
    omega

/-- The tests of the scan are exact: one block of the region ends where the other one starts. -/
theorem contiguous_iff {b c : DimesBufBlock} {tiles : List Blk}
    (h : Tiling r.base (r.base + r.size) tiles) (hb : b.extent ∈ tiles) (hc : c.extent ∈ tiles) :
    (c.blockPtr == ptrAdd b.blockPtr b.blockSize) = true ↔ b.extent.fin = c.extent.start := by
  have hbounds := h.bounds hb
  have hbounds' := h.bounds hc
  have hpos := h.pos _ hc
  have hbase := r.base_pos
  have hfits := r.fits
  simp only [extent, Blk.fin] at hbounds hbounds' hpos
  rw [beq_iff_eq, eq_ptrAdd_iff (by omega) (by omega) (by omega)]
  exact eq_comm

/-- A released block and its free neighbours become one free block, so the two lists form an arena again. -/
theorem dimesBufInsertBlockToFreelist_arena (h : Detached r.base (r.base + r.size) block l used)
    (hsep : ∀ b ∈ l, ∀ c ∈ l, b.extent.fin ≠ c.extent.start) :
    Arena r.base (r.base + r.size) ((dimesBufInsertBlockToFreelist block l).map extent)
      (used.map extent) := by
  have hblock : block.extent ∈ block.extent :: (l ++ used).map extent := mem_cons_self
  have hmem : ∀ mb ∈ l, mb.extent ∈ block.extent :: (l ++ used).map extent :=
    fun mb hmb => mem_cons_of_mem _ (mem_map_of_mem (mem_append_left _ hmb))
  have hbefore := lastMatch_finds fun mb hmb => contiguous_iff h (hmem mb hmb) hblock
  have hafter := lastMatch_finds fun mb hmb => contiguous_iff h hblock (hmem mb hmb)
  obtain ⟨htiling, hright⟩ := mergeAfter_spec h hafter hsep
  obtain ⟨htiling, hfin, hleft⟩ := mergeBefore_spec htiling (hbefore.mergeAfter (h.pos _ hblock) hafter)
    fun b hb c hc => hsep b ((mergeAfter_sublist _).mem hb) c ((mergeAfter_sublist _).mem hc)
  unfold dimesBufInsertBlockToFreelist
  refine Arena.perm ?_ ((dimesBufInsertBlock_perm _ _).map _).symm (Perm.refl _)
  have hpos := htiling.pos _ mem_cons_self
  rw [Detached, map_append, ← cons_append] at htiling
  refine ⟨htiling, ?_⟩
  simp only [map_cons, mem_cons, mem_map]
  rintro b (rfl | ⟨b, hb, rfl⟩) c (rfl | ⟨c, hc, rfl⟩)
  · exact Nat.ne_of_gt (Nat.lt_add_of_pos_right hpos)
  · intro heq
    exact hright c ((mergeBefore_sublist _).mem hc) (hfin.symm.trans heq)
  · exact hleft b hb
  · exact hsep b ((mergeAfter_sublist _).mem ((mergeBefore_sublist _).mem hb)) c
      ((mergeAfter_sublist _).mem ((mergeBefore_sublist _).mem hc))

theorem Listed.release (h : Listed .freeBlock l) (block : DimesBufBlock) :
    Listed .freeBlock (dimesBufInsertBlockToFreelist block l) := by
  unfold dimesBufInsertBlockToFreelist
  exact (h.sublist ((mergeBefore_sublist _).trans (mergeAfter_sublist _))).insert rfl

end

/-! ## The invariant -/

/-- The two lists over a region. A region without addresses has one free block, which is empty and never
handed out. -/
structure BufferInv (r : Region) (s : DimesBuffer) : Prop where
  bufferPtr : s.bufferPtr = r.base
  bufferSize : s.bufferSize = r.size
  arena : 0 < r.size → Arena r.base (r.base + r.size) (s.freeBlocks.map extent)
    (s.usedBlocks.map extent)
  empty : r.size = 0 → s.freeBlocks = [⟨0, r.base, .freeBlock⟩] ∧ s.usedBlocks = []
  free : Listed .freeBlock s.freeBlocks
  used : Listed .usedBlock s.usedBlocks

namespace BufferInv

variable {r : Region} {s : DimesBuffer} {mb : DimesBufBlock}

theorem init (r : Region) : BufferInv r (dimesBufferInit dimesBufferStart r.base r.size).1 := by
  have hinit : dimesBufferInit dimesBufferStart r.base r.size =
      (⟨r.size, r.base, [⟨r.size, r.base, .freeBlock⟩], []⟩, 0) := by
    unfold dimesBufferInit
    rw [if_pos (Nat.ne_of_gt r.base_pos)]
    rfl
  rw [hinit]
  refine ⟨rfl, rfl, fun hpos => ?_, fun hzero => ⟨by rw [hzero], rfl⟩,
    ⟨pairwise_singleton _ _, by simp⟩, ⟨Pairwise.nil, by simp⟩⟩
  have hwhole := Arena.whole (Nat.lt_add_of_pos_right hpos : r.base < r.base + r.size)
  rwa [Nat.add_sub_cancel_left] at hwhole

variable (h : BufferInv r s)

include h

theorem size_pos_of_mem_used (hmb : mb ∈ s.usedBlocks) : 0 < r.size := by
  refine Nat.pos_of_ne_zero fun hzero => ?_
  rw [(h.empty hzero).2] at hmb
  exact absurd hmb not_mem_nil

theorem size_pos_of_mem_free (hmb : mb ∈ s.freeBlocks) (hpos : 0 < mb.blockSize) : 0 < r.size := by
  refine Nat.pos_of_ne_zero fun hzero => ?_
  rw [(h.empty hzero).1, mem_singleton] at hmb
  subst hmb
  exact absurd hpos (Nat.lt_irrefl 0)

/-- The parts of the invariant that are about the lists can be shown again after a step. -/
theorem relist {free used : List DimesBufBlock} (hr : 0 < r.size)
    (harena : Arena r.base (r.base + r.size) (free.map extent) (used.map extent))
    (hfree : Listed .freeBlock free) (hused : Listed .usedBlock used) :
    BufferInv r { s with freeBlocks := free, usedBlocks := used } :=
  ⟨h.bufferPtr, h.bufferSize, fun _ => harena, fun hzero => absurd hzero (Nat.ne_of_gt hr), hfree, hused⟩

theorem bounds (hmb : mb ∈ s.freeBlocks ++ s.usedBlocks) :
    r.base ≤ mb.blockPtr ∧ mb.blockPtr + mb.blockSize ≤ r.base + r.size := by
  rcases Nat.eq_zero_or_pos r.size with hzero | hr
  · obtain ⟨hfree, hused⟩ := h.empty hzero
    rw [hfree, hused, append_nil, mem_singleton] at hmb
    subst hmb
    exact ⟨Nat.le_refl _, Nat.add_le_add_left (Nat.zero_le _) _⟩
  · have hext := mem_map_of_mem (f := extent) hmb
    rw [map_append] at hext
    exact (h.arena hr).tiling.bounds hext

end BufferInv

/-! ## Allocation -/

section

variable {r : Region} {s : DimesBuffer} {size : Nat}

theorem dimesBufferAlloc_of_forall_lt (hall : ∀ mb ∈ s.freeBlocks, mb.blockSize < size) :
    dimesBufferAlloc s size = (s, 0) := by
  have hfind : (s.freeBlocks.find? fun mb => decide (size ≤ mb.blockSize)) = none := by
    rw [find?_eq_none]
    intro mb hmb
    have hlt := hall mb hmb
    simpa using hlt
  unfold dimesBufferAlloc
  rw [hfind]
  split
  · rfl
  · rfl

variable {mb : DimesBufBlock}

theorem splitBlock_of_eq (h : mb.blockSize = size) : (splitBlock mb size).2 = none :=
  if_pos h

theorem splitBlock_of_ne (h : mb.blockSize ≠ size) :
    (splitBlock mb size).2 = some ⟨mb.blockSize - size, ptrAdd mb.blockPtr size, .freeBlock⟩ :=
  if_neg h

variable {free : List DimesBufBlock}

theorem Listed.afterSplit (h : Listed .freeBlock free) (mb : DimesBufBlock) (size : Nat) : Listed .freeBlock
      ((splitBlock mb size).2.elim free fun rest => dimesBufInsertBlock rest free) := by
  by_cases heq : mb.blockSize = size
  · rw [splitBlock_of_eq heq]
    exact h
  · rw [splitBlock_of_ne heq]
    exact h.insert rfl

/-- Taking a block out of the free list, and putting back what is not needed of it. -/
theorem arena_afterSplit {lo hi : Nat} {used : List Blk}
    (h : Arena lo hi (mb.extent :: free.map extent) used) (hsize : 0 < size)
    (hle : size ≤ mb.blockSize) (hfits : mb.blockPtr + mb.blockSize ≤ 2 ^ 64) :
    Arena lo hi (((splitBlock mb size).2.elim free
      fun rest => dimesBufInsertBlock rest free).map extent) (⟨mb.blockPtr, size⟩ :: used) := by
  by_cases heq : mb.blockSize = size
  · -- The block is handed out as it is.
    rw [splitBlock_of_eq heq]
    exact heq ▸ h.hand_out
  · -- The front of the block is handed out.
    rw [splitBlock_of_ne heq]
    have hptr : ptrAdd mb.blockPtr size = mb.blockPtr + size := Nat.mod_eq_of_lt (by omega)
    refine Arena.perm ?_ ((dimesBufInsertBlock_perm _ _).map _).symm (Perm.refl _)
    refine h.hand_out_front hsize ?_ rfl hptr.symm ?_
    · show 0 < mb.blockSize - size
      omega
    · show ptrAdd mb.blockPtr size + (mb.blockSize - size) = mb.blockPtr + mb.blockSize
      omega

/-- What an allocation that finds the block `mb` does, in terms of the two lists up to their order. -/
theorem dimesBufferAlloc_of_find (hinv : BufferInv r s) (hsize : 0 < size)
    (hfind : (s.freeBlocks.find? fun mb => decide (size ≤ mb.blockSize)) = some mb) :
    (dimesBufferAlloc s size).2 = mb.blockPtr ∧ BufferInv r (dimesBufferAlloc s size).1 ∧
      ((dimesBufferAlloc s size).1.usedBlocks.map extent).Perm
        (⟨mb.blockPtr, size⟩ :: s.usedBlocks.map extent) := by
  have hmb := mem_of_find?_eq_some hfind
  have hle : size ≤ mb.blockSize := by simpa using find?_some hfind
  have hr := hinv.size_pos_of_mem_free hmb (Nat.lt_of_lt_of_le hsize hle)
  obtain ⟨hlower, hupper⟩ := hinv.bounds (mem_append_left _ hmb)
  have harena := (hinv.arena hr).perm ((perm_cons_eraseP_of_find? hfind).map extent) (Perm.refl _)
  have hfree := hinv.free.sublist (eraseP_sublist (p := fun mb => decide (size ≤ mb.blockSize)))
  have hlarge : ¬ s.bufferSize < size := by
    rw [hinv.bufferSize]
    omega
  have hperm := (dimesBufInsertBlock_perm (splitBlock mb size).1 s.usedBlocks).map extent
  unfold dimesBufferAlloc
  rw [if_neg hlarge, hfind]
  refine ⟨rfl, hinv.relist hr ?_ (hfree.afterSplit mb size) (hinv.used.insert rfl), hperm⟩
  exact (arena_afterSplit harena hsize hle (hupper.trans r.fits)).perm (Perm.refl _) hperm.symm

/-- An allocation fails when all free blocks are too small, and else takes the smallest one that is not. -/
theorem dimesBufferAlloc_cases (hinv : BufferInv r s) (hsize : 0 < size) :
    (dimesBufferAlloc s size = (s, 0) ∧ ∀ mb ∈ s.freeBlocks, mb.blockSize < size) ∨
    ∃ mb ∈ s.freeBlocks, size ≤ mb.blockSize ∧
      (∀ c ∈ s.freeBlocks, size ≤ c.blockSize → mb.blockSize ≤ c.blockSize) ∧
      (dimesBufferAlloc s size).2 = mb.blockPtr ∧ mb.blockPtr ≠ 0 ∧ BufferInv r (dimesBufferAlloc s size).1 ∧
      ((dimesBufferAlloc s size).1.usedBlocks.map extent).Perm
        (⟨mb.blockPtr, size⟩ :: s.usedBlocks.map extent) := by
  cases hfind : s.freeBlocks.find? fun mb => decide (size ≤ mb.blockSize) with
  | none =>
    have hall : ∀ mb ∈ s.freeBlocks, mb.blockSize < size := by
      simpa using find?_eq_none.1 hfind
    exact Or.inl ⟨dimesBufferAlloc_of_forall_lt hall, hall⟩
  | some mb =>
    have hmb := mem_of_find?_eq_some hfind
    have hle : size ≤ mb.blockSize := by simpa using find?_some hfind
    have hr := hinv.size_pos_of_mem_free hmb (Nat.lt_of_lt_of_le hsize hle)
    have hlower := (hinv.bounds (mem_append_left _ hmb)).1
    have hbase := r.base_pos
    obtain ⟨hptr, hinv', hperm⟩ := dimesBufferAlloc_of_find hinv hsize hfind
    refine Or.inr ⟨mb, hmb, hle, fun c hc hcle => ?_, hptr, by omega, hinv', hperm⟩
    exact rel_of_find?_of_pairwise (r := BySize) (fun _ => Nat.le_refl _) hinv.free.sorted hfind hc
      (decide_eq_true hcle)

end

/-! ## Release -/

/-- A release of the address at an offset; the checks are about the offset. -/
theorem dimesBufferFree_base_add {s : DimesBuffer} (hptr : s.bufferPtr = r.base)
    (hbufferSize : s.bufferSize = r.size) (offset : Nat) : dimesBufferFree s (r.base + offset) =
      if r.size ≤ offset then s else releaseBlockAt s (r.base + offset) := by
  have hbase := r.base_pos
  have hfits := r.fits
  have hvalid : ¬ (r.base + offset = 0 ∨ s.bufferPtr = 0) := by omega
  have houtside : (r.base + offset < s.bufferPtr ∨
      ptrAdd (ptrAdd s.bufferPtr s.bufferSize) (2 ^ 64 - 1) < r.base + offset) ↔ r.size ≤ offset := by
    unfold ptrAdd
    omega
  unfold dimesBufferFree
  rw [if_neg hvalid]
  simp only [houtside]

/-- The release of an address at which a block in use starts. -/
theorem dimesBufferFree_of_find {s : DimesBuffer} {mb : DimesBufBlock} (hinv : BufferInv r s)
    (hfind : (s.usedBlocks.find? fun mb => decide (mb.blockPtr = ptr)) = some mb) :
    BufferInv r (dimesBufferFree s ptr) ∧ (s.usedBlocks.map extent).Perm
        (mb.extent :: (dimesBufferFree s ptr).usedBlocks.map extent) := by
  have hmb := mem_of_find?_eq_some hfind
  have hptr : mb.blockPtr = ptr := by simpa using find?_some hfind
  have hr := hinv.size_pos_of_mem_used hmb
  have harena := hinv.arena hr
  have hperm := (perm_cons_eraseP_of_find? hfind).map extent
  obtain ⟨hlower, hupper⟩ := hinv.bounds (mem_append_right _ hmb)
  have hpos : 0 < mb.blockSize := harena.tiling.pos mb.extent (mem_append_right _ (mem_map_of_mem hmb))
  -- The address passes the checks.
  have hoffset : r.base + (ptr - r.base) = ptr := by omega
  have hinside : ¬ r.size ≤ ptr - r.base := by omega
  have hrelease := dimesBufferFree_base_add hinv.bufferPtr hinv.bufferSize (ptr - r.base)
  rw [hoffset, if_neg hinside] at hrelease
  have hdetached : Detached r.base (r.base + r.size) mb s.freeBlocks
      (s.usedBlocks.eraseP fun mb => decide (mb.blockPtr = ptr)) := by
    have htiling := harena.tiling.perm ((hperm.append_left _).trans perm_middle)
    rwa [← map_append] at htiling
  rw [hrelease, releaseBlockAt, hfind]
  refine ⟨hinv.relist hr ?_ (hinv.free.release mb) (hinv.used.sublist eraseP_sublist), hperm⟩
  apply dimesBufInsertBlockToFreelist_arena hdetached
  exact fun b hb c hc => harena.separate b.extent (mem_map_of_mem hb) c.extent (mem_map_of_mem hc)

/-! ## Sessions -/

/-- The allocator keeps its invariant, and the blocks in use are the live ones. -/
structure SessionInv (r : Region) (t : Session) : Prop where
  buffer : BufferInv r t.buffer
  live : (t.buffer.usedBlocks.map extent).Perm t.live

theorem SessionInv.alloc (h : SessionInv r t) {size : Nat} (hsize : 0 < size) :
    SessionInv r ⟨(dimesBufferAlloc t.buffer size).1, if (dimesBufferAlloc t.buffer size).2 = 0 then t.live
      else ⟨(dimesBufferAlloc t.buffer size).2, size⟩ :: t.live⟩ := by
  rcases dimesBufferAlloc_cases h.buffer hsize with
    ⟨hfail, -⟩ | ⟨mb, -, -, -, hptr, hne, hinv, hperm⟩
  · rw [hfail]
    exact h
  · rw [hptr, if_neg hne]
    exact ⟨hinv, hperm.trans (h.live.cons _)⟩

theorem SessionInv.free (h : SessionInv r t) (hptr : ptr ∈ t.live.map Blk.start) :
    SessionInv r ⟨dimesBufferFree t.buffer ptr, t.live.filter fun b => decide (b.start ≠ ptr)⟩ := by
  have hused : ∃ mb ∈ t.buffer.usedBlocks, mb.blockPtr = ptr := by
    rw [← (h.live.map Blk.start).mem_iff, map_map, mem_map] at hptr
    exact hptr
  cases hfind : t.buffer.usedBlocks.find? fun mb => decide (mb.blockPtr = ptr) with
  | none =>
    obtain ⟨mb, hmb, heq⟩ := hused
    exact absurd heq (by simpa using find?_eq_none.1 hfind mb hmb)
  | some mb =>
    obtain ⟨hinv, hperm⟩ := dimesBufferFree_of_find h.buffer hfind
    have hstart : mb.blockPtr = ptr := by simpa using find?_some hfind
    refine ⟨hinv, ?_⟩
    -- The other blocks in use start elsewhere.
    have harena := h.buffer.arena (h.buffer.size_pos_of_mem_used (mem_of_find?_eq_some hfind))
    have htiling := harena.tiling.perm (Perm.append_left _ hperm)
    have hother : ∀ b ∈ (dimesBufferFree t.buffer ptr).usedBlocks.map extent, b.start ≠ ptr := by
      intro b hb heq
      have hrest := (pairwise_cons.1 (pairwise_append.1 htiling.apart).2.1).1 b hb
      have hpos := htiling.pos b (mem_append_right _ (mem_cons_of_mem _ hb))
      have hposmb := htiling.pos _ (mem_append_right _ mem_cons_self)
      simp only [Blk.Apart, Blk.fin, extent] at hrest hposmb
      omega
    have hfilter := (hperm.symm.trans h.live).filter fun b => decide (b.start ≠ ptr)
    rw [filter_cons, if_neg (by simp [extent, hstart])] at hfilter
    rwa [filter_eq_self.2 fun b hb => decide_eq_true (hother b hb)] at hfilter

theorem SessionInv.step {t' : Session} {call : BufferCall} (h : SessionInv r t)
    (hstep : t.step call = some t') : SessionInv r t' := by
  cases call with
  | alloc size =>
    simp only [Session.step, Option.ite_none_right_eq_some, Option.some.injEq] at hstep
    obtain ⟨hsize, rfl⟩ := hstep
    exact h.alloc hsize
  | free ptr =>
    simp only [Session.step, Option.ite_none_right_eq_some, Option.some.injEq] at hstep
    obtain ⟨hptr, rfl⟩ := hstep
    exact h.free hptr

theorem sessionInv_of_reaches (h : Reaches Session.step (Session.init r) t) : SessionInv r t := by
  refine h.invariant ⟨BufferInv.init r, ?_⟩ fun t call t' hinv hstep => hinv.step hstep
  unfold Session.init dimesBufferInit
  rw [if_pos (Nat.ne_of_gt r.base_pos)]
  exact Perm.refl _

/-! ## What the allocator promises -/

/-- What the allocator promises in a state of a session. -/
structure AllocatorRight (r : Region) (t : Session) : Prop where
  /-- Every address of the region is in a block, and no block reaches beyond it. -/
  covers : ∀ a, r.base ≤ a ∧ a < r.base + r.size ↔
    ∃ mb ∈ t.buffer.freeBlocks ++ t.buffer.usedBlocks, mb.extent.Covers a
  apart : ((t.buffer.freeBlocks ++ t.buffer.usedBlocks).map extent).Pairwise Blk.Apart
  freeSorted : t.buffer.freeBlocks.Pairwise fun b c => b.blockSize ≤ c.blockSize
  usedSorted : t.buffer.usedBlocks.Pairwise fun b c => b.blockSize ≤ c.blockSize
  notAdjacent : t.buffer.freeBlocks.Pairwise fun b c => ¬ b.extent.Adjacent c.extent
  /-- The blocks in use are those that the caller was given, with the sizes it asked for. -/
  live : (t.buffer.usedBlocks.map extent).Perm t.live
  /-- The block that the next allocation returns. -/
  returned : ∀ size, 0 < size → (dimesBufferAlloc t.buffer size).2 ≠ 0 →
    ∃ mb ∈ (dimesBufferAlloc t.buffer size).1.usedBlocks,
      mb.blockPtr = (dimesBufferAlloc t.buffer size).2 ∧ mb.blockSize = size ∧
        ∀ b ∈ t.live, mb.extent.Apart b
  allFreed : t.live = [] → t.buffer.freeBlocks = [⟨r.size, r.base, .freeBlock⟩]

section

variable {r : Region} {t : Session}

section

variable (h : SessionInv r t)

include h

theorem SessionInv.covers (a : Nat) : r.base ≤ a ∧ a < r.base + r.size ↔
    ∃ mb ∈ t.buffer.freeBlocks ++ t.buffer.usedBlocks, mb.extent.Covers a := by
  rcases Nat.eq_zero_or_pos r.size with hzero | hr
  · obtain ⟨hfree, hused⟩ := h.buffer.empty hzero
    rw [hfree, hused]
    simp [Blk.Covers, Blk.fin, extent, hzero]
  · rw [(h.buffer.arena hr).tiling.covers, ← map_append]
    simp only [mem_map, exists_exists_and_eq_and]

theorem SessionInv.apart : ((t.buffer.freeBlocks ++ t.buffer.usedBlocks).map extent).Pairwise Blk.Apart := by
  rcases Nat.eq_zero_or_pos r.size with hzero | hr
  · obtain ⟨hfree, hused⟩ := h.buffer.empty hzero
    rw [hfree, hused]
    exact pairwise_singleton _ _
  · rw [map_append]
    exact (h.buffer.arena hr).tiling.apart

theorem SessionInv.notAdjacent : t.buffer.freeBlocks.Pairwise fun b c => ¬ b.extent.Adjacent c.extent := by
  rcases Nat.eq_zero_or_pos r.size with hzero | hr
  · rw [(h.buffer.empty hzero).1]
    exact pairwise_singleton _ _
  · have hsep := (h.buffer.arena hr).separate
    refine pairwise_of_forall_mem_list fun b hb c hc => ?_
    have hb := mem_map_of_mem (f := extent) hb
    have hc := mem_map_of_mem (f := extent) hc
    exact not_or.2 ⟨hsep _ hb _ hc, hsep _ hc _ hb⟩

theorem SessionInv.allFreed (hlive : t.live = []) : t.buffer.freeBlocks = [⟨r.size, r.base, .freeBlock⟩] := by
  rcases Nat.eq_zero_or_pos r.size with hzero | hr
  · rw [(h.buffer.empty hzero).1, hzero]
  · have hused : t.buffer.usedBlocks.map extent = [] := by
      rw [← perm_nil, ← hlive]
      exact h.live
    have harena := h.buffer.arena hr
    rw [hused] at harena
    have hwhole := harena.free_eq_whole (Nat.lt_add_of_pos_right hr)
    rw [Nat.add_sub_cancel_left, map_eq_singleton_iff] at hwhole
    obtain ⟨⟨blockSize, blockPtr, blockStatus⟩, hfree, hext⟩ := hwhole
    have hstatus := h.buffer.free.blockStatus ⟨blockSize, blockPtr, blockStatus⟩ (by simp [hfree])
    rw [extent, Blk.mk.injEq] at hext
    simp only at hstatus hext
    rw [hfree, hext.1, hext.2, hstatus]

theorem SessionInv.returned {size : Nat} (hsize : 0 < size) (hne : (dimesBufferAlloc t.buffer size).2 ≠ 0) :
    ∃ mb ∈ (dimesBufferAlloc t.buffer size).1.usedBlocks,
      mb.blockPtr = (dimesBufferAlloc t.buffer size).2 ∧ mb.blockSize = size ∧
        ∀ b ∈ t.live, mb.extent.Apart b := by
  have hinv := h.alloc hsize
  rw [if_neg hne] at hinv
  have hmem := hinv.live.mem_iff.2 mem_cons_self
  obtain ⟨mb, hmb, hext⟩ := mem_map.1 hmem
  have hlive : (⟨(dimesBufferAlloc t.buffer size).2, size⟩ :: t.live).Pairwise Blk.Apart := by
    have hapart := hinv.apart
    rw [map_append] at hapart
    exact hinv.live.pairwise (pairwise_append.1 hapart).2.1 fun hbc => hbc.symm
  refine ⟨mb, hmb, congrArg Blk.start hext, congrArg Blk.size hext, fun b hb => ?_⟩
  rw [hext]
  exact (pairwise_cons.1 hlive).1 b hb

/-- The gaps between the live blocks are the free blocks. -/
theorem SessionInv.isGap_iff {g : Blk} (hpos : 0 < g.size) :
    IsGap r.base (r.base + r.size) t.live g ↔ ∃ mb ∈ t.buffer.freeBlocks, mb.extent = g := by
  rcases Nat.eq_zero_or_pos r.size with hzero | hr
  · constructor
    · intro hgap
      have hlower := hgap.lower
      have hupper := hgap.upper
      unfold Blk.fin at hupper
      omega
    · rintro ⟨mb, hmb, rfl⟩
      exact absurd (h.buffer.size_pos_of_mem_free hmb hpos) (by omega)
  · have harena := (h.buffer.arena hr).perm (Perm.refl _) h.live
    rw [← harena.mem_free_iff, mem_map]

end

/-- After `dimes_buffer_init` and any calls the two lists partition the region, sorted by size and without
adjacent free blocks; the blocks in use are the live ones. -/
theorem dimesBuffer_invariant (r : Region) (t : Session) (h : Reaches Session.step (Session.init r) t) :
    AllocatorRight r t := by
  have hinv := sessionInv_of_reaches h
  exact ⟨hinv.covers, hinv.apart, hinv.buffer.free.sorted, hinv.buffer.used.sorted, hinv.notAdjacent,
    hinv.live, fun _ => hinv.returned, hinv.allFreed⟩

/-- An allocation fails exactly when all maximal stretches outside of the live blocks are too small, and
else returns the start of one that is as small as possible. -/
theorem dimesBufferAlloc_best_fit (r : Region) (t : Session)
    (h : Reaches Session.step (Session.init r) t) (size : Nat) (hsize : 0 < size) :
    ((dimesBufferAlloc t.buffer size).2 = 0 ↔ ∀ g, IsGap r.base (r.base + r.size) t.live g → g.size < size) ∧
    ((dimesBufferAlloc t.buffer size).2 ≠ 0 → ∃ g, IsGap r.base (r.base + r.size) t.live g ∧ size ≤ g.size ∧
        (dimesBufferAlloc t.buffer size).2 = g.start ∧
        ∀ g', IsGap r.base (r.base + r.size) t.live g' → size ≤ g'.size → g.size ≤ g'.size) := by
  have hinv := sessionInv_of_reaches h
  rcases dimesBufferAlloc_cases hinv.buffer hsize with
    ⟨hfail, hall⟩ | ⟨mb, hmb, hle, hleast, hptr, hne, -, -⟩
  · rw [hfail]
    refine ⟨iff_of_true rfl fun g hg => ?_, fun habs => absurd rfl habs⟩
    obtain ⟨mb, hmb, rfl⟩ := (hinv.isGap_iff hg.pos).1 hg
    exact hall mb hmb
  · have hgap : IsGap r.base (r.base + r.size) t.live mb.extent :=
      (hinv.isGap_iff (Nat.lt_of_lt_of_le hsize hle)).2 ⟨mb, hmb, rfl⟩
    rw [hptr]
    refine ⟨iff_of_false hne fun hall => ?_,
      fun _ => ⟨mb.extent, hgap, hle, rfl, fun g' hg' hle' => ?_⟩⟩
    · exact absurd (hall mb.extent hgap) (Nat.not_lt.2 hle)
    · obtain ⟨c, hc, rfl⟩ := (hinv.isGap_iff hg'.pos).1 hg'
      exact hleast c hc hle'

end

/-- One hundred bytes at address 4096. -/
def smallRegion : Region := ⟨4096, 100, by decide, by decide, by decide⟩

/-- Two blocks were allocated and the first one was released. -/
def smallSession : Session :=
  ⟨⟨100, 4096, [⟨40, 4096, .freeBlock⟩, ⟨40, 4156, .freeBlock⟩], [⟨20, 4136, .usedBlock⟩]⟩,
    [⟨4136, 20⟩]⟩

theorem smallSession_reached : Reaches Session.step (Session.init smallRegion) smallSession :=
  ⟨[.alloc 40, .alloc 20, .free 4096], rfl⟩

theorem dimesBuffer_invariant_small : AllocatorRight smallRegion smallSession :=
  dimesBuffer_invariant smallRegion smallSession smallSession_reached

theorem dimesBufferAlloc_best_fit_small : (dimesBufferAlloc smallSession.buffer 41).2 = 0 ∧
      ∀ g, IsGap 4096 4196 smallSession.live g → g.size < 41 := by
  have hbest := (dimesBufferAlloc_best_fit smallRegion smallSession smallSession_reached 41 (by decide)).1
  have hfail : (dimesBufferAlloc smallSession.buffer 41).2 = 0 := by decide
  exact ⟨hfail, hbest.1 hfail⟩

end DataSpaces.Dimes
