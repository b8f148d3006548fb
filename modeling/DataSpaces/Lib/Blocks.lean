import Mathlib.Data.List.Perm.Basic
import Mathlib.Tactic

/-!
# Blocks of an address range

A block is a stretch of consecutive addresses. `Tiling lo hi l` says that the blocks of the list `l`, in
any order, partition the addresses from `lo` up to `hi`; cutting a block in two (`Tiling.cut`) and joining
two neighbours (`Tiling.join`) keep it.

An allocator keeps the blocks of a tiling in two lists. `Arena` adds to the tiling that no two free blocks
are neighbours. Then the free list is determined by the blocks in use: its blocks are exactly the maximal
stretches that no block in use meets (`Arena.mem_free_iff`), and without blocks in use there is one free
block, the whole range (`Arena.free_eq_whole`).
-/

namespace DataSpaces.Lib

open List

/-- The addresses from `start` up to `start + size`. -/
structure Blk where
  start : Nat
  size : Nat
deriving DecidableEq, Repr

namespace Blk

/-- The first address behind the block. -/
def fin (b : Blk) : Nat := b.start + b.size

def Covers (b : Blk) (a : Nat) : Prop := b.start ≤ a ∧ a < b.fin

/-- One block ends before the other one starts. -/
def Apart (b c : Blk) : Prop := b.fin ≤ c.start ∨ c.fin ≤ b.start

/-- One block ends where the other one starts. -/
def Adjacent (b c : Blk) : Prop := b.fin = c.start ∨ c.fin = b.start

instance (b c : Blk) : Decidable (b.Apart c) := inferInstanceAs (Decidable (_ ∨ _))

variable {b c : Blk}

theorem Apart.symm (h : b.Apart c) : c.Apart b := Or.symm h

instance : Std.Symm Apart := ⟨fun _ _ h => h.symm⟩

theorem covers_start (h : 0 < b.size) : b.Covers b.start := ⟨Nat.le_refl _, Nat.lt_add_of_pos_right h⟩

theorem Apart.not_covers (h : b.Apart c) {a : Nat} (hb : b.Covers a) : ¬ c.Covers a := by
  intro hc
  unfold Apart Covers at *
  omega

theorem Apart.ne (h : b.Apart c) (hb : 0 < b.size) : b ≠ c := by
  rintro rfl
  exact h.not_covers (covers_start hb) (covers_start hb)

theorem eq_of_start_eq_of_fin_eq (hstart : b.start = c.start) (hfin : b.fin = c.fin) : b = c := by
  obtain ⟨bs, bn⟩ := b
  obtain ⟨cs, cn⟩ := c
  simp only [fin] at hstart hfin
  rw [Blk.mk.injEq]
  omega

end Blk

open Blk

/-! ## Tilings -/

/-- The blocks of the list partition the addresses from `lo` up to `hi`. -/
structure Tiling (lo hi : Nat) (l : List Blk) : Prop where
  pos : ∀ b ∈ l, 0 < b.size
  apart : l.Pairwise Apart
  covers : ∀ a, lo ≤ a ∧ a < hi ↔ ∃ b ∈ l, b.Covers a

namespace Tiling

variable {lo hi : Nat} {l l' : List Blk} {b c : Blk}

theorem perm (h : Tiling lo hi l) (hp : l.Perm l') : Tiling lo hi l' where
  pos d hd := h.pos d (hp.mem_iff.2 hd)
  apart := hp.pairwise h.apart fun hbc => hbc.symm
  covers a := by
    rw [h.covers]
    constructor
    · rintro ⟨d, hd, ha⟩
      exact ⟨d, hp.mem_iff.1 hd, ha⟩
    · rintro ⟨d, hd, ha⟩
      exact ⟨d, hp.mem_iff.2 hd, ha⟩

theorem single (h : lo < hi) : Tiling lo hi [⟨lo, hi - lo⟩] where
  pos d hd := by
    rw [mem_singleton] at hd
    subst hd
    exact Nat.sub_pos_of_lt h
  apart := pairwise_singleton _ _
  covers a := by
    simp only [mem_singleton, exists_eq_left, Covers, fin]
    omega

/-- A block lies in the range. -/
theorem bounds (h : Tiling lo hi l) (hb : b ∈ l) : lo ≤ b.start ∧ b.fin ≤ hi := by
  have hpos := h.pos b hb
  have hfirst := (h.covers b.start).2 ⟨b, hb, covers_start hpos⟩
  have hlast := (h.covers (b.fin - 1)).2 ⟨b, hb, by unfold Covers fin; omega⟩
  omega

theorem nodup (h : Tiling lo hi l) : l.Nodup := by
  refine (Pairwise.and_mem.1 h.apart).imp ?_
  rintro d e ⟨hd, -, hde⟩
  exact hde.ne (h.pos d hd)

theorem eq_or_apart (h : Tiling lo hi l) (hb : b ∈ l) (hc : c ∈ l) : b = c ∨ b.Apart c :=
  or_iff_not_imp_left.2 (h.apart.forall hb hc)

/-- A block can be replaced by two that cover its addresses. -/
theorem cut {m : Blk} (h : Tiling lo hi (m :: l)) (hb : 0 < b.size) (hc : 0 < c.size)
    (hstart : b.start = m.start) (hmid : b.fin = c.start) (hfin : c.fin = m.fin) :
    Tiling lo hi (b :: c :: l) := by
  obtain ⟨hml, hl⟩ := pairwise_cons.1 h.apart
  have hsub : ∀ a, m.Covers a ↔ b.Covers a ∨ c.Covers a := by
    intro a
    unfold Covers fin at *
    omega
  refine ⟨?_, ?_, ?_⟩
  · rintro d (_ | ⟨_, _ | ⟨_, hd⟩⟩)
    · exact hb
    · exact hc
    · exact h.pos d (mem_cons_of_mem _ hd)
  · refine pairwise_cons.2 ⟨?_, pairwise_cons.2 ⟨?_, hl⟩⟩
    · rintro d (_ | ⟨_, hd⟩)
      · exact Or.inl hmid.le
      · have hmd := hml d hd
        unfold Apart fin at *
        omega
    · intro d hd
      have hmd := hml d hd
      unfold Apart fin at *
      omega
  · intro a
    rw [h.covers]
    simp only [mem_cons, exists_eq_or_imp, hsub, or_assoc]

/-- Two neighbours can be replaced by the block that covers the addresses of both. -/
theorem join {m : Blk} (h : Tiling lo hi (b :: c :: l)) (hmid : b.fin = c.start)
    (hstart : m.start = b.start) (hsize : m.size = b.size + c.size) : Tiling lo hi (m :: l) := by
  obtain ⟨hbl, hcl⟩ := pairwise_cons.1 h.apart
  obtain ⟨hcl, hl⟩ := pairwise_cons.1 hcl
  have hsub : ∀ a, m.Covers a ↔ b.Covers a ∨ c.Covers a := by
    intro a
    unfold Covers fin at *
    omega
  refine ⟨?_, ?_, ?_⟩
  · rintro d (_ | ⟨_, hd⟩)
    · have hb := h.pos b mem_cons_self
      omega
    · exact h.pos d (mem_cons_of_mem _ (mem_cons_of_mem _ hd))
  · refine pairwise_cons.2 ⟨?_, hl⟩
    intro d hd
    have hbd := hbl d (mem_cons_of_mem _ hd)
    have hcd := hcl d hd
    -- A block that is apart from both halves could only lie between them, and there is no room there.
    have hpos := h.pos d (mem_cons_of_mem _ (mem_cons_of_mem _ hd))
    unfold Apart fin at *
    omega
  · intro a
    rw [h.covers]
    simp only [mem_cons, exists_eq_or_imp, hsub, or_assoc]

end Tiling

/-! ## Free blocks and blocks in use -/

/-- A maximal stretch of the range that meets no block in use. -/
structure IsGap (lo hi : Nat) (used : List Blk) (g : Blk) : Prop where
  pos : 0 < g.size
  lower : lo ≤ g.start
  upper : g.fin ≤ hi
  free : ∀ a, g.Covers a → ∀ b ∈ used, ¬ b.Covers a
  left : g.start = lo ∨ ∃ b ∈ used, b.Covers (g.start - 1)
  right : g.fin = hi ∨ ∃ b ∈ used, b.Covers g.fin

namespace IsGap

variable {lo hi : Nat} {used : List Blk} {g g' : Blk} {a : Nat}

section

variable (h : IsGap lo hi used g) (h' : IsGap lo hi used g') (ha : g.Covers a) (ha' : g'.Covers a)

include h h' ha ha'

/-- What lies between two addresses of a free stretch is free, so a gap reaches as far down as any free
stretch that it meets. -/
theorem start_le : g.start ≤ g'.start := by
  by_contra hlt
  rw [Nat.not_le] at hlt
  have hmem : g'.Covers (g.start - 1) := by
    unfold Covers fin at *
    omega
  rcases h.left with hlo | ⟨b, hb, hcov⟩
  · have hlower := h'.lower
    omega
  · exact h'.free _ hmem b hb hcov

theorem fin_le : g'.fin ≤ g.fin := by
  by_contra hlt
  rw [Nat.not_le] at hlt
  have hmem : g'.Covers g.fin := by
    unfold Covers at *
    omega
  rcases h.right with hhi | ⟨b, hb, hcov⟩
  · have hupper := h'.upper
    omega
  · exact h'.free _ hmem b hb hcov

/-- Gaps that share an address are the same. -/
theorem eq_of_covers : g = g' := by
  apply eq_of_start_eq_of_fin_eq
  · exact Nat.le_antisymm (h.start_le h' ha ha') (h'.start_le h ha' ha)
  · exact Nat.le_antisymm (h'.fin_le h ha' ha) (h.fin_le h' ha ha')

end

/-- Without blocks in use the whole range is a gap. -/
theorem whole (h : lo < hi) : IsGap lo hi [] ⟨lo, hi - lo⟩ where
  pos := Nat.sub_pos_of_lt h
  lower := Nat.le_refl _
  upper := by
    show lo + (hi - lo) ≤ hi
    omega
  free a _ b hb := absurd hb not_mem_nil
  left := Or.inl rfl
  right := Or.inl (by
    show lo + (hi - lo) = hi
    omega)

end IsGap

/-- The two lists of an allocator: together a tiling, and no free block ends where another one starts. -/
structure Arena (lo hi : Nat) (free used : List Blk) : Prop where
  tiling : Tiling lo hi (free ++ used)
  separate : ∀ b ∈ free, ∀ c ∈ free, b.fin ≠ c.start

namespace Arena

variable {lo hi : Nat} {free used free' used' : List Blk} {b : Blk}

section

variable (h : Arena lo hi free used)

include h

theorem perm (hf : free.Perm free') (hu : used.Perm used') : Arena lo hi free' used' where
  tiling := h.tiling.perm (hf.append hu)
  separate b hb c hc := h.separate b (hf.mem_iff.2 hb) c (hf.mem_iff.2 hc)

theorem not_covers_used (hb : b ∈ free) {a : Nat} (ha : b.Covers a) : ∀ c ∈ used, ¬ c.Covers a := by
  intro c hc
  exact ((pairwise_append.1 h.tiling.apart).2.2 b hb c hc).not_covers ha

/-- An address of the range that is next to a free block, and not in it, belongs to a block in use. -/
theorem exists_used {a : Nat} (ha : lo ≤ a ∧ a < hi) (hfree : ∀ c ∈ free, ¬ c.Covers a) :
    ∃ c ∈ used, c.Covers a := by
  obtain ⟨c, hc, hcov⟩ := (h.tiling.covers a).1 ha
  rcases mem_append.1 hc with hc | hc
  · exact absurd hcov (hfree c hc)
  · exact ⟨c, hc, hcov⟩

theorem isGap (hb : b ∈ free) : IsGap lo hi used b := by
  have hmem : b ∈ free ++ used := mem_append_left _ hb
  obtain ⟨hlo, hhi⟩ := h.tiling.bounds hmem
  have hpos := h.tiling.pos b hmem
  refine ⟨hpos, hlo, hhi, fun a ha => h.not_covers_used hb ha, ?_, ?_⟩
  · rcases Nat.eq_or_lt_of_le hlo with heq | hlt
    · exact Or.inl heq.symm
    · refine Or.inr (h.exists_used ⟨by omega, by unfold fin at hhi; omega⟩ fun c hc hcov => ?_)
      -- A free block that covers the address below `b` ends at its start.
      rcases h.tiling.eq_or_apart (mem_append_left _ hc) hmem with rfl | hapart
      · unfold Covers at hcov
        omega
      · refine h.separate c hc b hb ?_
        unfold Covers Apart fin at *
        omega
  · rcases Nat.eq_or_lt_of_le hhi with heq | hlt
    · exact Or.inl heq
    · refine Or.inr (h.exists_used ⟨by unfold fin; omega, hlt⟩ fun c hc hcov => ?_)
      -- A free block that covers the first address behind `b` starts there.
      rcases h.tiling.eq_or_apart (mem_append_left _ hc) hmem with rfl | hapart
      · unfold Covers at hcov
        omega
      · refine h.separate b hb c hc ?_
        unfold Covers Apart fin at *
        omega

/-- The free blocks are the maximal stretches that are not in use. -/
theorem mem_free_iff : b ∈ free ↔ IsGap lo hi used b := by
  constructor
  · exact h.isGap
  · intro hgap
    have hcov := covers_start hgap.pos
    have hrange : lo ≤ b.start ∧ b.start < hi := by
      have hupper := hgap.upper
      have hpos := hgap.pos
      exact ⟨hgap.lower, by unfold fin at hupper; omega⟩
    obtain ⟨c, hc, hccov⟩ := (h.tiling.covers b.start).1 hrange
    rcases mem_append.1 hc with hc | hc
    · rw [hgap.eq_of_covers (h.isGap hc) hcov hccov]
      exact hc
    · exact absurd hccov (hgap.free _ hcov c hc)

end

/-- Without blocks in use one free block is left, the whole range. -/
theorem free_eq_whole (h : Arena lo hi free []) (hlt : lo < hi) : free = [⟨lo, hi - lo⟩] := by
  have hwhole := IsGap.whole hlt
  have hall : ∀ b ∈ free, b = ⟨lo, hi - lo⟩ := by
    intro b hb
    have hgap := h.isGap hb
    refine hgap.eq_of_covers hwhole (covers_start hgap.pos) ?_
    have hlower := hgap.lower
    have hupper := hgap.upper
    have hpos := hgap.pos
    show lo ≤ b.start ∧ b.start < lo + (hi - lo)
    unfold fin at hupper
    omega
  have hnodup : free.Nodup := by simpa using h.tiling.nodup
  rw [eq_replicate_of_mem hall] at hnodup ⊢
  have hlen : free.length = 1 := by
    have hle := nodup_replicate.1 hnodup
    have hpos := length_pos_of_mem (h.mem_free_iff.2 hwhole)
    omega
  rw [hlen]
  rfl

theorem whole (h : lo < hi) : Arena lo hi [⟨lo, hi - lo⟩] [] where
  tiling := Tiling.single h
  separate b hb c hc := by
    rw [mem_singleton] at hb hc
    subst hb hc
    show lo + (hi - lo) ≠ lo
    omega

/-- A free block is handed out as a whole. -/
theorem hand_out (h : Arena lo hi (b :: free) used) : Arena lo hi free (b :: used) where
  tiling := h.tiling.perm perm_middle.symm
  separate c hc d hd := h.separate c (mem_cons_of_mem _ hc) d (mem_cons_of_mem _ hd)

/-- The front of a free block is handed out and the rest stays free. -/
theorem hand_out_front {m rest : Blk} (h : Arena lo hi (m :: free) used) (hb : 0 < b.size)
    (hrest : 0 < rest.size) (hstart : b.start = m.start) (hmid : b.fin = rest.start)
    (hfin : rest.fin = m.fin) : Arena lo hi (rest :: free) (b :: used) where
  tiling := by
    have hcut := Tiling.cut h.tiling hb hrest hstart hmid hfin
    exact hcut.perm (@List.perm_middle _ b (rest :: free) used).symm
  separate c hc d hd := by
    have hm : m ∈ m :: free := mem_cons_self
    rcases mem_cons.1 hc with rfl | hcfree
    · rcases mem_cons.1 hd with rfl | hdfree
      · unfold fin
        omega
      · rw [hfin]
        exact h.separate m hm d (mem_cons_of_mem _ hdfree)
    · rcases mem_cons.1 hd with rfl | hdfree
      · -- The rest starts inside of `m`, where no other block ends.
        intro heq
        have hmc := (pairwise_cons.1 h.tiling.apart).1 c (mem_append_left _ hcfree)
        have hpos := h.tiling.pos c (mem_append_left _ (mem_cons_of_mem _ hcfree))
        unfold Apart fin at *
        omega
      · exact h.separate c (mem_cons_of_mem _ hcfree) d (mem_cons_of_mem _ hdfree)

end Arena

end DataSpaces.Lib
