import Mathlib.Data.List.Range
import Mathlib.Logic.Function.Basic
import Mathlib.Tactic

/-!
# Ring buffers filled in groups

A ring buffer whose head moves by one and whose tail moves by groups of `n` slots. The slots of the
group that holds the head are kept until the head has left the group, so the buffer counts as full
when the group after the tail would be the head's group; it then grows by half, and the used groups
move to the front of the new table.

`Represents n r q` says that the ring `r` holds the queue `q`. The operations keep it
(`Represents.advance`, `Represents.grow`, `Represents.push`), so a loop over the ring is a loop over
a first-in first-out queue.
-/

namespace DataSpaces.Lib

open List Function

universe u

variable {α : Type u}

structure GroupRing (α : Type u) where
  tab : Nat → α
  size : Nat
  head : Nat
  tail : Nat

namespace GroupRing

def isEmpty (r : GroupRing α) : Bool := decide (r.head = r.tail)

def front (r : GroupRing α) : α := r.tab r.head

/-- The group after the tail is the group of the head. -/
def isFull (n : Nat) (r : GroupRing α) : Bool :=
  decide ((r.tail + n) % r.size = r.head - r.head % n)

/-- Move the used groups to the front of a table larger by half; `raw` is what the new table holds
where nothing is copied. -/
def grow (n : Nat) (raw : Nat → α) (r : GroupRing α) : GroupRing α :=
  let tmp := r.size + r.size / 2
  let nhead := r.head - r.head % n
  { tab := fun i =>
      -- The contents are in one piece, or they wrap around and are joined.
      if r.tail > r.head then
        if i < r.tail - nhead then r.tab (nhead + i) else raw i
      else
        if i < r.size - nhead then r.tab (nhead + i)
        else if i - (r.size - nhead) < r.tail then r.tab (i - (r.size - nhead))
        else raw i
    size := tmp - tmp % n
    head := r.head % n
    tail := r.size - n }

/-- Fill the group at the tail, entry by entry, from the item at the head, which is read again for
every entry. -/
def fill (n : Nat) (f : α → Nat → α) (r : GroupRing α) : Nat → α :=
  (range n).foldl (fun tab i => update tab (r.tail + i) (f (tab r.head) i)) r.tab

def push (n : Nat) (f : α → Nat → α) (r : GroupRing α) : GroupRing α :=
  { r with tab := r.fill n f, tail := (r.tail + n) % r.size }

def advance (r : GroupRing α) : GroupRing α := { r with head := (r.head + 1) % r.size }

/-- The slot `i` places after `head`. -/
def slot (size head i : Nat) : Nat := if head + i < size then head + i else head + i - size

/-- The ring holds the items of `q`, first item at the head. -/
structure Represents (n : Nat) (r : GroupRing α) (q : List α) : Prop where
  pos : 0 < n
  dvd_size : n ∣ r.size
  dvd_tail : n ∣ r.tail
  two_le : 2 * n ≤ r.size
  head_lt : r.head < r.size
  tail_lt : r.tail < r.size
  length : r.head + q.length = r.tail ∨ r.head + q.length = r.tail + r.size
  room : r.head % n + q.length + n ≤ r.size
  cell : ∀ (i : Nat) (hi : i < q.length), r.tab (slot r.size r.head i) = q[i]

namespace Represents

variable {n : Nat} {r : GroupRing α} {q : List α}

theorem isEmpty_iff (h : Represents n r q) : r.isEmpty = true ↔ q = [] := by
  have h1 := h.head_lt
  have h2 := h.tail_lt
  have h3 := h.room
  have h4 := h.pos
  rw [isEmpty, decide_eq_true_eq, ← length_eq_zero_iff]
  rcases h.length with hl | hl <;> omega

theorem front_eq {a : α} (h : Represents n r (a :: q)) : r.front = a := by
  have h0 := h.cell 0 (by simp)
  have h1 := h.head_lt
  rw [slot, Nat.add_zero, if_pos h1] at h0
  exact h0

section

variable (h : Represents n r q)

include h

/-- The tail's group ends inside the table. -/
theorem tail_add_le : r.tail + n ≤ r.size := by
  have h1 := h.tail_lt
  have hd : n ∣ r.size - r.tail := Nat.dvd_sub h.dvd_size h.dvd_tail
  have := Nat.le_of_dvd (by omega) hd
  omega

theorem dvd_used : n ∣ r.head % n + q.length := by
  have hg : n ∣ r.head - r.head % n := Nat.dvd_sub_mod r.head
  have hle := Nat.mod_le r.head n
  rcases h.length with hl | hl
  · have e : r.head % n + q.length = r.tail - (r.head - r.head % n) := by omega
    rw [e]
    exact Nat.dvd_sub h.dvd_tail hg
  · have e : r.head % n + q.length = r.tail + r.size - (r.head - r.head % n) := by omega
    rw [e]
    exact Nat.dvd_sub (Nat.dvd_add h.dvd_tail h.dvd_size) hg

theorem isFull_iff : r.isFull n = true ↔ r.head % n + q.length + n = r.size := by
  have h1 := h.head_lt
  have h2 := h.tail_lt
  have h3 := h.room
  have h4 := h.pos
  have h5 := h.tail_add_le
  have h6 := Nat.mod_le r.head n
  rw [isFull, decide_eq_true_eq]
  -- The tail's group either ends at the end of the table, and the next one starts at `0`, or not.
  rcases Nat.lt_or_eq_of_le h5 with hlt | heq
  · rw [Nat.mod_eq_of_lt hlt]
    rcases h.length with hl | hl <;> omega
  · rw [heq, Nat.mod_self]
    rcases h.length with hl | hl <;> omega

/-- A ring that is not full has room for one group more than it keeps free. -/
theorem room_of_not_isFull (hf : r.isFull n = false) : r.head % n + q.length + 2 * n ≤ r.size := by
  have h1 : ¬ r.head % n + q.length + n = r.size := by
    rw [← h.isFull_iff, hf]
    exact Bool.false_ne_true
  have h2 := h.room
  have hd : n ∣ r.size - (r.head % n + q.length + n) :=
    Nat.dvd_sub h.dvd_size (Nat.dvd_add h.dvd_used dvd_rfl)
  have := Nat.le_of_dvd (by omega) hd
  omega

end

theorem advance {a : α} (h : Represents n r (a :: q)) : Represents n r.advance q := by
  have h1 := h.head_lt
  have h2 := h.room
  have h3 := h.length
  have h4 := h.tail_lt
  rw [length_cons] at h2 h3
  have hmod : (r.head + 1) % n ≤ r.head % n + 1 := by
    rw [Nat.add_mod]
    exact le_trans (Nat.mod_le _ _) (Nat.add_le_add_left (Nat.mod_le 1 n) _)
  have hcell : ∀ (i : Nat) (hi : i < q.length), r.tab (slot r.size r.head (i + 1)) = q[i] := by
    intro i hi
    rw [h.cell (i + 1) (by simpa using hi), getElem_cons_succ]
  -- The head moves to the next slot, or back to the first one.
  rcases Nat.lt_or_eq_of_le (Nat.succ_le_of_lt h1) with hlt | heq
  · have e : (r.head + 1) % r.size = r.head + 1 := Nat.mod_eq_of_lt hlt
    refine ⟨h.pos, h.dvd_size, h.dvd_tail, h.two_le, ?_, h4, ?_, ?_, fun i hi => ?_⟩
    · simpa only [GroupRing.advance, e] using hlt
    · simp only [GroupRing.advance, e]
      omega
    · simp only [GroupRing.advance, e]
      omega
    · rw [← hcell i hi]
      simp only [GroupRing.advance, e, slot]
      congr 1
      split <;> split <;> omega
  · have e : (r.head + 1) % r.size = 0 := by rw [← heq]; exact Nat.mod_self _
    have hz : 0 % n = 0 := Nat.zero_mod n
    refine ⟨h.pos, h.dvd_size, h.dvd_tail, h.two_le, ?_, h4, ?_, ?_, fun i hi => ?_⟩
    · simp only [GroupRing.advance, e]
      omega
    · simp only [GroupRing.advance, e]
      omega
    · simp only [GroupRing.advance, e, hz]
      omega
    · rw [← hcell i hi]
      simp only [GroupRing.advance, e, slot]
      congr 1
      split <;> split <;> omega

/-- Growing a full ring keeps its contents and leaves room for another group. -/
theorem grow (h : Represents n r q) (hf : r.isFull n = true) (raw : Nat → α) :
    Represents n (r.grow n raw) q ∧ (r.grow n raw).isFull n = false := by
  have h1 := h.head_lt
  have h2 := h.tail_lt
  have hused := h.isFull_iff.1 hf
  have hpos := h.pos
  have htwo := h.two_le
  have hmodlt : r.head % n < n := Nat.mod_lt _ hpos
  have hle := Nat.mod_le r.head n
  have hsize : (r.grow n raw).size = r.size + r.size / 2 - (r.size + r.size / 2) % n := rfl
  have hdvd : n ∣ (r.grow n raw).size := by
    rw [hsize]
    exact Nat.dvd_sub_mod _
  -- The new size is a multiple of the group and larger, so there is room for at least one group.
  have hlarge : r.size + n ≤ (r.grow n raw).size := by
    have hlt : (r.size + r.size / 2) % n < n := Nat.mod_lt _ hpos
    have := Nat.le_of_dvd (by omega) (Nat.dvd_sub hdvd h.dvd_size)
    omega
  have hhead : (r.grow n raw).head = r.head % n := rfl
  have htail : (r.grow n raw).tail = r.size - n := rfl
  have hmodmod : r.head % n % n = r.head % n := Nat.mod_mod _ _
  have hrep : Represents n (r.grow n raw) q := by
    refine ⟨hpos, hdvd, ?_, by omega, by omega, by omega, Or.inl (by omega),
      by rw [hhead, hmodmod]; omega, fun i hi => ?_⟩
    · rw [htail]
      exact Nat.dvd_sub h.dvd_size dvd_rfl
    · rw [← h.cell i hi]
      have hslot : slot (r.grow n raw).size (r.grow n raw).head i = r.head % n + i := by
        rw [slot, hhead, if_pos (by omega)]
      rw [hslot]
      simp only [GroupRing.grow, slot]
      -- The contents were in one piece or wrapped around; they are in one piece afterwards.
      rcases h.length with hl | hl
      · rw [if_pos (by omega), if_pos (by omega), if_pos (by omega)]
        congr 1
        omega
      · rw [if_neg (by omega)]
        by_cases hi' : r.head + i < r.size
        · rw [if_pos (by omega), if_pos hi']
          congr 1
          omega
        · rw [if_neg (by omega), if_pos (by omega), if_neg hi']
          congr 1
          omega
  refine ⟨hrep, ?_⟩
  rw [Bool.eq_false_iff, Ne, hrep.isFull_iff, hhead, hmodmod]
  omega

end Represents

/-- Filling does not disturb the item it reads when the head is outside the tail's group. -/
theorem fill_apply (f : α → Nat → α) (r : GroupRing α) (n : Nat)
    (hout : r.head < r.tail ∨ r.tail + n ≤ r.head) (j : Nat) : r.fill n f j =
      if r.tail ≤ j ∧ j < r.tail + n then f r.front (j - r.tail) else r.tab j := by
  induction n generalizing j with
  | zero => rw [if_neg (by omega)]; rfl
  | succ n ih =>
    have hout' : r.head < r.tail ∨ r.tail + n ≤ r.head := by omega
    have hread : r.fill n f r.head = r.front := by
      rw [ih hout' r.head, if_neg (by omega), front]
    have hstep : r.fill (n + 1) f = update (r.fill n f) (r.tail + n) (f (r.fill n f r.head) n) := by
      rw [fill, range_succ, foldl_append]
      rfl
    rw [hstep, hread, update_apply, ih hout' j]
    by_cases hj : j = r.tail + n
    · subst hj
      rw [if_pos rfl, if_pos (by omega), Nat.add_sub_cancel_left]
    · rw [if_neg hj]
      by_cases hj' : r.tail ≤ j ∧ j < r.tail + n
      · rw [if_pos hj', if_pos (by omega)]
      · rw [if_neg hj', if_neg (by omega)]

/-- Filling a group appends its entries to the queue. -/
theorem Represents.push {n : Nat} {r : GroupRing α} {a : α} {q : List α}
    (h : Represents n r (a :: q)) (hf : r.isFull n = false) (f : α → Nat → α) :
    Represents n (r.push n f) (a :: q ++ (range n).map (f a)) := by
  have h1 := h.head_lt
  have h2 := h.tail_lt
  have h3 := h.tail_add_le
  have h4 := h.length
  have hroom := h.room_of_not_isFull hf
  have hpos := h.pos
  have htab := fill_apply f r n (by rw [length_cons] at h4 hroom; rcases h4 with h4 | h4 <;> omega)
  have hlen : (a :: q ++ (range n).map (f a)).length = (a :: q).length + n := by
    rw [length_append, length_map, length_range]
  have htail : (r.tail + n < r.size ∧ (r.tail + n) % r.size = r.tail + n) ∨
      (r.tail + n = r.size ∧ (r.tail + n) % r.size = 0) := by
    rcases Nat.lt_or_eq_of_le h3 with hlt | heq
    · exact Or.inl ⟨hlt, Nat.mod_eq_of_lt hlt⟩
    · exact Or.inr ⟨heq, by rw [heq, Nat.mod_self]⟩
  refine ⟨hpos, h.dvd_size, ?_, h.two_le, h1, Nat.mod_lt _ (by omega), ?_, ?_, fun i hi => ?_⟩
  · exact (Nat.dvd_mod_iff h.dvd_size).2 (Nat.dvd_add h.dvd_tail dvd_rfl)
  · simp only [GroupRing.push, hlen]
    rcases htail with ⟨hlt, e⟩ | ⟨heq, e⟩ <;> rcases h4 with h4 | h4 <;> rw [e] <;> omega
  · simp only [GroupRing.push, hlen]
    omega
  · show r.fill n f (slot r.size r.head i) = _
    rw [htab]
    rw [hlen] at hi
    by_cases hold : i < (a :: q).length
    · -- An item of the old queue: its slot is not in the tail's group.
      rw [getElem_append_left hold, ← h.cell i hold, if_neg]
      unfold slot
      split <;> rcases h4 with h4 | h4 <;> omega
    · have hslot : slot r.size r.head i = r.tail + (i - (a :: q).length) := by
        unfold slot
        split <;> rcases h4 with h4 | h4 <;> omega
      rw [getElem_append_right (by omega), hslot, if_pos (by omega), h.front_eq,
        Nat.add_sub_cancel_left, getElem_map, getElem_range]

end GroupRing

end DataSpaces.Lib
