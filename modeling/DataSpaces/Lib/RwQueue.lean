import Mathlib.Data.List.Basic
import Mathlib.Tactic

/-!
# First come, first served readers and writers

The abstract readers-writer lock with a queue. `held` lists the accesses that were admitted and not
given back, `queue` the requests that wait. A request is admitted when it is compatible with what is
held and no earlier request waits. `letIn` takes the longest admissible prefix of a queue; after it the
head of the queue is blocked (`Settled`), which makes the order of admission the order of arrival.
-/

namespace DataSpaces.Lib

open List

inductive Access where
  | read
  | write
  deriving DecidableEq, Repr

variable {κ : Type*}

/-- Readers share the lock, a writer has it alone. -/
def Compatible (held : List (κ × Access)) : Access → Prop
  | .read => ∀ h ∈ held, h.2 = .read
  | .write => held = []

instance (held : List (κ × Access)) (a : Access) : Decidable (Compatible held a) :=
  match a with
  | .read => inferInstanceAs (Decidable (∀ h ∈ held, h.2 = .read))
  | .write => decidable_of_iff (held.isEmpty = true) List.isEmpty_iff

/-- The accesses exclude each other as they should. -/
def Exclusive (held : List (κ × Access)) : Prop :=
  (∃ c, held = [(c, .write)]) ∨ ∀ h ∈ held, h.2 = .read

/-- Admit requests from the front of the queue as long as they are compatible. -/
def letIn (held : List (κ × Access)) : List (κ × Access) → List (κ × Access) × List (κ × Access)
  | [] => (held, [])
  | r :: rest => if Compatible held r.2 then letIn (held ++ [r]) rest else (held, r :: rest)

/-- The head of the queue cannot be admitted. -/
def Settled (held queue : List (κ × Access)) : Prop := ∀ r ∈ queue.head?, ¬ Compatible held r.2

theorem compatible_nil (a : Access) : Compatible ([] : List (κ × Access)) a := by
  cases a with
  | read => exact fun _ h => absurd h not_mem_nil
  | write => rfl

variable {held queue : List (κ × Access)}

/-- A blocked queue is blocked by somebody. -/
theorem Settled.held_ne_nil (h : Settled held queue) (hq : queue ≠ []) : held ≠ [] := by
  cases queue with
  | nil => exact absurd rfl hq
  | cons r rest =>
    rintro rfl
    exact h r rfl (compatible_nil r.2)

theorem Settled.nil (held : List (κ × Access)) : Settled held [] := fun _ h => nomatch h

/-- What arrives behind a blocked request does not unblock it. -/
theorem Settled.append (h : Settled held queue) (hq : queue ≠ []) (later : List (κ × Access)) :
    Settled held (queue ++ later) := by
  cases queue with
  | nil => exact absurd rfl hq
  | cons r rest => exact h

theorem Compatible.exclusive {r : κ × Access} (hr : Compatible held r.2) : Exclusive (held ++ [r]) := by
  obtain ⟨c, a⟩ := r
  cases a with
  | read =>
    refine Or.inr fun x hx => ?_
    rcases mem_append.1 hx with hx | hx
    · exact hr x hx
    · rw [mem_singleton.1 hx]
  | write =>
    have hnil : held = [] := hr
    rw [hnil]
    exact Or.inl ⟨c, rfl⟩

theorem Exclusive.erase [DecidableEq κ] (h : Exclusive held) (r : κ × Access) : Exclusive (held.erase r) := by
  rcases h with ⟨c, rfl⟩ | hread
  · by_cases hr : (c, Access.write) = r
    · rw [hr, erase_cons_head]
      exact Or.inr fun x hx => absurd hx not_mem_nil
    · rw [erase_of_not_mem (by simpa using Ne.symm hr)]
      exact Or.inl ⟨c, rfl⟩
  · exact Or.inr fun x hx => hread x (mem_of_mem_erase hx)

/-- The requests split into admitted and waiting ones, in their order; what waits is blocked. -/
theorem letIn_spec (held queue : List (κ × Access)) (h : Exclusive held) :
    ∃ new, queue = new ++ (letIn held queue).2 ∧ (letIn held queue).1 = held ++ new ∧
      Exclusive (letIn held queue).1 ∧ Settled (letIn held queue).1 (letIn held queue).2 := by
  induction queue generalizing held with
  | nil => exact ⟨[], rfl, (append_nil held).symm, h, Settled.nil held⟩
  | cons r rest ih =>
    by_cases hr : Compatible held r.2
    · rw [letIn, if_pos hr]
      obtain ⟨new, hqueue, hheld, hrest⟩ := ih (held ++ [r]) hr.exclusive
      refine ⟨r :: new, ?_, ?_, hrest⟩
      · rw [cons_append, ← hqueue]
      · rw [hheld, append_assoc, singleton_append]
    · rw [letIn, if_neg hr]
      refine ⟨[], rfl, (append_nil held).symm, h, ?_⟩
      intro x hx
      rw [head?_cons, Option.mem_def, Option.some.injEq] at hx
      rw [← hx]
      exact hr

/-- As long as another reader stays, a reader that leaves unblocks nobody. -/
theorem Settled.erase_read [DecidableEq κ] {c : κ} (hex : Exclusive held) (hmem : (c, Access.read) ∈ held)
    (hleft : held.erase (c, .read) ≠ []) (h : Settled held queue) :
    Settled (held.erase (c, .read)) queue := by
  intro r hr hcomp
  -- All accesses are readers, so the blocked head wants to write.
  have hread : ∀ x ∈ held, x.2 = Access.read := by
    rcases hex with ⟨w, rfl⟩ | hread
    · exact absurd (mem_singleton.1 hmem) nofun
    · exact hread
  cases ha : r.2 with
  | read =>
    apply h r hr
    rw [ha]
    exact hread
  | write =>
    rw [ha] at hcomp
    exact hleft hcomp

/-! ## Counting -/

/-- The number of accesses of one kind. -/
def accesses (held : List (κ × Access)) (a : Access) : Nat := held.countP fun h => decide (h.2 = a)

theorem accesses_append_singleton (held : List (κ × Access)) (r : κ × Access) (a : Access) :
    accesses (held ++ [r]) a = accesses held a + if r.2 = a then 1 else 0 := by
  rw [accesses, countP_append]
  by_cases hr : r.2 = a
  · simp [accesses, hr]
  · simp [accesses, hr]

theorem accesses_erase [DecidableEq κ] {r : κ × Access} (hr : r ∈ held) (a : Access) :
    accesses held a = accesses (held.erase r) a + if r.2 = a then 1 else 0 := by
  rw [accesses, (perm_cons_erase hr).countP_eq, countP_cons]
  by_cases hra : r.2 = a
  · simp [accesses, hra]
  · simp [accesses, hra]

theorem accesses_eq_zero {a : Access} : accesses held a = 0 ↔ ∀ h ∈ held, h.2 ≠ a := by
  rw [accesses, countP_eq_zero]
  simp

/-- Reading is possible when there is no writer. -/
theorem compatible_read_iff : Compatible held .read ↔ accesses held .write = 0 := by
  rw [accesses_eq_zero]
  refine forall₂_congr fun h _ => ?_
  cases h.2 with
  | read => simp
  | write => simp

/-- Writing is possible when there is nobody. -/
theorem compatible_write_iff :
    Compatible held .write ↔ accesses held .read = 0 ∧ accesses held .write = 0 := by
  rw [accesses_eq_zero, accesses_eq_zero]
  constructor
  · intro h
    have hnil : held = [] := h
    rw [hnil]
    exact ⟨fun _ hx => absurd hx not_mem_nil, fun _ hx => absurd hx not_mem_nil⟩
  · rintro ⟨hread, hwrite⟩
    apply eq_nil_iff_forall_not_mem.2
    intro h hh
    cases ha : h.2 with
    | read => exact hread h hh ha
    | write => exact hwrite h hh ha

/-- At most one writer, and no reader beside it. -/
theorem Exclusive.accesses (h : Exclusive held) :
    accesses held .write ≤ 1 ∧ (accesses held .write = 0 ∨ accesses held .read = 0) := by
  rcases h with ⟨c, rfl⟩ | hread
  · exact ⟨le_rfl, Or.inr rfl⟩
  · have hzero : Lib.accesses held .write = 0 := by
      rw [accesses_eq_zero]
      intro x hx
      rw [hread x hx]
      nofun
    exact ⟨hzero.le.trans zero_le_one, Or.inl hzero⟩

end DataSpaces.Lib
