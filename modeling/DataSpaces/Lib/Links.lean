import Mathlib.Data.List.Basic
import Mathlib.Tactic

/-!
# Circular doubly linked lists

The links of all nodes are two tables; a list is a ring of nodes that starts and ends at its head, which is
a node of its own. The operations read and write the links of single nodes and fail on a null link.
A node that has been removed has null links.

`Ring` says that the links of a head represent a list of nodes, and every operation has one lemma that says
what it does to the represented list.
-/

namespace DataSpaces.Lib

open List Function Option

variable {ν : Type*}

structure Links (ν : Type*) where
  next : ν → Option ν
  prev : ν → Option ν

namespace Links

section Operations

variable [DecidableEq ν]

/-- Put `x` between `p` and `n`. -/
def insert (L : Links ν) (x p n : ν) : Links ν where
  next := update (update L.next x (some n)) p (some x)
  prev := update (update L.prev x (some p)) n (some x)

/-- The links of an empty list. -/
def initListHead (L : Links ν) (head : ν) : Links ν where
  next := update L.next head (some head)
  prev := update L.prev head (some head)

/-- Add `x` at the front. -/
def listAdd (L : Links ν) (x head : ν) : Option (Links ν) :=
  (L.next head).map fun n => L.insert x head n

/-- Add `x` at the end. -/
def listAddTail (L : Links ν) (x head : ν) : Option (Links ν) :=
  (L.prev head).map fun p => L.insert x p head

def listDel (L : Links ν) (x : ν) : Option (Links ν) :=
  (L.prev x).bind fun p => (L.next x).map fun n =>
    { next := update (update L.next p (some n)) x none
      prev := update (update L.prev n (some p)) x none }

def listEmpty (L : Links ν) (head : ν) : Prop := L.next head = some head

instance (L : Links ν) (head : ν) : Decidable (L.listEmpty head) :=
  inferInstanceAs (Decidable (L.next head = some head))

end Operations

/-! ## Paths -/

/-- From `x` through the nodes `l` to `y`, with links in both directions. -/
def Path (L : Links ν) : ν → List ν → ν → Prop
  | x, [], y => L.next x = some y ∧ L.prev y = some x
  | x, z :: l, y => (L.next x = some z ∧ L.prev z = some x) ∧ Path L z l y

variable {L L' : Links ν} {x y : ν} {l : List ν}

theorem path_append {z : ν} {l₁ l₂ : List ν} :
    Path L x (l₁ ++ z :: l₂) y ↔ Path L x l₁ z ∧ Path L z l₂ y := by
  induction l₁ generalizing x with
  | nil => exact Iff.rfl
  | cons b l₁ ih => simp only [cons_append, Path, ih, and_assoc]

section

variable (h : Path L x l y)

include h

theorem Path.next_start : L.next x = some (l.headD y) := by
  cases l with
  | nil => exact h.1
  | cons z l => exact h.1.1

/-- The last node of a path, before its end. -/
theorem Path.prev_end : L.prev y = some (l.getLastD x) := by
  induction l generalizing x with
  | nil => exact h.2
  | cons z l ih =>
    rw [ih h.2, getLastD_cons]

/-- A path only depends on the links of its nodes. -/
theorem Path.frame (hnext : ∀ z ∈ x :: l, L'.next z = L.next z) (hprev : ∀ z ∈ l ++ [y], L'.prev z = L.prev z) :
    Path L' x l y := by
  induction l generalizing x with
  | nil =>
    rw [Path, hnext x mem_cons_self, hprev y (by simp)]
    exact h
  | cons z l ih =>
    refine ⟨?_, ih h.2 (fun w hw => hnext w (mem_cons_of_mem _ hw)) fun w hw => hprev w ?_⟩
    · rw [hnext x mem_cons_self, hprev z (by simp)]
      exact h.1
    · exact mem_cons_of_mem _ hw

end

/-- Replace the nodes `m` in the middle of a path: all other links stay, except those of the two nodes next to
the replaced ones. -/
theorem Path.splice {l₁ m m' l₂ : List ν} (h : Path L x (l₁ ++ m ++ l₂) y) (hstart : (x :: (l₁ ++ l₂)).Nodup)
    (hend : (l₁ ++ l₂ ++ [y]).Nodup) (hmid : Path L' (l₁.getLastD x) m' (l₂.headD y))
    (hnext : ∀ z ∈ x :: (l₁ ++ l₂), z ≠ l₁.getLastD x → L'.next z = L.next z)
    (hprev : ∀ z ∈ l₁ ++ l₂ ++ [y], z ≠ l₂.headD y → L'.prev z = L.prev z) :
    Path L' x (l₁ ++ m' ++ l₂) y := by
  induction l₁ generalizing x with
  | nil =>
    cases l₂ with
    | nil => simpa using hmid
    | cons z l₂ =>
      refine path_append.2 ⟨hmid, (path_append.1 h).2.frame ?_ ?_⟩
      · intro w hw
        apply hnext w (mem_cons_of_mem _ hw)
        rintro rfl
        exact (nodup_cons.1 hstart).1 hw
      · intro w hw
        apply hprev w (mem_cons_of_mem _ hw)
        rintro rfl
        exact (nodup_cons.1 hend).1 hw
  | cons z l₁ ih =>
    rw [getLastD_cons] at hmid hnext
    obtain ⟨hx, hstart'⟩ := nodup_cons.1 hstart
    obtain ⟨hz, hend'⟩ := nodup_cons.1 hend
    refine ⟨?_, ih h.2 hstart' hend' hmid (fun w hw => hnext w (mem_cons_of_mem _ hw)) fun w hw =>
      hprev w (mem_cons_of_mem _ hw)⟩
    have hlast : x ≠ l₁.getLastD z := by
      intro heq
      apply hx
      rw [heq, cons_append, ← cons_append]
      exact mem_append_left _ getLastD_mem_cons
    have hfirst : z ≠ l₂.headD y := by
      intro heq
      apply hz
      rw [heq]
      cases l₂ <;> simp
    rw [hnext x mem_cons_self hlast, hprev z mem_cons_self hfirst]
    exact h.1

/-! ## Rings -/

/-- The links of `head` represent the list `l`. -/
structure Ring (L : Links ν) (head : ν) (l : List ν) : Prop where
  path : Path L head l head
  nodup : (head :: l).Nodup

namespace Ring

variable {L : Links ν} {head : ν} {l : List ν}

theorem head_notMem (h : Ring L head l) : head ∉ l := (nodup_cons.1 h.nodup).1

/-- The node after the head is the first of the list, and the head itself if there is none. -/
theorem next_head (h : Ring L head l) : L.next head = some (l.headD head) := h.path.next_start

theorem listEmpty_iff [DecidableEq ν] (h : Ring L head l) : L.listEmpty head ↔ l = [] := by
  rw [listEmpty, h.next_head, some.injEq]
  cases l with
  | nil => simp
  | cons z l =>
    have hz : z ≠ head := by
      rintro rfl
      exact h.head_notMem mem_cons_self
    simpa using hz

variable {x : ν}

/-- The node after one of the list. -/
theorem next_mem {l₁ l₂ : List ν} (h : Ring L head (l₁ ++ x :: l₂)) : L.next x = some (l₂.headD head) :=
  (path_append.1 h.path).2.next_start

section Splice

variable {p n : ν} {l₁ l₂ : List ν} (hp : l₁.getLastD head = p) (hn : l₂.headD head = n)

include hp hn

/-- The nodes next to a place in the list are the head or nodes of the list. -/
theorem neighbours_mem : p ∈ head :: (l₁ ++ l₂) ∧ n ∈ head :: (l₁ ++ l₂) := by
  subst hp hn
  refine ⟨?_, by cases l₂ <;> simp⟩
  rw [← cons_append]
  exact mem_append_left _ getLastD_mem_cons

/-- Replace the nodes `m` of the list. -/
theorem splice {m m' : List ν} (h : Ring L head (l₁ ++ m ++ l₂)) (hnodup : (head :: (l₁ ++ m' ++ l₂)).Nodup)
    (hmid : Path L' p m' n) (hnext : ∀ z ∈ head :: (l₁ ++ l₂), z ≠ p → L'.next z = L.next z)
    (hprev : ∀ z ∈ head :: (l₁ ++ l₂), z ≠ n → L'.prev z = L.prev z) : Ring L' head (l₁ ++ m' ++ l₂) := by
  subst hp hn
  have hrest : (head :: (l₁ ++ l₂)).Nodup :=
    hnodup.sublist ((append_sublist_append_right l₂).2 (sublist_append_left l₁ m') |>.cons_cons head)
  have hperm : (l₁ ++ l₂ ++ [head]).Perm (head :: (l₁ ++ l₂)) := perm_append_singleton _ _
  exact ⟨h.path.splice hrest (hperm.nodup_iff.2 hrest) hmid hnext fun z hz => hprev z (hperm.subset hz), hnodup⟩

theorem insert [DecidableEq ν] (h : Ring L head (l₁ ++ l₂)) (hx : x ∉ head :: (l₁ ++ l₂)) :
    Ring (L.insert x p n) head (l₁ ++ [x] ++ l₂) := by
  obtain ⟨hpmem, hnmem⟩ := neighbours_mem hp hn
  have hne : ∀ z ∈ head :: (l₁ ++ l₂), z ≠ x := fun z hz heq => hx (heq ▸ hz)
  refine splice hp hn (m := []) (by simpa using h) ?_ ?_ ?_ ?_
  · have hperm : (head :: (l₁ ++ [x] ++ l₂)).Perm (x :: head :: (l₁ ++ l₂)) := by
      rw [append_assoc]
      exact (perm_middle.cons head).trans (Perm.swap x head _)
    exact hperm.nodup_iff.2 (nodup_cons.2 ⟨hx, h.nodup⟩)
  · simp [Path, Links.insert, (hne p hpmem).symm, (hne n hnmem).symm]
  · intro z hz hzp
    simp [Links.insert, hzp, hne z hz]
  · intro z hz hzn
    simp [Links.insert, hzn, hne z hz]

end Splice

variable [DecidableEq ν]

theorem initListHead (L : Links ν) (head : ν) : Ring (L.initListHead head) head [] where
  path := ⟨by simp [Links.initListHead], by simp [Links.initListHead]⟩
  nodup := by simp

theorem listAddTail (h : Ring L head l) (hx : x ∉ head :: l) :
    ∃ L', L.listAddTail x head = some L' ∧ Ring L' head (l ++ [x]) := by
  refine ⟨L.insert x (l.getLastD head) head, ?_, ?_⟩
  · rw [Links.listAddTail, h.path.prev_end, map_some]
  · rw [← append_nil l] at h hx
    simpa using insert rfl rfl h hx

theorem listAdd (h : Ring L head l) (hx : x ∉ head :: l) :
    ∃ L', L.listAdd x head = some L' ∧ Ring L' head (x :: l) := by
  refine ⟨L.insert x head (l.headD head), ?_, insert (getLastD_nil ..) rfl h hx⟩
  rw [Links.listAdd, h.next_head, map_some]

/-- Removing a node of the list leaves the others, and null links in the node. -/
theorem listDel (l₁ : List ν) {l₂ : List ν} (h : Ring L head (l₁ ++ x :: l₂)) :
    ∃ L', L.listDel x = some L' ∧ Ring L' head (l₁ ++ l₂) ∧ L'.next x = none := by
  obtain ⟨hbefore, hafter⟩ := path_append.1 h.path
  have hperm : (head :: (l₁ ++ x :: l₂)).Perm (x :: head :: (l₁ ++ l₂)) :=
    (perm_middle.cons head).trans (Perm.swap x head _)
  obtain ⟨hx, hnodup⟩ := nodup_cons.1 (hperm.nodup_iff.1 h.nodup)
  have hne : ∀ z ∈ head :: (l₁ ++ l₂), z ≠ x := fun z hz heq => hx (heq ▸ hz)
  obtain ⟨p, hp⟩ : ∃ p, l₁.getLastD head = p := ⟨_, rfl⟩
  obtain ⟨n, hn⟩ : ∃ n, l₂.headD head = n := ⟨_, rfl⟩
  obtain ⟨hpmem, hnmem⟩ := neighbours_mem hp hn
  refine ⟨{ next := update (update L.next p (some n)) x none
            prev := update (update L.prev n (some p)) x none }, ?_, ?_, ?_⟩
  · rw [Links.listDel, hbefore.prev_end, bind_some, hafter.next_start, map_some, hp, hn]
  · rw [← append_nil l₁]
    refine splice hp hn (m := [x]) (by simpa using h) (by simpa using hnodup) ?_ ?_ ?_
    · simp [Path, hne p hpmem, hne n hnmem]
    · intro z hz hzp
      simp [hzp, hne z hz]
    · intro z hz hzn
      simp [hzn, hne z hz]
  · simp

end Ring

end Links

end DataSpaces.Lib
