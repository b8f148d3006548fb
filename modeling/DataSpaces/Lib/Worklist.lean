import Mathlib.Data.List.Flatten
import Mathlib.Data.List.Perm.Basic
import Mathlib.Tactic

/-!
# First-in first-out worklists

A worklist loop takes the first item of a queue, appends what `emit` gives for it to the output and
what `expand` gives for it to the queue, and stops on the empty queue. `run` executes the loop with
a bound on the number of items visited.

When the items below the queue form finite trees (`HeightLE`), the loop stops after visiting every
node once, and its output is a permutation of the depth-first output (`run_eq_some_of_heightLE`). When
some item always leaves another one of its kind behind, it never stops (`run_eq_none_of_endless`).
-/

namespace DataSpaces.Lib.Worklist

open List

universe u v

variable {α : Type u} {β : Type v} (emit : α → List β) (expand : α → List α)

/-- The loop, visiting at most `fuel` items; `none` when items are left. -/
def run : Nat → List α → List β → Option (List β)
  | _, [], out => some out
  | 0, _ :: _, _ => none
  | fuel + 1, a :: q, out => run fuel (q ++ expand a) (out ++ emit a)

/-- The queue after one item has been visited. -/
def next : List α → List α
  | [] => []
  | a :: q => q ++ expand a

/-- The tree of items below `a` has at most `r` levels under its root. -/
def HeightLE : Nat → α → Prop
  | 0, a => expand a = []
  | r + 1, a => ∀ b ∈ expand a, HeightLE r b

/-- The items of the tree below `a`, cut at depth `r`, in depth-first order. -/
def nodes : Nat → α → List α
  | 0, a => [a]
  | r + 1, a => a :: (expand a).flatMap (nodes r)

/-- What the items of the tree below `a` emit. -/
def treeOutput (r : Nat) (a : α) : List β := (nodes expand r a).flatMap emit

variable {emit expand} {r : Nat} {a : α}

theorem HeightLE.succ : ∀ {a : α}, HeightLE expand r a → HeightLE expand (r + 1) a := by
  induction r with
  | zero =>
    intro a h b hb
    rw [HeightLE] at h
    rw [h] at hb
    exact absurd hb not_mem_nil
  | succ r ih =>
    intro a h b hb
    exact ih (h b hb)

theorem nodes_succ_of_heightLE :
    ∀ {a : α}, HeightLE expand r a → nodes expand (r + 1) a = nodes expand r a := by
  induction r with
  | zero =>
    intro a h
    rw [HeightLE] at h
    simp [nodes, h]
  | succ r ih =>
    intro a h
    have hsame : (expand a).flatMap (nodes expand (r + 1)) = (expand a).flatMap (nodes expand r) :=
      flatMap_congr fun b hb => ih (h b hb)
    rw [nodes, hsame, nodes]

/-- A node list is its root followed by the node lists of the children, at the same depth. -/
theorem nodes_eq_cons (h : HeightLE expand r a) :
    nodes expand r a = a :: (expand a).flatMap (nodes expand r) := by
  cases r with
  | zero =>
    rw [HeightLE] at h
    simp [nodes, h]
  | succ r =>
    rw [nodes]
    congr 1
    exact flatMap_congr fun b hb => (nodes_succ_of_heightLE (h b hb)).symm

theorem HeightLE.child {b : α} (h : HeightLE expand r a) (hb : b ∈ expand a) : HeightLE expand r b := by
  cases r with
  | zero =>
    rw [HeightLE] at h
    rw [h] at hb
    exact absurd hb not_mem_nil
  | succ r => exact (h b hb).succ

theorem treeOutput_succ (r : Nat) (a : α) :
    treeOutput emit expand (r + 1) a = emit a ++ (expand a).flatMap (treeOutput emit expand r) := by
  rw [treeOutput, nodes, flatMap_cons, flatMap_assoc]
  rfl

/-- With enough fuel the loop visits every node below the queue and emits, up to order, what the
trees emit. The induction is on the fuel; one visit moves the root of the first tree out and its
subtrees to the end of the queue. -/
theorem run_eq_some_of_heightLE (emit : α → List β) (expand : α → List α) :
    ∀ (fuel : Nat) (q : List α) (out : List β),
      (∀ a ∈ q, HeightLE expand r a) → (q.flatMap (nodes expand r)).length ≤ fuel →
      ∃ o, run emit expand fuel q out = some (out ++ o) ∧ o.Perm (q.flatMap (treeOutput emit expand r)) := by
  intro fuel
  induction fuel with
  | zero =>
    intro q out hq hlen
    cases q with
    | nil => exact ⟨[], by simp [run], Perm.nil⟩
    | cons a q =>
      rw [flatMap_cons, length_append, nodes_eq_cons (hq a mem_cons_self)] at hlen
      simp at hlen
  -- One step takes one node off the queue, so the nodes that are left bound the steps that are left.
  | succ fuel ih =>
    intro q out hq hlen
    cases q with
    | nil => exact ⟨[], by simp [run], Perm.nil⟩
    | cons a q =>
      have ha := hq a mem_cons_self
      have hnodes := nodes_eq_cons ha
      have hq' : ∀ b ∈ q ++ expand a, HeightLE expand r b := by
        intro b hb
        rcases mem_append.1 hb with hb | hb
        · exact hq b (mem_cons_of_mem _ hb)
        · exact ha.child hb
      have hlen' : ((q ++ expand a).flatMap (nodes expand r)).length ≤ fuel := by
        rw [flatMap_cons, length_append, hnodes, length_cons] at hlen
        rw [flatMap_append, length_append]
        omega
      obtain ⟨o, hrun, hperm⟩ := ih (q ++ expand a) (out ++ emit a) hq' hlen'
      refine ⟨emit a ++ o, by rw [run, hrun, append_assoc], ?_⟩
      have htree : treeOutput emit expand r a = emit a ++ (expand a).flatMap (treeOutput emit expand r) := by
        unfold treeOutput
        rw [hnodes, flatMap_cons, flatMap_assoc]
      rw [flatMap_cons, htree, append_assoc]
      refine Perm.append_left _ (hperm.trans ?_)
      rw [flatMap_append]
      exact perm_append_comm

/-- A queue with an item that always leaves another such item behind is never empty. -/
theorem run_eq_none_of_endless (emit : α → List β) {I : α → Prop}
    (hstep : ∀ a, I a → ∃ b ∈ expand a, I b) : ∀ (fuel : Nat) (q : List α) (out : List β),
      (∃ a ∈ q, I a) → run emit expand fuel q out = none := by
  intro fuel
  induction fuel with
  | zero =>
    rintro q out ⟨a, ha, -⟩
    cases q with
    | nil => cases ha
    | cons b q => rfl
  | succ fuel ih =>
    rintro q out ⟨a, ha, hI⟩
    cases q with
    | nil => cases ha
    | cons b q =>
      apply ih
      rcases mem_cons.1 ha with rfl | ha
      · obtain ⟨c, hc, hIc⟩ := hstep a hI
        exact ⟨c, mem_append_right _ hc, hIc⟩
      · exact ⟨a, mem_append_left _ ha, hI⟩

end DataSpaces.Lib.Worklist
