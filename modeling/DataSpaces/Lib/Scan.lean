import Mathlib.Tactic

/-!
# Scans for the least item

A scan goes through a list and remembers the item with the smallest key among those that pass a test. If
the key of an item that it takes over is at most `limit`, the scan ends with that item. The result is the
least item of the whole list if the keys up to `limit` occur in increasing order (`scanLeast_isBest`): then
no later item can be smaller than the one at which the scan ends.
-/

namespace DataSpaces.Lib

open List

variable {α : Type*}

/-- The result is an item with the property that is related to all others, or nothing if there is none. -/
structure IsBest (P : α → Prop) (r : α → α → Prop) (res : Option α) : Prop where
  best : ∀ x, res = some x → P x ∧ ∀ y, P y → r x y
  none_iff : res = none ↔ ∀ y, ¬ P y

namespace IsBest

variable {P Q : α → Prop} {r : α → α → Prop} {x : α}

theorem of_some (hx : P x) (h : ∀ y, P y → r x y) : IsBest P r (some x) where
  best y hy := by
    rw [Option.some.injEq] at hy
    exact hy ▸ ⟨hx, h⟩
  none_iff := iff_of_false (Option.some_ne_none x) fun hnone => hnone x hx

theorem of_none (h : ∀ y, ¬ P y) : IsBest P r none where
  best x hx := absurd hx.symm (Option.some_ne_none x)
  none_iff := iff_of_true rfl h

theorem congr {res : Option α} (h : IsBest P r res) (hPQ : ∀ y, P y ↔ Q y) : IsBest Q r res := by
  rwa [show Q = P from funext fun y => propext (hPQ y).symm]

end IsBest

section Scan

variable (test : α → Bool) (key : α → Nat) (limit : Nat)

/-- The scan; the state is the item found last and the bound that the next one has to stay below. It ends
early with `Except.error`. -/
def scanLeast : List α → Option α × Nat → Except α (Option α × Nat)
  | [], st => .ok st
  | x :: rest, st =>
    if test x = true ∧ key x < st.2 then
      if key x ≤ limit then .error x else scanLeast rest (some x, key x)
    else scanLeast rest st

/-- The item that a scan gives. -/
def scanResult : Except α (Option α × Nat) → Option α
  | .error x => some x
  | .ok st => st.1

theorem scanLeast_append (l l' : List α) (st : Option α × Nat) : scanLeast test key limit (l ++ l') st =
      (scanLeast test key limit l st).bind fun st' => scanLeast test key limit l' st' := by
  induction l generalizing st with
  | nil => rfl
  | cons x l ih =>
    rw [cons_append, scanLeast, scanLeast]
    split
    · split
      · rfl
      · exact ih _
    · exact ih _

variable {test key limit}

/-- What the state says about the items that were visited: none of them passes the test, or the state holds
the least one, which did not end the scan. -/
def ScanInv (test : α → Bool) (key : α → Nat) (limit top : Nat) (seen : List α) (st : Option α × Nat) :
    Prop :=
  (st = (none, top) ∧ ∀ y ∈ seen, test y = false) ∨
    ∃ x ∈ seen, st = (some x, key x) ∧ test x = true ∧ limit < key x ∧
      ∀ y ∈ seen, test y = true → key x ≤ key y

namespace ScanInv

variable {top : Nat} {seen : List α} {st : Option α × Nat} {x : α} (h : ScanInv test key limit top seen st)

include h

/-- At the end the state has the answer. -/
theorem isBest : IsBest (fun y => y ∈ seen ∧ test y = true) (fun x y => key x ≤ key y) st.1 := by
  rcases h with ⟨rfl, hnone⟩ | ⟨x, hx, rfl, htest, -, hleast⟩
  · exact IsBest.of_none fun y hy => Bool.false_ne_true ((hnone y hy.1).symm.trans hy.2)
  · exact IsBest.of_some ⟨hx, htest⟩ fun y hy => hleast y hy.1 hy.2

/-- An item below the bound is below what was visited before. -/
theorem le_of_lt (hlt : key x < st.2) : ∀ y ∈ seen, test y = true → key x ≤ key y := by
  intro y hy htest
  rcases h with ⟨-, hnone⟩ | ⟨z, -, rfl, -, -, hleast⟩
  · exact absurd htest (Bool.eq_false_iff.1 (hnone y hy))
  · exact Nat.le_of_lt (Nat.lt_of_lt_of_le hlt (hleast y hy htest))

theorem take (htest : test x = true) (hlt : key x < st.2) (hlimit : limit < key x) :
    ScanInv test key limit top (seen ++ [x]) (some x, key x) := by
  refine Or.inr ⟨x, by simp, rfl, htest, hlimit, fun y hy hy' => ?_⟩
  rcases mem_append.1 hy with hy | hy
  · exact h.le_of_lt hlt y hy hy'
  · rw [mem_singleton.1 hy]

theorem skip (hskip : ¬ (test x = true ∧ key x < st.2)) (hbound : test x = true → key x < top) :
    ScanInv test key limit top (seen ++ [x]) st := by
  rcases h with ⟨rfl, hnone⟩ | ⟨z, hz, rfl, htest, hlimit, hleast⟩
  · refine Or.inl ⟨rfl, fun y hy => ?_⟩
    rcases mem_append.1 hy with hy | hy
    · exact hnone y hy
    · rw [mem_singleton.1 hy, ← Bool.not_eq_true]
      exact fun htest => hskip ⟨htest, hbound htest⟩
  · refine Or.inr ⟨z, mem_append_left _ hz, rfl, htest, hlimit, fun y hy hy' => ?_⟩
    rcases mem_append.1 hy with hy | hy
    · exact hleast y hy hy'
    · rw [mem_singleton.1 hy] at hy' ⊢
      exact Nat.le_of_not_lt fun hlt => hskip ⟨hy', hlt⟩

/-- An item up to the limit ends the scan: it is below what was visited, and what is left is above the limit
or comes later in the order. -/
theorem isBest_stop {l : List α} (htest : test x = true) (hlt : key x < st.2) (hlimit : key x ≤ limit)
    (hsorted : ∀ y ∈ l, test x = true → test y = true → key x ≤ limit → key y ≤ limit → key x ≤ key y) :
    IsBest (fun y => y ∈ seen ++ x :: l ∧ test y = true) (fun x y => key x ≤ key y) (some x) := by
  refine IsBest.of_some ⟨by simp, htest⟩ fun y hy => ?_
  rcases mem_append.1 hy.1 with hy' | hy'
  · exact h.le_of_lt hlt y hy' hy.2
  · rcases mem_cons.1 hy' with rfl | hy'
    · exact Nat.le_refl _
    · by_cases hylimit : key y ≤ limit
      · exact hsorted y hy' htest hy.2 hlimit hylimit
      · omega

end ScanInv

/-- The rest of a scan. The induction is on what is left; `seen` is what was visited before. -/
theorem scanLeast_isBest_of_inv {top : Nat} (l seen : List α) (st : Option α × Nat)
    (hinv : ScanInv test key limit top seen st) (htop : ∀ y ∈ seen ++ l, test y = true → key y < top)
    (hsorted : (seen ++ l).Pairwise fun x y =>
      test x = true → test y = true → key x ≤ limit → key y ≤ limit → key x ≤ key y) :
    IsBest (fun y => y ∈ seen ++ l ∧ test y = true) (fun x y => key x ≤ key y)
      (scanResult (scanLeast test key limit l st)) := by
  induction l generalizing seen st with
  | nil =>
    rw [append_nil]
    exact hinv.isBest
  | cons x l ih =>
    have happend : seen ++ x :: l = seen ++ [x] ++ l := by rw [append_assoc, singleton_append]
    rw [scanLeast]
    by_cases htake : test x = true ∧ key x < st.2
    · rw [if_pos htake]
      by_cases hlimit : key x ≤ limit
      · rw [if_pos hlimit]
        exact hinv.isBest_stop htake.1 htake.2 hlimit (pairwise_cons.1 (pairwise_append.1 hsorted).2.1).1
      · rw [if_neg hlimit]
        rw [happend] at htop hsorted ⊢
        exact ih (seen ++ [x]) _ (hinv.take htake.1 htake.2 (Nat.lt_of_not_le hlimit)) htop hsorted
    · rw [if_neg htake]
      have hbound := htop x (by simp)
      rw [happend] at htop hsorted ⊢
      exact ih (seen ++ [x]) st (hinv.skip htake hbound) htop hsorted

/-- A scan finds the least item that passes the test, if the keys are below the start value and those up to
the limit occur in increasing order. -/
theorem scanLeast_isBest {top : Nat} {l : List α} (htop : ∀ y ∈ l, test y = true → key y < top)
    (hsorted : l.Pairwise fun x y =>
      test x = true → test y = true → key x ≤ limit → key y ≤ limit → key x ≤ key y) :
    IsBest (fun y => y ∈ l ∧ test y = true) (fun x y => key x ≤ key y)
      (scanResult (scanLeast test key limit l (none, top))) :=
  scanLeast_isBest_of_inv l [] (none, top) (Or.inl ⟨rfl, fun _ hy => absurd hy not_mem_nil⟩) htop hsorted

end Scan

end DataSpaces.Lib
