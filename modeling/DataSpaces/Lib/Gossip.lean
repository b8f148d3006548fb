import Mathlib.Algebra.BigOperators.Fin
import DataSpaces.Lib.Runs

/-!
# Barriers by rounds of notifications

Every party goes through the rounds of a fixed pattern: in each of them it notifies one other party and
waits for one. `Pattern` says who notifies whom, and that after all rounds every party has heard of every
other one, directly or through others. A notification carries the number of the barrier in which it is
sent, and a party goes on when the last number it has from the one it waits for is its own or the next.

Numbers are unbounded here. `Inv` relates the parties' positions, the tables and what is under way. From it
follow that nobody leaves a barrier before everybody has entered it (`returned_le_count`), that inside a
barrier which all have entered somebody can go on (`exists_step`), and that only so many steps are possible
before a given party leaves (`length_le_of_returned_lt`). `tab_window` says that a party waiting in its
barrier only ever looks at one of three consecutive numbers.
-/

namespace DataSpaces.Lib.Gossip

open Function Finset

variable {P : Type*}

/-- Who has been heard of after some rounds. -/
def Heard (prev : Nat → P → P) : Nat → P → P → Prop
  | 0, i, j => j = i
  | r + 1, i, j => Heard prev r i j ∨ Heard prev r (prev r i) j

theorem Heard.mono {prev : Nat → P → P} {r r' : Nat} (hle : r ≤ r') {i j : P} (h : Heard prev r i j) :
    Heard prev r' i j := by
  induction r', hle using Nat.le_induction with
  | base => exact h
  | succ r' _ ih => exact Or.inl ih

/-- Who notifies whom in which round. -/
structure Pattern (P : Type*) where
  rounds : Nat
  next : Nat → P → P
  prev : Nat → P → P
  prev_next : ∀ r < rounds, ∀ i, prev r (next r i) = i
  next_prev : ∀ r < rounds, ∀ i, next r (prev r i) = i
  covers : ∀ i j, Heard prev rounds i j

/-- Where a party is: outside, or about to notify, or waiting. -/
inductive Pc where
  | idle
  | sending (r : Nat)
  | waiting (r : Nat)
deriving DecidableEq, Repr

structure State (P : Type*) where
  /-- barriers entered -/
  count : P → Nat
  pc : P → Pc
  /-- the last number from the party that is waited for in a round -/
  tab : P → Nat → Nat
  /-- numbers under way to a party, from the one it waits for in a round -/
  wire : P → Nat → List Nat

inductive Act (P : Type*) where
  | call (i : P)
  | send (i : P)
  | deliver (i : P) (r : Nat)
  | test (i : P)

section Machine

variable [DecidableEq P] (pat : Pattern P)

def set2 {β : Type*} (f : P → Nat → β) (i : P) (r : Nat) (b : β) : P → Nat → β :=
  fun i' r' => if i' = i ∧ r' = r then b else f i' r'

/-- The position after so many rounds. -/
def Pattern.after (r : Nat) : Pc := if r < pat.rounds then .sending r else .idle

def start : State P where
  count := fun _ => 0
  pc := fun _ => .idle
  tab := fun _ _ => 0
  wire := fun _ _ => []

/-- A party enters its next barrier. -/
def State.call (s : State P) (i : P) : State P :=
  { s with count := update s.count i (s.count i + 1), pc := update s.pc i (pat.after 0) }

def State.send (s : State P) (i : P) (r : Nat) : State P :=
  { s with wire := set2 s.wire (pat.next r i) r (s.wire (pat.next r i) r ++ [s.count i]),
           pc := update s.pc i (.waiting r) }

omit pat in
@[simps]
def State.deliver (s : State P) (i : P) (r m : Nat) (rest : List Nat) : State P :=
  { s with wire := set2 s.wire i r rest, tab := set2 s.tab i r m }

/-- A party passes a round. -/
def State.pass (s : State P) (i : P) (r : Nat) : State P :=
  { s with pc := update s.pc i (pat.after (r + 1)) }

def step (s : State P) : Act P → Option (State P)
  | .call i => if s.pc i = .idle then some (s.call pat i) else none
  | .send i =>
    match s.pc i with
    | .sending r => some (s.send pat i r)
    | _ => none
  | .deliver i r =>
    match s.wire i r with
    | m :: rest => if r < pat.rounds then some (s.deliver i r m rest) else none
    | [] => none
  | .test i =>
    match s.pc i with
    | .waiting r =>
      if s.tab i r = s.count i ∨ s.tab i r = s.count i + 1 then some (s.pass pat i r) else none
    | _ => none

end Machine

@[simp] theorem set2_self [DecidableEq P] {β : Type*} (f : P → Nat → β) (i : P) (r : Nat) (b : β) :
    set2 f i r b i r = b := if_pos ⟨rfl, rfl⟩

theorem set2_of_ne [DecidableEq P] {β : Type*} (f : P → Nat → β) {i i' : P} {r r' : Nat} (b : β)
    (h : ¬ (i' = i ∧ r' = r)) : set2 f i r b i' r' = f i' r' := if_neg h

/-! ## Positions -/

section

variable (pat : Pattern P)

/-- The rounds that a party has completed in its last barrier. -/
def Pattern.passed : Pc → Nat
  | .idle => pat.rounds
  | .sending r => r
  | .waiting r => r

/-- The rounds in which it has notified. -/
def Pattern.sent : Pc → Nat
  | .idle => pat.rounds
  | .sending r => r
  | .waiting r => r + 1

/-- The barriers that a party has left. -/
def State.returned (s : State P) (i : P) : Nat := if s.pc i = .idle then s.count i else s.count i - 1

/-- The last number that a party has sent in a round. -/
def lastSent (s : State P) (p : P) (r : Nat) : Nat :=
  if r < pat.sent (s.pc p) then s.count p else s.count p - 1

/-- The last barrier in which a party has passed a round. -/
def lastPassed (s : State P) (i : P) (r : Nat) : Nat :=
  if r < pat.passed (s.pc i) then s.count i else s.count i - 1

variable {pat}

@[simp] theorem passed_idle : pat.passed .idle = pat.rounds := rfl

@[simp] theorem passed_sending (r : Nat) : pat.passed (.sending r) = r := rfl

@[simp] theorem passed_waiting (r : Nat) : pat.passed (.waiting r) = r := rfl

@[simp] theorem sent_idle : pat.sent .idle = pat.rounds := rfl

@[simp] theorem sent_sending (r : Nat) : pat.sent (.sending r) = r := rfl

@[simp] theorem sent_waiting (r : Nat) : pat.sent (.waiting r) = r + 1 := rfl

variable {r : Nat}

theorem lt_rounds_of_after_ne_idle (h : pat.after r ≠ .idle) : r < pat.rounds := by
  by_contra hge
  exact h (if_neg hge)

theorem passed_after (h : r ≤ pat.rounds) : pat.passed (pat.after r) = r := by
  unfold Pattern.after
  split
  · rfl
  · exact le_antisymm (by rw [passed_idle]; omega) h

theorem sent_after (h : r ≤ pat.rounds) : pat.sent (pat.after r) = r := by
  unfold Pattern.after
  split
  · rfl
  · exact le_antisymm (by rw [sent_idle]; omega) h

theorem sent_le_passed (pat : Pattern P) (pc : Pc) : pat.sent pc ≤ pat.passed pc + 1 := by
  cases pc <;> simp

theorem lastSent_le_count (s : State P) (p : P) (r : Nat) : lastSent pat s p r ≤ s.count p := by
  unfold lastSent
  split <;> omega

theorem count_le_lastSent_add_one (pat : Pattern P) (s : State P) (p : P) (r : Nat) :
    s.count p ≤ lastSent pat s p r + 1 := by
  unfold lastSent
  split <;> omega

end

/-! ## The invariant -/

/-- Positions, tables and numbers under way. -/
structure Inv (pat : Pattern P) (s : State P) : Prop where
  inside : ∀ i, s.pc i ≠ .idle → pat.passed (s.pc i) < pat.rounds ∧ 0 < s.count i
  /-- what is under way are the numbers after the one in the table, up to the last one sent -/
  under_way : ∀ i, ∀ r < pat.rounds, s.tab i r ≤ lastSent pat s (pat.prev r i) r ∧
    s.wire i r = List.range' (s.tab i r + 1) (lastSent pat s (pat.prev r i) r - s.tab i r)
  /-- a round that has been passed was passed on such a number -/
  passed_le_tab : ∀ i, ∀ r < pat.rounds, lastPassed pat s i r ≤ s.tab i r
  heard : ∀ i j, Heard pat.prev (pat.passed (s.pc i)) i j → s.count i ≤ s.count j
  near : ∀ i j, s.count i ≤ s.count j + 1

theorem inv_start (pat : Pattern P) : Inv pat (start : State P) where
  inside i h := absurd rfl h
  under_way i r _ := by simp [start, lastSent]
  passed_le_tab i r _ := by simp [start, lastPassed]
  heard i j _ := le_rfl
  near i j := Nat.zero_le _

namespace Inv

variable {pat : Pattern P} {s : State P} {i : P} {r : Nat} (h : Inv pat s)

include h

theorem sending_lt (hi : s.pc i = .sending r) : r < pat.rounds := by
  simpa [hi] using (h.inside i (by simp [hi])).1

theorem waiting_lt (hi : s.pc i = .waiting r) : r < pat.rounds := by
  simpa [hi] using (h.inside i (by simp [hi])).1

/-- A party outside has seen that all have entered its last barrier. -/
theorem count_le_of_idle (hi : s.pc i = .idle) (j : P) : s.count i ≤ s.count j := by
  apply h.heard i j
  rw [hi]
  exact pat.covers i j

/-- Nobody has left a barrier that somebody has not entered. -/
theorem returned_le_count (i j : P) : s.returned i ≤ s.count j := by
  unfold State.returned
  split
  · next hidle => exact h.count_le_of_idle hidle j
  · have := h.near i j
    omega

/-- A waiting party looks at its own number, the one before or the one after. -/
theorem tab_window (hi : s.pc i = .waiting r) : s.count i ≤ s.tab i r + 1 ∧ s.tab i r ≤ s.count i + 1 := by
  have hr := h.waiting_lt hi
  have hlow := h.passed_le_tab i r hr
  have hhigh := (h.under_way i r hr).1.trans (lastSent_le_count s _ r)
  have hnear := h.near (pat.prev r i) i
  unfold lastPassed at hlow
  split at hlow <;> omega

/-- Passing a round: the party that was waited for has heard what it should have, in this barrier or
because it has left it. -/
theorem heard_prev (hi : s.pc i = .waiting r) (htab : s.count i ≤ s.tab i r) {j : P}
    (hj : Heard pat.prev r (pat.prev r i) j) : s.count i ≤ s.count j := by
  have hr := h.waiting_lt hi
  have hle := htab.trans (h.under_way i r hr).1
  unfold lastSent at hle
  split at hle
  next hsent =>
    have hpassed := sent_le_passed pat (s.pc (pat.prev r i))
    have hcount := h.heard _ j (hj.mono (by omega))
    omega
  next =>
    have hpos := (h.inside i (by rw [hi]; simp)).2
    have hnear := h.near (pat.prev r i) j
    omega

/-- The first number under way is the one after that in the table. -/
theorem wire_cons {m : Nat} {rest : List Nat} (hr : r < pat.rounds) (hwire : s.wire i r = m :: rest) :
    m = s.tab i r + 1 ∧ m ≤ lastSent pat s (pat.prev r i) r ∧
      rest = List.range' (m + 1) (lastSent pat s (pat.prev r i) r - m) := by
  have heq := (h.under_way i r hr).2
  rw [hwire] at heq
  cases hlen : lastSent pat s (pat.prev r i) r - s.tab i r with
  | zero => simp [hlen] at heq
  | succ len =>
    rw [hlen, List.range'_succ, List.cons.injEq] at heq
    obtain ⟨rfl, rfl⟩ := heq
    refine ⟨rfl, by omega, ?_⟩
    congr 1
    omega

end Inv

/-! ## Steps -/

section

variable [DecidableEq P] {pat : Pattern P} {s s' : State P}

/-- What a step does. -/
inductive Trans (pat : Pattern P) (s : State P) : State P → Prop where
  | call (i : P) (hpc : s.pc i = .idle) : Trans pat s (s.call pat i)
  | send (i : P) (r : Nat) (hpc : s.pc i = .sending r) : Trans pat s (s.send pat i r)
  | deliver (i : P) (r m : Nat) (rest : List Nat) (hr : r < pat.rounds) (hwire : s.wire i r = m :: rest) :
      Trans pat s (s.deliver i r m rest)
  | pass (i : P) (r : Nat) (hpc : s.pc i = .waiting r)
      (htab : s.tab i r = s.count i ∨ s.tab i r = s.count i + 1) : Trans pat s (s.pass pat i r)

theorem trans_of_step {a : Act P} (h : step pat s a = some s') : Trans pat s s' := by
  cases a with
  | call i =>
    simp only [step] at h
    split at h
    next hpc =>
      cases h
      exact .call i hpc
    · cases h
  | send i =>
    simp only [step] at h
    split at h
    next r hpc =>
      cases h
      exact .send i r hpc
    · cases h
  | deliver i r =>
    simp only [step] at h
    split at h
    next m rest hwire =>
      split at h
      next hr =>
        cases h
        exact .deliver i r m rest hr hwire
      · cases h
    · cases h
  | test i =>
    simp only [step] at h
    split at h
    next r hpc =>
      split at h
      next htab =>
        cases h
        exact .pass i r hpc htab
      · cases h
    · cases h

variable {i : P} {r : Nat}

theorem lastSent_call (hpc : s.pc i = .idle) (p : P) (hr : r < pat.rounds) :
    lastSent pat (s.call pat i) p r = lastSent pat s p r := by
  by_cases hp : p = i
  · have hsent : pat.sent (pat.after 0) = 0 := sent_after (Nat.zero_le _)
    simp [lastSent, State.call, hp, hsent, hpc, hr]
  · simp [lastSent, State.call, hp]

theorem Inv.call (h : Inv pat s) (hpc : s.pc i = .idle) : Inv pat (s.call pat i) where
  inside j hj := by
    by_cases hji : j = i
    · simp only [State.call, hji, update_self] at hj ⊢
      rw [passed_after (Nat.zero_le _)]
      exact ⟨lt_rounds_of_after_ne_idle hj, Nat.succ_pos _⟩
    · simp only [State.call, update_of_ne hji] at hj ⊢
      exact h.inside j hj
  under_way j r hr := by
    rw [lastSent_call hpc _ hr]
    exact h.under_way j r hr
  passed_le_tab j r hr := by
    have htab := h.passed_le_tab j r hr
    by_cases hji : j = i
    · subst hji
      simp only [lastPassed, hpc, passed_idle, if_pos hr] at htab
      simpa [lastPassed, State.call, passed_after (Nat.zero_le _)] using htab
    · simpa [lastPassed, State.call, hji] using htab
  heard j j' hj := by
    by_cases hji : j = i
    · subst hji
      simp only [State.call, update_self, passed_after (Nat.zero_le _)] at hj ⊢
      cases hj
      simp
    · have hle : s.count j ≤ s.count j' := h.heard j j' (by simpa [State.call, hji] using hj)
      by_cases hji' : j' = i
      · simp only [State.call, update_of_ne hji, hji', update_self]
        rw [hji'] at hle
        omega
      · simpa [State.call, hji, hji'] using hle
  near j j' := by
    have hidle := h.count_le_of_idle hpc j'
    have hnear := h.near j j'
    by_cases hji : j = i
    · by_cases hji' : j' = i
      · simp [State.call, hji, hji']
      · simp only [State.call, hji, update_self, update_of_ne hji']
        omega
    · by_cases hji' : j' = i
      · simp only [State.call, hji', update_self, update_of_ne hji]
        rw [hji'] at hnear
        omega
      · simpa [State.call, hji, hji'] using hnear

theorem lastSent_send (hpc : s.pc i = .sending r) {j : P} {r' : Nat} (hr' : r' < pat.rounds)
    (hne : ¬ (j = pat.next r i ∧ r' = r)) :
    lastSent pat (s.send pat i r) (pat.prev r' j) r' = lastSent pat s (pat.prev r' j) r' := by
  by_cases hp : pat.prev r' j = i
  · -- the round is another one, for this one leads to the party that is notified
    have hround : r' ≠ r := by
      intro heq
      apply hne
      rw [← hp, heq, pat.next_prev r (heq ▸ hr')]
      exact ⟨rfl, rfl⟩
    have hiff : r' < r + 1 ↔ r' < r := by omega
    simp [lastSent, State.send, hp, hpc, hiff]
  · simp [lastSent, State.send, hp]

theorem Inv.send (h : Inv pat s) (hpc : s.pc i = .sending r) : Inv pat (s.send pat i r) where
  inside j hj := by
    by_cases hji : j = i
    · simpa [State.send, hji] using And.intro (h.sending_lt hpc) (h.inside i (by simp [hpc])).2
    · simp only [State.send, update_of_ne hji] at hj ⊢
      exact h.inside j hj
  under_way j r' hr' := by
    have hold := h.under_way j r' hr'
    by_cases hnew : j = pat.next r i ∧ r' = r
    · obtain ⟨rfl, rfl⟩ := hnew
      have hpos := (h.inside i (by simp [hpc])).2
      have hlast : lastSent pat s i r' = s.count i - 1 := by simp [lastSent, hpc]
      have hnow : lastSent pat (s.send pat i r') i r' = s.count i := by simp [lastSent, State.send]
      rw [pat.prev_next r' hr', hlast] at hold
      rw [pat.prev_next r' hr', hnow]
      simp only [State.send, set2_self, hold.2]
      -- the new number is the one after the last one under way
      have hlen : s.count i - s.tab (pat.next r' i) r' = s.count i - 1 - s.tab (pat.next r' i) r' + 1 := by
        omega
      rw [hlen, List.range'_1_concat]
      refine ⟨by omega, ?_⟩
      congr 2
      omega
    · rw [lastSent_send hpc hr' hnew]
      simpa [State.send, set2_of_ne _ _ hnew] using hold
  passed_le_tab j r' hr' := by
    have htab := h.passed_le_tab j r' hr'
    by_cases hji : j = i
    · subst hji
      simpa [lastPassed, State.send, hpc] using htab
    · simpa [lastPassed, State.send, hji] using htab
  heard j j' hj := by
    apply h.heard j j'
    by_cases hji : j = i
    · subst hji
      simpa [State.send, hpc] using hj
    · simpa [State.send, hji] using hj
  near j j' := h.near j j'

@[simp] theorem lastPassed_deliver (i : P) (r m : Nat) (rest : List Nat) :
    lastPassed pat (s.deliver i r m rest) = lastPassed pat s := rfl

@[simp] theorem lastSent_deliver (i : P) (r m : Nat) (rest : List Nat) :
    lastSent pat (s.deliver i r m rest) = lastSent pat s := rfl

section

variable (h : Inv pat s)

include h

theorem Inv.deliver {m : Nat} {rest : List Nat} (hr : r < pat.rounds) (hwire : s.wire i r = m :: rest) :
    Inv pat (s.deliver i r m rest) where
  inside := h.inside
  under_way j r' hr' := by
    obtain ⟨-, hle, hrest⟩ := h.wire_cons hr hwire
    by_cases hnew : j = i ∧ r' = r
    · obtain ⟨rfl, rfl⟩ := hnew
      simpa using And.intro hle hrest
    · simpa [set2_of_ne _ _ hnew] using h.under_way j r' hr'
  passed_le_tab j r' hr' := by
    obtain ⟨hm, -, -⟩ := h.wire_cons hr hwire
    have htab := h.passed_le_tab j r' hr'
    by_cases hnew : j = i ∧ r' = r
    · obtain ⟨rfl, rfl⟩ := hnew
      simp only [lastPassed_deliver, State.deliver_tab, set2_self]
      omega
    · simpa [set2_of_ne _ _ hnew] using htab
  heard := h.heard
  near := h.near

theorem lastSent_pass (hpc : s.pc i = .waiting r) (p : P) (r' : Nat) :
    lastSent pat (s.pass pat i r) p r' = lastSent pat s p r' := by
  by_cases hp : p = i
  · have hsent : pat.sent (pat.after (r + 1)) = r + 1 := sent_after (h.waiting_lt hpc)
    simp [lastSent, State.pass, hp, hsent, hpc]
  · simp [lastSent, State.pass, hp]

theorem Inv.pass (hpc : s.pc i = .waiting r) (htab : s.tab i r = s.count i ∨ s.tab i r = s.count i + 1) :
    Inv pat (s.pass pat i r) where
  inside j hj := by
    by_cases hji : j = i
    · simp only [State.pass, hji, update_self] at hj ⊢
      rw [passed_after (h.waiting_lt hpc)]
      exact ⟨lt_rounds_of_after_ne_idle hj, (h.inside i (by simp [hpc])).2⟩
    · simp only [State.pass, update_of_ne hji] at hj ⊢
      exact h.inside j hj
  under_way j r' hr' := by
    rw [lastSent_pass h hpc]
    exact h.under_way j r' hr'
  passed_le_tab j r' hr' := by
    have hold := h.passed_le_tab j r' hr'
    by_cases hji : j = i
    · subst hji
      simp only [lastPassed, State.pass, update_self, passed_after (h.waiting_lt hpc)]
      by_cases hround : r' = r
      · subst hround
        split <;> omega
      · have hiff : r' < r + 1 ↔ r' < r := by omega
        simpa [lastPassed, hpc, hiff] using hold
    · simpa [lastPassed, State.pass, hji] using hold
  heard j j' hj := by
    by_cases hji : j = i
    · subst hji
      simp only [State.pass, update_self, passed_after (h.waiting_lt hpc)] at hj
      rcases hj with hj | hj
      · exact h.heard j j' (by simpa [hpc] using hj)
      · exact h.heard_prev hpc (by omega) hj
    · exact h.heard j j' (by simpa [State.pass, hji] using hj)
  near := h.near

theorem Inv.step {a : Act P} (hstep : Gossip.step pat s a = some s') : Inv pat s' := by
  cases trans_of_step hstep with
  | call i hpc => exact h.call hpc
  | send i r hpc => exact h.send hpc
  | deliver i r m rest hr hwire => exact h.deliver hr hwire
  | pass i r hpc htab => exact h.pass hpc htab

end

/-- The steps of a party inside a barrier; it takes notifications while it waits. -/
def Inside (s : State P) : Act P → Prop
  | .call _ => False
  | .send i => s.pc i ≠ .idle
  | .deliver i _ => ∃ r, s.pc i = .waiting r
  | .test i => s.pc i ≠ .idle

/-- If all have entered the barrier in which a party is, somebody inside can go on: one who has to notify,
or the one with the fewest rounds among those that wait in this barrier. -/
theorem Inv.exists_step (h : Inv pat s) (hi : s.pc i ≠ .idle) (hall : ∀ j, s.count i ≤ s.count j) :
    ∃ a s', Inside s a ∧ Gossip.step pat s a = some s' := by
  by_cases hsend : ∃ j r, s.pc j = .sending r
  · obtain ⟨j, r, hj⟩ := hsend
    exact ⟨.send j, s.send pat j r, by simp [Inside, hj], by simp [Gossip.step, hj]⟩
  have hwait : ∀ j, s.pc j ≠ .idle → ∃ r, s.pc j = .waiting r := by
    intro j hj
    cases hpc : s.pc j with
    | idle => exact absurd hpc hj
    | sending r => exact absurd ⟨j, r, hpc⟩ hsend
    | waiting r => exact ⟨r, rfl⟩
  have hex : ∃ r j, s.pc j = .waiting r ∧ s.count j = s.count i := by
    obtain ⟨r, hr⟩ := hwait i hi
    exact ⟨r, i, hr, rfl⟩
  classical
  obtain ⟨j, hj, hcount⟩ := Nat.find_spec hex
  generalize hr : Nat.find hex = r at hj
  have hmin : ∀ r' < r, ¬ ∃ j, s.pc j = .waiting r' ∧ s.count j = s.count i := by
    intro r' hlt
    exact Nat.find_min hex (hr ▸ hlt)
  have hrounds := h.waiting_lt hj
  -- the party it waits for has notified it in this barrier
  have hlast : s.count j ≤ lastSent pat s (pat.prev r j) r := by
    have hge := hall (pat.prev r j)
    by_cases hsame : s.count (pat.prev r j) = s.count i
    · have hsent : r < pat.sent (s.pc (pat.prev r j)) := by
        cases hpc : s.pc (pat.prev r j) with
        | idle => exact hrounds
        | sending r' => exact absurd ⟨_, r', hpc⟩ hsend
        | waiting r' =>
          have hle : r ≤ r' := Nat.le_of_not_lt fun hlt => hmin r' hlt ⟨_, hpc, hsame⟩
          rw [sent_waiting]
          omega
      rw [lastSent, if_pos hsent]
      omega
    · have := count_le_lastSent_add_one pat s (pat.prev r j) r
      omega
  rcases Nat.lt_or_ge (s.tab j r) (lastSent pat s (pat.prev r j) r) with hlt | hge
  · have hwire := (h.under_way j r hrounds).2
    obtain ⟨len, hlen⟩ : ∃ len, lastSent pat s (pat.prev r j) r - s.tab j r = len + 1 :=
      ⟨lastSent pat s (pat.prev r j) r - s.tab j r - 1, by omega⟩
    rw [hlen, List.range'_succ] at hwire
    exact ⟨.deliver j r, s.deliver j r (s.tab j r + 1) _, ⟨r, hj⟩, by
      simp only [Gossip.step, hwire, if_pos hrounds]
      rfl⟩
  · have hwindow := h.tab_window hj
    have htab : s.tab j r = s.count j ∨ s.tab j r = s.count j + 1 := by omega
    exact ⟨.test j, s.pass pat j r, by simp [Inside, hj], by simp only [Gossip.step, hj, if_pos htab]⟩

end

/-! ## Counting steps -/

section

variable (pat : Pattern P)

/-- The steps of a party in its last barrier. -/
def Pattern.stage : Pc → Nat
  | .idle => 2 * pat.rounds
  | .sending r => 2 * r
  | .waiting r => 2 * r + 1

/-- The steps of a party, and the notifications it has taken. -/
def load (s : State P) (i : P) : Nat :=
  s.count i * (2 * pat.rounds + 1) + pat.stage (s.pc i) + ∑ r ∈ range pat.rounds, s.tab i r

variable {pat}

theorem stage_idle : pat.stage .idle = 2 * pat.rounds := rfl

theorem stage_sending (r : Nat) : pat.stage (.sending r) = 2 * r := rfl

theorem stage_waiting (r : Nat) : pat.stage (.waiting r) = 2 * r + 1 := rfl

theorem stage_after {r : Nat} (h : r ≤ pat.rounds) : pat.stage (pat.after r) = 2 * r := by
  unfold Pattern.after
  split
  · rfl
  · have : r = pat.rounds := by omega
    rw [this]
    rfl

/-- One term of a sum grows by one. -/
theorem sum_add_one {ι : Type*} [DecidableEq ι] {t : Finset ι} {a : ι} (ha : a ∈ t) {f g : ι → Nat}
    (hself : g a = f a + 1) (hother : ∀ b ∈ t, b ≠ a → g b = f b) : ∑ b ∈ t, g b = ∑ b ∈ t, f b + 1 := by
  rw [← add_sum_erase t g ha, ← add_sum_erase t f ha, hself]
  have hrest : ∑ b ∈ t.erase a, g b = ∑ b ∈ t.erase a, f b :=
    sum_congr rfl fun b hb => hother b (mem_of_mem_erase hb) (ne_of_mem_erase hb)
  omega

/-- While all have entered at most `m` barriers there is a bound for the load of a party. -/
theorem Inv.load_le {s : State P} (h : Inv pat s) {m : Nat} (hcount : ∀ j, s.count j ≤ m) (i : P) :
    load pat s i ≤ m * (2 * pat.rounds + 1) + 2 * pat.rounds + pat.rounds * m := by
  have htabs : ∑ r ∈ range pat.rounds, s.tab i r ≤ pat.rounds * m := by
    have hle : ∀ r ∈ range pat.rounds, s.tab i r ≤ m := fun r hr =>
      ((h.under_way i r (mem_range.1 hr)).1.trans (lastSent_le_count s _ r)).trans (hcount _)
    simpa using sum_le_card_nsmul _ _ _ hle
  have hstage : pat.stage (s.pc i) ≤ 2 * pat.rounds := by
    cases hpc : s.pc i with
    | idle => exact le_rfl
    | sending r =>
      have := h.sending_lt hpc
      rw [stage_sending]
      omega
    | waiting r =>
      have := h.waiting_lt hpc
      rw [stage_waiting]
      omega
  have hpos : s.count i * (2 * pat.rounds + 1) ≤ m * (2 * pat.rounds + 1) := Nat.mul_le_mul_right _ (hcount i)
  unfold load
  omega

variable [DecidableEq P] {s s' : State P}

/-- A step adds one to the load of one party. -/
theorem Inv.exists_load (h : Inv pat s) (htrans : Trans pat s s') :
    ∃ i, load pat s' i = load pat s i + 1 ∧ ∀ j, j ≠ i → load pat s' j = load pat s j := by
  cases htrans with
  | call i hpc =>
    refine ⟨i, ?_, fun j hj => by simp [load, State.call, hj]⟩
    simp only [load, State.call, update_self, stage_after (Nat.zero_le _), hpc, stage_idle]
    ring
  | send i r hpc =>
    refine ⟨i, ?_, fun j hj => by simp [load, State.send, hj]⟩
    simp only [load, State.send, update_self, hpc, stage_sending, stage_waiting]
    ring
  | deliver i r m rest hr hwire =>
    obtain ⟨hm, -, -⟩ := h.wire_cons hr hwire
    refine ⟨i, ?_, fun j hj => ?_⟩
    · have hsum := sum_add_one (f := s.tab i) (g := set2 s.tab i r m i) (mem_range.2 hr)
        (by rw [set2_self, hm]) fun r' _ hne => set2_of_ne _ _ fun hcon => hne hcon.2
      simp only [load, State.deliver_count, State.deliver_pc, State.deliver_tab, hsum]
      ring
    · have hrow : set2 s.tab i r m j = s.tab j := funext fun r' => set2_of_ne _ _ fun hcon => hj hcon.1
      simp only [load, State.deliver_count, State.deliver_pc, State.deliver_tab, hrow]
  | pass i r hpc htab =>
    have hstage : pat.stage (pat.after (r + 1)) = 2 * (r + 1) := stage_after (h.waiting_lt hpc)
    refine ⟨i, ?_, fun j hj => by simp [load, State.pass, hj]⟩
    simp only [load, State.pass, update_self, hstage, hpc, stage_waiting]
    ring

variable [Fintype P]

theorem Inv.sum_load (h : Inv pat s) (htrans : Trans pat s s') :
    ∑ i, load pat s' i = ∑ i, load pat s i + 1 := by
  obtain ⟨i, hself, hother⟩ := h.exists_load htrans
  exact sum_add_one (mem_univ i) hself fun j _ hj => hother j hj

/-- A bound for the steps of all parties up to the time when one of them leaves its barrier `k`. -/
def stepBound (pat : Pattern P) (k : Nat) : Nat :=
  Fintype.card P * ((k + 1) * (2 * pat.rounds + 1) + 2 * pat.rounds + pat.rounds * (k + 1))

/-- As long as a party has not left its barrier `k`, only so many steps have been taken. -/
theorem length_le_of_returned_lt {actions : List (Act P)} (hrun : runSteps (step pat) start actions = some s)
    {i : P} {k : Nat} (hi : s.returned i < k) : actions.length ≤ stepBound pat k := by
  have hcount := count_of_runSteps (P := Inv pat) (fun s => ∑ i, load pat s i)
    (fun s a s' h hstep => ⟨h.step hstep, h.sum_load (trans_of_step hstep)⟩) (inv_start pat) hrun
  have hinv : Inv pat s := Reaches.invariant ⟨actions, hrun⟩ (inv_start pat) fun _ _ _ h hstep => h.step hstep
  have hle : ∀ j, s.count j ≤ k + 1 := by
    intro j
    have hnear := hinv.near j i
    unfold State.returned at hi
    split at hi <;> omega
  have hsum : ∑ j, load pat s j ≤ stepBound pat k := by
    simpa [stepBound] using sum_le_card_nsmul univ (load pat s) _ fun j _ => hinv.load_le hle j
  omega

end

end DataSpaces.Lib.Gossip
