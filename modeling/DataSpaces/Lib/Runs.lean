import Mathlib.Logic.Function.Basic
import Mathlib.Tactic

/-!
# Runs of a step function

A step function says for every action whether it is enabled and to which state it leads. `runSteps` takes
a list of actions, `Reaches` is about the states of all runs, and `Reaches.invariant` is the rule for
invariants; `exists_reaches_of_work` and `length_le_of_work` are the rules for progress,
and `forall_prefix_iff` is the rule for exact conditions on runs. `guardStep` restricts the steps, for
statements about runs that avoid some of them. `exists_runSteps_of_simulation` carries a run over to another
step function, and `Behaviour.eventually` is the rule for what happens in every unending run in which the
system does not stop.
-/

namespace DataSpaces.Lib

open List Option

variable {σ α : Type*} {step : σ → α → Option σ}

/-- Take the actions one after the other; each of them has to be enabled. -/
def runSteps (step : σ → α → Option σ) : σ → List α → Option σ
  | s, [] => some s
  | s, a :: rest => (step s a).bind fun s' => runSteps step s' rest

/-- Some run leads from the first state to the second. -/
def Reaches (step : σ → α → Option σ) (start s : σ) : Prop :=
  ∃ actions, runSteps step start actions = some s

variable {P : σ → Prop} {actions : List α} {start s s' : σ} {a : α}

/-- What holds at the start and is kept by the actions of a run holds at its end. -/
theorem invariant_of_runSteps (hrun : runSteps step start actions = some s) (hstart : P start)
    (hstep : ∀ a ∈ actions, ∀ s s', P s → step s a = some s' → P s') : P s := by
  induction actions generalizing start with
  | nil =>
    rw [runSteps, some.injEq] at hrun
    exact hrun ▸ hstart
  | cons a rest ih =>
    obtain ⟨s', hs', hrest⟩ := bind_eq_some_iff.1 hrun
    exact ih hrest (hstep a mem_cons_self start s' hstart hs') fun b hb => hstep b (mem_cons_of_mem _ hb)

/-- What holds at the start and is kept by every step holds in all reachable states. -/
theorem Reaches.invariant (h : Reaches step start s) (hstart : P start)
    (hstep : ∀ s a s', P s → step s a = some s' → P s') : P s := by
  obtain ⟨actions, hrun⟩ := h
  exact invariant_of_runSteps hrun hstart fun a _ s s' => hstep s a s'

theorem runSteps_append (s : σ) (before after : List α) :
    runSteps step s (before ++ after) = (runSteps step s before).bind fun s' => runSteps step s' after := by
  induction before generalizing s with
  | nil => rfl
  | cons a before ih =>
    rw [cons_append, runSteps, runSteps, bind_assoc]
    exact congrArg _ (funext fun s' => ih s')

variable {before : List α} {s'' : σ}

/-- A run, and then one step. -/
theorem runSteps_concat (hrun : runSteps step start before = some s)
    (ha : step s a = some s') : runSteps step start (before ++ [a]) = some s' := by
  rw [runSteps_append, hrun, bind_some, runSteps, ha, bind_some, runSteps]

theorem Reaches.refl (s : σ) : Reaches step s s := ⟨[], rfl⟩

theorem Reaches.trans (h : Reaches step s s') (h' : Reaches step s' s'') : Reaches step s s'' := by
  obtain ⟨before, hbefore⟩ := h
  obtain ⟨after, hafter⟩ := h'
  exact ⟨before ++ after, by rw [runSteps_append, hbefore, bind_some, hafter]⟩

/-- One step, and then a run. -/
theorem Reaches.head (h : step s a = some s') (h' : Reaches step s' s'') : Reaches step s s'' := by
  obtain ⟨actions, hrun⟩ := h'
  exact ⟨a :: actions, by rw [runSteps, h, bind_some, hrun]⟩

/-- While the goal is not reached some step makes the work less, so some run reaches it. -/
theorem exists_reaches_of_work {ω : Type*} [LT ω] [WellFoundedLT ω] {goal : σ → Prop} (work : σ → ω)
    (hstep : ∀ s, P s → ¬ goal s → ∃ a s', step s a = some s' ∧ P s' ∧ work s' < work s) (hs : P s) :
    ∃ s', Reaches step s s' ∧ goal s' := by
  generalize hw : work s = w
  induction w using WellFoundedLT.induction generalizing s with
  | ind w ih =>
    by_cases hgoal : goal s
    · exact ⟨s, Reaches.refl s, hgoal⟩
    · obtain ⟨a, s', hs', hP, hlt⟩ := hstep s hs hgoal
      obtain ⟨s'', hreach, hgoal⟩ := ih (work s') (hw ▸ hlt) hP rfl
      exact ⟨s'', hreach.head hs', hgoal⟩

/-- If every step makes the work less, the work bounds the length of a run. -/
theorem length_le_of_work (work : σ → Nat)
    (hstep : ∀ s a s', P s → step s a = some s' → P s' ∧ work s' < work s) (hs : P s)
    (h : runSteps step s actions = some s') : actions.length ≤ work s := by
  induction actions generalizing s with
  | nil => exact Nat.zero_le _
  | cons a rest ih =>
    obtain ⟨s₁, hs₁, hrest⟩ := bind_eq_some_iff.1 h
    obtain ⟨hP, hlt⟩ := hstep s a s₁ hs hs₁
    exact (Nat.succ_le_succ (ih hP hrest)).trans hlt

/-- If every step adds one to a count, the count tells the length of a run. -/
theorem count_of_runSteps (count : σ → Nat)
    (hstep : ∀ s a s', P s → step s a = some s' → P s' ∧ count s' = count s + 1) (hs : P s)
    (h : runSteps step s actions = some s') : count s' = count s + actions.length := by
  induction actions generalizing s with
  | nil =>
    rw [runSteps, some.injEq] at h
    rw [h, length_nil, Nat.add_zero]
  | cons a rest ih =>
    obtain ⟨s₁, hs₁, hrest⟩ := bind_eq_some_iff.1 h
    obtain ⟨hP, hcount⟩ := hstep s a s₁ hs hs₁
    rw [ih hP hrest, hcount, length_cons]
    omega

/-- Related states stay related: a run of the first system is matched, step by step, by one of the second. -/
theorem exists_runSteps_of_simulation {τ β : Type*} {step' : τ → β → Option τ} {R : σ → τ → Prop}
    (hstep : ∀ s t a s', R s t → step s a = some s' → ∃ b t', step' t b = some t' ∧ R s' t') {t : τ}
    (hR : R s t) (h : runSteps step s actions = some s') :
    ∃ actions' t', runSteps step' t actions' = some t' ∧ actions'.length = actions.length ∧ R s' t' := by
  induction actions generalizing s t with
  | nil =>
    rw [runSteps, some.injEq] at h
    exact ⟨[], t, rfl, rfl, h ▸ hR⟩
  | cons a rest ih =>
    obtain ⟨s₁, hs₁, hrest⟩ := bind_eq_some_iff.1 h
    obtain ⟨b, t₁, ht₁, hR₁⟩ := hstep s t a s₁ hR hs₁
    obtain ⟨rest', t', hrun, hlen, hR'⟩ := ih hR₁ hrest
    refine ⟨b :: rest', t', ?_, ?_, hR'⟩
    · rw [runSteps, ht₁, bind_some, hrun]
    · rw [length_cons, length_cons, hlen]

/-- The last step of a run. -/
theorem exists_of_runSteps_concat (hrun : runSteps step start (before ++ [a]) = some s') :
    ∃ s, runSteps step start before = some s ∧ step s a = some s' := by
  rw [runSteps_append] at hrun
  obtain ⟨s, hs, ha⟩ := bind_eq_some_iff.1 hrun
  obtain ⟨s'', ha', hnil⟩ := bind_eq_some_iff.1 ha
  rw [runSteps, some.injEq] at hnil
  exact ⟨s, hs, hnil ▸ ha'⟩

/-- What holds at the start and is kept by every step of a run holds in all its states. -/
theorem forall_prefix_of_step (hstart : P start)
    (hstep : ∀ before a s s', before ++ [a] <+: actions → runSteps step start before = some s →
      step s a = some s' → P s → P s') :
    ∀ before s, before <+: actions → runSteps step start before = some s → P s := by
  intro before
  induction before using reverseRecOn with
  | nil =>
    intro s _ hrun
    rw [runSteps, some.injEq] at hrun
    exact hrun ▸ hstart
  | append_singleton before a ih =>
    intro s' hpre hrun
    obtain ⟨s, hs, ha⟩ := exists_of_runSteps_concat hrun
    exact hstep before a s s' hpre hs ha (ih s ((prefix_append _ _).trans hpre) hs)

/-- A run that is good in all its states takes only steps of some kind, and the other way round. The
invariant holds as long as the steps are of that kind, and the first other one leads to a bad state. -/
theorem forall_prefix_iff {Inv Good : σ → Prop} {ok : σ → α → Prop} (hstart : Inv start)
    (hgood : ∀ s, Inv s → Good s)
    (hstep : ∀ s a s', Inv s → step s a = some s' → (ok s a → Inv s') ∧ (¬ ok s a → ¬ Good s'))
    (actions : List α) : (∀ before s, before <+: actions → runSteps step start before = some s → Good s) ↔
      ∀ before a s s', before ++ [a] <+: actions → runSteps step start before = some s →
        step s a = some s' → ok s a := by
  constructor
  · intro hall
    -- Up to any point the invariant holds, for otherwise a bad state has been passed.
    have hinv := forall_prefix_of_step hstart
      fun before a s s' hpre hrun ha hs => by
        by_contra hnot
        exact (hstep s a s' hs ha).2 (fun hok => hnot ((hstep s a s' hs ha).1 hok))
          (hall _ s' hpre (runSteps_concat hrun ha))
    intro before a s s' hpre hrun ha
    by_contra hnot
    exact (hstep s a s' (hinv before s ((prefix_append _ _).trans hpre) hrun) ha).2 hnot
      (hall _ s' hpre (runSteps_concat hrun ha))
  · intro hall before s hpre hrun
    apply hgood s
    apply forall_prefix_of_step hstart ?_ before s hpre hrun
    exact fun before a s s' hpre hrun ha hs => (hstep s a s' hs ha).1 (hall before a s s' hpre hrun ha)

/-- The steps that satisfy a condition. -/
def guardStep (ok : σ → α → Bool) (step : σ → α → Option σ) (s : σ) (a : α) : Option σ :=
  if ok s a then step s a else none

theorem guardStep_eq_some {ok : σ → α → Bool} :
    guardStep ok step s a = some s' ↔ ok s a = true ∧ step s a = some s' := by
  rw [guardStep]
  split
  · next h => simp [h]
  · next h => simp [h]

/-! ## Unending runs -/

/-- The states of a run at all times; between two steps time may pass. -/
structure Behaviour (step : σ → α → Option σ) (start : σ) (ρ : Nat → σ) : Prop where
  start : ρ 0 = start
  next : ∀ t, ρ (t + 1) = ρ t ∨ ∃ a, step (ρ t) a = some (ρ (t + 1))

namespace Behaviour

variable {start : σ} {ρ : Nat → σ} (h : Behaviour step start ρ)

include h

variable {t t' : Nat}

/-- The steps taken up to a time are a run, and later ones make it longer. -/
theorem exists_runSteps_ge {actions : List α} (hrun : runSteps step start actions = some (ρ t)) (ht : t ≤ t') :
    ∃ actions', runSteps step start actions' = some (ρ t') ∧ actions.length ≤ actions'.length := by
  induction t', ht using Nat.le_induction with
  | base => exact ⟨actions, hrun, le_rfl⟩
  | succ t' _ ih =>
    obtain ⟨actions', hrun', hle⟩ := ih
    rcases h.next t' with hstay | ⟨a, ha⟩
    · exact ⟨actions', hstay ▸ hrun', hle⟩
    · refine ⟨actions' ++ [a], runSteps_concat hrun' ha, ?_⟩
      rw [length_append]
      omega

/-- What no step makes smaller grows with time. -/
theorem mono {f : σ → Nat} (hstep : ∀ s a s', step s a = some s' → f s ≤ f s') (ht : t ≤ t') :
    f (ρ t) ≤ f (ρ t') := by
  induction t', ht using Nat.le_induction with
  | base => exact le_rfl
  | succ t' _ ih =>
    rcases h.next t' with hstay | ⟨a, ha⟩
    · rw [hstay]
      exact ih
    · exact ih.trans (hstep _ a _ ha)

theorem exists_runSteps (t : Nat) : ∃ actions, runSteps step start actions = some (ρ t) := by
  have hstart : runSteps step start [] = some (ρ 0) := by rw [h.start, runSteps]
  obtain ⟨actions, hrun, -⟩ := h.exists_runSteps_ge hstart (Nat.zero_le t)
  exact ⟨actions, hrun⟩

/-- Runs that do not reach the goal have a bounded length. If the system always takes another step while
the goal is not reached, it reaches the goal. -/
theorem eventually (goal : σ → Prop) (bound : Nat)
    (hbound : ∀ actions s, runSteps step start actions = some s → ¬ goal s → actions.length ≤ bound)
    (hmove : ∀ t' ≥ t, ¬ goal (ρ t') → ∃ t'' ≥ t', ∃ a, step (ρ t'') a = some (ρ (t'' + 1))) :
    ∃ t' ≥ t, goal (ρ t') := by
  by_contra hnever
  have hnone : ∀ t' ≥ t, ¬ goal (ρ t') := fun t' ht' hgoal => hnever ⟨t', ht', hgoal⟩
  have hlong : ∀ m, ∃ t' ≥ t, ∃ actions, runSteps step start actions = some (ρ t') ∧ m ≤ actions.length := by
    intro m
    induction m with
    | zero =>
      obtain ⟨actions, hrun⟩ := h.exists_runSteps t
      exact ⟨t, le_rfl, actions, hrun, Nat.zero_le _⟩
    | succ m ih =>
      obtain ⟨t', ht', actions, hrun, hle⟩ := ih
      obtain ⟨t'', ht'', a, ha⟩ := hmove t' ht' (hnone t' ht')
      obtain ⟨actions', hrun', hle'⟩ := h.exists_runSteps_ge hrun ht''
      refine ⟨t'' + 1, by omega, actions' ++ [a], runSteps_concat hrun' ha, ?_⟩
      rw [length_append, length_singleton]
      omega
  obtain ⟨t', ht', actions, hrun, hle⟩ := hlong (bound + 1)
  have := hbound actions (ρ t') hrun (hnone t' ht')
  omega

end Behaviour

end DataSpaces.Lib
