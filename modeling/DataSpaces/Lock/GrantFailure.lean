import DataSpaces.Lock.Fifo

/-!
# Grants that fail

The lock services change the state of a lock before they send the grant, and `dsg_lock_grant` may fail. Here
every attempt to send a grant has a result of its own.

No failure is undone. Granting a request always changes a counter, so `grants_undone_iff` says that the lock is
as if the failed requests had not been granted exactly when none has failed. What is left is a holder that was
never told: after a failed write grant every later request of every client waits (`no_attempts_of_blocked`),
because the release that would end it never comes.
-/

namespace DataSpaces.Lock.Failing

open List

variable {κ : Type*}

/-! ## The source -/

/-- A call of `dsg_lock_grant` and its result. `before` is the lock before the request was processed, `after`
the lock when the result has been dealt with; `queued` says that the request came from the wait list. -/
structure Attempt (κ : Type*) where
  cmd : RpcCmd κ
  err : Int
  queued : Bool
  before : DsgLock κ
  after : DsgLock κ

/-- The result of a service, with the grants that were attempted. -/
structure Served (κ : Type*) where
  lock : DsgLock κ
  err : Int
  attempts : List (Attempt κ)

/-- Take requests from the front of the wait list until one has to wait. `grants` are the results of the
grants that are left; a negative one ends the loop, and the request stays in front of the list. -/
def drainWaitList (process : DsgLock κ → LockHdr → Bool → LockAction × DsgLock κ) :
    List (RpcCmd κ) → (Nat → Int) → DsgLock κ → Served κ
  | [], _, dl => ⟨{ dl with waitList := [] }, 0, []⟩
  | rr :: rest, grants, dl =>
    match process dl rr.hdr true with
    | (.none, dl) => ⟨{ dl with waitList := rr :: rest }, 0, []⟩
    | (.wait, dl) => ⟨{ dl with waitList := rr :: rest }, 0, []⟩
    | (.grant, dl') =>
      let before := { dl with waitList := rr :: rest }
      if grants 0 < 0 then
        let after := { dl' with waitList := rr :: rest }
        ⟨after, grants 0, [⟨rr, grants 0, true, before, after⟩]⟩
      else
        -- A positive result is taken for a success.
        let r := drainWaitList process rest (fun i => grants (i + 1)) dl'
        { r with attempts := ⟨rr, grants 0, true, before, { dl' with waitList := rest }⟩ :: r.attempts }
    | (.notify, dl) => drainWaitList process rest grants dl

def lockProcessWaitList (dl : DsgLock κ) (grants : Nat → Int) : Served κ :=
  drainWaitList lockProcessRequest dl.waitList grants dl

def lockProcessWaitListV3 (dl : DsgLock κ) (grants : Nat → Int) : Served κ :=
  drainWaitList lockProcessRequestV3 dl.waitList grants dl

/-- Go through the wait list and take out what can be granted; `kept` is what has been passed. -/
def scanWaitList : List (RpcCmd κ) → List (RpcCmd κ) → (Nat → Int) → DsgLock κ → Served κ
  | [], kept, _, dl => ⟨{ dl with waitList := kept }, 0, []⟩
  | rr :: rest, kept, grants, dl =>
    match semProcessRequest dl rr.hdr true with
    | (.grant, dl') =>
      let before := { dl with waitList := kept ++ rr :: rest }
      if grants 0 < 0 then
        let after := { dl' with waitList := kept ++ rr :: rest }
        ⟨after, grants 0, [⟨rr, grants 0, true, before, after⟩]⟩
      else
        let r := scanWaitList rest kept (fun i => grants (i + 1)) dl'
        { r with attempts := ⟨rr, grants 0, true, before, { dl' with waitList := kept ++ rest }⟩ :: r.attempts }
    | (.notify, dl) => scanWaitList rest (kept ++ [rr]) grants dl
    | (.wait, dl) => scanWaitList rest (kept ++ [rr]) grants dl
    | (.none, dl) => scanWaitList rest (kept ++ [rr]) grants dl

def semProcessWaitList (dl : DsgLock κ) (grants : Nat → Int) : Served κ :=
  scanWaitList dl.waitList [] grants dl

/-- What the three services have in common. The error of a grant is the error of the service. -/
def service (process : DsgLock κ → LockHdr → Bool → LockAction × DsgLock κ)
    (processWaitList : DsgLock κ → (Nat → Int) → Served κ) (mayGrant : Bool) (dl : DsgLock κ)
    (cmd : RpcCmd κ) (grants : Nat → Int) : Served κ :=
  match process dl cmd.hdr mayGrant with
  | (.none, dl) => ⟨dl, 0, []⟩
  | (.wait, dl) => ⟨dsgLockPutOnWait dl cmd, 0, []⟩
  | (.notify, dl) => processWaitList dl grants
  | (.grant, dl') => ⟨dl', grants 0, [⟨cmd, grants 0, false, dl, dl'⟩]⟩

def lockService (dl : DsgLock κ) (cmd : RpcCmd κ) (grants : Nat → Int) : Served κ :=
  service lockProcessRequest lockProcessWaitList dl.waitList.isEmpty dl cmd grants

def semService (dl : DsgLock κ) (cmd : RpcCmd κ) (grants : Nat → Int) : Served κ :=
  service semProcessRequest semProcessWaitList false dl cmd grants

def lockServiceV3 (dl : DsgLock κ) (cmd : RpcCmd κ) (grants : Nat → Int) : Served κ :=
  service lockProcessRequestV3 lockProcessWaitListV3 dl.waitList.isEmpty dl cmd grants

def serviceOf : LockKind → DsgLock κ → RpcCmd κ → (Nat → Int) → Served κ
  | .generic => lockService
  | .custom => semService
  | .v3 => lockServiceV3

/-! ## The statement -/

/-- The counters, states and epochs of a lock. -/
def core (dl : DsgLock κ) : DsgLock κ := { dl with waitList := [] }

/-- The request of the attempt waits as it did before, or it waits now, or its service has reported an
error. -/
def Attempt.Kept (r : Served κ) (a : Attempt κ) : Prop :=
  if a.queued then a.after.waitList = a.before.waitList
  else a.after.waitList = a.before.waitList ++ [a.cmd] ∨ r.err ≠ 0

/-- After every failed attempt the lock is as if the request had not been granted, and the request is not
lost. -/
def GrantsUndone (r : Served κ) : Prop :=
  ∀ a ∈ r.attempts, a.err ≠ 0 → core a.after = core a.before ∧ a.Kept r

/-! ## A grant changes the lock -/

/-- The attempt has changed a counter. -/
def Attempt.Counted (a : Attempt κ) : Prop :=
  a.after.rdCnt ≠ a.before.rdCnt ∨ a.after.wrCnt ≠ a.before.wrCnt

/-- Whatever the request processor grants, it counts. -/
def CountsGrants (process : DsgLock κ → LockHdr → Bool → LockAction × DsgLock κ) : Prop :=
  ∀ dl lh mayGrant dl', process dl lh mayGrant = (.grant, dl') →
    dl'.rdCnt ≠ dl.rdCnt ∨ dl'.wrCnt ≠ dl.wrCnt

theorem countsGrants_generic : CountsGrants (lockProcessRequest : DsgLock κ → _) := by
  intro dl lh mayGrant dl' h
  unfold lockProcessRequest at h
  split at h
  · split at h
    · cases h
      exact Or.inl (Int.lt_succ _).ne'
    · cases h
  · split at h <;> cases h
  · split at h
    · cases h
      exact Or.inr (Int.lt_succ _).ne'
    · cases h
  · split at h <;> cases h
  · cases h

theorem countsGrants_v3 : CountsGrants (lockProcessRequestV3 : DsgLock κ → _) := by
  intro dl lh mayGrant dl' h
  unfold lockProcessRequestV3 at h
  split at h
  · split at h
    · cases h
      exact Or.inl (Int.lt_succ _).ne'
    · cases h
  · split at h <;> cases h
  · split at h
    · cases h
      exact Or.inr (Int.lt_succ _).ne'
    · cases h
  · split at h <;> cases h
  · cases h

theorem countsGrants_custom : CountsGrants (semProcessRequest : DsgLock κ → _) := by
  intro dl lh mayGrant dl' h
  unfold semProcessRequest at h
  split at h
  · split at h
    · cases h
      exact Or.inl (Int.sub_one_lt_of_le le_rfl).ne
    · cases h
  · split at h <;> cases h
  · split at h
    · cases h
      exact Or.inr (Int.sub_one_lt_of_le le_rfl).ne
    · cases h
  · split at h <;> cases h
  · cases h

variable {process : DsgLock κ → LockHdr → Bool → LockAction × DsgLock κ} {dl : DsgLock κ} {lh : LockHdr}
  {cmd : RpcCmd κ}

theorem counted_drainWaitList (hprocess : CountsGrants process) (l : List (RpcCmd κ)) (grants : Nat → Int)
    (dl : DsgLock κ) : ∀ a ∈ (drainWaitList process l grants dl).attempts, a.Counted := by
  induction l generalizing grants dl with
  | nil => exact fun a ha => (not_mem_nil ha).elim
  | cons rr rest ih =>
    rw [drainWaitList]
    split
    · exact fun a ha => (not_mem_nil ha).elim
    · exact fun a ha => (not_mem_nil ha).elim
    · next dl' heq =>
      have hcounted := hprocess dl rr.hdr true dl' heq
      dsimp only
      split
      · intro a ha
        rw [mem_singleton.1 ha]
        exact hcounted
      · intro a ha
        rcases mem_cons.1 ha with rfl | ha
        · exact hcounted
        · exact ih _ _ a ha
    · exact ih _ _

theorem counted_scanWaitList (l kept : List (RpcCmd κ)) (grants : Nat → Int) (dl : DsgLock κ) :
    ∀ a ∈ (scanWaitList l kept grants dl).attempts, a.Counted := by
  induction l generalizing kept grants dl with
  | nil => exact fun a ha => (not_mem_nil ha).elim
  | cons rr rest ih =>
    rw [scanWaitList]
    split
    · next dl' heq =>
      have hcounted := countsGrants_custom dl rr.hdr true dl' heq
      dsimp only
      split
      · intro a ha
        rw [mem_singleton.1 ha]
        exact hcounted
      · intro a ha
        rcases mem_cons.1 ha with rfl | ha
        · exact hcounted
        · exact ih _ _ _ a ha
    · exact ih _ _ _
    · exact ih _ _ _
    · exact ih _ _ _

variable {processWaitList : DsgLock κ → (Nat → Int) → Served κ} {kind : LockKind}

theorem counted_service (hprocess : CountsGrants process)
    (hwait : ∀ dl grants, ∀ a ∈ (processWaitList dl grants).attempts, a.Counted) (mayGrant : Bool)
    (dl : DsgLock κ) (cmd : RpcCmd κ) (grants : Nat → Int) :
    ∀ a ∈ (service process processWaitList mayGrant dl cmd grants).attempts, a.Counted := by
  unfold service
  split
  · exact fun a ha => (not_mem_nil ha).elim
  · exact fun a ha => (not_mem_nil ha).elim
  · exact hwait _ _
  · next dl' heq =>
    intro a ha
    rw [mem_singleton.1 ha]
    exact hprocess dl cmd.hdr mayGrant dl' heq

theorem counted_serviceOf (kind : LockKind) (dl : DsgLock κ) (cmd : RpcCmd κ) (grants : Nat → Int) :
    ∀ a ∈ (serviceOf kind dl cmd grants).attempts, a.Counted := by
  cases kind with
  | generic =>
    exact counted_service countsGrants_generic
      (fun dl grants => counted_drainWaitList countsGrants_generic _ grants dl) _ dl cmd grants
  | custom =>
    exact counted_service countsGrants_custom (fun dl grants => counted_scanWaitList _ _ grants dl) _ dl cmd
      grants
  | v3 =>
    exact counted_service countsGrants_v3
      (fun dl grants => counted_drainWaitList countsGrants_v3 _ grants dl) _ dl cmd grants

theorem Attempt.Counted.core_ne {a : Attempt κ} (h : a.Counted) : core a.after ≠ core a.before := by
  intro heq
  have hrd : (core a.after).rdCnt = (core a.before).rdCnt := congrArg DsgLock.rdCnt heq
  have hwr : (core a.after).wrCnt = (core a.before).wrCnt := congrArg DsgLock.wrCnt heq
  exact h.elim (fun hne => hne hrd) fun hne => hne hwr

/-- For every lock type, every state of the lock, every request and every result of the grants: failed
grants are undone if and only if none fails. -/
theorem grants_undone_iff (kind : LockKind) (dl : DsgLock κ) (cmd : RpcCmd κ) (grants : Nat → Int) :
    GrantsUndone (serviceOf kind dl cmd grants) ↔ ∀ a ∈ (serviceOf kind dl cmd grants).attempts, a.err = 0 := by
  constructor
  · intro hundone a ha
    by_contra herr
    exact (counted_serviceOf kind dl cmd grants a ha).core_ne (hundone a ha herr).1
  · exact fun hall a ha herr => (herr (hall a ha)).elim

/-! ## What a failed write grant leaves -/

/-- The lock is counted as held for writing. -/
def Blocked (dl : DsgLock κ) : Prop := dl.wrLockState = .locked ∧ dl.wrCnt ≠ 0

/-- A sequence of requests, each with the results of the grants that it leads to. -/
def runAttempts (kind : LockKind) : DsgLock κ → List (RpcCmd κ × (Nat → Int)) → List (Attempt κ)
  | _, [] => []
  | dl, call :: calls =>
    let r := serviceOf kind dl call.1 call.2
    r.attempts ++ runAttempts kind r.lock calls

/-- The step: a get request has to wait. -/
theorem serviceOf_of_blocked (h : Blocked dl) (hget : cmd.hdr.type.isGet = true) (grants : Nat → Int) :
    serviceOf .generic dl cmd grants = ⟨dsgLockPutOnWait dl cmd, 0, []⟩ := by
  have hwait : ∀ mayGrant, lockProcessRequest dl cmd.hdr mayGrant = (.wait, dl) := by
    intro mayGrant
    unfold lockProcessRequest
    rcases LockType.eq_of_isGet hget with htype | htype
    · rw [htype]
      exact if_neg fun hfree => absurd (h.1.symm.trans hfree.1) (by decide)
    · rw [htype]
      exact if_neg fun hfree => h.2 hfree.2
  show service lockProcessRequest _ _ dl cmd grants = _
  rw [service, hwait]

/-- The run: no get request is ever granted again. -/
theorem no_attempts_of_blocked (h : Blocked dl) (calls : List (RpcCmd κ × (Nat → Int)))
    (hget : ∀ call ∈ calls, call.1.hdr.type.isGet = true) : runAttempts .generic dl calls = [] := by
  induction calls generalizing dl with
  | nil => rfl
  | cons call calls ih =>
    rw [runAttempts, serviceOf_of_blocked h (hget call mem_cons_self)]
    exact ih h fun call hcall => hget call (mem_cons_of_mem _ hcall)

/-- Client 1 asks for the write lock of a new lock, and the grant cannot be sent. -/
def untold : Served Nat :=
  serviceOf .generic (dsgLockAlloc .generic 1 "field") (ask 1 .writeGet) fun _ => -1

/-- The lock counts client 1 as a writer. The failure is not undone, and no later request of any client is
granted. -/
theorem failed_grant_blocks : untold.err = -1 ∧ untold.lock.wrLockState = .locked ∧ untold.lock.wrCnt = 1 ∧
      untold.lock.waitList = [] ∧ ¬ GrantsUndone untold ∧
      ∀ calls : List (RpcCmd Nat × (Nat → Int)), (∀ call ∈ calls, call.1.hdr.type.isGet = true) →
        runAttempts .generic untold.lock calls = [] := by
  refine ⟨by decide, by decide, by decide, rfl, fun hundone => ?_, fun calls hget => ?_⟩
  · obtain ⟨a, hattempts, herr⟩ : ∃ a, untold.attempts = [a] ∧ a.err = -1 := ⟨_, rfl, rfl⟩
    have ha : a ∈ untold.attempts := hattempts ▸ mem_cons_self
    exact (counted_serviceOf _ _ _ _ a ha).core_ne (hundone a ha (by rw [herr]; decide)).1
  · exact no_attempts_of_blocked ⟨rfl, by decide⟩ calls hget

end DataSpaces.Lock.Failing
