import DataSpaces.Lock.Service

/-!
# Named locks

The master server keeps a list of locks. `dsgrpc_lock_service` looks for the lock that a request names, makes
one of the configured type if there is none, and lets it serve the request. Locks of different names do not
touch each other (`lock_alone`), so what is known about one lock holds for every lock of a server.
-/

namespace DataSpaces.Lock

open List

variable {κ : Type*}

def LockKind.service : LockKind → DsgLock κ → RpcCmd κ → DsgLock κ × List (RpcCmd κ)
  | .generic => lockService
  | .custom => semService
  | .v3 => lockServiceV3

def dsgLockFindByName (locks : List (DsgLock κ)) (lockName : String) : Option (DsgLock κ) :=
  locks.find? fun dl => dl.lkName == lockName

/-- A service changes the lock that was found in its place. -/
def replaceLock (dl : DsgLock κ) : List (DsgLock κ) → List (DsgLock κ)
  | [] => []
  | dl' :: rest => if dl'.lkName = dl.lkName then dl :: rest else dl' :: replaceLock dl rest

def dsgrpcLockService (kind : LockKind) (maxReaders : Int) (locks : List (DsgLock κ)) (cmd : RpcCmd κ) :
    List (DsgLock κ) × List (RpcCmd κ) :=
  match dsgLockFindByName locks cmd.hdr.name with
  | some dl => (replaceLock (kind.service dl cmd).1 locks, (kind.service dl cmd).2)
  | none =>
    -- `dsg_lock_alloc` puts the new lock at the front of the list
    let r := kind.service (dsgLockAlloc kind maxReaders cmd.hdr.name) cmd
    (r.1 :: locks, r.2)

/-- The locks of a server after some requests. -/
def serverRun (kind : LockKind) (maxReaders : Int) (cmds : List (RpcCmd κ)) : List (DsgLock κ) :=
  cmds.foldl (fun locks cmd => (dsgrpcLockService kind maxReaders locks cmd).1) []

/-- A lock of the name after some requests. -/
def aloneRun (kind : LockKind) (maxReaders : Int) (n : String) (cmds : List (RpcCmd κ)) : DsgLock κ :=
  cmds.foldl (fun dl cmd => (kind.service dl cmd).1) (dsgLockAlloc kind maxReaders n)

/-! ## A lock keeps its name -/

variable {process : DsgLock κ → LockHdr → Bool → LockAction × DsgLock κ} {dl : DsgLock κ}

theorem lkName_lockProcessRequest (dl : DsgLock κ) (lh : LockHdr) (b : Bool) :
    (lockProcessRequest dl lh b).2.lkName = dl.lkName := by
  unfold lockProcessRequest
  split <;> (try split) <;> rfl

theorem lkName_lockProcessRequestV3 (dl : DsgLock κ) (lh : LockHdr) (b : Bool) :
    (lockProcessRequestV3 dl lh b).2.lkName = dl.lkName := by
  unfold lockProcessRequestV3
  split <;> (try split) <;> rfl

theorem lkName_semProcessRequest (dl : DsgLock κ) (lh : LockHdr) (b : Bool) :
    (semProcessRequest dl lh b).2.lkName = dl.lkName := by
  unfold semProcessRequest
  split <;> (try split) <;> rfl

theorem lkName_scanWaitList (l kept : List (RpcCmd κ)) : (scanWaitList l kept dl).1.lkName = dl.lkName := by
  induction l generalizing kept dl with
  | nil => rfl
  | cons rr rest ih =>
    have hname := lkName_semProcessRequest dl rr.hdr true
    rw [scanWaitList]
    split <;> next heq => rw [heq] at hname; exact (ih _).trans hname

variable (hp : ∀ dl lh b, (process dl lh b).2.lkName = dl.lkName)

include hp

theorem lkName_drainWaitList (l : List (RpcCmd κ)) : (drainWaitList process l dl).1.lkName = dl.lkName := by
  induction l generalizing dl with
  | nil => rfl
  | cons rr rest ih =>
    have hname := hp dl rr.hdr true
    rw [drainWaitList]
    split <;> next heq => rw [heq] at hname; first | exact hname | exact ih.trans hname

theorem lkName_service {processWaitList : DsgLock κ → DsgLock κ × List (RpcCmd κ)}
    (hlist : ∀ dl, (processWaitList dl).1.lkName = dl.lkName) (b : Bool) (cmd : RpcCmd κ) :
    (service process processWaitList b dl cmd).1.lkName = dl.lkName := by
  have hname := hp dl cmd.hdr b
  rw [service]
  split <;> next heq => rw [heq] at hname; first | exact hname | exact (hlist _).trans hname

omit hp

theorem lkName_kindService (kind : LockKind) (dl : DsgLock κ) (cmd : RpcCmd κ) :
    (kind.service dl cmd).1.lkName = dl.lkName := by
  cases kind with
  | generic =>
    exact lkName_service lkName_lockProcessRequest
      (fun _ => lkName_drainWaitList lkName_lockProcessRequest _) _ cmd
  | custom => exact lkName_service lkName_semProcessRequest (fun _ => lkName_scanWaitList _ _) _ cmd
  | v3 =>
    exact lkName_service lkName_lockProcessRequestV3
      (fun _ => lkName_drainWaitList lkName_lockProcessRequestV3 _) _ cmd

/-! ## The list of locks -/

theorem dsgLockFindByName_cons (dl : DsgLock κ) (locks : List (DsgLock κ)) (n : String) :
    dsgLockFindByName (dl :: locks) n = if dl.lkName = n then some dl else dsgLockFindByName locks n := by
  by_cases h : dl.lkName = n
  · rw [if_pos h]
    exact find?_cons_of_pos (beq_iff_eq.2 h)
  · rw [if_neg h]
    exact find?_cons_of_neg (mt beq_iff_eq.1 h)

theorem dsgLockFindByName_replaceLock {dl' : DsgLock κ} {locks : List (DsgLock κ)}
    (hfind : dsgLockFindByName locks dl.lkName = some dl') (n : String) :
    dsgLockFindByName (replaceLock dl locks) n =
      if dl.lkName = n then some dl else dsgLockFindByName locks n := by
  induction locks with
  | nil => cases hfind
  | cons x rest ih =>
    -- the search and the replacement stop at the same lock, the first of the name
    by_cases hx : x.lkName = dl.lkName
    · rw [replaceLock, if_pos hx, dsgLockFindByName_cons, dsgLockFindByName_cons, hx]
      split <;> rfl
    · rw [dsgLockFindByName_cons, if_neg hx] at hfind
      rw [replaceLock, if_neg hx, dsgLockFindByName_cons, dsgLockFindByName_cons, ih hfind]
      by_cases hxn : x.lkName = n
      · rw [if_pos hxn, if_neg fun h => hx (hxn.trans h.symm), if_pos hxn]
      · rw [if_neg hxn, if_neg hxn]

variable (kind : LockKind) (maxReaders : Int) (cmd : RpcCmd κ)

/-- The lock of a name, also before it is made. -/
def lockOf (locks : List (DsgLock κ)) (n : String) : DsgLock κ :=
  (dsgLockFindByName locks n).getD (dsgLockAlloc kind maxReaders n)

theorem lkName_lockOf (locks : List (DsgLock κ)) (n : String) :
    (lockOf kind maxReaders locks n).lkName = n := by
  rw [lockOf]
  cases hfind : dsgLockFindByName locks n with
  | some dl =>
    have hname := find?_some hfind
    exact beq_iff_eq.1 hname
  | none => cases kind <;> rfl

/-- A request is served by the lock of its name, and no other lock changes. -/
theorem dsgrpcLockService_spec (locks : List (DsgLock κ)) :
    let r := dsgrpcLockService kind maxReaders locks cmd
    let own := kind.service (lockOf kind maxReaders locks cmd.hdr.name) cmd
    r.2 = own.2 ∧ ∀ n, lockOf kind maxReaders r.1 n =
      if cmd.hdr.name = n then own.1 else lockOf kind maxReaders locks n := by
  have hname := lkName_lockOf kind maxReaders locks cmd.hdr.name
  rw [← lkName_kindService kind _ cmd] at hname
  unfold dsgrpcLockService
  cases hfind : dsgLockFindByName locks cmd.hdr.name with
  | some dl =>
    rw [lockOf, hfind, Option.getD_some] at hname ⊢
    refine ⟨rfl, fun n => ?_⟩
    rw [lockOf, dsgLockFindByName_replaceLock (by rw [hname]; exact hfind), hname]
    split <;> rfl
  | none =>
    rw [lockOf, hfind, Option.getD_none] at hname ⊢
    refine ⟨rfl, fun n => ?_⟩
    rw [lockOf, dsgLockFindByName_cons, hname]
    split <;> rfl

theorem lockOf_serverRun (cmds : List (RpcCmd κ)) (n : String) :
    lockOf kind maxReaders (serverRun kind maxReaders cmds) n =
      aloneRun kind maxReaders n (cmds.filter fun cmd => cmd.hdr.name = n) := by
  induction cmds using reverseRecOn with
  | nil => rfl
  | append_singleton cmds cmd ih =>
    rw [serverRun, foldl_append, foldl_cons, foldl_nil, ← serverRun,
      (dsgrpcLockService_spec kind maxReaders cmd _).2,
      ih, filter_append, filter_singleton]
    split
    case isTrue hn =>
      subst hn
      rw [ih, decide_eq_true rfl, aloneRun, aloneRun, foldl_append]
      rfl
    case isFalse hn => rw [decide_eq_false hn, cond_false, append_nil]

/-- Whatever has been asked of a server, the lock of a name is in the state that the requests for it alone
lead to, and the next request for it gives the grants of this lock. -/
theorem lock_alone (cmds : List (RpcCmd κ)) :
    let own := aloneRun kind maxReaders cmd.hdr.name (cmds.filter fun c => c.hdr.name = cmd.hdr.name)
    lockOf kind maxReaders (serverRun kind maxReaders cmds) cmd.hdr.name = own ∧
      (dsgrpcLockService kind maxReaders (serverRun kind maxReaders cmds) cmd).2 =
        (kind.service own cmd).2 := by
  intro own
  have hown := lockOf_serverRun kind maxReaders cmds cmd.hdr.name
  refine ⟨hown, ?_⟩
  rw [(dsgrpcLockService_spec kind maxReaders cmd _).1, hown]

end DataSpaces.Lock
