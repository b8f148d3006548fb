import DataSpaces.Lib.RwQueue
import DataSpaces.Lock.Service

/-!
# The generic lock

The generic lock implements the readers-writer lock with a queue. Its counters and states stand for the
list of current holders (`Represents`), and draining the wait list is `letIn` (`drainWaitList_spec`). A
lock whose head request is blocked (`Queued`) keeps that property and the order of arrival through every
request (`service_queued`).

The lemmas are stated for every function that decides about requests as the generic lock does
(`RwProcess`), so that the lock of type 3 can use them.
-/

namespace DataSpaces.Lock

open Lib List

variable {κ : Type*}

/-! ## Runs -/

def LockType.access : LockType → Access
  | .readGet => .read
  | .readRelease => .read
  | .writeGet => .write
  | .writeRelease => .write
  | .grant => .write

def LockType.isGet : LockType → Bool
  | .readGet => true
  | .writeGet => true
  | _ => false

def LockType.isRelease : LockType → Bool
  | .readRelease => true
  | .writeRelease => true
  | _ => false

theorem LockType.eq_of_isGet {type : LockType} (h : type.isGet = true) :
    type = .readGet ∨ type = .writeGet := by
  cases type <;> simp_all [isGet]

theorem LockType.eq_of_isRelease {type : LockType} (h : type.isRelease = true) :
    type = .readRelease ∨ type = .writeRelease := by
  cases type <;> simp_all [isRelease]

theorem LockType.isGet_or_isRelease {type : LockType} (h : type ≠ .grant) :
    type.isGet = true ∨ type.isRelease = true := by
  cases type <;> simp_all [isGet, isRelease]

/-- The access that a request is about. -/
def RpcCmd.entry (cmd : RpcCmd κ) : κ × Access := (cmd.id, cmd.hdr.type.access)

/-- A lock together with what has happened to it: who holds it, and which requests were granted, in
order. -/
structure LockRun (κ : Type*) where
  dl : DsgLock κ
  held : List (κ × Access)
  granted : List (RpcCmd κ)

def LockRun.start (dl : DsgLock κ) : LockRun κ := ⟨dl, [], []⟩

section Run

variable [DecidableEq κ]

/-- The holders after a release. -/
def heldAfter (held : List (κ × Access)) (cmd : RpcCmd κ) : List (κ × Access) :=
  if cmd.hdr.type.isRelease then held.erase cmd.entry else held

/-- The lock serves one more request. -/
def serve (svc : DsgLock κ → RpcCmd κ → DsgLock κ × List (RpcCmd κ)) (s : LockRun κ)
    (cmd : RpcCmd κ) : LockRun κ where
  dl := (svc s.dl cmd).1
  held := heldAfter s.held cmd ++ (svc s.dl cmd).2.map RpcCmd.entry
  granted := s.granted ++ (svc s.dl cmd).2

def lockRun (svc : DsgLock κ → RpcCmd κ → DsgLock κ × List (RpcCmd κ)) (s : LockRun κ)
    (cmds : List (RpcCmd κ)) : LockRun κ := cmds.foldl (serve svc) s

/-- Clients ask for a lock or give one back, the latter only if they hold it. -/
def Permitted (s : LockRun κ) (cmd : RpcCmd κ) : Prop :=
  cmd.hdr.type ≠ .grant ∧ (cmd.hdr.type.isRelease = true → cmd.entry ∈ s.held)

instance (s : LockRun κ) (cmd : RpcCmd κ) : Decidable (Permitted s cmd) :=
  inferInstanceAs (Decidable (_ ∧ _))

/-- All requests are permitted when they arrive. -/
def Admissible (svc : DsgLock κ → RpcCmd κ → DsgLock κ × List (RpcCmd κ)) :
    LockRun κ → List (RpcCmd κ) → Prop
  | _, [] => True
  | s, cmd :: rest => Permitted s cmd ∧ Admissible svc (serve svc s cmd) rest

instance decidableAdmissible (svc : DsgLock κ → RpcCmd κ → DsgLock κ × List (RpcCmd κ)) :
    (s : LockRun κ) → (cmds : List (RpcCmd κ)) → Decidable (Admissible svc s cmds)
  | _, [] => inferInstanceAs (Decidable True)
  | s, cmd :: rest =>
    have := decidableAdmissible svc (serve svc s cmd) rest
    inferInstanceAs (Decidable (Permitted s cmd ∧ Admissible svc (serve svc s cmd) rest))

theorem admissible_append {svc : DsgLock κ → RpcCmd κ → DsgLock κ × List (RpcCmd κ)} {s : LockRun κ}
    {cmds cmds' : List (RpcCmd κ)} :
    Admissible svc s (cmds ++ cmds') ↔ Admissible svc s cmds ∧ Admissible svc (lockRun svc s cmds) cmds' := by
  induction cmds generalizing s with
  | nil => exact (iff_of_eq (true_and _)).symm
  | cons cmd rest ih =>
    rw [cons_append, Admissible, Admissible, ih, and_assoc]
    rfl

theorem lockRun_append (svc : DsgLock κ → RpcCmd κ → DsgLock κ × List (RpcCmd κ)) (s : LockRun κ)
    (cmds cmds' : List (RpcCmd κ)) :
    lockRun svc s (cmds ++ cmds') = lockRun svc (lockRun svc s cmds) cmds' := foldl_append

end Run

/-! ## Counters stand for holders -/

/-- The counters and states of the lock are those of the holders. -/
structure Represents (dl : DsgLock κ) (held : List (κ × Access)) : Prop where
  rdCnt_eq : dl.rdCnt = accesses held .read
  wrCnt_eq : dl.wrCnt = accesses held .write
  rdLockState_iff : dl.rdLockState = .unlocked ↔ accesses held .read = 0
  wrLockState_iff : dl.wrLockState = .unlocked ↔ accesses held .write = 0

section Represents

variable {dl : DsgLock κ} {held : List (κ × Access)} (h : Represents dl held)

include h

theorem Represents.compatible_read : Compatible held .read ↔ dl.wrLockState = .unlocked := by
  rw [compatible_read_iff, h.wrLockState_iff]

theorem Represents.compatible_write : Compatible held .write ↔ dl.rdLockState = .unlocked ∧ dl.wrCnt = 0 := by
  rw [compatible_write_iff, h.rdLockState_iff, h.wrCnt_eq, Int.natCast_eq_zero]

theorem Represents.setWait (l : List (RpcCmd κ)) : Represents { dl with waitList := l } held :=
  ⟨h.rdCnt_eq, h.wrCnt_eq, h.rdLockState_iff, h.wrLockState_iff⟩

/-- One more reader. -/
theorem Represents.add_read (c : κ) :
    Represents { dl with rdLockState := .locked, rdCnt := dl.rdCnt + 1 } (held ++ [(c, .read)]) where
  rdCnt_eq := by
    rw [accesses_append_singleton, if_pos rfl, Nat.cast_add, ← h.rdCnt_eq]
    rfl
  wrCnt_eq := by
    rw [accesses_append_singleton, if_neg nofun]
    exact h.wrCnt_eq
  rdLockState_iff := by
    rw [accesses_append_singleton, if_pos rfl]
    exact ⟨nofun, nofun⟩
  wrLockState_iff := by
    rw [accesses_append_singleton, if_neg nofun]
    exact h.wrLockState_iff

/-- One more writer. -/
theorem Represents.add_write (c : κ) :
    Represents { dl with wrLockState := .locked, wrCnt := dl.wrCnt + 1 } (held ++ [(c, .write)]) where
  rdCnt_eq := by
    rw [accesses_append_singleton, if_neg nofun]
    exact h.rdCnt_eq
  wrCnt_eq := by
    rw [accesses_append_singleton, if_pos rfl, Nat.cast_add, ← h.wrCnt_eq]
    rfl
  rdLockState_iff := by
    rw [accesses_append_singleton, if_neg nofun]
    exact h.rdLockState_iff
  wrLockState_iff := by
    rw [accesses_append_singleton, if_pos rfl]
    exact ⟨nofun, nofun⟩

variable [DecidableEq κ]

/-- One reader less; the state changes with the last one, which has to notify. -/
theorem Represents.remove_read {c : κ} (hmem : (c, Access.read) ∈ held) :
    ∃ dl', (if dl.rdCnt - 1 = 0 then
        (LockAction.notify, { dl with rdCnt := dl.rdCnt - 1, rdLockState := .unlocked })
      else (.none, { dl with rdCnt := dl.rdCnt - 1 })) =
        (if accesses (held.erase (c, .read)) .read = 0 then .notify else .none, dl') ∧
      dl'.waitList = dl.waitList ∧ Represents dl' (held.erase (c, .read)) := by
  have hread := accesses_erase hmem .read
  have hwrite := accesses_erase hmem .write
  rw [if_pos rfl] at hread
  rw [if_neg nofun, Nat.add_zero] at hwrite
  -- The counter of the lock counts the holders, so one less of each.
  have hcnt : dl.rdCnt - 1 = accesses (held.erase (c, .read)) .read := by
    rw [h.rdCnt_eq, hread, Nat.cast_add]
    exact add_sub_cancel_right _ _
  have hwrCnt := h.wrCnt_eq
  have hwrState := h.wrLockState_iff
  rw [hwrite] at hwrCnt hwrState
  by_cases hz : accesses (held.erase (c, .read)) .read = 0
  · rw [if_pos (hcnt.trans (Int.natCast_eq_zero.2 hz)), if_pos hz]
    exact ⟨_, rfl, rfl, hcnt, hwrCnt, ⟨fun _ => hz, fun _ => rfl⟩, hwrState⟩
  · rw [if_neg fun hzero => hz (Int.natCast_eq_zero.1 (hcnt.symm.trans hzero)), if_neg hz]
    refine ⟨_, rfl, rfl, hcnt, hwrCnt, ?_, hwrState⟩
    rw [h.rdLockState_iff]
    omega

/-- One writer less; the state changes with the last one, which has to notify. -/
theorem Represents.remove_write {c : κ} (hmem : (c, Access.write) ∈ held) :
    ∃ dl', (if dl.wrCnt - 1 = 0 then
        (LockAction.notify, { dl with wrCnt := dl.wrCnt - 1, wrLockState := .unlocked })
      else (.none, { dl with wrCnt := dl.wrCnt - 1 })) =
        (if accesses (held.erase (c, .write)) .write = 0 then .notify else .none, dl') ∧
      dl'.waitList = dl.waitList ∧ Represents dl' (held.erase (c, .write)) := by
  have hread := accesses_erase hmem .read
  have hwrite := accesses_erase hmem .write
  rw [if_neg nofun, Nat.add_zero] at hread
  rw [if_pos rfl] at hwrite
  have hcnt : dl.wrCnt - 1 = accesses (held.erase (c, .write)) .write := by
    rw [h.wrCnt_eq, hwrite, Nat.cast_add]
    exact add_sub_cancel_right _ _
  have hrdCnt := h.rdCnt_eq
  have hrdState := h.rdLockState_iff
  rw [hread] at hrdCnt hrdState
  by_cases hz : accesses (held.erase (c, .write)) .write = 0
  · rw [if_pos (hcnt.trans (Int.natCast_eq_zero.2 hz)), if_pos hz]
    exact ⟨_, rfl, rfl, hrdCnt, hcnt, hrdState, ⟨fun _ => hz, fun _ => rfl⟩⟩
  · rw [if_neg fun hzero => hz (Int.natCast_eq_zero.1 (hcnt.symm.trans hzero)), if_neg hz]
    refine ⟨_, rfl, rfl, hrdCnt, hcnt, hrdState, ?_⟩
    rw [h.wrLockState_iff]
    omega

end Represents

/-! ## Requests -/

/-- How the function that decides about requests treats the holders, for locks with the property `Q`,
which it keeps. -/
structure RwProcess [DecidableEq κ] (process : DsgLock κ → LockHdr → Bool → LockAction × DsgLock κ)
    (Q : DsgLock κ → Prop) : Prop where
  setWait : ∀ {dl} l, Q dl → Q { dl with waitList := l }
  grants : ∀ {dl held lh b}, Q dl → Represents dl held → lh.type.isGet = true →
    Compatible held lh.type.access → (lh.type = .readGet → b = true) →
    ∃ dl', process dl lh b = (.grant, dl') ∧ Q dl' ∧ dl'.waitList = dl.waitList ∧
      ∀ c, Represents dl' (held ++ [(c, lh.type.access)])
  waits : ∀ {dl held lh b}, Q dl → Represents dl held → lh.type.isGet = true →
    ¬ (Compatible held lh.type.access ∧ (lh.type = .readGet → b = true)) →
    process dl lh b = (.wait, dl)
  releases : ∀ {dl held lh b c}, Q dl → Represents dl held → lh.type.isRelease = true →
    (c, lh.type.access) ∈ held →
    ∃ dl', process dl lh b = (if accesses (held.erase (c, lh.type.access)) lh.type.access = 0
        then .notify else .none, dl') ∧
      Q dl' ∧ dl'.waitList = dl.waitList ∧ Represents dl' (held.erase (c, lh.type.access))

section Process

variable [DecidableEq κ]

theorem rwProcess_generic : RwProcess (lockProcessRequest : DsgLock κ → _) fun _ => True where
  setWait := fun _ _ => trivial
  -- A request is let in when no holder excludes it, and a read only when nobody waits.
  grants := by
    intro dl held lh b _ h hget hcomp hb
    unfold lockProcessRequest
    rcases LockType.eq_of_isGet hget with htype | htype
    · rw [htype] at hcomp ⊢
      exact ⟨_, if_pos ⟨h.compatible_read.1 hcomp, hb htype⟩, trivial, rfl, h.add_read⟩
    · rw [htype] at hcomp ⊢
      exact ⟨_, if_pos (h.compatible_write.1 hcomp), trivial, rfl, h.add_write⟩
  waits := by
    intro dl held lh b _ h hget hno
    unfold lockProcessRequest
    rcases LockType.eq_of_isGet hget with htype | htype
    · rw [htype] at hno ⊢
      exact if_neg fun hyes => hno ⟨h.compatible_read.2 hyes.1, fun _ => hyes.2⟩
    · rw [htype] at hno ⊢
      exact if_neg fun hyes => hno ⟨h.compatible_write.2 hyes, nofun⟩
  -- The last release of its kind unlocks and notifies, any other only counts.
  releases := by
    intro dl held lh b c _ h hrel hmem
    unfold lockProcessRequest
    rcases LockType.eq_of_isRelease hrel with htype | htype
    · rw [htype] at hmem ⊢
      obtain ⟨dl', heq, hwait, hrep⟩ := h.remove_read hmem
      exact ⟨dl', heq, trivial, hwait, hrep⟩
    · rw [htype] at hmem ⊢
      obtain ⟨dl', heq, hwait, hrep⟩ := h.remove_write hmem
      exact ⟨dl', heq, trivial, hwait, hrep⟩

end Process

/-! ## Locks with a blocked queue -/

/-- The lock stands for its holders, the requests on the wait list ask for it, and the first of them
cannot be granted. -/
structure Queued (dl : DsgLock κ) (held : List (κ × Access)) : Prop where
  represents : Represents dl held
  exclusive : Exclusive held
  gets : ∀ cmd ∈ dl.waitList, cmd.hdr.type.isGet = true
  settled : Settled held (dl.waitList.map RpcCmd.entry)

/-- A request was served: the lock is still queued, and of the requests that waited and the new one
the first ones were granted. -/
structure ServedInOrder [DecidableEq κ] (Q : DsgLock κ → Prop) (dl : DsgLock κ)
    (held : List (κ × Access)) (cmd : RpcCmd κ) (r : DsgLock κ × List (RpcCmd κ)) : Prop where
  keeps : Q r.1
  queued : Queued r.1 (heldAfter held cmd ++ r.2.map RpcCmd.entry)
  order : dl.waitList ++ [cmd].filter (fun cmd => cmd.hdr.type.isGet) = r.2 ++ r.1.waitList

section Queued

variable [DecidableEq κ] {process : DsgLock κ → LockHdr → Bool → LockAction × DsgLock κ}
  {Q : DsgLock κ → Prop} (hp : RwProcess process Q)

include hp

variable {dl : DsgLock κ} {held : List (κ × Access)} {cmd : RpcCmd κ}

/-- Draining the wait list admits from it. -/
theorem drainWaitList_spec (hQ : Q dl) (h : Represents dl held) {l : List (RpcCmd κ)}
    (hgets : ∀ cmd ∈ l, cmd.hdr.type.isGet = true) : Q (drainWaitList process l dl).1 ∧
      l = (drainWaitList process l dl).2 ++ (drainWaitList process l dl).1.waitList ∧
      Represents (drainWaitList process l dl).1 (held ++ (drainWaitList process l dl).2.map RpcCmd.entry) ∧
      letIn held (l.map RpcCmd.entry) = (held ++ (drainWaitList process l dl).2.map RpcCmd.entry,
        (drainWaitList process l dl).1.waitList.map RpcCmd.entry) := by
  -- By induction on the list. The scan stops at the first request that has to wait, like `letIn`.
  induction l generalizing dl held with
  | nil =>
    refine ⟨hp.setWait [] hQ, rfl, ?_, ?_⟩
    · rw [drainWaitList, map_nil, append_nil]
      exact h.setWait []
    · rw [drainWaitList, map_nil, append_nil]
      rfl
  | cons rr rest ih =>
    have hget := hgets rr mem_cons_self
    by_cases hcomp : Compatible held rr.entry.2
    · obtain ⟨dl', heq, hQ', -, hrep⟩ := hp.grants (b := true) hQ h hget hcomp fun _ => rfl
      have hdrain : drainWaitList process (rr :: rest) dl =
          ((drainWaitList process rest dl').1, rr :: (drainWaitList process rest dl').2) := by
        rw [drainWaitList, heq]
      obtain ⟨hQ'', hlist, hrep', hletIn⟩ :=
        ih hQ' (hrep rr.id) fun cmd hcmd => hgets cmd (mem_cons_of_mem rr hcmd)
      have hcons : held ++ [(rr.id, rr.hdr.type.access)] ++
          (drainWaitList process rest dl').2.map RpcCmd.entry =
            held ++ (rr :: (drainWaitList process rest dl').2).map RpcCmd.entry := by
        rw [append_assoc]
        rfl
      rw [hdrain]
      rw [hcons] at hrep' hletIn
      refine ⟨hQ'', ?_, hrep', ?_⟩
      · rw [cons_append, ← hlist]
      · rw [map_cons, letIn, if_pos hcomp]
        exact hletIn
    · have heq := hp.waits (b := true) hQ h hget fun hyes => hcomp hyes.1
      have hdrain : drainWaitList process (rr :: rest) dl = ({ dl with waitList := rr :: rest }, []) := by
        rw [drainWaitList, heq]
      rw [hdrain, map_nil, append_nil]
      refine ⟨hp.setWait _ hQ, rfl, h.setWait _, ?_⟩
      rw [map_cons, letIn, if_neg hcomp]

/-- After draining, the first request on the wait list is blocked. -/
theorem drainWaitList_queued (hQ : Q dl) (h : Represents dl held) (hex : Exclusive held)
    (hgets : ∀ cmd ∈ dl.waitList, cmd.hdr.type.isGet = true) : Q (drainWaitList process dl.waitList dl).1 ∧
      dl.waitList = (drainWaitList process dl.waitList dl).2 ++
        (drainWaitList process dl.waitList dl).1.waitList ∧ Queued (drainWaitList process dl.waitList dl).1
        (held ++ (drainWaitList process dl.waitList dl).2.map RpcCmd.entry) := by
  obtain ⟨hQ', hlist, hrep, hletIn⟩ := drainWaitList_spec hp hQ h hgets
  obtain ⟨-, -, -, hex', hsettled⟩ := letIn_spec held (dl.waitList.map RpcCmd.entry) hex
  rw [hletIn] at hex' hsettled
  refine ⟨hQ', hlist, hrep, hex', fun cmd hcmd => hgets cmd ?_, hsettled⟩
  rw [hlist]
  exact mem_append_right _ hcmd

/-- A request for the lock. -/
theorem service_get (hQ : Q dl) (h : Queued dl held) (hget : cmd.hdr.type.isGet = true) :
    ServedInOrder Q dl held cmd
      (service process (fun dl => drainWaitList process dl.waitList dl) dl.waitList.isEmpty dl cmd) := by
  have hafter : heldAfter held cmd = held := by
    rw [heldAfter, if_neg]
    cases htype : cmd.hdr.type <;> simp_all [LockType.isGet, LockType.isRelease]
  have hasked : [cmd].filter (fun cmd => cmd.hdr.type.isGet) = [cmd] := by simp [hget]
  by_cases hyes : Compatible held cmd.entry.2 ∧ (cmd.hdr.type = .readGet → dl.waitList.isEmpty = true)
  · obtain ⟨dl', heq, hQ', hwait, hrep⟩ := hp.grants hQ h.represents hget hyes.1 hyes.2
    -- A compatible request finds no queue: the head of a queue is blocked by a holder.
    have hempty : dl.waitList = [] := by
      by_contra hne
      have hmap : dl.waitList.map RpcCmd.entry ≠ [] := by simpa using hne
      have hheld := h.settled.held_ne_nil hmap
      rcases LockType.eq_of_isGet hget with htype | htype
      · exact hne (isEmpty_iff.1 (hyes.2 htype))
      · have hcomp := hyes.1
        rw [RpcCmd.entry, htype] at hcomp
        exact hheld hcomp
    rw [hempty] at hwait
    rw [service, heq]
    refine ⟨hQ', ?_, ?_⟩
    · rw [hafter]
      refine ⟨hrep cmd.id, hyes.1.exclusive, ?_, ?_⟩
      · rw [hwait]
        exact fun _ hx => absurd hx not_mem_nil
      · rw [hwait]
        exact Settled.nil _
    · rw [hasked, hempty, hwait, nil_append, append_nil]
  · have heq := hp.waits hQ h.represents hget hyes
    rw [service, heq]
    refine ⟨hp.setWait _ hQ, ?_, by rw [hasked, nil_append]; rfl⟩
    rw [hafter, map_nil, append_nil]
    refine ⟨h.represents.setWait _, h.exclusive, ?_, ?_⟩
    · intro x hx
      rcases mem_append.1 hx with hx | hx
      · exact h.gets x hx
      · rw [mem_singleton.1 hx]
        exact hget
    · show Settled held ((dl.waitList ++ [cmd]).map RpcCmd.entry)
      rw [map_append]
      cases hlist : dl.waitList with
      | nil =>
        -- The request is alone; it was not compatible.
        rw [hlist] at hyes
        intro x hx hcomp
        rw [map_nil, nil_append, map_singleton, head?_cons, Option.mem_def, Option.some.injEq] at hx
        rw [← hx] at hcomp
        exact hyes ⟨hcomp, fun _ => rfl⟩
      | cons y rest =>
        have hsettled := h.settled
        rw [hlist] at hsettled
        exact hsettled.append (by simp) _

/-- A holder gives the lock back. -/
theorem service_release (hQ : Q dl) (h : Queued dl held) (hrelease : cmd.hdr.type.isRelease = true)
    (hmem : cmd.entry ∈ held) : ServedInOrder Q dl held cmd
      (service process (fun dl => drainWaitList process dl.waitList dl) dl.waitList.isEmpty dl cmd) := by
  have hafter : heldAfter held cmd = held.erase cmd.entry := by rw [heldAfter, if_pos hrelease]
  have hasked : [cmd].filter (fun cmd => cmd.hdr.type.isGet) = [] := by
    cases htype : cmd.hdr.type <;> simp_all [LockType.isGet, LockType.isRelease]
  obtain ⟨dl', heq, hQ', hwait, hrep⟩ := hp.releases (b := dl.waitList.isEmpty) hQ h.represents hrelease hmem
  have hgets : ∀ x ∈ dl'.waitList, x.hdr.type.isGet = true := by
    rw [hwait]
    exact h.gets
  by_cases hz : accesses (held.erase cmd.entry) cmd.hdr.type.access = 0
  · -- The last one of its kind: the wait list is drained.
    rw [service, heq, show accesses (held.erase (cmd.id, _)) _ = 0 from hz, if_pos rfl]
    obtain ⟨hQ'', hlist, hqueued⟩ := drainWaitList_queued hp hQ' hrep (h.exclusive.erase _) hgets
    refine ⟨hQ'', ?_, ?_⟩
    · rw [hafter]
      exact hqueued
    · rw [hasked, append_nil, ← hlist, hwait]
  · rw [service, heq, if_neg (show ¬ accesses (held.erase (cmd.id, _)) _ = 0 from hz)]
    refine ⟨hQ', ?_, by rw [hasked, append_nil, nil_append, hwait]⟩
    rw [hafter, map_nil, append_nil]
    refine ⟨hrep, h.exclusive.erase _, hgets, ?_⟩
    rw [hwait]
    -- Another holder of the same kind stays, so they are readers.
    have hleft : held.erase cmd.entry ≠ [] := fun hnil => hz (by rw [hnil]; rfl)
    rcases LockType.eq_of_isRelease hrelease with htype | htype
    · have hentry : cmd.entry = (cmd.id, .read) := by rw [RpcCmd.entry, htype]; rfl
      rw [hentry] at hmem hleft ⊢
      exact h.settled.erase_read h.exclusive hmem hleft
    · have hentry : cmd.entry = (cmd.id, .write) := by rw [RpcCmd.entry, htype]; rfl
      rw [hentry] at hmem hleft
      rcases h.exclusive with ⟨w, hw⟩ | hread
      · rw [hw] at hmem hleft
        rw [mem_singleton.1 hmem, erase_cons_head] at hleft
        exact absurd rfl hleft
      · exact absurd (hread _ hmem) nofun

/-- A permitted request keeps the lock queued, and what it grants is the front of the queue. -/
theorem service_queued {s : LockRun κ} (hQ : Q s.dl) (h : Queued s.dl s.held) (hcmd : Permitted s cmd) :
    ServedInOrder Q s.dl s.held cmd
      (service process (fun dl => drainWaitList process dl.waitList dl) s.dl.waitList.isEmpty s.dl cmd) := by
  rcases LockType.isGet_or_isRelease hcmd.1 with hget | hrel
  · exact service_get hp hQ h hget
  · exact service_release hp hQ h hrel (hcmd.2 hrel)

/-- Along a run of a queued lock the requests are granted in the order of their arrival. -/
theorem lockRun_queued (svc : DsgLock κ → RpcCmd κ → DsgLock κ × List (RpcCmd κ))
    (hsvc : ∀ dl cmd, svc dl cmd =
      service process (fun dl => drainWaitList process dl.waitList dl) dl.waitList.isEmpty dl cmd)
    {s : LockRun κ} (hQ : Q s.dl) (h : Queued s.dl s.held) {cmds : List (RpcCmd κ)}
    (hadm : Admissible svc s cmds) :
    Q (lockRun svc s cmds).dl ∧ Queued (lockRun svc s cmds).dl (lockRun svc s cmds).held ∧
      ∃ new, (lockRun svc s cmds).granted = s.granted ++ new ∧
        s.dl.waitList ++ cmds.filter (fun cmd => cmd.hdr.type.isGet) =
          new ++ (lockRun svc s cmds).dl.waitList := by
  induction cmds generalizing s with
  | nil => exact ⟨hQ, h, [], (append_nil _).symm, append_nil _⟩
  | cons cmd rest ih =>
    have hserved := service_queued hp hQ h hadm.1
    rw [← hsvc] at hserved
    obtain ⟨hQ', hqueued, new, hgranted, horder⟩ :=
      ih (s := serve svc s cmd) hserved.keeps hserved.queued hadm.2
    -- What this message has granted comes before what the rest grants.
    refine ⟨hQ', hqueued, (svc s.dl cmd).2 ++ new, ?_, ?_⟩
    · rw [← append_assoc]
      exact hgranted
    · have hsplit : (cmd :: rest).filter (fun cmd => cmd.hdr.type.isGet) =
          [cmd].filter (fun cmd => cmd.hdr.type.isGet) ++
            rest.filter fun cmd => cmd.hdr.type.isGet := by
        rw [← filter_append]
        rfl
      rw [hsplit, ← append_assoc, hserved.order, append_assoc, append_assoc]
      exact congrArg _ horder

end Queued

/-! ## The generic lock -/

section

variable [DecidableEq κ]

omit [DecidableEq κ] in
theorem queued_of_free {dl : DsgLock κ} (hrd : dl.rdCnt = 0) (hwr : dl.wrCnt = 0)
    (hrs : dl.rdLockState = .unlocked) (hws : dl.wrLockState = .unlocked) (hwait : dl.waitList = []) :
    Queued dl [] where
  represents := ⟨hrd, hwr, ⟨fun _ => rfl, fun _ => hrs⟩, ⟨fun _ => rfl, fun _ => hws⟩⟩
  exclusive := Or.inr fun _ h => absurd h not_mem_nil
  gets := by
    rw [hwait]
    exact fun _ h => absurd h not_mem_nil
  settled := by
    rw [hwait]
    exact Settled.nil _

omit [DecidableEq κ] in
theorem Represents.locked_iff {dl : DsgLock κ} {held : List (κ × Access)} (h : Represents dl held) :
    (dl.rdLockState = .locked ↔ 0 < accesses held .read) ∧
      (dl.wrLockState = .locked ↔ 0 < accesses held .write) := by
  have hstate : ∀ st : LockState, st = .locked ↔ ¬ st = .unlocked := by
    intro st
    cases st with
    | unlocked => simp
    | locked => simp
  rw [hstate, hstate, h.rdLockState_iff, h.wrLockState_iff, Nat.pos_iff_ne_zero, Nat.pos_iff_ne_zero]
  exact ⟨Iff.rfl, Iff.rfl⟩

/-- The generic lock after any requests: writers exclude everybody, counters and states are those of
the holders, grants follow the order of arrival, and only a held lock has a wait list. -/
theorem generic_lock_fifo (maxReaders : Int) (lockName : String) (cmds : List (RpcCmd κ))
    (hadm : Admissible lockService (.start (dsgLockAlloc .generic maxReaders lockName)) cmds) :
    let s := lockRun lockService (.start (dsgLockAlloc .generic maxReaders lockName)) cmds
    (accesses s.held .write ≤ 1 ∧ (accesses s.held .write = 0 ∨ accesses s.held .read = 0)) ∧
      (s.dl.rdCnt = accesses s.held .read ∧ s.dl.wrCnt = accesses s.held .write ∧
        (s.dl.rdLockState = .locked ↔ 0 < accesses s.held .read) ∧
        (s.dl.wrLockState = .locked ↔ 0 < accesses s.held .write)) ∧
      cmds.filter (fun cmd => cmd.hdr.type.isGet) = s.granted ++ s.dl.waitList ∧
      (s.dl.waitList ≠ [] → s.held ≠ []) := by
  intro s
  obtain ⟨-, h, new, hgranted, horder⟩ := lockRun_queued rwProcess_generic lockService
    (fun _ _ => rfl) (s := .start (dsgLockAlloc .generic maxReaders lockName)) trivial
    (queued_of_free rfl rfl rfl rfl rfl) hadm
  refine ⟨h.exclusive.accesses,
    ⟨h.represents.rdCnt_eq, h.represents.wrCnt_eq, h.represents.locked_iff⟩, ?_, fun hwait => ?_⟩
  · have hall : s.granted = new := hgranted
    rw [hall]
    exact horder
  · exact h.settled.held_ne_nil (by simpa using hwait)

/-- A request of a client, which carries the number `0`. -/
def ask (c : Nat) (type : LockType) : RpcCmd Nat := ⟨c, type, 0, "field"⟩

/-- A reader and a writer wait behind the writer that holds the lock. -/
theorem generic_lock_fifo_waiting :
    let s := lockRun lockService (.start (dsgLockAlloc .generic 1 "field"))
      [ask 0 .writeGet, ask 1 .readGet, ask 2 .writeGet]
    s.dl.waitList = [ask 1 .readGet, ask 2 .writeGet] ∧ s.held ≠ [] :=
  ⟨by decide, (generic_lock_fifo 1 "field" [ask 0 .writeGet, ask 1 .readGet, ask 2 .writeGet]
    (by decide)).2.2.2 (by decide)⟩

end

end DataSpaces.Lock
