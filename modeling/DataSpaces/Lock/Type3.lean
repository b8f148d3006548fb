import DataSpaces.Lock.Fifo

/-!
# The lock of type 3

Type 3 is the generic lock with a gate: before the first release of a write lock no read lock is
granted, so readers wait even if the lock is free, and a writer may pass them (`Closed`). The release
opens the gate for good and drains the wait list; from then on the lock is a queued lock.
-/

namespace DataSpaces.Lock

open Lib List

variable {κ : Type*}

/-! ## Requests -/

section

variable [DecidableEq κ]

omit [DecidableEq κ] in
/-- Type 3 differs in the test of the epoch by read requests, and counts the releases of write locks. -/
theorem lockProcessRequestV3_eq (dl : DsgLock κ) (lh : LockHdr) (b : Bool)
    (hopen : lh.type = .readGet → 0 < dl.wrEpoch) :
    ∃ e, dl.wrEpoch ≤ e ∧ (lh.type ≠ .writeRelease → e = dl.wrEpoch) ∧
      ((lockProcessRequest dl lh b).1 = .notify → lh.type = .writeRelease → dl.wrEpoch < e) ∧
      lockProcessRequestV3 dl lh b =
        ((lockProcessRequest dl lh b).1, { (lockProcessRequest dl lh b).2 with wrEpoch := e }) := by
  unfold lockProcessRequest lockProcessRequestV3
  cases htype : lh.type with
  -- The one request that the two kinds treat differently: it also needs a write epoch.
  | readGet =>
    refine ⟨dl.wrEpoch, le_rfl, fun _ => rfl, nofun, ?_⟩
    by_cases hyes : dl.wrLockState = .unlocked ∧ b = true
    · dsimp only
      rw [if_pos ⟨hyes.1, hopen htype, hyes.2⟩, if_pos hyes]
    · dsimp only
      rw [if_neg fun h => hyes ⟨h.1, h.2.2⟩, if_neg hyes]
  | readRelease | writeGet =>
    refine ⟨dl.wrEpoch, le_rfl, fun _ => rfl, nofun, ?_⟩
    dsimp only
    split
    · rfl
    · rfl
  -- The last write release counts an epoch up, which the generic lock does not have.
  | writeRelease =>
    by_cases hz : dl.wrCnt - 1 = 0
    · refine ⟨dl.wrEpoch + 1, by omega, fun h => absurd rfl h, fun _ _ => by omega, ?_⟩
      dsimp only
      rw [if_pos hz, if_pos hz]
    · refine ⟨dl.wrEpoch, le_rfl, fun h => absurd rfl h, fun h => ?_, ?_⟩
      · dsimp only at h
        rw [if_neg hz] at h
        cases h
      · dsimp only
        rw [if_neg hz, if_neg hz]
  | grant => exact ⟨dl.wrEpoch, le_rfl, fun _ => rfl, nofun, rfl⟩

omit [DecidableEq κ] in
theorem Represents.setEpoch {dl : DsgLock κ} {held : List (κ × Access)} (h : Represents dl held)
    (e : Int) : Represents { dl with wrEpoch := e } held :=
  ⟨h.rdCnt_eq, h.wrCnt_eq, h.rdLockState_iff, h.wrLockState_iff⟩

/-- Once a write lock has been released, type 3 decides as the generic lock does. -/
theorem rwProcess_v3 :
    RwProcess (lockProcessRequestV3 : DsgLock κ → _) fun dl => 0 < dl.wrEpoch where
  setWait := fun _ h => h
  grants := by
    intro dl held lh b hopen h hget hcomp hb
    obtain ⟨dl', heq, -, hwait, hrep⟩ := rwProcess_generic.grants trivial h hget hcomp hb
    obtain ⟨e, hle, -, -, heq'⟩ := lockProcessRequestV3_eq dl lh b fun _ => hopen
    rw [heq] at heq'
    exact ⟨_, heq', lt_of_lt_of_le hopen hle, hwait, fun c => (hrep c).setEpoch e⟩
  waits := by
    intro dl held lh b hopen h hget hno
    have heq := rwProcess_generic.waits trivial h hget hno
    obtain ⟨e, -, hsame, -, heq'⟩ := lockProcessRequestV3_eq dl lh b fun _ => hopen
    have htype : lh.type ≠ .writeRelease := fun ht => by rw [ht] at hget; cases hget
    rw [heq, hsame htype] at heq'
    exact heq'
  releases := by
    intro dl held lh b c hopen h hrel hmem
    obtain ⟨dl', heq, -, hwait, hrep⟩ := rwProcess_generic.releases (b := b) trivial h hrel hmem
    obtain ⟨e, hle, -, -, heq'⟩ := lockProcessRequestV3_eq dl lh b fun _ => hopen
    rw [heq] at heq'
    exact ⟨_, heq', lt_of_lt_of_le hopen hle, hwait, hrep.setEpoch e⟩

end

/-! ## Before the first release of a write lock -/

/-- Before the first release of a write lock: at most a writer holds the lock, and if nobody does, only
readers wait. -/
structure Closed (dl : DsgLock κ) (held : List (κ × Access)) : Prop where
  epoch : dl.wrEpoch = 0
  represents : Represents dl held
  exclusive : Exclusive held
  writers : ∀ h ∈ held, h.2 = .write
  gets : ∀ cmd ∈ dl.waitList, cmd.hdr.type.isGet = true
  reads : held = [] → ∀ cmd ∈ dl.waitList, cmd.hdr.type = .readGet

section V3

variable [DecidableEq κ] {dl : DsgLock κ} {held : List (κ × Access)} {cmds : List (RpcCmd κ)} {s : LockRun κ}

omit [DecidableEq κ] in
/-- A request that waits on a closed lock. -/
theorem Closed.wait (h : Closed dl held) {cmd : RpcCmd κ}
    (hget : cmd.hdr.type.isGet = true) (hread : held = [] → cmd.hdr.type = .readGet) :
    Closed (dsgLockPutOnWait dl cmd) held where
  epoch := h.epoch
  represents := h.represents.setWait _
  exclusive := h.exclusive
  writers := h.writers
  gets := by
    intro x hx
    rcases mem_append.1 hx with hx | hx
    · exact h.gets x hx
    · rw [mem_singleton.1 hx]
      exact hget
  reads := by
    intro hheld x hx
    rcases mem_append.1 hx with hx | hx
    · exact h.reads hheld x hx
    · rw [mem_singleton.1 hx]
      exact hread hheld

variable {cmd : RpcCmd κ}

/-- A request for a closed lock: only a writer that finds it free gets it. -/
theorem Closed.service_get (h : Closed dl held) (hget : cmd.hdr.type.isGet = true) :
    Closed (lockServiceV3 dl cmd).1 (held ++ (lockServiceV3 dl cmd).2.map RpcCmd.entry) ∧
      ∀ x ∈ (lockServiceV3 dl cmd).2, x.hdr.type = .writeGet := by
  rcases LockType.eq_of_isGet hget with htype | htype
  -- Before the first write release no read is granted.
  · have heq : lockProcessRequestV3 dl cmd.hdr dl.waitList.isEmpty = (.wait, dl) := by
      rw [lockProcessRequestV3, htype]
      refine if_neg fun hyes => ?_
      rw [h.epoch] at hyes
      exact lt_irrefl 0 hyes.2.1
    rw [lockServiceV3, service, heq, map_nil, append_nil]
    exact ⟨h.wait hget fun _ => htype, fun _ hx => absurd hx not_mem_nil⟩
  · obtain ⟨e, -, hsame, -, heq⟩ :=
      lockProcessRequestV3_eq dl cmd.hdr dl.waitList.isEmpty fun hr => absurd (htype.symm.trans hr) (by decide)
    have he : e = dl.wrEpoch := hsame fun hw => absurd (htype.symm.trans hw) (by decide)
    by_cases hcomp : Compatible held cmd.entry.2
    · -- A write is granted only on a free lock.
      have hnil : held = [] := by
        rw [RpcCmd.entry, htype] at hcomp
        exact hcomp
      obtain ⟨dl', hgen, -, hwait, hrep⟩ := rwProcess_generic.grants (b := dl.waitList.isEmpty) trivial
        h.represents hget hcomp fun hr => absurd (htype.symm.trans hr) (by decide)
      rw [hgen, he] at heq
      rw [lockServiceV3, service, heq]
      refine ⟨⟨h.epoch, (hrep cmd.id).setEpoch _, hcomp.exclusive, ?_, ?_, ?_⟩, ?_⟩
      · intro x hx
        rw [hnil, nil_append, map_singleton, mem_singleton] at hx
        rw [hx, RpcCmd.entry, htype]
        rfl
      · show ∀ x ∈ dl'.waitList, _
        rw [hwait]
        exact h.gets
      · intro hheld
        rw [hnil] at hheld
        cases hheld
      · intro x hx
        rw [mem_singleton.1 hx]
        exact htype
    · have hgen := rwProcess_generic.waits (b := dl.waitList.isEmpty) trivial h.represents hget
        fun hyes => hcomp hyes.1
      rw [hgen, he] at heq
      rw [lockServiceV3, service, heq, map_nil, append_nil]
      refine ⟨h.wait hget fun hnil => absurd ?_ hcomp, fun _ hx => absurd hx not_mem_nil⟩
      rw [hnil]
      exact compatible_nil _

/-- The first release of a write lock opens the lock and drains the wait list. -/
theorem Closed.service_release (h : Closed dl held)
    (htype : cmd.hdr.type = .writeRelease) (hmem : cmd.entry ∈ held) :
    ServedInOrder (fun dl => 0 < dl.wrEpoch) dl held cmd (lockServiceV3 dl cmd) := by
  have hrelease : cmd.hdr.type.isRelease = true := by rw [htype]; rfl
  have hafter : heldAfter held cmd = held.erase cmd.entry := by rw [heldAfter, if_pos hrelease]
  have hasked : [cmd].filter (fun cmd => cmd.hdr.type.isGet) = [] := by simp [htype, LockType.isGet]
  -- Only writers hold the lock so far, hence one, and it leaves.
  have hnil : held.erase cmd.entry = [] := by
    rcases h.exclusive with ⟨w, hw⟩ | hread
    · rw [hw] at hmem ⊢
      rw [mem_singleton.1 hmem, erase_cons_head]
    · exact absurd ((hread _ hmem).symm.trans (h.writers _ hmem)) (by decide)
  obtain ⟨dl', hgen, -, hwait, hrep⟩ :=
    rwProcess_generic.releases (b := dl.waitList.isEmpty) trivial h.represents hrelease hmem
  rw [show held.erase (cmd.id, cmd.hdr.type.access) = [] from hnil,
    show accesses ([] : List (κ × Access)) cmd.hdr.type.access = 0 from rfl, if_pos rfl] at hgen
  obtain ⟨e, -, -, hlt, heq⟩ :=
    lockProcessRequestV3_eq dl cmd.hdr dl.waitList.isEmpty fun hr => absurd (htype.symm.trans hr) (by decide)
  rw [hgen] at hlt heq
  have hopen : 0 < e := by
    have hepoch := hlt rfl htype
    rwa [h.epoch] at hepoch
  have hex : Exclusive (held.erase cmd.entry) := h.exclusive.erase _
  have hgets : ∀ x ∈ ({ dl' with wrEpoch := e } : DsgLock κ).waitList, x.hdr.type.isGet = true := by
    show ∀ x ∈ dl'.waitList, _
    rw [hwait]
    exact h.gets
  -- The epoch is positive now, so the list is drained like that of the generic lock.
  obtain ⟨hQ, hlist, hqueued⟩ := drainWaitList_queued rwProcess_v3 hopen (hrep.setEpoch e) hex hgets
  rw [lockServiceV3, service, heq]
  refine ⟨hQ, ?_, ?_⟩
  · rw [hafter]
    exact hqueued
  · rw [hasked, append_nil, ← hwait]
    exact hlist

/-- The lock of type 3 after the requests `cmds`: closed, with grants to writers only, or open. -/
def OpenOrClosed (cmds : List (RpcCmd κ)) (s : LockRun κ) : Prop :=
  (Closed s.dl s.held ∧ (∀ cmd ∈ cmds, cmd.hdr.type ≠ .writeRelease) ∧
      ∀ cmd ∈ s.granted, cmd.hdr.type = .writeGet) ∨
    0 < s.dl.wrEpoch ∧ Queued s.dl s.held ∧ ∃ cmd ∈ cmds, cmd.hdr.type = .writeRelease

/-- A release of a write lock leaves the lock open, and grants from the front of the wait list. -/
theorem OpenOrClosed.release (h : OpenOrClosed cmds s)
    (hcmd : Permitted s cmd) (htype : cmd.hdr.type = .writeRelease) :
    ServedInOrder (fun dl => 0 < dl.wrEpoch) s.dl s.held cmd (lockServiceV3 s.dl cmd) := by
  rcases h with ⟨hclosed, -, -⟩ | ⟨hopen, hqueued, -⟩
  · exact hclosed.service_release htype (hcmd.2 (by rw [htype]; rfl))
  · exact service_queued rwProcess_v3 hopen hqueued hcmd

theorem OpenOrClosed.serve (h : OpenOrClosed cmds s)
    (hcmd : Permitted s cmd) : OpenOrClosed (cmds ++ [cmd]) (serve lockServiceV3 s cmd) := by
  by_cases htype : cmd.hdr.type = .writeRelease
  · have hserved := h.release hcmd htype
    exact Or.inr ⟨hserved.keeps, hserved.queued, cmd, mem_append_right _ (mem_singleton_self cmd), htype⟩
  · rcases h with ⟨hclosed, hnone, hwrites⟩ | ⟨hopen, hqueued, x, hx, hxtype⟩
    · have hget : cmd.hdr.type.isGet = true := by
        refine (LockType.isGet_or_isRelease hcmd.1).resolve_right fun hrel => ?_
        -- Nobody holds a read lock.
        have hwriter := hclosed.writers _ (hcmd.2 hrel)
        rcases LockType.eq_of_isRelease hrel with ht | ht
        · rw [RpcCmd.entry, ht] at hwriter
          cases hwriter
        · exact htype ht
      have hafter : heldAfter s.held cmd = s.held := by
        rw [heldAfter, if_neg]
        cases ht : cmd.hdr.type <;> simp_all [LockType.isGet, LockType.isRelease]
      obtain ⟨hclosed', hgranted⟩ := hclosed.service_get hget
      refine Or.inl ⟨?_, fun x hx => ?_, fun x hx => ?_⟩
      · rw [Lock.serve, hafter]
        exact hclosed'
      · rcases mem_append.1 hx with hx | hx
        · exact hnone x hx
        · rw [mem_singleton.1 hx]
          exact htype
      · rcases mem_append.1 hx with hx | hx
        · exact hwrites x hx
        · exact hgranted x hx
    · have hserved := service_queued rwProcess_v3 hopen hqueued hcmd
      exact Or.inr ⟨hserved.keeps, hserved.queued, x, mem_append_left _ hx, hxtype⟩

theorem openOrClosed_lockRun (maxReaders : Int) (lockName : String) (cmds : List (RpcCmd κ))
    (hadm : Admissible lockServiceV3 (.start (dsgLockAlloc .v3 maxReaders lockName)) cmds) :
    OpenOrClosed cmds (lockRun lockServiceV3 (.start (dsgLockAlloc .v3 maxReaders lockName)) cmds) := by
  induction cmds using reverseRecOn with
  | nil =>
    have hfree : Queued (dsgLockAlloc .v3 maxReaders lockName : DsgLock κ) [] :=
      queued_of_free rfl rfl rfl rfl rfl
    exact Or.inl ⟨⟨rfl, hfree.represents, hfree.exclusive, fun _ h => absurd h not_mem_nil, hfree.gets,
      fun _ _ h => absurd h not_mem_nil⟩, fun _ h => absurd h not_mem_nil,
      fun _ h => absurd h not_mem_nil⟩
  | append_singleton cmds cmd ih =>
    obtain ⟨hcmds, hcmd, -⟩ := admissible_append.1 hadm
    rw [lockRun_append]
    exact (ih hcmds).serve hcmd

/-- The lock of type 3 after any requests: writers exclude everybody; no read lock is granted before
the first release of a write lock; from a release of a write lock on, grants follow the order of
arrival; and if requests wait on a free lock, no write lock has been released and all of them are
reads. -/
theorem type3_lock_fifo (maxReaders : Int) (lockName : String) (cmds : List (RpcCmd κ))
    (hadm : Admissible lockServiceV3 (.start (dsgLockAlloc .v3 maxReaders lockName)) cmds) :
    let run := lockRun lockServiceV3 (.start (dsgLockAlloc .v3 maxReaders lockName))
    (accesses (run cmds).held .write ≤ 1 ∧
        (accesses (run cmds).held .write = 0 ∨ accesses (run cmds).held .read = 0)) ∧
      ((∀ cmd ∈ cmds, cmd.hdr.type ≠ .writeRelease) →
        ∀ cmd ∈ (run cmds).granted, cmd.hdr.type ≠ .readGet) ∧
      (∀ pre cmd post, cmds = pre ++ cmd :: post → cmd.hdr.type = .writeRelease →
        ∃ new, (run cmds).granted = (run pre).granted ++ new ∧
          (run pre).dl.waitList ++ post.filter (fun cmd => cmd.hdr.type.isGet) =
            new ++ (run cmds).dl.waitList) ∧
      ((run cmds).held = [] → (run cmds).dl.waitList ≠ [] →
        (∀ cmd ∈ cmds, cmd.hdr.type ≠ .writeRelease) ∧
          ∀ cmd ∈ (run cmds).dl.waitList, cmd.hdr.type = .readGet) := by
  intro run
  have h := openOrClosed_lockRun maxReaders lockName cmds hadm
  refine ⟨?_, fun hnone cmd hcmd => ?_, ?_, fun hheld hwait => ?_⟩
  · rcases h with ⟨hclosed, -, -⟩ | ⟨-, hqueued, -⟩
    · exact hclosed.exclusive.accesses
    · exact hqueued.exclusive.accesses
  · rcases h with ⟨-, -, hwrites⟩ | ⟨-, -, x, hx, hxtype⟩
    · rw [hwrites cmd hcmd]
      nofun
    · exact absurd hxtype (hnone x hx)
  · -- From a write release on the lock is a queue.
    rintro pre cmd post rfl htype
    obtain ⟨hpre, hcmd, hpost⟩ := admissible_append.1 hadm
    have hserved := (openOrClosed_lockRun maxReaders lockName pre hpre).release hcmd htype
    obtain ⟨-, -, new, hgranted, horder⟩ := lockRun_queued rwProcess_v3 lockServiceV3 (fun _ _ => rfl)
      (s := serve lockServiceV3 (run pre) cmd) hserved.keeps hserved.queued hpost
    have hrun : run (pre ++ cmd :: post) =
        lockRun lockServiceV3 (serve lockServiceV3 (run pre) cmd) post := lockRun_append _ _ _ _
    have hrelease := hserved.order
    rw [show [cmd].filter (fun cmd => cmd.hdr.type.isGet) = [] by simp [htype, LockType.isGet],
      append_nil] at hrelease
    refine ⟨(lockServiceV3 (run pre).dl cmd).2 ++ new, ?_, ?_⟩
    · rw [hrun, hgranted, ← append_assoc]
      rfl
    · rw [hrun, append_assoc, ← horder, ← append_assoc]
      exact congrArg (· ++ _) hrelease
  · rcases h with ⟨hclosed, hnone, -⟩ | ⟨-, hqueued, -⟩
    · exact ⟨hnone, hclosed.reads hheld⟩
    · exact absurd hheld (hqueued.settled.held_ne_nil (by simpa using hwait))

/-- A reader waits on the free lock; after a writer has come and gone it gets it. -/
theorem type3_lock_fifo_opening :
    let run := lockRun lockServiceV3 (.start (dsgLockAlloc .v3 1 "field"))
    let pre := [ask 1 .readGet, ask 0 .writeGet]
    (run pre).dl.waitList = [ask 1 .readGet] ∧ (run pre).granted = [ask 0 .writeGet] ∧
      ∃ new, (run (pre ++ [ask 0 .writeRelease])).granted = (run pre).granted ++ new ∧
        (run pre).dl.waitList ++ [] = new ++ (run (pre ++ [ask 0 .writeRelease])).dl.waitList :=
  ⟨by decide, by decide, (type3_lock_fifo 1 "field"
    [ask 1 .readGet, ask 0 .writeGet, ask 0 .writeRelease] (by decide)).2.2.1 _ _ [] rfl rfl⟩

end V3

end DataSpaces.Lock
