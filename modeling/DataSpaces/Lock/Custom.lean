import DataSpaces.Lock.Service

/-!
# Clients of the custom lock

One writer and `n` readers use a custom lock. Each of them loops: it calls lock in its role, waits for
the grant, and calls unlock. A request carries the number of the last grant that the client has seen
(`dcg_lock_request`, `dcgrpc_lock_service` in `dc_gspace.c`). Messages between a client and the server
are delivered in order; apart from that the steps of the clients and of the server interleave freely.

The log keeps the grants and releases in the order in which the server has issued and served them.
-/

namespace DataSpaces.Lock

open List Function

variable {n : Nat}

inductive Peer (n : Nat) where
  | writer
  | reader (i : Fin n)
  deriving DecidableEq, Repr

def Peer.getType : Peer n → LockType
  | .writer => .writeGet
  | .reader _ => .readGet

def Peer.releaseType : Peer n → LockType
  | .writer => .writeRelease
  | .reader _ => .readRelease

/-! ## Clients -/

/-- `struct dcg_lock`. -/
structure DcgLock where
  req : Bool
  ack : Bool
  lockNum : Int
  name : String
  deriving DecidableEq

/-- Send a request; the flags are set after it. -/
def dcgLockRequest (lock : DcgLock) (type : LockType) : DcgLock × LockHdr :=
  ({ lock with ack := false, req := true }, ⟨type, lock.lockNum, lock.name⟩)

/-- A grant arrives. -/
def dcgrpcLockService (lock : DcgLock) (lh : LockHdr) : DcgLock :=
  { lock with lockNum := lh.lockNum, ack := true, req := false }

/-- Where a client is in its loop: before the call of lock, in the loop `while (lock->ack == 0)` of that
call, or between lock and unlock. -/
inductive Pc where
  | outside
  | acquiring
  | inside
  deriving DecidableEq, Repr

/-! ## The system -/

inductive LockEvent (n : Nat) where
  | grant (c : Peer n)
  | release (c : Peer n)
  deriving DecidableEq

structure Sys (n : Nat) where
  dl : DsgLock (Peer n)
  lock : Peer n → DcgLock
  pc : Peer n → Pc
  toServer : Peer n → List LockHdr
  toClient : Peer n → List LockHdr
  log : List (LockEvent n)

def Sys.start (n : Nat) (lockName : String) : Sys n where
  dl := dsgLockAlloc .custom n lockName
  lock := fun _ => ⟨false, false, 0, lockName⟩
  pc := fun _ => .outside
  toServer := fun _ => []
  toClient := fun _ => []
  log := []

inductive LockStep (n : Nat) where
  /-- the client calls lock -/
  | lock (c : Peer n)
  /-- the client calls unlock -/
  | unlock (c : Peer n)
  /-- the server serves the next message of the client -/
  | serve (c : Peer n)
  /-- the client handles the next message of the server -/
  | receive (c : Peer n)
  /-- the call of lock returns -/
  | acquired (c : Peer n)

/-- The client sends a request and goes on to `pc`. -/
def Sys.post (s : Sys n) (c : Peer n) (type : LockType) (pc : Pc) : Sys n :=
  { s with
    lock := update s.lock c (dcgLockRequest (s.lock c) type).1
    pc := update s.pc c pc
    toServer := update s.toServer c (s.toServer c ++ [(dcgLockRequest (s.lock c) type).2]) }

/-- The grants in the answer of the server that go to a client. -/
def grantsTo (granted : List (RpcCmd (Peer n))) (c : Peer n) : List LockHdr :=
  (granted.filter fun cmd => cmd.id = c).map fun cmd => dsgLockGrant cmd.hdr

/-- What the server does about a message goes to the log: a release first, then the grants. -/
def served (c : Peer n) (lh : LockHdr) (granted : List (RpcCmd (Peer n))) : List (LockEvent n) :=
  (if lh.type = c.releaseType then [.release c] else []) ++ granted.map fun cmd => .grant cmd.id

/-- The server serves a message; `rest` are the messages behind it. -/
def Sys.deliver (s : Sys n) (c : Peer n) (lh : LockHdr) (rest : List LockHdr) : Sys n :=
  { s with
    dl := (semService s.dl ⟨c, lh⟩).1
    toServer := update s.toServer c rest
    toClient := fun p => s.toClient p ++ grantsTo (semService s.dl ⟨c, lh⟩).2 p
    log := s.log ++ served c lh (semService s.dl ⟨c, lh⟩).2 }

def Sys.step (s : Sys n) : LockStep n → Option (Sys n)
  | .lock c => if s.pc c = .outside then some (s.post c c.getType .acquiring) else none
  | .unlock c => if s.pc c = .inside then some (s.post c c.releaseType .outside) else none
  | .serve c =>
    match s.toServer c with
    | [] => none
    | lh :: rest => some (s.deliver c lh rest)
  | .receive c =>
    match s.toClient c with
    | [] => none
    | lh :: rest =>
      some { s with
        lock := update s.lock c (dcgrpcLockService (s.lock c) lh)
        toClient := update s.toClient c rest }
  -- The client leaves its wait loop once the grant has set `ack`.
  | .acquired c =>
    if s.pc c = .acquiring ∧ (s.lock c).ack = true then
      some { s with pc := update s.pc c .inside }
    else none

def Sys.run (s : Sys n) : List (LockStep n) → Option (Sys n)
  | [] => some s
  | a :: rest => (s.step a).bind fun s' => s'.run rest

/-- The states of the system in any interleaving. -/
def Reachable (lockName : String) (s : Sys n) : Prop := ∃ steps, (Sys.start n lockName).run steps = some s

theorem Reachable.induction {lockName : String} {P : Sys n → Prop} (hstart : P (.start n lockName))
    (hstep : ∀ s a s', P s → s.step a = some s' → P s') {s : Sys n} (h : Reachable lockName s) : P s := by
  obtain ⟨steps, hrun⟩ := h
  have hall : ∀ steps s₀, P s₀ → Sys.run s₀ steps = some s → P s := by
    intro steps
    induction steps with
    | nil =>
      intro s₀ hs₀ hrun
      rw [Sys.run, Option.some.injEq] at hrun
      exact hrun ▸ hs₀
    | cons a rest ih =>
      intro s₀ hs₀ hrun
      obtain ⟨s', hs', hrest⟩ := Option.bind_eq_some_iff.1 hrun
      exact ih s' (hstep s₀ a s' hs₀ hs') hrest
  exact hall steps _ hstart hrun

/-! ## What is observed -/

def Sys.grants (s : Sys n) (c : Peer n) : Nat := s.log.count (.grant c)

def Sys.releases (s : Sys n) (c : Peer n) : Nat := s.log.count (.release c)

/-- The client holds the lock from its grant to its release. -/
def Holds (s : Sys n) (c : Peer n) : Prop := s.releases c < s.grants c

instance (s : Sys n) (c : Peer n) : Decidable (Holds s c) :=
  inferInstanceAs (Decidable (s.releases c < s.grants c))

/-- The client is in the call of lock, without an answer. -/
def Waits (s : Sys n) (c : Peer n) : Prop := s.pc c = .acquiring ∧ (s.lock c).ack = false

def NoMessage (s : Sys n) : Prop := ∀ c, s.toServer c = [] ∧ s.toClient c = []

/-- An event of the log where it should be, after the events `pre`. -/
def EventInOrder (pre : List (LockEvent n)) : LockEvent n → Prop
  -- The next write grant: the writer and all readers have finished all rounds so far.
  | .grant .writer =>
    pre.count (.release .writer) = pre.count (.grant .writer) ∧
      ∀ i, pre.count (.grant (.reader i)) = pre.count (.grant .writer) ∧
        pre.count (.release (.reader i)) = pre.count (.grant .writer)
  -- A read grant: the writer is one round ahead of this reader and has released.
  | .grant (.reader i) =>
    pre.count (.grant .writer) = pre.count (.grant (.reader i)) + 1 ∧
      pre.count (.release .writer) = pre.count (.grant (.reader i)) + 1
  | .release c => pre.count (.release c) < pre.count (.grant c)

/-- Every event of the log is in order. -/
def InOrder (log : List (LockEvent n)) : Prop :=
  ∀ pre ev post, log = pre ++ ev :: post → EventInOrder pre ev

theorem InOrder.append {log : List (LockEvent n)} (h : InOrder log) {ev : LockEvent n}
    (hev : EventInOrder log ev) : InOrder (log ++ [ev]) := by
  intro pre e post heq
  rcases eq_nil_or_concat post with rfl | ⟨post', x, rfl⟩
  · obtain ⟨rfl, heq'⟩ := append_inj' heq rfl
    rw [cons.injEq] at heq'
    rw [← heq'.1]
    exact hev
  · rw [concat_eq_append, ← cons_append, ← append_assoc] at heq
    obtain ⟨hlog, -⟩ := append_inj' heq rfl
    exact h pre e post' hlog

/-! ## Going through the wait list -/

variable {l kept : List (RpcCmd (Peer n))} {dl : DsgLock (Peer n)}

/-- All requests are reads of the round, and there is a lock for each. -/
theorem scanWaitList_readers (hl : ∀ cmd ∈ l, cmd.hdr.type = .readGet ∧ cmd.hdr.lockNum = dl.rdEpoch)
    (hcnt : (l.length : Int) ≤ dl.rdCnt) :
    scanWaitList l kept dl = ({ dl with rdCnt := dl.rdCnt - l.length, waitList := kept }, l) := by
  induction l generalizing dl with
  | nil => simp [scanWaitList]
  | cons rr rest ih =>
    obtain ⟨htype, hnum⟩ := hl rr mem_cons_self
    rw [length_cons, Nat.cast_add, Nat.cast_one] at hcnt
    have hgrant : semProcessRequest dl rr.hdr true = (.grant, { dl with rdCnt := dl.rdCnt - 1 }) := by
      rw [semProcessRequest, htype]
      exact if_pos ⟨by omega, hnum⟩
    have hnext := @ih { dl with rdCnt := dl.rdCnt - 1 }
      (fun cmd hcmd => hl cmd (mem_cons_of_mem rr hcmd)) (by show _ ≤ dl.rdCnt - 1; omega)
    rw [scanWaitList, hgrant]
    dsimp only
    rw [hnext, length_cons, Nat.cast_add, Nat.cast_one, Int.sub_sub, add_comm (1 : Int)]

/-- No read lock is left: the write requests of the round are granted, the reads stay. -/
theorem scanWaitList_writer
    (hl : ∀ cmd ∈ l, cmd.hdr.type = .readGet ∨
      cmd.hdr.type = .writeGet ∧ cmd.hdr.lockNum = dl.wrEpoch) (hrd : dl.rdCnt = 0)
    (hcnt : ((l.filter fun cmd => cmd.hdr.type = .writeGet).length : Int) ≤ dl.wrCnt) :
    scanWaitList l kept dl =
      ({ dl with
          wrCnt := dl.wrCnt - (l.filter fun cmd => cmd.hdr.type = .writeGet).length
          waitList := kept ++ l.filter fun cmd => cmd.hdr.type ≠ .writeGet },
        l.filter fun cmd => cmd.hdr.type = .writeGet) := by
  induction l generalizing kept dl with
  | nil => simp [scanWaitList]
  | cons rr rest ih =>
    have hrest : ∀ cmd ∈ rest, cmd.hdr.type = .readGet ∨
        cmd.hdr.type = .writeGet ∧ cmd.hdr.lockNum = dl.wrEpoch :=
      fun cmd hcmd => hl cmd (mem_cons_of_mem rr hcmd)
    -- A reader stays on the list, since no read slot is free; a writer of this epoch is granted.
    rcases hl rr mem_cons_self with htype | ⟨htype, hnum⟩
    · have hwait : semProcessRequest dl rr.hdr true = (.wait, dl) := by
        rw [semProcessRequest, htype]
        exact if_neg fun hyes => by omega
      have hsame : (rr :: rest).filter (fun cmd => cmd.hdr.type = .writeGet) =
          rest.filter fun cmd => cmd.hdr.type = .writeGet := by simp [htype]
      have hkeep : (rr :: rest).filter (fun cmd => cmd.hdr.type ≠ .writeGet) =
          rr :: rest.filter fun cmd => cmd.hdr.type ≠ .writeGet := by simp [htype]
      rw [hsame] at hcnt ⊢
      rw [scanWaitList, hwait, hkeep]
      dsimp only
      rw [ih hrest hrd hcnt, append_assoc, singleton_append]
    · have hfilter : (rr :: rest).filter (fun cmd => cmd.hdr.type = .writeGet) =
          rr :: rest.filter fun cmd => cmd.hdr.type = .writeGet := by simp [htype]
      have hkeep : (rr :: rest).filter (fun cmd => cmd.hdr.type ≠ .writeGet) =
          rest.filter fun cmd => cmd.hdr.type ≠ .writeGet := by simp [htype]
      rw [hfilter, length_cons, Nat.cast_add, Nat.cast_one] at hcnt
      have hgrant : semProcessRequest dl rr.hdr true = (.grant, { dl with wrCnt := dl.wrCnt - 1 }) := by
        rw [semProcessRequest, htype]
        exact if_pos ⟨by omega, hnum⟩
      have hnext := @ih kept { dl with wrCnt := dl.wrCnt - 1 } hrest hrd (by show _ ≤ dl.wrCnt - 1; omega)
      rw [scanWaitList, hgrant, hfilter, hkeep]
      dsimp only
      rw [hnext, length_cons, Nat.cast_add, Nat.cast_one, Int.sub_sub, add_comm (1 : Int)]

end DataSpaces.Lock
