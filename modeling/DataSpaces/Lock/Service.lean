import Mathlib.Tactic

/-!
# The lock service

The lock server of `ds_gspace.c`. A lock is created of the type that the configuration says. It answers a
request with a grant, keeps it on its wait list, or notifies the requests that wait.

There are three types. The generic lock (type 1) and type 3 drain the wait list from its front until a
request cannot be granted; the custom lock (type 2) goes through the whole list.
-/

namespace DataSpaces.Lock

variable {κ : Type*}

/-- `enum lock_type`. -/
inductive LockType where
  | readGet
  | readRelease
  | writeGet
  | writeRelease
  | grant
  deriving DecidableEq, Repr

/-- `struct lockhdr`: what is asked, the number of grants that the client has seen, and the lock. -/
structure LockHdr where
  type : LockType
  lockNum : Int
  name : String
  deriving DecidableEq, Repr

/-- A request as it arrives; `id` is the peer that sent it. -/
structure RpcCmd (κ : Type*) where
  id : κ
  hdr : LockHdr
  deriving DecidableEq

inductive LockState where
  | unlocked
  | locked
  deriving DecidableEq, Repr

/-- `enum lock_action`: what the service has to do about a request. -/
inductive LockAction where
  | none
  | wait
  | grant
  | notify
  deriving DecidableEq, Repr

/-- `struct dsg_lock`, without the table of its functions. -/
structure DsgLock (κ : Type*) where
  lkName : String
  rdNotifyCnt : Int
  wrNotifyCnt : Int
  rdMax : Int
  wrMax : Int
  rdEpoch : Int
  wrEpoch : Int
  rdCnt : Int
  wrCnt : Int
  rdLockState : LockState
  wrLockState : LockState
  waitList : List (RpcCmd κ)

/-- A cleared `struct dsg_lock`. -/
def DsgLock.zero (lockName : String) : DsgLock κ where
  lkName := lockName
  rdNotifyCnt := 0
  wrNotifyCnt := 0
  rdMax := 0
  wrMax := 0
  rdEpoch := 0
  wrEpoch := 0
  rdCnt := 0
  wrCnt := 0
  rdLockState := .unlocked
  wrLockState := .unlocked
  waitList := []

def lockInit (dl : DsgLock κ) (_maxReaders : Int) : DsgLock κ :=
  { dl with rdLockState := .unlocked, wrLockState := .unlocked, rdCnt := 0, wrCnt := 0 }

def semInit (dl : DsgLock κ) (maxReaders : Int) : DsgLock κ :=
  { dl with
    wrMax := 1
    rdMax := maxReaders
    wrCnt := 1
    rdCnt := 0
    wrNotifyCnt := 0
    rdNotifyCnt := 0
    rdEpoch := 0
    wrEpoch := 0 }

def lockInitV3 (dl : DsgLock κ) (_maxReaders : Int) : DsgLock κ :=
  { dl with rdLockState := .unlocked, wrLockState := .unlocked, rdCnt := 0, wrCnt := 0, wrEpoch := 0 }

def dsgLockPutOnWait (dl : DsgLock κ) (cmd : RpcCmd κ) : DsgLock κ :=
  { dl with waitList := dl.waitList ++ [cmd] }

/-- The answer to a granted request. -/
def dsgLockGrant (lhr : LockHdr) : LockHdr := { lhr with type := .grant, lockNum := lhr.lockNum + 1 }

/-! ## The decisions -/

def lockProcessRequest (dl : DsgLock κ) (lh : LockHdr) (mayGrant : Bool) : LockAction × DsgLock κ :=
  match lh.type with
  | .readGet =>
    if dl.wrLockState = .unlocked ∧ mayGrant = true then
      (.grant, { dl with rdLockState := .locked, rdCnt := dl.rdCnt + 1 })
    else (.wait, dl)
  | .readRelease =>
    if dl.rdCnt - 1 = 0 then (.notify, { dl with rdCnt := dl.rdCnt - 1, rdLockState := .unlocked })
    else (.none, { dl with rdCnt := dl.rdCnt - 1 })
  | .writeGet =>
    -- A write request does not ask whether others wait.
    if dl.rdLockState = .unlocked ∧ dl.wrCnt = 0 then
      (.grant, { dl with wrLockState := .locked, wrCnt := dl.wrCnt + 1 })
    else (.wait, dl)
  | .writeRelease =>
    if dl.wrCnt - 1 = 0 then (.notify, { dl with wrCnt := dl.wrCnt - 1, wrLockState := .unlocked })
    else (.none, { dl with wrCnt := dl.wrCnt - 1 })
  | .grant => (.none, dl)

def lockProcessRequestV3 (dl : DsgLock κ) (lh : LockHdr) (mayGrant : Bool) : LockAction × DsgLock κ :=
  match lh.type with
  -- No reader gets in before the first write.
  | .readGet =>
    if dl.wrLockState = .unlocked ∧ dl.wrEpoch > 0 ∧ mayGrant = true then
      (.grant, { dl with rdLockState := .locked, rdCnt := dl.rdCnt + 1 })
    else (.wait, dl)
  | .readRelease =>
    if dl.rdCnt - 1 = 0 then (.notify, { dl with rdCnt := dl.rdCnt - 1, rdLockState := .unlocked })
    else (.none, { dl with rdCnt := dl.rdCnt - 1 })
  | .writeGet =>
    if dl.rdLockState = .unlocked ∧ dl.wrCnt = 0 then
      (.grant, { dl with wrLockState := .locked, wrCnt := dl.wrCnt + 1 })
    else (.wait, dl)
  -- Only here it differs from the generic lock once more: the epoch goes up.
  | .writeRelease =>
    if dl.wrCnt - 1 = 0 then
      (.notify, { dl with
        wrCnt := dl.wrCnt - 1, wrLockState := .unlocked, wrEpoch := dl.wrEpoch + 1 })
    else (.none, { dl with wrCnt := dl.wrCnt - 1 })
  | .grant => (.none, dl)

/-- The custom lock looks at its counters and at the number that the client sends. -/
def semProcessRequest (dl : DsgLock κ) (lh : LockHdr) (_mayGrant : Bool) : LockAction × DsgLock κ :=
  match lh.type with
  | .readGet =>
    if dl.rdCnt > 0 ∧ lh.lockNum = dl.rdEpoch then (.grant, { dl with rdCnt := dl.rdCnt - 1 })
    else (.wait, dl)
  | .readRelease =>
    if dl.rdNotifyCnt + 1 = dl.rdMax then
      -- All read locks have been released.
      (.notify, { dl with rdNotifyCnt := 0, wrCnt := dl.wrMax, rdEpoch := dl.rdEpoch + 1 })
    else (.none, { dl with rdNotifyCnt := dl.rdNotifyCnt + 1 })
  | .writeGet =>
    if dl.wrCnt > 0 ∧ lh.lockNum = dl.wrEpoch then (.grant, { dl with wrCnt := dl.wrCnt - 1 })
    else (.wait, dl)
  | .writeRelease =>
    if dl.wrNotifyCnt + 1 = dl.wrMax then
      (.notify, { dl with wrNotifyCnt := 0, rdCnt := dl.rdMax, wrEpoch := dl.wrEpoch + 1 })
    else (.none, { dl with wrNotifyCnt := dl.wrNotifyCnt + 1 })
  | .grant => (.none, dl)

/-! ## Wait lists and services

The functions return the requests that they grant, in order; the message to the peer of a granted
request is `dsgLockGrant` of its header. -/

/-- Take requests from the front of the wait list until one has to wait. -/
def drainWaitList (process : DsgLock κ → LockHdr → Bool → LockAction × DsgLock κ) :
    List (RpcCmd κ) → DsgLock κ → DsgLock κ × List (RpcCmd κ)
  | [], dl => ({ dl with waitList := [] }, [])
  | rr :: rest, dl =>
    match process dl rr.hdr true with
    | (.none, dl) => ({ dl with waitList := rr :: rest }, [])
    -- The scan stops at the first request that has to wait.
    | (.wait, dl) => ({ dl with waitList := rr :: rest }, [])
    | (.grant, dl) => ((drainWaitList process rest dl).1, rr :: (drainWaitList process rest dl).2)
    | (.notify, dl) => drainWaitList process rest dl

def lockProcessWaitList (dl : DsgLock κ) : DsgLock κ × List (RpcCmd κ) :=
  drainWaitList lockProcessRequest dl.waitList dl

def lockProcessWaitListV3 (dl : DsgLock κ) : DsgLock κ × List (RpcCmd κ) :=
  drainWaitList lockProcessRequestV3 dl.waitList dl

/-- Go through the wait list and take out what can be granted; `kept` is what has been passed. -/
def scanWaitList : List (RpcCmd κ) → List (RpcCmd κ) → DsgLock κ → DsgLock κ × List (RpcCmd κ)
  | [], kept, dl => ({ dl with waitList := kept }, [])
  | rr :: rest, kept, dl =>
    match semProcessRequest dl rr.hdr true with
    | (.grant, dl) => ((scanWaitList rest kept dl).1, rr :: (scanWaitList rest kept dl).2)
    | (.notify, dl) => scanWaitList rest (kept ++ [rr]) dl
    -- The scan passes over a request that has to wait.
    | (.wait, dl) => scanWaitList rest (kept ++ [rr]) dl
    | (.none, dl) => scanWaitList rest (kept ++ [rr]) dl

def semProcessWaitList (dl : DsgLock κ) : DsgLock κ × List (RpcCmd κ) :=
  scanWaitList dl.waitList [] dl

/-- What the three services have in common. -/
def service (process : DsgLock κ → LockHdr → Bool → LockAction × DsgLock κ)
    (processWaitList : DsgLock κ → DsgLock κ × List (RpcCmd κ)) (mayGrant : Bool) (dl : DsgLock κ)
    (cmd : RpcCmd κ) : DsgLock κ × List (RpcCmd κ) :=
  match process dl cmd.hdr mayGrant with
  | (.none, dl) => (dl, [])
  | (.wait, dl) => (dsgLockPutOnWait dl cmd, [])
  | (.notify, dl) => processWaitList dl
  | (.grant, dl) => (dl, [cmd])

def lockService (dl : DsgLock κ) (cmd : RpcCmd κ) : DsgLock κ × List (RpcCmd κ) :=
  service lockProcessRequest lockProcessWaitList dl.waitList.isEmpty dl cmd

def semService (dl : DsgLock κ) (cmd : RpcCmd κ) : DsgLock κ × List (RpcCmd κ) :=
  service semProcessRequest semProcessWaitList false dl cmd

def lockServiceV3 (dl : DsgLock κ) (cmd : RpcCmd κ) : DsgLock κ × List (RpcCmd κ) :=
  service lockProcessRequestV3 lockProcessWaitListV3 dl.waitList.isEmpty dl cmd

/-! ## Named locks -/

/-- The lock types that the configuration can name. -/
inductive LockKind where
  | generic
  | custom
  | v3
  deriving DecidableEq, Repr

def LockKind.init : LockKind → DsgLock κ → Int → DsgLock κ
  | .generic => lockInit
  | .custom => semInit
  | .v3 => lockInitV3

def dsgLockAlloc (kind : LockKind) (maxReaders : Int) (lockName : String) : DsgLock κ :=
  kind.init (.zero lockName) maxReaders

end DataSpaces.Lock
