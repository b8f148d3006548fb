import DataSpaces.Lib.Runs

/-!
# Registration of the clients with the TCP servers

A client connects to the master. The listening thread of the master (`ds_listen`) reserves a block of
entries of the peer table for an application at its first connection and gives each connection the next
entry of the block; its place in the table is the id of the client. The client then sends its
application and its address, which the main thread stores (`rpc_handler_cn_register`). When all
processes of an application have done so, the master announces the block to the other servers
(`ds_announce_cp`, `rpc_handler_sp_announce_cp`). A server that knows all applications ends its
registration and answers its share of the clients (`ds_register_cp`).

The listening thread and the main thread of the master share `num_cp` and `app_list` without a lock. For
a new application the listening thread adds to `num_cp` first and to `app_list` later; the steps `accept`
and `enter` are the two parts.

The servers know each other from the start, which is the state after their own registration.
-/

namespace DataSpaces.Dart

open Lib Function

variable {κ : Type*}

/-! ## The source -/

/-- Who can be reached at an address. -/
inductive Address (κ : Type*) where
  | unset
  | server (i : Nat)
  | client (c : κ)
  deriving DecidableEq

structure PtlidMap (κ : Type*) where
  id : Nat
  appid : Int
  address : Address κ
  deriving DecidableEq

/-- An entry of the peer table, with the client at the other end of its socket. -/
structure NodeId (κ : Type*) where
  ptlmap : PtlidMap κ
  sock : Option κ

/-- `struct app_info`. The entries of the application in the peer table start at `appPeerTab`. -/
structure AppInfo where
  appId : Int
  appNumPeers : Nat
  appPeerTab : Nat
  appCntPeers : Nat
  cntRegisteredPeers : Nat
  deriving DecidableEq

/-- The fields of `struct dart_server` that the registration uses. -/
structure RegServer (κ : Type*) where
  id : Nat
  sizeSp : Nat
  sizeCp : Nat
  numCp : Nat
  peerTab : Nat → NodeId κ
  appList : List AppInfo
  fReg : Bool

/-- A message `sp_announce_cp` with its data. -/
structure Announce (κ : Type*) where
  id : Nat
  appId : Int
  appSize : Nat
  data : List (PtlidMap κ)
  deriving DecidableEq

/-- A reply to a client: where it goes, its header and its data. -/
structure RegReply (κ : Type*) where
  dest : Address κ
  idSp : Nat
  idCp : Nat
  sizeSp : Nat
  sizeCp : Nat
  idCpMin : Nat
  data : List (PtlidMap κ)

def appFind (ds : RegServer κ) (appId : Int) : Option AppInfo :=
  ds.appList.find? fun app => app.appId = appId

/-- Change the application that `app_find` finds. -/
def updateApp (appId : Int) (f : AppInfo → AppInfo) : List AppInfo → List AppInfo
  | [] => []
  | app :: rest => if app.appId = appId then f app :: rest else app :: updateApp appId f rest

/-- Reserve the entries of a new application; the first part is the entry for `app_list`. -/
def listenReserve (ds : RegServer κ) (appId : Int) (appSize : Nat) : AppInfo × RegServer κ :=
  (⟨appId, appSize, ds.sizeSp + ds.numCp, 0, 0⟩, { ds with numCp := ds.numCp + appSize })

/-- Give the connection of a client the next entry of its application. -/
def listenAssign (ds : RegServer κ) (app : AppInfo) (c : κ) : RegServer κ :=
  let peer := app.appPeerTab + app.appCntPeers
  { ds with
    appList := updateApp app.appId (fun app => { app with appCntPeers := app.appCntPeers + 1 }) ds.appList
    peerTab := update ds.peerTab peer
      ⟨{ (ds.peerTab peer).ptlmap with id := peer }, some c⟩ }

def dsAnnounceCp (ds : RegServer κ) (app : AppInfo) : List (Nat × Announce κ) :=
  (List.range' 1 (ds.sizeSp - 1)).map fun i =>
    (i, ⟨(ds.peerTab app.appPeerTab).ptlmap.id, app.appId, app.appNumPeers,
      (List.range app.appNumPeers).map fun j => (ds.peerTab (app.appPeerTab + j)).ptlmap⟩)

/-- The master handles the message of a client; the second part is what it announces. -/
def rpcHandlerCnRegister (ds : RegServer κ) (cmdId : Nat) (appid : Int) (address : Address κ) :
    RegServer κ × List (Nat × Announce κ) :=
  -- The entry already has the id and the socket, the message brings the rest.
  let ptlmap := { (ds.peerTab cmdId).ptlmap with appid := appid, address := address }
  let ds := { ds with
    peerTab := update ds.peerTab cmdId { ds.peerTab cmdId with ptlmap := ptlmap } }
  match appFind ds appid with
  | none => (ds, [])
  | some app =>
    let app := { app with cntRegisteredPeers := app.cntRegisteredPeers + 1 }
    let ds := { ds with appList := updateApp appid (fun _ => app) ds.appList }
    if app.cntRegisteredPeers ≠ app.appNumPeers then (ds, [])
    else
      ({ ds with
          -- The list may lack an application that is counted in `num_cp` already.
          fReg := ds.fReg || decide (ds.numCp = ds.sizeCp) &&
            ds.appList.all fun app => app.cntRegisteredPeers = app.appNumPeers },
        dsAnnounceCp ds app)

/-- Another server handles an announcement and receives its data. -/
def rpcHandlerSpAnnounceCp (ds : RegServer κ) (info : Announce κ) : RegServer κ :=
  let app : AppInfo := ⟨info.appId, info.appSize, info.id, info.appSize, info.appSize⟩
  let numCp := ds.numCp + info.appSize
  { ds with
    appList := app :: ds.appList
    numCp := numCp
    peerTab := fun k =>
      if info.id ≤ k ∧ k < info.id + info.appSize then
        { ds.peerTab k with ptlmap := (info.data[k - info.id]?).getD (ds.peerTab k).ptlmap }
      else ds.peerTab k
    fReg := ds.fReg || decide (numCp = ds.sizeCp) }

/-- The smallest id of an application: the loop goes through the whole list. -/
def idCpMin (ds : RegServer κ) (appid : Int) : Option Nat :=
  ds.appList.foldl (fun found app =>
    if app.appId = appid then some (ds.peerTab app.appPeerTab).ptlmap.id else found) none

/-- The loop of `ds_register_cp` from entry `i` on, for at most `fuel` rounds. It ends at an entry whose
application is not known. -/
def registerFrom (ds : RegServer κ) : Nat → Nat → List (RegReply κ)
  | 0, _ => []
  -- The loop starts at the own id and goes on in steps of `size_sp`.
  | fuel + 1, i =>
    if i < ds.numCp then
      let ptlmap := (ds.peerTab (ds.sizeSp + i)).ptlmap
      match idCpMin ds ptlmap.appid with
      -- `id_cp_min` is still -1, and the function returns.
      | none => []
      | some least =>
        ⟨ptlmap.address, ds.id, ptlmap.id, ds.sizeSp, ds.sizeCp, least,
          (List.range (ds.sizeSp + ds.sizeCp)).map fun j => (ds.peerTab j).ptlmap⟩ ::
            registerFrom ds fuel (i + ds.sizeSp)
    else []

/-- The replies of a server; each round goes up by at least one entry. -/
def dsRegisterCp (ds : RegServer κ) : List (RegReply κ) := registerFrom ds ds.numCp ds.id

/-! ## The system -/

/-- The servers, where `0` is the master; the connection that the listening thread handles with its new
application; the clients that have connected and those whose message has been handled; the announcements
under way; the servers that have replied, and what they have sent. -/
structure Registration (κ : Type*) where
  server : Nat → RegServer κ
  listen : Option (κ × AppInfo)
  accepted : Finset κ
  registered : Finset κ
  inFlight : List (Nat × Announce κ)
  replied : Finset Nat
  sent : Nat → List (RegReply κ)

/-- The peer table after the registration of the servers. -/
def serverPeers (numSp : Nat) (k : Nat) : NodeId κ :=
  if k < numSp then ⟨⟨k, 0, .server k⟩, none⟩ else ⟨⟨0, 0, .unset⟩, none⟩

@[simp] theorem serverPeers_sock (numSp k : Nat) : (serverPeers numSp k : NodeId κ).sock = none := by
  rw [serverPeers]
  split
  · rfl
  · rfl

variable [DecidableEq κ] [Fintype κ]

def Registration.start (κ : Type*) [Fintype κ] (numSp : Nat) : Registration κ where
  server := fun i => ⟨i, numSp, Fintype.card κ, 0, serverPeers numSp, [], false⟩
  listen := none
  accepted := ∅
  registered := ∅
  inFlight := []
  replied := ∅
  sent := fun _ => []

/-- The number of processes of an application, which each of them announces. -/
def appSize (app : κ → Int) (a : Int) : Nat := (Finset.univ.filter fun c => app c = a).card

inductive RegStep (κ : Type*) where
  /-- the listening thread handles the connection of a client -/
  | accept (c : κ)
  /-- it goes on with the new application -/
  | enter
  /-- the master handles the message on the socket of an entry -/
  | register (k : Nat)
  /-- a server handles an announcement -/
  | announce (i : Nat) (info : Announce κ)
  /-- a server answers its clients -/
  | reply (i : Nat)

def Registration.step (app : κ → Int) (numSp : Nat) (s : Registration κ) :
    RegStep κ → Option (Registration κ)
  | .accept c =>
    if s.listen = none ∧ c ∉ s.accepted then
      match appFind (s.server 0) (app c) with
      -- The application is in the list: the client gets the next id of its block.
      | some a =>
        some { s with
          server := update s.server 0 (listenAssign (s.server 0) a c)
          accepted := insert c s.accepted }
      -- A new application: its block is reserved and counted, it is not in the list yet.
      | none =>
        some { s with
          server := update s.server 0
            (listenReserve (s.server 0) (app c) (appSize app (app c))).2
          listen := some (c, (listenReserve (s.server 0) (app c) (appSize app (app c))).1)
          accepted := insert c s.accepted }
    else none
  | .enter =>
    match s.listen with
    | none => none
    | some (c, a) =>
      some { s with
        server := update s.server 0
          (listenAssign { s.server 0 with appList := a :: (s.server 0).appList } a c)
        listen := none }
  | .register k =>
    match ((s.server 0).peerTab k).sock with
    | none => none
    | some c =>
      -- Every client sends one `cn_register` message.
      if c ∈ s.registered then none
      else
        let handled :=
          rpcHandlerCnRegister (s.server 0) ((s.server 0).peerTab k).ptlmap.id (app c) (.client c)
        some { s with
          server := update s.server 0 handled.1
          registered := insert c s.registered
          inFlight := s.inFlight ++ handled.2 }
  | .announce i info =>
    if (i, info) ∈ s.inFlight then
      some { s with
        server := update s.server i (rpcHandlerSpAnnounceCp (s.server i) info)
        inFlight := s.inFlight.erase (i, info) }
    else none
  | .reply i =>
    if i < numSp ∧ (s.server i).fReg = true ∧ i ∉ s.replied then
      some { s with
        replied := insert i s.replied
        sent := update s.sent i (dsRegisterCp (s.server i)) }
    else none

/-- The master handles no message of a client between the two parts of a new application. -/
def notBetween (s : Registration κ) : RegStep κ → Bool
  | .register _ => s.listen.isNone
  | _ => true

/-- The connection of the client is entry `k` of the table of the master. -/
def Assigned (s : Registration κ) (c : κ) (k : Nat) : Prop := ((s.server 0).peerTab k).sock = some c

end DataSpaces.Dart
