import DataSpaces.Cluster.GetRuns
import DataSpaces.Lib.Framing

/-!
# Puts and gets over TCP

On TCP a connection is a byte stream in each direction. `rpc_send` writes a command and then the data of the
message, `rpc_receive` writes a command and then blocks until it has read the data that the peer sends back, and
`rpc_send_direct` and `rpc_receive_direct` write and read data without a command (`dart_rpc_tcp.c`). Nothing on
the stream says where a command or a block of data starts: a process that looks for commands takes
`sizeof(struct rpc_cmd)` bytes, and one that expects data takes as many bytes as it expects.

Here the clients run puts and gets and the servers answer them, in every interleaving; an action is a call of a
client, one read, or one command that is handled. The allocations of the handlers may fail. What a process does
with bytes that are not what it has expected is not followed any further: it is `lost`, and takes no more part.
The data of a connection that is under way is not seen by the receiver, which then finds no command; this is
why a read is never forced.
-/

namespace DataSpaces.Cluster.Tcp

open Lib Geometry Space Store Client Copy Function

/-! ## Frames -/

/-- A process, with its id. -/
inductive Node where
  | server (id : Nat)
  | client (id : Nat)
deriving DecidableEq, Repr

/-- The commands of puts and gets, with the fields of their headers that are read. -/
inductive RpcCmd where
  | ssObjPut (odsc : ObjDescriptor)
  | ssObjGetDhtPeers (odsc : ObjDescriptor)
  | ssObjGetDesc (qid : Nat) (odsc : ObjDescriptor)
  | ssObjGet (odsc : ObjDescriptor)
  | ssObjUpdate (odsc : ObjDescriptor)
  /-- the answer `ss_obj_get_desc` with the error `-ENOENT` -/
  | descNotFound (qid : Nat) (versions : List UInt32)
  /-- the answer `ss_obj_get_desc` with the number of descriptors that follow -/
  | descFound (qid numDe : Nat)
  | dsPutCompletion

/-- What one call of `socket_send_bytes` writes. The number `req` says to which request of the client the frame
belongs; it is not part of the bytes. -/
inductive Frame where
  | cmd (req : Nat) (cmd : RpcCmd)
  /-- the data of a put -/
  | putData (req size : Nat) (data : Mem)
  /-- the peers of a query, up to the marker `-1` -/
  | peers (req size : Nat) (tab : List Nat)
  /-- the descriptors that follow a `descFound` -/
  | table (req size : Nat) (odTab : List ObjDescriptor)
  /-- the data of a piece -/
  | part (req size : Nat) (data : Mem)

/-- The space and the build: `syncMsg` is the option `DS_SYNC_MSG`. -/
structure Setup where
  space : SharedSpace
  maxVersions : Nat
  syncMsg : Bool
  sizeofRpcCmd : Nat
  sizeofObjDescriptor : Nat
  rpcCmd_pos : 0 < sizeofRpcCmd

variable (P : Setup)

/-- The size of the table of peers; `int` has four bytes. Client and server both know the number of servers from
the registration. -/
def Setup.sizeofPeers : Nat := 4 * (P.space.numSp + 1)

def Frame.size : Frame → Nat
  | .cmd _ _ => P.sizeofRpcCmd
  | .putData _ n _ => n
  | .peers _ n _ => n
  | .table _ n _ => n
  | .part _ n _ => n

/-- What a read is for: a command, or the data of a request. -/
inductive Expect where
  | command
  | putData (req : Nat)
  | peers (req : Nat)
  | table (req : Nat)
  | part (req : Nat)

/-- The frame is what the read is for. -/
def Expect.Meets : Expect → Frame → Prop
  | .command, .cmd _ _ => True
  | .putData req, .putData req' _ _ => req' = req
  | .peers req, .peers req' _ _ => req' = req
  | .table req, .table req' _ _ => req' = req
  | .part req, .part req' _ _ => req' = req
  | _, _ => False

/-- The read is the second half of `rpc_receive`. -/
def Expect.isReply : Expect → Bool
  | .peers _ => true
  | .part _ => true
  | _ => false

/-! ## Streams -/

/-- A read of `size` bytes and what it took. -/
structure Read where
  src : Node
  dst : Node
  expects : Expect
  size : Nat
  taken : List (Frame × Nat)

/-- What happens on the connections. -/
inductive Event where
  | sent (src dst : Node) (f : Frame)
  | read (rd : Read)
  /-- the receiver has no memory for data of `size` bytes, and does not read them -/
  | refused (dst src : Node) (size : Nat)

/-- The bytes that were sent from one process to another and not read, and the events, the last one first. -/
structure Net where
  wire : Node → Node → List (Frame × Nat)
  log : List Event

/-- Write frames one after the other. -/
def socketSendBytes (net : Net) (src dst : Node) (fs : List Frame) : Net where
  wire := fun a b =>
    if a = src ∧ b = dst then net.wire a b ++ streamOf (Frame.size P) fs else net.wire a b
  log := (fs.map (Event.sent src dst)).reverse ++ net.log

/-- Read `n` bytes. The read blocks until they have come. -/
def socketRecvBytes (net : Net) (src dst : Node) (expects : Expect) (n : Nat) :
    Option (List (Frame × Nat) × Net) :=
  if n ≤ (net.wire src dst).length then
    let taken := (net.wire src dst).take n
    some (taken,
      { wire := fun a b => if a = src ∧ b = dst then (net.wire a b).drop n else net.wire a b
        log := .read ⟨src, dst, expects, n, taken⟩ :: net.log })
  else none

/-- An error path leaves data on the stream. -/
def Net.refuse (net : Net) (dst src : Node) (n : Nat) : Net := { net with log := .refused dst src n :: net.log }

/-- The command that a block of bytes holds, if it is one. All commands have the same size, so this is seen
from the start of the block. -/
def commandOf : List (Frame × Nat) → Option (Nat × RpcCmd)
  | (.cmd req cmd, 0) :: _ => some (req, cmd)
  | _ => none

def peersOf : List (Frame × Nat) → Option (List Nat)
  | (.peers _ _ tab, 0) :: _ => some tab
  | _ => none

def tableOf : List (Frame × Nat) → Option (List ObjDescriptor)
  | [] => some []
  | (.table _ _ odTab, 0) :: _ => some odTab
  | _ => none

def putDataOf : List (Frame × Nat) → Option Mem
  | [] => some fun _ => none
  | (.putData _ _ data, 0) :: _ => some data
  | _ => none

def partOf : List (Frame × Nat) → Option Mem
  | [] => some fun _ => none
  | (.part _ _ data, 0) :: _ => some data
  | _ => none

/-! ## Processes -/

inductive ServerMode where
  | ready
  /-- in `rpc_receive_direct` of `dsgrpc_obj_put` -/
  | receiving (src : Node) (req : Nat) (odsc : ObjDescriptor)
  | lost

structure Server where
  ds : DsServer
  mode : ServerMode

/-- `struct query_tran_entry`, with its id and its table of peers. -/
structure Query where
  qid : Nat
  qhPeeridTab : List Nat
  qte : QueryTranEntry

/-- Where a client is that does not block in a read: between calls or in the wait for a put, or in `dcg_obj_get`
before the requests for descriptors, in the wait for them, or at piece number `i`. -/
inductive Place where
  | idle
  | ask (q : Query)
  | descriptors (q : Query)
  | parts (q : Query) (i : Nat)

/-- The answer whose descriptors a client receives. -/
structure Fetch where
  server : Nat
  req : Nat
  qid : Nat
  numDe : Nat

inductive ClientMode where
  | running (place : Place)
  /-- in `rpc_receive` of `get_dht_peers` -/
  | readPeers (server req : Nat) (q : Query)
  /-- in `rpc_receive_direct` of `dcgrpc_obj_get_desc` -/
  | readTable (place : Place) (f : Fetch)
  /-- in `rpc_receive` of `dcg_obj_data_get` -/
  | readPart (server req : Nat) (odsc : ObjDescriptor) (q : Query) (i : Nat)
  | lost

structure Client where
  mode : ClientMode
  nextQid : Nat
  nextReq : Nat

structure Sys where
  net : Net
  servers : Nat → Server
  clients : Nat → Client

def Sys.start : Sys where
  net := ⟨fun _ _ => [], []⟩
  servers := fun _ => ⟨dsServerAlloc P.maxVersions, .ready⟩
  clients := fun _ => ⟨.running .idle, 0, 0⟩

def Sys.setDs (s : Sys) (t : Nat) (ds : DsServer) : Sys :=
  { s with servers := update s.servers t { s.servers t with ds := ds } }

def Sys.setServer (s : Sys) (t : Nat) (mode : ServerMode) : Sys :=
  { s with servers := update s.servers t { s.servers t with mode := mode } }

def Sys.setClient (s : Sys) (c : Nat) (mode : ClientMode) : Sys :=
  { s with clients := update s.clients c { s.clients c with mode := mode } }

/-- Write frames, on the system. -/
def Sys.send (s : Sys) (src dst : Node) (fs : List Frame) : Sys :=
  { s with net := socketSendBytes P s.net src dst fs }

/-- Leave data unread, on the system. -/
def Sys.refuse (s : Sys) (dst src : Node) (n : Nat) : Sys := { s with net := s.net.refuse dst src n }

/-- The client has taken numbers for requests and for a query. -/
def Sys.number (s : Sys) (c reqs queries : Nat) : Sys :=
  { s with
    clients := update s.clients c
      { s.clients c with
        nextReq := (s.clients c).nextReq + reqs
        nextQid := (s.clients c).nextQid + queries } }

/-! ## Servers -/

/-- `cmd->id`. -/
def Node.id : Node → Nat
  | .server id => id
  | .client id => id

/-- The handler of a command at server `t`; `obtained` says whether its allocations succeed. -/
def handleServer (t : Nat) (src : Node) (obtained : Bool) (s : Sys) (req : Nat) : RpcCmd → Sys
  -- `dsgrpc_obj_put`
  | .ssObjPut odsc =>
    if obtained then s.setServer t (.receiving src req { odsc with owner := t })
    else s.refuse (.server t) src (objDataSize odsc)
  -- `dsgrpc_obj_send_dht_peers`
  | .ssObjGetDhtPeers odsc =>
    match dsgrpcObjSendDhtPeers P.space odsc.bb with
    -- `ssd_hash` does not return.
    | none => s.setServer t .lost
    | some tab => if obtained then s.send P (.server t) src [.peers req P.sizeofPeers tab] else s
  -- `dsgrpc_obj_get_desc`
  | .ssObjGetDesc qid odsc =>
    if obtained then
      match dsgrpcObjGetDesc (s.servers t).ds odsc with
      | .notFound versions => s.send P (.server t) src [.cmd req (.descNotFound qid versions)]
      | .found odTab =>
        s.send P (.server t) src
          [.cmd req (.descFound qid odTab.length), .table req (P.sizeofObjDescriptor * odTab.length) odTab]
    else s
  -- `dsgrpc_obj_get`
  | .ssObjGet odsc =>
    match dsgrpcObjGet (s.servers t).ds odsc with
    | none => s
    | some data => if obtained then s.send P (.server t) src [.part req (objDataSize odsc) data] else s
  -- `dsgrpc_obj_update`
  | .ssObjUpdate odsc =>
    s.setDs t
      { (s.servers t).ds with entSelf := dhtAddEntry (s.servers t).ds.entSelf { odsc with owner := src.id } }
  -- A server has no service for the other commands.
  | _ => s

/-- `rpc_process_event_peer` at server `t` reads one command from `src` and handles it. -/
def serve (t : Nat) (src : Node) (obtained : Bool) (s : Sys) : Option Sys :=
  match (s.servers t).mode with
  | .ready =>
    (socketRecvBytes s.net src (.server t) .command P.sizeofRpcCmd).map fun r =>
      let s := { s with net := r.2 }
      match commandOf r.1 with
      | none => s.setServer t .lost
      | some (req, cmd) => handleServer P t src obtained s req cmd
  | _ => none

/-- `obj_put_completion` at server `t`. The notice is sent by `rpc_send`, which may fail. -/
def objPutCompletion (t : Nat) (src : Node) (req : Nat) (notified : Bool) (od : ObjData) (s : Sys) : Sys :=
  let s := s.setDs t { (s.servers t).ds with ls := lsAddObj (s.servers t).ds.ls od }
  if P.syncMsg && notified then s.send P (.server t) src [.cmd req .dsPutCompletion] else s

/-- A round of the loop of `obj_put_update_dht`. -/
def updatePeer (t req : Nat) (odsc : ObjDescriptor) (s : Sys) (peer : Nat) : Sys :=
  if peer = t then
    s.setDs t { (s.servers t).ds with entSelf := dhtAddEntry (s.servers t).ds.entSelf odsc }
  else s.send P (.server t) (.server peer) [.cmd req (.ssObjUpdate odsc)]

/-- The rounds of a loop that may end with an error. -/
def rounds {α : Type} : Option Nat → List α → List α
  | none, l => l
  | some k, l => l.take k

/-- `obj_put_update_dht`; an error ends the loop after `stop` rounds. -/
def objPutUpdateDht (t req : Nat) (odsc : ObjDescriptor) (stop : Option Nat) (s : Sys) : Sys :=
  (rounds stop (P.space.peers odsc.bb)).foldl (updatePeer P t req odsc) s

/-- `dsgrpc_obj_put` from its call of `rpc_receive_direct` on. -/
def receivePut (t : Nat) (notified : Bool) (stop : Option Nat) (s : Sys) : Option Sys :=
  match (s.servers t).mode with
  | .receiving src req odsc =>
    (socketRecvBytes s.net src (.server t) (.putData req) (objDataSize odsc)).map fun r =>
      let s := { s with net := r.2 }
      match putDataOf r.1 with
      | none => s.setServer t .lost
      | some data =>
        objPutUpdateDht P t req odsc stop
          (objPutCompletion P t src req notified ⟨odsc, data, 0⟩ (s.setServer t .ready))
  | _ => none

/-! ## Clients -/

/-- Apply a change to the query with the id `qid`, if it is still there (`qt_find`). -/
def Place.onQuery (qid : Nat) (change : QueryTranEntry → QueryTranEntry) : Place → Place
  | .idle => .idle
  | .ask q => .ask (if q.qid = qid then { q with qte := change q.qte } else q)
  | .descriptors q => .descriptors (if q.qid = qid then { q with qte := change q.qte } else q)
  | .parts q i => .parts (if q.qid = qid then { q with qte := change q.qte } else q) i

/-- `obj_get_desc_completion`; `added` is the number of descriptors up to the one that cannot be added. The
answer is counted first, but then the phase is not ended by it. -/
def objGetDescCompletion (odTab : List ObjDescriptor) (added : Nat) (qte : QueryTranEntry) : QueryTranEntry :=
  if odTab.length ≤ added then dcgrpcObjGetDesc qte (.found odTab)
  else
    addTable
      { qte with qhNumRepReceived := qte.qhNumRepReceived + 1, sizeOd := qte.sizeOd + odTab.length }
      (odTab.take added)

/-- `dcg_obj_put` or `dcg_obj_put_to_server`, to server `t`. -/
def dcgObjPut (c t : Nat) (od : ObjData) (s : Sys) : Option Sys :=
  match (s.clients c).mode with
  | .running .idle =>
    let req := (s.clients c).nextReq
    some ((s.send P (.client c) (.server t)
      [.cmd req (.ssObjPut od.objDesc), .putData req (objDataSize od.objDesc) od.data]).number c 1 0)
  | _ => none

/-- `dcg_obj_get` up to the read of `get_dht_peers`; `dcg_which_peer` is server `t`. -/
def dcgObjGet (c t : Nat) (q : ObjDescriptor) (s : Sys) : Option Sys :=
  match (s.clients c).mode with
  | .running .idle =>
    let req := (s.clients c).nextReq
    let query : Query := ⟨(s.clients c).nextQid, [], qteAlloc q 0⟩
    some (((s.send P (.client c) (.server t) [.cmd req (.ssObjGetDhtPeers q)]).setClient c
      (.readPeers t req query)).number c 1 1)
  | _ => none

/-- The read of `get_dht_peers`, and its completion. -/
def readPeers (c : Nat) (s : Sys) : Option Sys :=
  match (s.clients c).mode with
  | .readPeers t req q =>
    (socketRecvBytes s.net (.server t) (.client c) (.peers req) P.sizeofPeers).map fun r =>
      let s := { s with net := r.2 }
      match peersOf r.1 with
      | none => s.setClient c .lost
      | some tab =>
        s.setClient c (.running (.ask
          { q with qhPeeridTab := tab, qte := { q.qte with qhNumPeer := tab.length } }))
  | _ => none

/-- The loop of `get_obj_descriptors`. -/
def askPeers (c qid : Nat) (odsc : ObjDescriptor) : List Nat → Nat → Sys → Sys
  | [], _, s => s
  | peer :: rest, req, s =>
    askPeers c qid odsc rest (req + 1)
      (s.send P (.client c) (.server peer) [.cmd req (.ssObjGetDesc qid odsc)])

/-- `get_obj_descriptors`; an error ends the loop after `stop` rounds, and the get returns. -/
def getObjDescriptors (c : Nat) (stop : Option Nat) (s : Sys) : Option Sys :=
  match (s.clients c).mode with
  | .running (.ask q) =>
    let peers := rounds stop q.qhPeeridTab
    let s := askPeers P c q.qid q.qte.qObj peers (s.clients c).nextReq s
    some ((s.setClient c (.running
      (if peers.length < q.qhPeeridTab.length then .idle
        else .descriptors { q with qte := { q.qte with fOdscRecv := false } }))).number c peers.length 0)
  | _ => none

/-- A place from which `dc_process` is called: a wait for a put, for the peers, the descriptors or the end. -/
def Place.waits : Place → Bool
  | .parts q i => (q.qte.odList[i]?).isNone
  | _ => true

/-- The handler of a command at client `c`; `obtained` says whether its allocations succeed. -/
def handleClient (c t : Nat) (place : Place) (obtained : Bool) (s : Sys) (req : Nat) : RpcCmd → Sys
  -- `dcgrpc_server_completion` sets the flag of the put, which `dcg_obj_sync` waits for.
  | .dsPutCompletion => s
  -- `dcgrpc_obj_get_desc`
  | .descNotFound qid versions =>
    s.setClient c (.running (place.onQuery qid fun qte => dcgrpcObjGetDesc qte (.notFound versions)))
  | .descFound qid numDe =>
    if obtained then s.setClient c (.readTable place ⟨t, req, qid, numDe⟩)
    else s.refuse (.client c) (.server t) (P.sizeofObjDescriptor * numDe)
  -- A client has no service for the other commands.
  | _ => s

/-- `rpc_process_event_peer` at client `c` reads one command from server `t` and handles it. -/
def poll (c t : Nat) (obtained : Bool) (s : Sys) : Option Sys :=
  match (s.clients c).mode with
  | .running place =>
    if place.waits then
      (socketRecvBytes s.net (.server t) (.client c) .command P.sizeofRpcCmd).map fun r =>
        let s := { s with net := r.2 }
        match commandOf r.1 with
        | none => s.setClient c .lost
        | some (req, cmd) => handleClient P c t place obtained s req cmd
    else none
  | _ => none

/-- The read of `dcgrpc_obj_get_desc`, and its completion. -/
def readTable (c added : Nat) (s : Sys) : Option Sys :=
  match (s.clients c).mode with
  | .readTable place f =>
    (socketRecvBytes s.net (.server f.server) (.client c) (.table f.req)
        (P.sizeofObjDescriptor * f.numDe)).map fun r =>
      let s := { s with net := r.2 }
      match tableOf r.1 with
      | none => s.setClient c .lost
      | some odTab => s.setClient c (.running (place.onQuery f.qid (objGetDescCompletion odTab added)))
  | _ => none

/-- The wait for the descriptors is over. -/
def proceed (c : Nat) (s : Sys) : Option Sys :=
  match (s.clients c).mode with
  | .running (.descriptors q) =>
    if q.qte.fOdscRecv then some (s.setClient c (.running (if q.qte.fErr then .idle else .parts q 0)))
    else none
  | _ => none

/-- A round of the loop of `dcg_obj_data_get` up to its read; when an allocation fails the get returns. -/
def askPart (c : Nat) (obtained : Bool) (s : Sys) : Option Sys :=
  match (s.clients c).mode with
  | .running (.parts q i) =>
    (q.qte.odList[i]?).map fun od =>
      if obtained then
        let req := (s.clients c).nextReq
        let odsc := { od.objDesc with version := q.qte.qObj.version }
        ((s.send P (.client c) (.server odsc.owner) [.cmd req (.ssObjGet odsc)]).setClient c
          (.readPart odsc.owner req odsc q i)).number c 1 0
      else s.setClient c (.running .idle)
  | _ => none

/-- The read of a piece, and its completion. -/
def readPart (c : Nat) (s : Sys) : Option Sys :=
  match (s.clients c).mode with
  | .readPart t req odsc q i =>
    (socketRecvBytes s.net (.server t) (.client c) (.part req) (objDataSize odsc)).map fun r =>
      let s := { s with net := r.2 }
      match partOf r.1 with
      | none => s.setClient c .lost
      | some data =>
        s.setClient c (.running (.parts { q with
          qte := objDataGetCompletion { q.qte with
            odList := q.qte.odList.modify i fun od => { od with data := data } } } (i + 1)))
  | _ => none

/-- The last wait is over, and the get returns. -/
def finish (c : Nat) (s : Sys) : Option Sys :=
  match (s.clients c).mode with
  | .running (.parts q i) =>
    if q.qte.odList[i]?.isNone && q.qte.fComplete then some (s.setClient c (.running .idle)) else none
  | _ => none

/-! ## Runs -/

inductive Action where
  | put (c t : Nat) (od : ObjData)
  | get (c t : Nat) (q : ObjDescriptor)
  | readPeers (c : Nat)
  | getObjDescriptors (c : Nat) (stop : Option Nat)
  | poll (c t : Nat) (obtained : Bool)
  | readTable (c added : Nat)
  | proceed (c : Nat)
  | askPart (c : Nat) (obtained : Bool)
  | readPart (c : Nat)
  | finish (c : Nat)
  | serve (t : Nat) (src : Node) (obtained : Bool)
  | receivePut (t : Nat) (notified : Bool) (stop : Option Nat)

/-- One action; `none` if the process is somewhere else or blocks. -/
def step (s : Sys) : Action → Option Sys
  | .put c t od => dcgObjPut P c t od s
  | .get c t q => dcgObjGet P c t q s
  | .readPeers c => readPeers P c s
  | .getObjDescriptors c stop => getObjDescriptors P c stop s
  | .poll c t obtained => poll P c t obtained s
  | .readTable c added => readTable P c added s
  | .proceed c => proceed c s
  | .askPart c obtained => askPart P c obtained s
  | .readPart c => readPart c s
  | .finish c => finish c s
  | .serve t src obtained => serve P t src obtained s
  | .receivePut t notified stop => receivePut P t notified stop s

/-- A run; an action that is not possible when its turn comes is skipped. -/
def run (actions : List Action) : Sys := actions.foldl (fun s a => (step P s a).getD s) (Sys.start P)

/-! ## The statement -/

/-- The read took exactly the bytes of one frame, and the frame is what the read was for. -/
def Framed (rd : Read) : Prop := ∃ f, rd.expects.Meets f ∧ rd.taken = bytesOf (Frame.size P) f

/-- Every read is framed. -/
def FramedReads (log : List Event) : Prop := ∀ rd, .read rd ∈ log → Framed P rd

/-- The process `dst` has left data of `src` unread. -/
def Refused (log : List Event) (dst src : Node) : Prop := ∃ n, 0 < n ∧ .refused dst src n ∈ log

def Event.sendsCommand (src dst : Node) : Event → Bool
  | .sent a b (.cmd _ _) => decide (a = src) && decide (b = dst)
  | _ => false

def Event.readsCommand (src dst : Node) : Event → Bool
  | .read ⟨a, b, .command, _, _⟩ => decide (a = src) && decide (b = dst)
  | _ => false

def commandsSent (log : List Event) (src dst : Node) : Nat := log.countP (Event.sendsCommand src dst)

def commandsRead (log : List Event) (src dst : Node) : Nat := log.countP (Event.readsCommand src dst)

/-- What a read needs of the events before it: no data is left on the stream, and if it is for the reply of
`rpc_receive`, every command that the server has sent to the client has been read. -/
def Undisturbed (log : List Event) (rd : Read) : Prop :=
  rd.size = 0 ∨
    (¬ Refused log rd.dst rd.src ∧
      (rd.expects.isReply = true → commandsSent log rd.src rd.dst = commandsRead log rd.src rd.dst))

/-- Every read stands in a relation to the events before it. -/
def EachRead (R : List Event → Read → Prop) (log : List Event) : Prop :=
  ∀ later rd earlier, log = later ++ .read rd :: earlier → R earlier rd

/-- Every read is undisturbed by the events before it. -/
def UndisturbedReads (log : List Event) : Prop := EachRead Undisturbed log

end DataSpaces.Cluster.Tcp
