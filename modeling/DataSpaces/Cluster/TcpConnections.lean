import DataSpaces.Cluster.TcpStreams

/-!
# Frames behind the bytes of a connection

A connection holds commands with the data that belongs to them, after data that is being received or that was
left unread (`Conn`). A read takes the frame at its head, or it is disturbed by it (`Conn.readCommand`,
`Conn.readFollow`, `Conn.readReply`).

The two directions between a client and a server belong together: at most one reply is asked for or under way,
nothing is sent after it, and the client blocks for it (`Stage`).
-/

namespace DataSpaces.Cluster.Tcp

open Lib Geometry Space Store DataSpaces.Client Copy List

variable {P : Setup}

/-! ## Kinds of frames -/

inductive Kind where
  | command
  /-- data that is read right after its command -/
  | followUp
  /-- data that `rpc_receive` reads -/
  | reply
deriving DecidableEq

def Frame.kind : Frame → Kind
  | .cmd _ _ => .command
  | .putData _ _ _ => .followUp
  | .table _ _ _ => .followUp
  | .peers _ _ _ => .reply
  | .part _ _ _ => .reply

/-- What a read expects, and how many bytes it takes. -/
abbrev Want := Expect × Nat

/-- The frame is what the read expects, and has the size of the read. -/
def Wants (P : Setup) (w : Want) (f : Frame) : Prop := w.1.Meets f ∧ f.size P = w.2

/-- The data that follows a command on the same stream. -/
def RpcCmd.follow (P : Setup) (req : Nat) : RpcCmd → Option Want
  | .ssObjPut odsc => some (.putData req, objDataSize odsc)
  | .descFound _ numDe => some (.table req, P.sizeofObjDescriptor * numDe)
  | _ => none

/-- The data that the client blocks for after it has sent a command. -/
def RpcCmd.reply (P : Setup) (req : Nat) : RpcCmd → Option Want
  | .ssObjGetDhtPeers _ => some (.peers req, P.sizeofPeers)
  | .ssObjGet odsc => some (.part req, objDataSize odsc)
  | _ => none

/-- The commands that one process sends to another. -/
def carries : Node → Node → RpcCmd → Bool
  | .client _, .server _, .ssObjPut _ => true
  | .client _, .server _, .ssObjGetDhtPeers _ => true
  | .client _, .server _, .ssObjGetDesc _ _ => true
  | .client _, .server _, .ssObjGet _ => true
  | .server _, .server _, .ssObjUpdate _ => true
  | .server _, .client _, .descNotFound _ _ => true
  | .server _, .client _, .descFound _ _ => true
  | .server _, .client _, .dsPutCompletion => true
  | _, _, _ => false

/-- Replies go from a server to a client. -/
def carriesReply : Node → Node → Bool
  | .server _, .client _ => true
  | _, _ => false

variable {f : Frame} {src dst : Node} {fs : List Frame} {cmd : RpcCmd} {req : Nat}

theorem RpcCmd.follow_meets_followUp {w : Want} (h : cmd.follow P req = some w)
    (hf : Wants P w f) : f.kind = .followUp := by
  obtain ⟨hmeets, -⟩ := hf
  cases cmd <;> simp only [RpcCmd.follow, Option.some.injEq, reduceCtorEq] at h <;> subst h <;>
    cases f <;> first | rfl | exact hmeets.elim

theorem RpcCmd.reply_meets_reply {w : Want} (h : cmd.reply P req = some w)
    (hf : w.1.Meets f) : f.kind = .reply := by
  cases cmd <;> simp only [RpcCmd.reply, Option.some.injEq, reduceCtorEq] at h <;> subst h <;>
    cases f <;> first | rfl | exact hf.elim

theorem Expect.command_meets : Expect.command.Meets f ↔ f.kind = .command := by
  cases f <;> simp [Expect.Meets, Frame.kind]

/-! ## Connections -/

/-- Commands with the data that follows them, and replies. -/
inductive Batches (P : Setup) (src dst : Node) : List Frame → Prop
  | nil : Batches P src dst []
  | plain {req : Nat} {cmd : RpcCmd} {rest : List Frame} (hc : carries src dst cmd = true)
      (hfollow : cmd.follow P req = none) (hrest : Batches P src dst rest) :
      Batches P src dst (.cmd req cmd :: rest)
  | paired {req : Nat} {cmd : RpcCmd} {w : Want} {f : Frame} {rest : List Frame}
      (hc : carries src dst cmd = true) (hfollow : cmd.follow P req = some w) (hf : Wants P w f)
      (hrest : Batches P src dst rest) : Batches P src dst (.cmd req cmd :: f :: rest)
  | reply {f : Frame} {rest : List Frame} (hr : carriesReply src dst = true) (hkind : f.kind = .reply)
      (hpos : 0 < f.size P) (hrest : Batches P src dst rest) : Batches P src dst (f :: rest)

theorem Batches.append {gs : List Frame} (h : Batches P src dst fs) (h' : Batches P src dst gs) :
    Batches P src dst (fs ++ gs) := by
  induction h with
  | nil => exact h'
  | plain hc hfollow _ ih => exact .plain hc hfollow ih
  | paired hc hfollow hf _ ih => exact .paired hc hfollow hf ih
  | reply hr hkind hpos _ ih => exact .reply hr hkind hpos ih

/-- What stands before the commands: nothing, the data that is being received, or data left unread. -/
inductive Lead (P : Setup) (src dst : Node) (refused : Prop) : Option Want → List Frame → Prop
  | clean (hno : ¬ refused) : Lead P src dst refused none []
  | next {req : Nat} {cmd : RpcCmd} {w : Want} {f : Frame} (hno : ¬ refused)
      (hc : carries src dst cmd = true) (hfollow : cmd.follow P req = some w) (hf : Wants P w f) :
      Lead P src dst refused (some w) [f]
  | left {f : Frame} (hyes : refused) (hkind : f.kind = .followUp) (hpos : 0 < f.size P) :
      Lead P src dst refused none [f]

def isCommand (f : Frame) : Bool := decide (f.kind = .command)

/-- The bytes of a connection are those of the frames `fs`; `follow` is the data that the receiver is
receiving. -/
structure Conn (P : Setup) (net : Net) (src dst : Node) (follow : Option Want) (fs : List Frame) : Prop where
  bytes : net.wire src dst = streamOf (Frame.size P) fs
  shape : ∃ lead rest, fs = lead ++ rest ∧ Lead P src dst (Refused net.log dst src) follow lead ∧
    Batches P src dst rest
  count : commandsSent net.log src dst = commandsRead net.log src dst + fs.countP isCommand

/-- A connection whose receiver is not receiving data starts with data left unread, or with a command or a
reply. -/
theorem Conn.head_cases {net : Net} (h : Conn P net src dst none fs) :
    (∃ f rest, fs = f :: rest ∧ f.kind = .followUp ∧ 0 < f.size P ∧ Refused net.log dst src) ∨
      (¬ Refused net.log dst src ∧ Batches P src dst fs) := by
  obtain ⟨lead, rest, rfl, hlead, hrest⟩ := h.shape
  cases hlead with
  | clean hno => exact Or.inr ⟨hno, hrest⟩
  | left hyes hkind hpos => exact Or.inl ⟨_, _, rfl, hkind, hpos, hyes⟩

/-! ## Events -/

section

variable {src dst a b : Node} {log : List Event}

theorem refused_append {events : List Event} (h : ∀ n, 0 < n → .refused dst src n ∉ events) :
    Refused (events ++ log) dst src ↔ Refused log dst src :=
  exists_congr fun n => and_congr_right fun hn => by rw [mem_append, or_iff_right (h n hn)]

theorem refused_cons {e : Event} (h : ∀ n, 0 < n → e ≠ .refused dst src n) :
    Refused (e :: log) dst src ↔ Refused log dst src :=
  refused_append fun n hn hmem => h n hn (mem_singleton.1 hmem).symm

theorem refused_sent (fs : List Frame) :
    Refused ((fs.map (Event.sent a b)).reverse ++ log) dst src ↔ Refused log dst src :=
  refused_append (by simp)

theorem commandsSent_sent (fs : List Frame) :
    commandsSent ((fs.map (Event.sent a b)).reverse ++ log) src dst =
      commandsSent log src dst + if src = a ∧ dst = b then fs.countP isCommand else 0 := by
  have hsent : (Event.sendsCommand src dst ∘ Event.sent a b) =
      fun f => isCommand f && decide (src = a ∧ dst = b) := by
    funext f
    cases f <;> simp [Event.sendsCommand, isCommand, Frame.kind, eq_comm]
  rw [commandsSent, countP_append, countP_reverse, countP_map, hsent, Nat.add_comm]
  split
  · next hab => simp [commandsSent, hab]
  · next hab => simp [commandsSent, hab]

theorem commandsRead_sent (fs : List Frame) :
    commandsRead ((fs.map (Event.sent a b)).reverse ++ log) src dst = commandsRead log src dst := by
  rw [commandsRead, countP_append, countP_reverse, countP_map, countP_eq_zero.2, Nat.zero_add]
  · rfl
  · intro f _ hf
    cases hf

variable {n : Nat} {taken : List (Frame × Nat)} {e : Expect} {R : List Event → Read → Prop}

theorem commandsRead_of_not (h : ¬ (e = .command ∧ src = a ∧ dst = b)) :
    commandsRead (.read ⟨a, b, e, n, taken⟩ :: log) src dst = commandsRead log src dst := by
  rw [commandsRead, countP_cons_of_neg]
  · rfl
  · intro hread
    cases e <;> simp only [Event.readsCommand, Bool.and_eq_true, decide_eq_true_eq, Bool.false_eq_true] at hread
    exact h ⟨rfl, hread.1.symm, hread.2.symm⟩

theorem commandsRead_command :
    commandsRead (.read ⟨src, dst, .command, n, taken⟩ :: log) src dst = commandsRead log src dst + 1 := by
  rw [commandsRead, countP_cons_of_pos]
  · rfl
  · simp [Event.readsCommand]

theorem EachRead.cons {e : Event} (h : EachRead R log) (he : ∀ rd, e = .read rd → R log rd) :
    EachRead R (e :: log) := by
  intro later rd earlier heq
  cases later with
  | nil =>
    cases heq
    exact he rd rfl
  | cons e' later =>
    cases heq
    exact h later rd earlier rfl

theorem EachRead.read {rd : Read} (h : EachRead R log) (hrd : R log rd) : EachRead R (.read rd :: log) := by
  refine h.cons ?_
  rintro _ ⟨⟩
  exact hrd

theorem EachRead.append {events : List Event} (h : EachRead R log)
    (hno : ∀ rd, .read rd ∉ events) : EachRead R (events ++ log) := by
  induction events with
  | nil => exact h
  | cons e events ih =>
    refine (ih fun rd hrd => hno rd (mem_cons_of_mem _ hrd)).cons ?_
    rintro rd rfl
    exact (hno rd mem_cons_self).elim

theorem read_notMem_sent (fs : List Frame) (rd : Read) :
    Event.read rd ∉ (fs.map (Event.sent a b)).reverse := by
  simp

end

/-! ## What does not touch a connection -/

/-- The connection from `src` to `dst` looks the same in both nets. -/
structure SameAt (net net' : Net) (src dst : Node) : Prop where
  wire : net'.wire src dst = net.wire src dst
  refused : Refused net'.log dst src ↔ Refused net.log dst src
  sent : commandsSent net'.log src dst = commandsSent net.log src dst
  read : commandsRead net'.log src dst = commandsRead net.log src dst

theorem Conn.of_sameAt {net net' : Net} {follow : Option Want} (h : Conn P net src dst follow fs)
    (hsame : SameAt net net' src dst) : Conn P net' src dst follow fs where
  bytes := hsame.wire.trans h.bytes
  shape := by
    obtain ⟨lead, rest, hfs, hlead, hrest⟩ := h.shape
    exact ⟨lead, rest, hfs, (propext hsame.refused).symm ▸ hlead, hrest⟩
  count := by rw [hsame.sent, hsame.read, h.count]

section

variable {net net' : Net} {src dst a b : Node}

theorem sameAt_send (fs : List Frame) (h : ¬ (src = a ∧ dst = b)) :
    SameAt net (socketSendBytes P net a b fs) src dst where
  wire := if_neg h
  refused := refused_sent fs
  sent := by rw [socketSendBytes, commandsSent_sent, if_neg h, Nat.add_zero]
  read := commandsRead_sent fs

variable {n : Nat} {follow : Option Want}

theorem sameAt_refuse (h : ¬ (src = a ∧ dst = b)) : SameAt net (net.refuse b a n) src dst where
  wire := rfl
  refused := refused_cons fun m _ heq => by
    cases heq
    exact h ⟨rfl, rfl⟩
  sent := rfl
  read := rfl

/-- What a read does to the net. -/
theorem recv_eq_some {e : Expect} {taken : List (Frame × Nat)}
    (h : socketRecvBytes net a b e n = some (taken, net')) :
    n ≤ (net.wire a b).length ∧ taken = (net.wire a b).take n ∧
      net'.wire a b = (net.wire a b).drop n ∧ net'.log = .read ⟨a, b, e, n, taken⟩ :: net.log ∧
      ∀ src dst, ¬ (src = a ∧ dst = b) → SameAt net net' src dst := by
  rw [socketRecvBytes, Option.ite_none_right_eq_some] at h
  obtain ⟨hle, heq⟩ := h
  cases heq
  refine ⟨hle, rfl, if_pos ⟨rfl, rfl⟩, rfl, fun src dst hne => ⟨if_neg hne, ?_, rfl, ?_⟩⟩
  · exact refused_cons fun m _ heq => by cases heq
  · exact commandsRead_of_not fun h => hne h.2

theorem Conn.send {fs gs : List Frame} (h : Conn P net src dst follow fs)
    (hgs : Batches P src dst gs) : Conn P (socketSendBytes P net src dst gs) src dst follow (fs ++ gs) where
  bytes := by
    rw [socketSendBytes, streamOf_append, ← h.bytes]
    exact if_pos ⟨rfl, rfl⟩
  shape := by
    obtain ⟨lead, rest, rfl, hlead, hrest⟩ := h.shape
    refine ⟨lead, rest ++ gs, append_assoc _ _ _, ?_, hrest.append hgs⟩
    exact (propext (refused_sent gs)).symm ▸ hlead
  count := by
    rw [socketSendBytes, commandsSent_sent, if_pos ⟨rfl, rfl⟩, commandsRead_sent, h.count, countP_append,
      Nat.add_assoc]

/-- Data of no bytes is not seen on the stream. -/
theorem sameAt_sendEmpty {f : Frame} (hkind : f.kind ≠ .command) (hsize : f.size P = 0) (src dst : Node) :
    SameAt net (socketSendBytes P net a b [f]) src dst where
  wire := by
    have hnil : streamOf (Frame.size P) [f] = [] := by rw [streamOf_cons, bytesOf_eq_nil hsize]; rfl
    simp [socketSendBytes, hnil]
  refused := refused_sent [f]
  sent := by
    rw [socketSendBytes, commandsSent_sent]
    simp [isCommand, hkind]
  read := commandsRead_sent [f]

end

/-! ## Reads -/

/-- The read is framed exactly when nothing disturbs it. -/
def ReadOk (P : Setup) (log : List Event) (rd : Read) : Prop := Framed P rd ↔ Undisturbed log rd

section

variable {net net' : Net} {src dst : Node} {fs : List Frame} {taken : List (Frame × Nat)} {e : Expect}
  {f : Frame}

theorem commandOf_bytesOf (req : Nat) (cmd : RpcCmd) :
    commandOf (bytesOf (Frame.size P) (.cmd req cmd)) = some (req, cmd) := by
  have hpos : 0 < Frame.size P (.cmd req cmd) := P.rpcCmd_pos
  obtain ⟨bs, hbs⟩ := exists_bytesOf_eq_cons hpos
  rw [hbs]
  rfl

theorem commandOf_of_kind {bs : List (Frame × Nat)} (h : f.kind ≠ .command) :
    commandOf ((f, 0) :: bs) = none := by
  cases f <;> first | rfl | exact (h rfl).elim

theorem Expect.isReply_of_meets (h : e.Meets f) : e.isReply = decide (f.kind = .reply) := by
  cases e <;> cases f <;> first | rfl | exact h.elim

variable {log : List Event} {w : Want}

theorem commandsRead_meets {n : Nat} (h : e.Meets f) :
    commandsRead (.read ⟨src, dst, e, n, taken⟩ :: log) src dst =
      commandsRead log src dst + [f].countP isCommand := by
  by_cases hkind : f.kind = .command
  · obtain rfl : e = .command := by
      cases e <;> cases f <;> first | rfl | exact h.elim | cases hkind
    simp [commandsRead_command, isCommand, hkind]
  · have hdata : e ≠ .command := by
      rintro rfl
      exact hkind (Expect.command_meets.1 h)
    simp [commandsRead_of_not fun h => hdata h.1, isCommand, hkind]

theorem not_undisturbed_of_refused {rd : Read} (hsize : 0 < rd.size)
    (h : Refused log rd.dst rd.src) : ¬ Undisturbed log rd := by
  rintro (hzero | ⟨hnone, -⟩)
  · exact hsize.ne' hzero
  · exact hnone h

variable {follow : Option Want} {n : Nat} {rest : List Frame}

/-- A read that is for the frame at the head takes this frame. -/
theorem Conn.readHead {w : Option Want} (h : Conn P net src dst follow (f :: rest)) (hf : Wants P (e, n) f)
    (hread : socketRecvBytes net src dst e n = some (taken, net'))
    (hshape : ∃ lead tail, rest = lead ++ tail ∧ Lead P src dst (Refused net.log dst src) w lead ∧
      Batches P src dst tail) :
    taken = bytesOf (Frame.size P) f ∧ Framed P ⟨src, dst, e, n, taken⟩ ∧ Conn P net' src dst w rest := by
  obtain ⟨-, rfl, hwire, hlog, -⟩ := recv_eq_some hread
  have hsize : f.size P = n := hf.2
  have htake : (net.wire src dst).take n = bytesOf (Frame.size P) f := by
    rw [h.bytes, ← hsize]
    exact take_streamOf_cons (Frame.size P) f rest
  refine ⟨htake, ⟨f, hf.1, htake⟩, ?_, ?_, ?_⟩
  · rw [hwire, h.bytes, ← hsize]
    exact drop_streamOf_cons (Frame.size P) f rest
  · rw [hlog, refused_cons fun m _ heq => by cases heq]
    exact hshape
  · have hsent : commandsSent net'.log src dst = commandsSent net.log src dst := by rw [hlog]; rfl
    rw [hsent, h.count, hlog, commandsRead_meets hf.1, ← singleton_append, countP_append, Nat.add_assoc]

/-- A read that is not for the frame at the head takes a block that starts with this frame. -/
theorem Conn.readOther (h : Conn P net src dst follow (f :: rest)) (hn : 0 < n) (hpos : 0 < f.size P)
    (hnot : ¬ e.Meets f) (hread : socketRecvBytes net src dst e n = some (taken, net'))
    (hdist : ¬ Undisturbed net.log ⟨src, dst, e, n, taken⟩) :
    ReadOk P net.log ⟨src, dst, e, n, taken⟩ ∧ ∃ bs, taken = (f, 0) :: bs := by
  obtain ⟨-, rfl, -⟩ := recv_eq_some hread
  rw [h.bytes] at hdist ⊢
  refine ⟨iff_of_false ?_ hdist, exists_take_streamOf_eq_cons rest hn hpos⟩
  rintro ⟨g, hmeets, hg⟩
  have hgf : g = f := eq_of_take_streamOf hn hpos hg
  exact hnot (hgf ▸ hmeets)

/-- What stands behind the command at the head. -/
theorem Batches.takeCommand {refused : Prop} (h : Batches P src dst (f :: rest)) (hkind : f.kind ≠ .reply)
    (hno : ¬ refused) :
    ∃ req cmd, f = .cmd req cmd ∧ carries src dst cmd = true ∧ ∃ lead tail, rest = lead ++ tail ∧
      Lead P src dst refused (cmd.follow P req) lead ∧ Batches P src dst tail := by
  cases h with
  | plain hc hfollow hrest =>
    exact ⟨_, _, rfl, hc, [], _, rfl, hfollow ▸ .clean hno, hrest⟩
  | paired hc hfollow hf hrest =>
    exact ⟨_, _, rfl, hc, [_], _, rfl, hfollow ▸ .next hno hc hfollow hf, hrest⟩
  | reply _ hreply _ _ => exact (hkind hreply).elim

/-- A read of a command takes the next command, unless data was left unread. -/
theorem Conn.readCommand (h : Conn P net src dst none fs) (hno : ∀ f ∈ fs, f.kind ≠ .reply)
    (hread : socketRecvBytes net src dst .command P.sizeofRpcCmd = some (taken, net')) :
    ReadOk P net.log ⟨src, dst, .command, P.sizeofRpcCmd, taken⟩ ∧ (commandOf taken = none ∨
        ∃ req cmd rest, commandOf taken = some (req, cmd) ∧ carries src dst cmd = true ∧
          fs = .cmd req cmd :: rest ∧ Conn P net' src dst (cmd.follow P req) rest) := by
  have hle := (recv_eq_some hread).1
  rw [h.bytes] at hle
  rcases h.head_cases with ⟨f, rest, rfl, hkind, hpos, hrefused⟩ | ⟨hrefused, hbatches⟩
  · have hnot : f.kind ≠ .command := by rw [hkind]; exact Kind.noConfusion
    obtain ⟨hok, bs, rfl⟩ := h.readOther P.rpcCmd_pos hpos (mt Expect.command_meets.1 hnot) hread
      (not_undisturbed_of_refused P.rpcCmd_pos hrefused)
    exact ⟨hok, Or.inl (commandOf_of_kind hnot)⟩
  · cases fs with
    | nil => exact (P.rpcCmd_pos.ne' (Nat.le_zero.1 hle)).elim
    | cons f rest =>
      obtain ⟨req, cmd, rfl, hc, hshape⟩ := hbatches.takeCommand (hno f mem_cons_self) hrefused
      obtain ⟨rfl, hframed, hconn⟩ := h.readHead (e := .command) ⟨trivial, rfl⟩ hread hshape
      exact ⟨iff_of_true hframed (Or.inr ⟨hrefused, Bool.noConfusion⟩),
        Or.inr ⟨req, cmd, rest, commandOf_bytesOf req cmd, hc, rfl, hconn⟩⟩

/-- The data that follows a command is read as a whole. -/
theorem Conn.readFollow (h : Conn P net src dst (some w) fs)
    (hread : socketRecvBytes net src dst w.1 w.2 = some (taken, net')) :
    ReadOk P net.log ⟨src, dst, w.1, w.2, taken⟩ ∧
      (∃ req cmd, carries src dst cmd = true ∧ cmd.follow P req = some w) ∧
      ∃ f rest, fs = f :: rest ∧ f.kind = .followUp ∧ Wants P w f ∧ taken = bytesOf (Frame.size P) f ∧
        Conn P net' src dst none rest := by
  obtain ⟨lead, rest, rfl, hlead, hrest⟩ := h.shape
  cases hlead with
  | @next _ _ _ f hno hc hfollow hf =>
    have hkind := RpcCmd.follow_meets_followUp hfollow hf
    obtain ⟨rfl, hframed, hconn⟩ := h.readHead (w := none) hf hread ⟨[], rest, rfl, .clean hno, hrest⟩
    have hreply : w.1.isReply = false := by rw [Expect.isReply_of_meets hf.1, hkind]; rfl
    refine ⟨iff_of_true hframed (Or.inr ⟨hno, fun htrue => ?_⟩), ⟨_, _, hc, hfollow⟩,
      f, rest, rfl, hkind, hf, rfl, hconn⟩
    rw [hreply] at htrue
    cases htrue

/-- A read of a reply takes the reply if it stands first; otherwise it is disturbed. -/
theorem Conn.readReply (h : Conn P net src dst none fs) (he : e.isReply = true) (hn : 0 < n)
    (hfirst : ∀ f rest, fs = f :: rest → f.kind = .reply → rest = [] ∧ Wants P (e, n) f)
    (hread : socketRecvBytes net src dst e n = some (taken, net')) :
    ReadOk P net.log ⟨src, dst, e, n, taken⟩ ∧ ((∃ f bs, taken = (f, 0) :: bs ∧ f.kind ≠ .reply) ∨
        ∃ f, fs = [f] ∧ Wants P (e, n) f ∧ taken = bytesOf (Frame.size P) f ∧
          Conn P net' src dst none []) := by
  have hle := (recv_eq_some hread).1
  rw [h.bytes] at hle
  have hmeets : ∀ {f : Frame}, f.kind ≠ .reply → ¬ e.Meets f := by
    intro f hkind hf
    rw [Expect.isReply_of_meets hf] at he
    exact hkind (of_decide_eq_true he)
  rcases h.head_cases with ⟨f, rest, rfl, hkind, hpos, hrefused⟩ | ⟨hrefused, hbatches⟩
  · have hnot : f.kind ≠ .reply := by rw [hkind]; exact Kind.noConfusion
    obtain ⟨hok, bs, rfl⟩ := h.readOther hn hpos (hmeets hnot) hread (not_undisturbed_of_refused hn hrefused)
    exact ⟨hok, Or.inl ⟨f, bs, rfl, hnot⟩⟩
  · cases fs with
    | nil => exact (hn.ne' (Nat.le_zero.1 hle)).elim
    | cons f rest =>
      have hcount := h.count
      by_cases hkind : f.kind = .reply
      · obtain ⟨rfl, hf⟩ := hfirst f rest rfl hkind
        obtain ⟨rfl, hframed, hconn⟩ := h.readHead hf hread ⟨[], [], rfl, .clean hrefused, .nil⟩
        rw [countP_cons_of_neg (by simp [isCommand, hkind])] at hcount
        exact ⟨iff_of_true hframed (Or.inr ⟨hrefused, fun _ => hcount⟩), Or.inr ⟨f, rfl, hf, rfl, hconn⟩⟩
      · -- A command that was not read yet stands before the reply.
        obtain ⟨req, cmd, rfl, -⟩ := hbatches.takeCommand hkind hrefused
        have hdist : ¬ Undisturbed net.log ⟨src, dst, e, n, taken⟩ := by
          rintro (hzero | ⟨-, hall⟩)
          · exact hn.ne' hzero
          · have heq : commandsSent net.log src dst = commandsRead net.log src dst := hall he
            rw [heq, countP_cons_of_pos rfl] at hcount
            omega
        obtain ⟨hok, bs, rfl⟩ := h.readOther hn P.rpcCmd_pos (hmeets hkind) hread hdist
        exact ⟨hok, Or.inl ⟨_, bs, rfl, hkind⟩⟩

/-- A read of no bytes takes nothing. -/
theorem Conn.readNothing (h : Conn P net src dst none fs) (he : e ≠ .command)
    (hread : socketRecvBytes net src dst e 0 = some (taken, net')) :
    taken = [] ∧ Conn P net' src dst none fs := by
  obtain ⟨-, rfl, hwire, hlog, -⟩ := recv_eq_some hread
  refine ⟨rfl, h.of_sameAt ⟨hwire, ?_, by rw [hlog]; rfl, ?_⟩⟩
  · rw [hlog, refused_cons fun m _ heq => by cases heq]
  · rw [hlog, commandsRead_of_not fun h => he h.1]

/-- Data that is not read is left, unless there is none. -/
theorem Conn.refuse (h : Conn P net src dst (some w) fs) :
    ∃ fs', Conn P (net.refuse dst src w.2) src dst none fs' ∧
      (fs' = fs ∨ ∃ f, f.kind = .followUp ∧ fs = f :: fs') := by
  obtain ⟨lead, rest, rfl, hlead, hrest⟩ := h.shape
  cases hlead with
  | @next _ _ _ f hno hc hfollow hf =>
    have hkind := RpcCmd.follow_meets_followUp hfollow hf
    by_cases hpos : 0 < w.2
    · refine ⟨[f] ++ rest, ⟨h.bytes, ⟨[f], rest, rfl, .left ⟨w.2, hpos, mem_cons_self⟩ hkind ?_, hrest⟩,
        h.count⟩, Or.inl rfl⟩
      rw [hf.2]
      exact hpos
    · have hzero : f.size P = 0 := by rw [hf.2]; omega
      have hnone : ¬ Refused (net.refuse dst src w.2).log dst src := by
        rw [Net.refuse, refused_cons]
        · exact hno
        · intro n hn heq
          cases heq
          exact hpos hn
      have hnot : ([f] ++ rest).countP isCommand = rest.countP isCommand :=
        countP_cons_of_neg (by simp [isCommand, hkind])
      refine ⟨rest, ⟨?_, ⟨[], rest, rfl, .clean hnone, hrest⟩, h.count.trans (by rw [hnot]; rfl)⟩,
        Or.inr ⟨f, hkind, rfl⟩⟩
      have hbytes : streamOf (Frame.size P) ([f] ++ rest) = streamOf (Frame.size P) rest := by
        rw [streamOf_append, streamOf_cons, bytesOf_eq_nil hzero]
        rfl
      exact h.bytes.trans hbytes

/-- Only a connection from a server to a client holds replies. -/
theorem Conn.no_reply {follow : Option Want} (h : Conn P net src dst follow fs)
    (hnot : carriesReply src dst = false) : ∀ f ∈ fs, f.kind ≠ .reply := by
  obtain ⟨lead, rest, rfl, hlead, hrest⟩ := h.shape
  have hbatches : ∀ f ∈ rest, f.kind ≠ .reply := by
    clear hlead h
    induction hrest with
    | nil => exact fun f hf => (not_mem_nil hf).elim
    | plain _ _ _ ih => exact forall_mem_cons.2 ⟨Kind.noConfusion, ih⟩
    | paired _ hfollow hf _ ih =>
      refine forall_mem_cons.2 ⟨Kind.noConfusion, forall_mem_cons.2 ⟨?_, ih⟩⟩
      rw [RpcCmd.follow_meets_followUp hfollow hf]
      exact Kind.noConfusion
    | reply hr _ _ _ => rw [hnot] at hr; cases hr
  intro f hf
  rcases mem_append.1 hf with hf | hf
  · cases hlead with
    | clean _ => cases hf
    | next _ _ hfollow hwants =>
      rw [mem_singleton.1 hf, RpcCmd.follow_meets_followUp hfollow hwants]
      exact Kind.noConfusion
    | left _ hkind _ =>
      rw [mem_singleton.1 hf, hkind]
      exact Kind.noConfusion
  · exact hbatches f hf

end

/-! ## Requests for replies -/

/-- A command after which the client blocks. One that asks for no bytes does not make it wait. -/
def Frame.Asks (P : Setup) : Frame → Prop
  | .cmd req c => ∃ w, c.reply P req = some w ∧ 0 < w.2
  | _ => False

def NoAsk (P : Setup) (fs : List Frame) : Prop := ∀ f ∈ fs, ¬ f.Asks P

def NoReply (fs : List Frame) : Prop := ∀ f ∈ fs, f.kind ≠ .reply

theorem not_asks_of_kind (h : f.kind ≠ .command) : ¬ f.Asks P := by
  cases f <;> first | exact fun h => h | exact (h rfl).elim

/-- The directions from a client to a server and back, when the client awaits the reply `w` of the server. -/
inductive Stage (P : Setup) : Option Want → List Frame → List Frame → Prop
  | quiet {up down : List Frame} (hup : NoAsk P up) (hdown : NoReply down) : Stage P none up down
  | asked {pre down : List Frame} {req : Nat} {cmd : RpcCmd} {w : Want} (hpre : NoAsk P pre)
      (hreply : cmd.reply P req = some w) (hpos : 0 < w.2) (hdown : NoReply down) :
      Stage P (some w) (pre ++ [.cmd req cmd]) down
  | served {down : List Frame} {w : Want} (hdown : NoReply down) : Stage P (some w) [] down
  | answered {pre : List Frame} {w : Want} {f : Frame} (hpre : NoReply pre) (hf : Wants P w f)
      (hkind : f.kind = .reply) : Stage P (some w) [] (pre ++ [f])

section

variable {up down : List Frame} {gs : List Frame} {f : Frame} {w : Option Want}

theorem NoReply.append {fs : List Frame} (h : NoReply fs) (h' : NoReply gs) : NoReply (fs ++ gs) :=
  forall_mem_append.2 ⟨h, h'⟩

theorem NoAsk.append {fs : List Frame} (h : NoAsk P fs) (h' : NoAsk P gs) : NoAsk P (fs ++ gs) :=
  forall_mem_append.2 ⟨h, h'⟩

theorem Stage.noReply (h : Stage P none up down) : NoReply down := by
  cases h with
  | quiet _ hdown => exact hdown

theorem Stage.noAsk (h : Stage P none up down) : NoAsk P up := by
  cases h with
  | quiet hup _ => exact hup

/-- A reply that stands first is the one that the client awaits, and nothing follows it. -/
theorem Stage.first {w : Want} (h : Stage P (some w) up down) {rest : List Frame} (hdown : down = f :: rest)
    (hkind : f.kind = .reply) : rest = [] ∧ Wants P w f := by
  have hnone : ∀ {fs : List Frame}, NoReply fs → fs = f :: rest → rest = [] ∧ Wants P w f := by
    rintro fs hno rfl
    exact (hno f mem_cons_self hkind).elim
  cases h with
  | asked _ _ _ hno => exact hnone hno hdown
  | served hno => exact hnone hno hdown
  | @answered pre _ g hpre hf _ =>
    cases pre with
    | nil =>
      cases hdown
      exact ⟨rfl, hf⟩
    | cons g' pre =>
      cases hdown
      exact (hpre f mem_cons_self hkind).elim

/-- The client sends something for which it does not block. -/
theorem Stage.sendUp (h : Stage P none up down) (hgs : NoAsk P gs) : Stage P none (up ++ gs) down :=
  .quiet (h.noAsk.append hgs) h.noReply

variable {req : Nat} {cmd : RpcCmd}

/-- The client asks for a reply. -/
theorem Stage.ask {w : Want} (h : Stage P none up down)
    (hreply : cmd.reply P req = some w) (hpos : 0 < w.2) : Stage P (some w) (up ++ [.cmd req cmd]) down :=
  .asked h.noAsk hreply hpos h.noReply

/-- The server takes a frame that asks for nothing, and sends no reply. -/
theorem Stage.takeUp (h : Stage P w (f :: up) down) (hf : ¬ f.Asks P) (hgs : NoReply gs) :
    Stage P w up (down ++ gs) := by
  generalize hall : f :: up = all at h
  cases h with
  | quiet hup hdown =>
    subst hall
    exact .quiet (forall_mem_cons.1 hup).2 (hdown.append hgs)
  | @asked pre _ req cmd w hpre hreply hpos hdown =>
    cases pre with
    | nil =>
      cases hall
      exact (hf ⟨w, hreply, hpos⟩).elim
    | cons g pre =>
      cases hall
      exact .asked (forall_mem_cons.1 hpre).2 hreply hpos (hdown.append hgs)
  | served _ => cases hall
  | answered _ _ _ => cases hall

/-- The server takes a request for a reply: it is the last one. -/
theorem Stage.takeAsk {w' : Want} (h : Stage P w (.cmd req cmd :: up) down)
    (hreply : cmd.reply P req = some w') (hpos : 0 < w'.2) : w = some w' ∧ up = [] ∧ NoReply down := by
  generalize hall : Frame.cmd req cmd :: up = all at h
  cases h with
  | quiet hup _ =>
    subst hall
    exact (hup _ mem_cons_self ⟨w', hreply, hpos⟩).elim
  | @asked pre _ req' cmd' w hpre hreply' _ hdown =>
    cases pre with
    | nil =>
      cases hall
      rw [hreply] at hreply'
      exact ⟨hreply'.symm, rfl, hdown⟩
    | cons g pre =>
      cases hall
      exact (hpre _ mem_cons_self ⟨w', hreply, hpos⟩).elim
  | served _ => cases hall
  | answered _ _ _ => cases hall

/-- Whatever the server takes, the client goes on waiting. -/
theorem Stage.take (h : Stage P w (f :: up) down) : Stage P w up down := by
  by_cases hf : f.Asks P
  · cases f with
    | cmd req cmd =>
      obtain ⟨w', hreply, hpos⟩ := hf
      obtain ⟨rfl, rfl, hdown⟩ := h.takeAsk hreply hpos
      exact .served hdown
    | _ => exact hf.elim
  · have hnone : NoReply [] := fun g hg => (not_mem_nil hg).elim
    have hnil := h.takeUp hf hnone
    rwa [append_nil] at hnil

/-- The client takes a frame. -/
theorem Stage.takeDown (h : Stage P none up (f :: down)) : Stage P none up down :=
  .quiet h.noAsk (forall_mem_cons.1 h.noReply).2

end

end DataSpaces.Cluster.Tcp
