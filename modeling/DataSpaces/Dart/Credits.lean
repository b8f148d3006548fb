import DataSpaces.Lib.Runs

/-!
# Credits of the message layer over GNI

A message to a peer takes one of the `SENDCREDIT` credits that the sender holds for it, and the receiver
returns `RECVCREDIT` of them with one acknowledgement for every `RECVCREDIT` messages it has read. Messages
and acknowledgements go through the same mailbox, which has room for `num_buf` of them; acknowledgements
take no credit.

`step` is one event of one of the two peers, with every interleaving of them. `CreditInv` says that the
credits of a direction are never lost or made: they are at the sender, in messages under way, in the count
of the receiver or in acknowledgements under way. It follows that no mailbox fills up, so the branch for a
refused send is never taken, and that a sender without credits has something to wait for.
-/

namespace DataSpaces.Dart.Gni

open Lib List Function

/-! ## The source -/

/-- `SENDCREDIT`; the division of C rounds towards zero. -/
def sendCredit (numBuf : Int) : Int := numBuf.tdiv 2 - 2

/-- `RECVCREDIT`. -/
def recvCredit (numBuf : Int) : Int := numBuf.tdiv 2 - 4

inductive CmpType where
  | dartServer
  | dartClient
deriving DecidableEq, Repr

/-- The two peers. -/
inductive Side where
  | left
  | right
deriving DecidableEq, Repr

def Side.other : Side → Side
  | .left => .right
  | .right => .left

variable {μ : Type*}

/-- A message in a mailbox: `cn_ack_credit`, or any other command. -/
inductive Cmd (μ : Type*) where
  | data (content : μ)
  | ackCredit
deriving DecidableEq, Repr

def Cmd.isAck : Cmd μ → Bool
  | .data _ => false
  | .ackCredit => true

def Cmd.isData (c : Cmd μ) : Bool := !c.isAck

/-- What one peer keeps about the other one. -/
structure NodeId (μ : Type*) where
  numMsgAtPeer : Int
  numMsgRecv : Int
  reqList : List μ
  /-- the message whose receipt made the count full, while `rpc_credit_return` runs -/
  returning : Option (Cmd μ)

structure Sys (μ : Type*) where
  cmpType : Side → CmpType
  peer : Side → NodeId μ
  /-- unread messages of this peer, oldest first -/
  mailbox : Side → List (Cmd μ)

def Sys.setPeer (sys : Sys μ) (s : Side) (n : NodeId μ) : Sys μ :=
  { sys with peer := update sys.peer s n }

def Sys.setMailbox (sys : Sys μ) (s : Side) (box : List (Cmd μ)) : Sys μ :=
  { sys with mailbox := update sys.mailbox s box }

/-- Both peers use the same `num_buf` and start with `max_num_msg` credits. -/
def start (numBuf : Int) (cmpType : Side → CmpType) : Sys μ where
  cmpType := cmpType
  peer := fun _ => ⟨sendCredit numBuf, 0, [], none⟩
  mailbox := fun _ => []

/-- `rpc_post_request`; the second part is false while the function has not returned. A send is refused
when the mailbox is full: a server then drops the message, a client gives up its credits and waits for new
ones before it sends again. -/
def rpcPostRequest (numBuf : Int) (sys : Sys μ) (s : Side) (c : Cmd μ) : Sys μ × Bool :=
  if ((sys.mailbox s.other).length : Int) < numBuf then
    (sys.setMailbox s.other (sys.mailbox s.other ++ [c]), true)
  else match sys.cmpType s with
    | .dartServer => (sys, true)
    | .dartClient => (sys.setPeer s { sys.peer s with numMsgAtPeer := 0 }, false)

/-- One round of the loop of `peer_process_send_list`. Without credits a server leaves the loop and a
client processes events, which are steps of their own. -/
def peerProcessSendList (numBuf : Int) (sys : Sys μ) (s : Side) : Option (Sys μ) :=
  match (sys.peer s).reqList with
  | [] => none
  | m :: rest =>
    if (sys.peer s).numMsgAtPeer = 0 then none
    else
      let (sys', posted) := rpcPostRequest numBuf sys s (.data m)
      if posted then
        some (sys'.setPeer s
          { sys.peer s with numMsgAtPeer := (sys.peer s).numMsgAtPeer - 1, reqList := rest })
      else some sys'

def rpcProcessAck (numBuf : Int) (n : NodeId μ) : NodeId μ :=
  let credits := n.numMsgAtPeer + recvCredit numBuf
  { n with numMsgAtPeer := if credits > sendCredit numBuf then sendCredit numBuf else credits }

/-- `rpc_cb_decode`. What the handlers of other commands send is sent by steps of their own. -/
def rpcCbDecode (numBuf : Int) (c : Cmd μ) (n : NodeId μ) : NodeId μ :=
  match c with
  | .ackCredit => rpcProcessAck numBuf n
  | .data _ => n

/-- The receipt of a message in `__process_event`, up to the call of `rpc_credit_return` if there is one. -/
def processEvent (numBuf : Int) (sys : Sys μ) (s : Side) : Option (Sys μ) :=
  match (sys.peer s).returning, sys.mailbox s with
  | none, c :: rest =>
    let n := sys.peer s
    let n := if c.isAck then n else { n with numMsgRecv := n.numMsgRecv + 1 }
    let n := if n.numMsgRecv = recvCredit numBuf then { n with returning := some c }
      else rpcCbDecode numBuf c n
    some ((sys.setMailbox s rest).setPeer s n)
  | _, _ => none

/-- `rpc_credit_return` and the rest of the receipt. -/
def rpcCreditReturn (numBuf : Int) (sys : Sys μ) (s : Side) : Option (Sys μ) :=
  match (sys.peer s).returning with
  | none => none
  | some c =>
    let (sys', posted) := rpcPostRequest numBuf sys s .ackCredit
    if posted then
      some (sys'.setPeer s (rpcCbDecode numBuf c { sys.peer s with numMsgRecv := 0, returning := none }))
    else some sys'

inductive Act (μ : Type*) where
  /-- a new request, put at the end of `req_list` -/
  | rpcSend (s : Side) (m : μ)
  | sendNext (s : Side)
  | receive (s : Side)
  | creditReturn (s : Side)

def step (numBuf : Int) (sys : Sys μ) : Act μ → Option (Sys μ)
  | .rpcSend s m => some (sys.setPeer s { sys.peer s with reqList := (sys.peer s).reqList ++ [m] })
  | .sendNext s => peerProcessSendList numBuf sys s
  | .receive s => processEvent numBuf sys s
  | .creditReturn s => rpcCreditReturn numBuf sys s

/-! ## Posts while the mailboxes have room -/

namespace Cmd

@[simp] theorem isAck_data (m : μ) : (Cmd.data m).isAck = false := rfl

@[simp] theorem isAck_ackCredit : (Cmd.ackCredit : Cmd μ).isAck = true := rfl

@[simp] theorem isData_data (m : μ) : (Cmd.data m).isData = true := rfl

@[simp] theorem isData_ackCredit : (Cmd.ackCredit : Cmd μ).isData = false := rfl

end Cmd

namespace Side

@[simp] theorem other_other (s : Side) : s.other.other = s := by cases s <;> rfl

@[simp] theorem other_ne (s : Side) : s.other ≠ s := by cases s <;> simp [Side.other]

@[simp] theorem ne_other (s : Side) : s ≠ s.other := (other_ne s).symm

theorem eq_or_eq_other (s t : Side) : t = s ∨ t = s.other := by cases s <;> cases t <;> simp [Side.other]

end Side

namespace Sys

variable (sys : Sys μ) (s : Side)

variable (n : NodeId μ) (box : List (Cmd μ))

@[simp] theorem setPeer_mailbox : (sys.setPeer s n).mailbox = sys.mailbox := rfl

@[simp] theorem setMailbox_mailbox :
    (sys.setMailbox s box).mailbox = update sys.mailbox s box := rfl

end Sys

/-- Every mailbox has room for one more message. -/
def Room (numBuf : Int) (sys : Sys μ) : Prop := ∀ s, ((sys.mailbox s).length : Int) < numBuf

/-- A post with room in the mailbox is not refused. -/
theorem rpcPostRequest_of_room {numBuf : Int} {sys : Sys μ} (h : Room numBuf sys) (s : Side) (c : Cmd μ) :
    rpcPostRequest numBuf sys s c = (sys.setMailbox s.other (sys.mailbox s.other ++ [c]), true) :=
  if_pos (h s.other)

/-! ## The invariant -/

/-- The credits of the direction from `s`: at the sender, in messages under way, counted by the receiver
since its last acknowledgement, and in acknowledgements under way. -/
def creditSum (numBuf : Int) (sys : Sys μ) (s : Side) : Int :=
  (sys.peer s).numMsgAtPeer + ((sys.mailbox s.other).countP Cmd.isData : Nat) +
    (sys.peer s.other).numMsgRecv + recvCredit numBuf * ((sys.mailbox s).countP Cmd.isAck : Nat)

/-- The count of received messages, at the two points of a receipt. -/
def CountOk (numBuf : Int) (n : NodeId μ) : Prop :=
  0 ≤ n.numMsgRecv ∧ (n.returning = none → n.numMsgRecv < recvCredit numBuf) ∧
    ∀ c, n.returning = some c → c.isData = true ∧ n.numMsgRecv = recvCredit numBuf

structure CreditInv (numBuf : Int) (sys : Sys μ) : Prop where
  sum : ∀ s, creditSum numBuf sys s = sendCredit numBuf
  credits : ∀ s, 0 ≤ (sys.peer s).numMsgAtPeer
  count : ∀ s, CountOk numBuf (sys.peer s)

theorem recvCredit_pos {numBuf : Int} (h : 10 ≤ numBuf) : 1 ≤ recvCredit numBuf := by
  unfold recvCredit
  rw [Int.tdiv_eq_ediv_of_nonneg (by omega)]
  omega

theorem sendCredit_eq (numBuf : Int) : sendCredit numBuf = recvCredit numBuf + 2 := by
  unfold sendCredit recvCredit
  omega

section

variable {numBuf : Int} {sys sys' : Sys μ}

section

variable (h : CreditInv numBuf sys)

include h

/-- The data messages of a mailbox come out of the credits of their sender. -/
theorem CreditInv.countP_isData_le (hbuf : 10 ≤ numBuf) (s : Side) :
    ((sys.mailbox s).countP Cmd.isData : Int) ≤ sendCredit numBuf := by
  have hsum := h.sum s.other
  rw [creditSum, Side.other_other] at hsum
  have hcredits := h.credits s.other
  have hcount := (h.count s).1
  have hacks : 0 ≤ recvCredit numBuf * ((sys.mailbox s.other).countP Cmd.isAck : Nat) :=
    mul_nonneg (by have := recvCredit_pos hbuf; omega) (Int.natCast_nonneg _)
  omega

/-- The acknowledgements of a mailbox carry no more than all credits. -/
theorem CreditInv.mul_countP_isAck_le (s : Side) :
    (sys.peer s).numMsgAtPeer + recvCredit numBuf * ((sys.mailbox s).countP Cmd.isAck : Nat) ≤
      sendCredit numBuf := by
  have hsum := h.sum s
  rw [creditSum] at hsum
  have hcount := (h.count s.other).1
  omega

theorem CreditInv.countP_isAck_le (hbuf : 10 ≤ numBuf) (s : Side) : (sys.mailbox s).countP Cmd.isAck ≤ 3 := by
  have hmul := h.mul_countP_isAck_le s
  have hcredits := h.credits s
  have hpos := recvCredit_pos hbuf
  have hsend := sendCredit_eq numBuf
  by_contra hmore
  have hfour : recvCredit numBuf * 4 ≤ recvCredit numBuf * ((sys.mailbox s).countP Cmd.isAck : Nat) :=
    mul_le_mul_of_nonneg_left (by omega) (by omega)
  omega

theorem CreditInv.room (hbuf : 10 ≤ numBuf) : Room numBuf sys := by
  intro s
  have hlen := length_eq_countP_add_countP Cmd.isData (l := sys.mailbox s)
  have hneg : (sys.mailbox s).countP (fun c => ¬ Cmd.isData c) = (sys.mailbox s).countP Cmd.isAck :=
    countP_congr fun c _ => by simp [Cmd.isData]
  have hdata := h.countP_isData_le hbuf s
  have hacks := h.countP_isAck_le hbuf s
  rw [hneg] at hlen
  unfold sendCredit at hdata
  rw [Int.tdiv_eq_ediv_of_nonneg (by omega)] at hdata
  omega

/-- The cap of `rpc_process_ack` never takes effect. -/
theorem CreditInv.rpcProcessAck_eq (hbuf : 10 ≤ numBuf) {s : Side} (hack : Cmd.ackCredit ∈ sys.mailbox s) :
    rpcProcessAck numBuf (sys.peer s) =
      { sys.peer s with numMsgAtPeer := (sys.peer s).numMsgAtPeer + recvCredit numBuf } := by
  have hmul := h.mul_countP_isAck_le s
  have hpos : 0 < (sys.mailbox s).countP Cmd.isAck := countP_pos_iff.2 ⟨_, hack, rfl⟩
  have hone : recvCredit numBuf * 1 ≤ recvCredit numBuf * ((sys.mailbox s).countP Cmd.isAck : Nat) :=
    mul_le_mul_of_nonneg_left (by omega) (by have := recvCredit_pos hbuf; omega)
  rw [rpcProcessAck]
  simp only
  rw [if_neg (by omega)]

end

theorem creditInv_start (hbuf : 10 ≤ numBuf) (cmpType : Side → CmpType) :
    CreditInv numBuf (start numBuf cmpType : Sys μ) where
  sum s := by simp [creditSum, start]
  credits s := by
    have := recvCredit_pos hbuf
    have := sendCredit_eq numBuf
    simp only [start]
    omega
  count s := by
    have := recvCredit_pos hbuf
    simp [CountOk, start]
    omega

/-- Only peer `s` changes what it keeps. It is the sender of one direction and the receiver of the other,
and both sums have to stay the same. -/
theorem CreditInv.of_peer (h : CreditInv numBuf sys) {s : Side} {n : NodeId μ}
    (hpeer : sys'.peer = update sys.peer s n)
    (hout : n.numMsgAtPeer + ((sys'.mailbox s.other).countP Cmd.isData : Nat) +
        recvCredit numBuf * ((sys'.mailbox s).countP Cmd.isAck : Nat) =
      (sys.peer s).numMsgAtPeer + ((sys.mailbox s.other).countP Cmd.isData : Nat) +
        recvCredit numBuf * ((sys.mailbox s).countP Cmd.isAck : Nat))
    (hin : n.numMsgRecv + ((sys'.mailbox s).countP Cmd.isData : Nat) +
        recvCredit numBuf * ((sys'.mailbox s.other).countP Cmd.isAck : Nat) =
      (sys.peer s).numMsgRecv + ((sys.mailbox s).countP Cmd.isData : Nat) +
        recvCredit numBuf * ((sys.mailbox s.other).countP Cmd.isAck : Nat))
    (hcredits : 0 ≤ n.numMsgAtPeer) (hcount : CountOk numBuf n) : CreditInv numBuf sys' where
  sum t := by
    rcases s.eq_or_eq_other t with rfl | rfl
    · rw [← h.sum t, creditSum, creditSum, hpeer]
      simp only [update_self, update_of_ne t.other_ne]
      omega
    · rw [← h.sum s.other, creditSum, creditSum, hpeer]
      simp only [Side.other_other, update_self, update_of_ne s.other_ne]
      omega
  credits t := by
    rcases s.eq_or_eq_other t with rfl | rfl
    · simpa [hpeer] using hcredits
    · simpa [hpeer] using h.credits s.other
  count t := by
    rcases s.eq_or_eq_other t with rfl | rfl
    · simpa [hpeer] using hcount
    · simpa [hpeer] using h.count s.other

section

variable (h : CreditInv numBuf sys) (hbuf : 10 ≤ numBuf) {s : Side}

include h hbuf

/-- A credit becomes a message under way. -/
theorem CreditInv.peerProcessSendList (hsend : Gni.peerProcessSendList numBuf sys s = some sys') :
    CreditInv numBuf sys' := by
  unfold Gni.peerProcessSendList at hsend
  split at hsend
  · cases hsend
  · split at hsend
    · cases hsend
    next hcredit =>
      rw [rpcPostRequest_of_room (h.room hbuf)] at hsend
      cases hsend
      have hcredits := h.credits s
      apply h.of_peer (s := s) rfl
      · simp
      · simp
      · simp only
        omega
      · exact h.count s

/-- A message under way becomes one that is counted, and an acknowledgement under way becomes credits, all
of them below the cap. -/
theorem CreditInv.processEvent (hevent : Gni.processEvent numBuf sys s = some sys') :
    CreditInv numBuf sys' := by
  have hcredits := h.credits s
  have hbounds := h.count s
  have hpos := recvCredit_pos hbuf
  unfold Gni.processEvent at hevent
  split at hevent
  next c rest hidle hbox =>
    cases hevent
    have hlt := hbounds.2.1 hidle
    cases c with
    | data m =>
      by_cases hfull : (sys.peer s).numMsgRecv + 1 = recvCredit numBuf
      · apply h.of_peer (s := s) rfl
        · simp [hbox, hfull]
        · simp [hbox, hfull, countP_cons]
          omega
        · simpa [hfull] using hcredits
        · simp [CountOk, hfull]
          omega
      · apply h.of_peer (s := s) rfl
        · simp [hbox, hfull, rpcCbDecode]
        · simp [hbox, hfull, rpcCbDecode, countP_cons]
          omega
        · simpa [hfull, rpcCbDecode] using hcredits
        · simp [CountOk, hfull, hidle, rpcCbDecode]
          have := hbounds.1
          omega
    | ackCredit =>
      have hack := h.rpcProcessAck_eq hbuf (s := s) (by rw [hbox]; exact mem_cons_self)
      apply h.of_peer (s := s) rfl
      · simp [hbox, hlt.ne, rpcCbDecode, hack, countP_cons, mul_add]
        omega
      · simp [hbox, hlt.ne, rpcCbDecode, hack]
      · simp [hlt.ne, rpcCbDecode, hack]
        omega
      · simp [hlt.ne, rpcCbDecode, hack]
        exact hbounds
  · cases hevent

/-- The count becomes an acknowledgement under way. -/
theorem CreditInv.rpcCreditReturn (hreturn : Gni.rpcCreditReturn numBuf sys s = some sys') :
    CreditInv numBuf sys' := by
  unfold Gni.rpcCreditReturn at hreturn
  split at hreturn
  · cases hreturn
  next c hret =>
    rw [rpcPostRequest_of_room (h.room hbuf)] at hreturn
    cases hreturn
    obtain ⟨hdata, hfull⟩ := (h.count s).2.2 c hret
    cases c with
    | ackCredit => cases hdata
    | data m =>
      have hpos := recvCredit_pos hbuf
      apply h.of_peer (s := s) rfl
      · simp [rpcCbDecode]
      · simp [rpcCbDecode, mul_add]
        omega
      · exact h.credits s
      · refine ⟨le_rfl, fun _ => ?_, fun c hc => ?_⟩
        · simp only [rpcCbDecode]
          omega
        · cases hc

theorem CreditInv.step {a : Act μ} (hstep : Gni.step numBuf sys a = some sys') : CreditInv numBuf sys' := by
  cases a with
  | rpcSend s m =>
    cases hstep
    exact h.of_peer rfl rfl rfl (h.credits s) (h.count s)
  | sendNext s => exact h.peerProcessSendList hbuf hstep
  | receive s => exact h.processEvent hbuf hstep
  | creditReturn s => exact h.rpcCreditReturn hbuf hstep

end

theorem Reaches.creditInv {cmpType : Side → CmpType} (hbuf : 10 ≤ numBuf)
    (hreach : Reaches (Gni.step numBuf) (start numBuf cmpType) sys) : CreditInv numBuf sys :=
  hreach.invariant (creditInv_start hbuf cmpType) fun _ _ _ h hstep => h.step hbuf hstep

end

/-! ## Credits over whole runs -/

/-- In every run the credits of each direction add up to `SENDCREDIT`, an acknowledgement is never cut off
by the cap, no mailbox holds more than `num_buf` unread messages, and when nothing is under way in either
direction both peers have credits. -/
theorem credit_flow_control {numBuf : Int} (hbuf : 10 ≤ numBuf) (cmpType : Side → CmpType) {sys : Sys μ}
    (hreach : Reaches (step numBuf) (start numBuf cmpType) sys) :
    (∀ s, creditSum numBuf sys s = sendCredit numBuf) ∧
      (∀ s, Cmd.ackCredit ∈ sys.mailbox s → (rpcProcessAck numBuf (sys.peer s)).numMsgAtPeer =
        (sys.peer s).numMsgAtPeer + recvCredit numBuf) ∧ (∀ s, ((sys.mailbox s).length : Int) ≤ numBuf) ∧
      ((∀ s, sys.mailbox s = []) → ∀ s, (sys.peer s).numMsgAtPeer ≠ 0) := by
  have hinv := Reaches.creditInv hbuf hreach
  refine ⟨hinv.sum, fun s hack => ?_, fun s => (hinv.room hbuf s).le, fun hempty s => ?_⟩
  · rw [hinv.rpcProcessAck_eq hbuf hack]
  · have hsum := hinv.sum s
    rw [creditSum, hempty s, hempty s.other, sendCredit_eq] at hsum
    simp only [countP_nil, Nat.cast_zero, mul_zero, add_zero] at hsum
    have hcount := hinv.count s.other
    -- the receiver keeps at most `RECVCREDIT` of the `RECVCREDIT + 2` credits back
    have hle : (sys.peer s.other).numMsgRecv ≤ recvCredit numBuf := by
      cases hret : (sys.peer s.other).returning with
      | none => exact (hcount.2.1 hret).le
      | some c => exact (hcount.2.2 c hret).2.le
    omega

/-- Ten buffers: the left peer has used its three credits, and the right one has read one message and
returned the credit. -/
theorem credit_flow_control_ten : ∃ sys : Sys Nat,
    ((sys.peer .left).numMsgAtPeer = 0 ∧ sys.mailbox .left = [.ackCredit] ∧
      sys.mailbox .right = [.data 2, .data 3]) ∧ (∀ s, creditSum 10 sys s = sendCredit 10) ∧
      (∀ s, Cmd.ackCredit ∈ sys.mailbox s → (rpcProcessAck 10 (sys.peer s)).numMsgAtPeer =
        (sys.peer s).numMsgAtPeer + recvCredit 10) ∧ (∀ s, ((sys.mailbox s).length : Int) ≤ 10) ∧
      ((∀ s, sys.mailbox s = []) → ∀ s, (sys.peer s).numMsgAtPeer ≠ 0) := by
  have hreach : Reaches (step 10) (start 10 fun _ => .dartServer) _ :=
    ⟨[.rpcSend .left 1, .rpcSend .left 2, .rpcSend .left 3, .sendNext .left, .sendNext .left,
      .sendNext .left, .receive .right, .creditReturn .right], rfl⟩
  exact ⟨_, ⟨rfl, rfl, rfl⟩, credit_flow_control (by decide) (fun _ => .dartServer) hreach⟩

end DataSpaces.Dart.Gni
