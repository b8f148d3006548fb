import DataSpaces.Cluster.TcpConnections

/-!
# Framing of the TCP streams

`framed_reads_iff` says for every run of puts and gets when each of its reads takes exactly what it is for: no
process may have left data unread on a stream that it reads again, and a client that blocks for a reply must
have read all commands of that server. With `DS_SYNC_MSG` the servers send a command after every put, so a get
after a put takes it for its reply unless the client has waited for it.

The invariant `Ok` has the frames behind all streams, and is kept by every action for the processes that are not
lost.
-/

namespace DataSpaces.Cluster.Tcp

open Lib Geometry Space Store DataSpaces.Client Copy List Option Function

variable {P : Setup}

/-! ## The invariant -/

/-- What a process means for the streams: whether it is lost, the data that it is receiving, and the replies of
the servers for which it blocks. -/
structure Profile where
  lost : Prop
  follow : Node → Option Want
  awaits : Nat → Option Want

namespace Profile

def idle : Profile := ⟨False, fun _ => none, fun _ => none⟩

def gone : Profile := { idle with lost := True }

def receiving (src : Node) (w : Option Want) : Profile := { idle with follow := update idle.follow src w }

/-- A read of no bytes does not block. -/
def blocked (t : Nat) (w : Want) : Profile :=
  { idle with awaits := update idle.awaits t (if 0 < w.2 then some w else none) }

theorem follow_receiving (src : Node) (w : Option Want) : (receiving src w).follow src = w := update_self ..

theorem awaits_blocked (t : Nat) (w : Want) : (blocked t w).awaits t = if 0 < w.2 then some w else none :=
  update_self ..

theorem receiving_none (src : Node) : receiving src none = idle :=
  congrArg (Profile.mk False · idle.awaits) (update_eq_self src idle.follow)

end Profile

/-- What a client agrees on with a server, if `a` and `b` are these two; `fs` are the frames from `a` to `b`,
and `back` those in the other direction. -/
def StageAt (P : Setup) (prof : Node → Profile) (fs back : List Frame) : Node → Node → Prop
  | .client c, .server t => ¬ (prof (.client c)).lost → Stage P ((prof (.client c)).awaits t) fs back
  | .server t, .client c => ¬ (prof (.client c)).lost → Stage P ((prof (.client c)).awaits t) back fs
  | _, _ => True

/-- The frames `q` are behind the streams to the processes that are not lost. -/
structure Ok (P : Setup) (net : Net) (prof : Node → Profile) (q : Node × Node → List Frame) : Prop where
  conns : ∀ src dst, ¬ (prof dst).lost → Conn P net src dst ((prof dst).follow src) (q (src, dst))
  stages : ∀ c t, StageAt P prof (q (.client c, .server t)) (q (.server t, .client c)) (.client c) (.server t)
  reads : EachRead (ReadOk P) net.log

section Primitives

variable {net net' : Net} {prof prof' : Node → Profile} {q : Node × Node → List Frame} {a b n : Node}
  {p : Profile} {fs : List Frame}

section

variable (h : Ok P net prof q)

include h

theorem Ok.stageAt (a b : Node) : StageAt P prof (q (a, b)) (q (b, a)) a b := by
  cases a <;> cases b
  · trivial
  · exact h.stages _ _
  · exact h.stages _ _
  · trivial

/-- Process `n`, at one end of the stream from `a` to `b`, changes the stream and its own profile. -/
theorem Ok.act (hprof : prof' = update prof n p) (hn : n = a ∨ n = b)
    (hp : ¬ p.lost → ¬ (prof n).lost ∧ (∀ src, (src, n) ≠ (a, b) → p.follow src = (prof n).follow src) ∧
      ∀ t, .server t ≠ a → .server t ≠ b → p.awaits t = (prof n).awaits t)
    (hconn : ¬ (prof' b).lost → Conn P net' a b ((prof' b).follow a) fs)
    (hsame : ∀ src dst, ¬ (src = a ∧ dst = b) → SameAt net net' src dst)
    (hstage : StageAt P prof' fs (q (b, a)) a b) (hreads : EachRead (ReadOk P) net'.log) :
    Ok P net' prof' (update q (a, b) fs) where
  conns := by
    intro src dst hdst
    by_cases hab : (src, dst) = (a, b)
    · cases hab
      rw [update_self]
      exact hconn hdst
    · rw [update_of_ne hab]
      refine Conn.of_sameAt ?_ (hsame src dst (by simpa using hab))
      subst hprof
      by_cases hnode : dst = n
      · subst hnode
        rw [update_self] at hdst ⊢
        obtain ⟨hlive, hfollow, -⟩ := hp hdst
        rw [hfollow src hab]
        exact h.conns src dst hlive
      · rw [update_of_ne hnode] at hdst ⊢
        exact h.conns src dst hdst
  stages := by
    intro c t hc
    by_cases hup : (Node.client c, Node.server t) = (a, b)
    · cases hup
      rw [update_self, update_of_ne (by simp)]
      exact hstage hc
    by_cases hdown : (Node.server t, Node.client c) = (a, b)
    · cases hdown
      rw [update_self, update_of_ne (by simp)]
      exact hstage hc
    rw [update_of_ne hup, update_of_ne hdown]
    subst hprof
    by_cases hnode : .client c = n
    · subst hnode
      rw [update_self] at hc ⊢
      obtain ⟨hlive, -, hawaits⟩ := hp hc
      rw [hawaits t (by grind) (by grind)]
      exact h.stages c t hlive
    · rw [update_of_ne hnode] at hc ⊢
      exact h.stages c t hc
  reads := hreads

theorem Ok.send {gs : List Frame} (hab : a ≠ b) (hprof : prof' = update prof a p)
    (hp : ¬ p.lost → ¬ (prof a).lost ∧ p.follow = (prof a).follow ∧
      ∀ t, .server t ≠ b → p.awaits t = (prof a).awaits t) (hgs : Batches P a b gs)
    (hstage : StageAt P prof' (q (a, b) ++ gs) (q (b, a)) a b) :
    Ok P (socketSendBytes P net a b gs) prof' (update q (a, b) (q (a, b) ++ gs)) := by
  refine h.act hprof (Or.inl rfl) (fun hlive => ?_) ?_ (fun _ _ => sameAt_send gs) hstage
    (h.reads.append (read_notMem_sent gs))
  · obtain ⟨hlive, hfollow, hawaits⟩ := hp hlive
    exact ⟨hlive, fun src _ => congrFun hfollow src, fun t _ => hawaits t⟩
  · rw [hprof, update_of_ne hab.symm]
    exact fun hb => (h.conns a b hb).send hgs

/-- The sender goes on as before. -/
theorem Ok.sendOn {gs : List Frame} (hab : a ≠ b) (hgs : Batches P a b gs)
    (hstage : StageAt P prof (q (a, b) ++ gs) (q (b, a)) a b) :
    Ok P (socketSendBytes P net a b gs) prof (update q (a, b) (q (a, b) ++ gs)) :=
  h.send hab (update_eq_self a prof).symm (fun ha => ⟨ha, rfl, fun _ _ => rfl⟩) hgs hstage

/-- Data of no bytes changes nothing. -/
theorem Ok.sendEmpty {f : Frame} (hkind : f.kind ≠ .command) (hsize : f.size P = 0) :
    Ok P (socketSendBytes P net a b [f]) prof q where
  conns := fun src dst hdst => (h.conns src dst hdst).of_sameAt (sameAt_sendEmpty hkind hsize src dst)
  stages := h.stages
  reads := h.reads.append (read_notMem_sent [f])

/-- Process `b` gets lost. -/
theorem Ok.lose (hprof : prof' = update prof b .gone)
    (hsame : ∀ src dst, ¬ (src = a ∧ dst = b) → SameAt net net' src dst)
    (hreads : EachRead (ReadOk P) net'.log) : Ok P net' prof' (update q (a, b) (q (a, b))) := by
  subst hprof
  refine h.act rfl (Or.inr rfl) (fun hlive => (hlive trivial).elim) (fun hlive => ?_) hsame ?_ hreads
  · rw [update_self] at hlive
    exact (hlive trivial).elim
  · cases b with
    | server t =>
      cases a with
      | server t' => trivial
      | client c => exact h.stages c t
    | client c =>
      cases a with
      | server t => exact fun hlive => (hlive (by rw [update_self]; trivial)).elim
      | client c' => trivial

variable {e : Expect} {k : Nat} {taken : List (Frame × Nat)}
  (hread : socketRecvBytes net a b e k = some (taken, net')) (hok : ReadOk P net.log ⟨a, b, e, k, taken⟩)

include hread hok

theorem Ok.recvLost (hprof : prof' = update prof b .gone) : Ok P net' prof' (update q (a, b) (q (a, b))) := by
  obtain ⟨-, -, -, hlog, hsame⟩ := recv_eq_some hread
  exact h.lose hprof hsame (hlog ▸ h.reads.read hok)

theorem Ok.recv (hprof : prof' = update prof b p) (hlive : ¬ (prof b).lost)
    (hfollow : ∀ src, src ≠ a → p.follow src = (prof b).follow src)
    (hawaits : ∀ t, .server t ≠ a → p.awaits t = (prof b).awaits t) (hconn : Conn P net' a b (p.follow a) fs)
    (hstage : StageAt P prof' fs (q (b, a)) a b) : Ok P net' prof' (update q (a, b) fs) := by
  obtain ⟨-, -, -, hlog, hsame⟩ := recv_eq_some hread
  refine h.act hprof (Or.inr rfl) (fun _ => ⟨hlive, fun src hne => ?_, fun t ht _ => hawaits t ht⟩)
    (fun _ => ?_) hsame hstage (hlog ▸ h.reads.read hok)
  · exact hfollow src fun heq => hne (by rw [heq])
  · rw [hprof, update_self]
    exact hconn

/-- A read of a command, or of the data that follows it. -/
theorem Ok.recvFollow {w w' : Option Want} (hb : prof b = .receiving a w)
    (hprof : prof' = update prof b (.receiving a w')) (hconn : Conn P net' a b w' fs)
    (hstage : StageAt P prof' fs (q (b, a)) a b) : Ok P net' prof' (update q (a, b) fs) := by
  refine h.recv hread hok hprof (by rw [hb]; exact id) (fun src hne => ?_) (fun _ _ => by rw [hb]; rfl) ?_
    hstage
  · rw [hb]
    exact (update_of_ne hne ..).trans (update_of_ne hne ..).symm
  · rw [Profile.follow_receiving]
    exact hconn

end

/-- The receiver leaves the data that follows a command. -/
theorem Ok.refuse {w : Want} (h : Ok P net prof q) (hb : prof b = .receiving a (some w))
    (hprof : prof' = update prof b .idle)
    (hstage : ∀ fs, q (a, b) = fs ∨ (∃ f, q (a, b) = f :: fs) → StageAt P prof' fs (q (b, a)) a b) :
    ∃ q', Ok P (net.refuse b a w.2) prof' q' := by
  have hconn := h.conns a b (by rw [hb]; exact id)
  rw [hb, Profile.follow_receiving] at hconn
  obtain ⟨fs, hconn', hfs⟩ := hconn.refuse
  have hno : ∀ rd, Event.read rd ∉ [Event.refused b a w.2] := by
    intro rd hrd
    cases mem_singleton.1 hrd
  refine ⟨_, h.act hprof (Or.inr rfl) (fun _ => ?_) (fun _ => ?_) (fun _ _ => sameAt_refuse) (hstage fs ?_)
    (h.reads.append hno)⟩
  · rw [hb]
    refine ⟨id, fun src hne => ?_, fun _ _ _ => rfl⟩
    exact (update_of_ne (fun heq => hne (by rw [heq])) _ _).symm
  · rw [hprof, update_self]
    exact hconn'
  · exact hfs.imp Eq.symm fun ⟨f, _, heq⟩ => ⟨f, heq⟩

end Primitives

/-! ## Processes -/

def ServerMode.profile : ServerMode → Profile
  | .ready => .idle
  | .receiving src req odsc => .receiving src (some (.putData req, objDataSize odsc))
  | .lost => .gone

def ClientMode.profile (P : Setup) : ClientMode → Profile
  | .running _ => .idle
  | .readPeers t req _ => .blocked t (.peers req, P.sizeofPeers)
  | .readTable _ f => .receiving (.server f.server) (some (.table f.req, P.sizeofObjDescriptor * f.numDe))
  | .readPart t req odsc _ _ => .blocked t (.part req, objDataSize odsc)
  | .lost => .gone

def Sys.profile (P : Setup) (s : Sys) : Node → Profile
  | .server t => (s.servers t).mode.profile
  | .client c => (s.clients c).mode.profile P

/-- The frames of the streams are in order. -/
def Inv (P : Setup) (s : Sys) : Prop := ∃ q, Ok P s.net (s.profile P) q

section

variable {s : Sys} {c t : Nat}

theorem profile_server {m : ServerMode} (hmode : (s.servers t).mode = m) :
    s.profile P (.server t) = m.profile := by
  rw [Sys.profile, hmode]

theorem profile_client {m : ClientMode} (hmode : (s.clients c).mode = m) :
    s.profile P (.client c) = m.profile P := by
  rw [Sys.profile, hmode]

theorem profile_setServer (m : ServerMode) :
    (s.setServer t m).profile P = update (s.profile P) (.server t) m.profile := by
  funext n
  cases n with
  | server t' => by_cases ht : t' = t <;> simp [Sys.profile, Sys.setServer, ht]
  | client c => rfl

theorem profile_setClient (m : ClientMode) :
    (s.setClient c m).profile P = update (s.profile P) (.client c) (m.profile P) := by
  funext n
  cases n with
  | server t => rfl
  | client c' => by_cases hc : c' = c <;> simp [Sys.profile, Sys.setClient, hc]

theorem Inv.setDs (h : Inv P s) (ds : DsServer) : Inv P (s.setDs t ds) := by
  have hsame : (s.setDs t ds).profile P = s.profile P := by
    funext n
    cases n with
    | server t' => by_cases ht : t' = t <;> simp [Sys.profile, Sys.setDs, ht]
    | client c => rfl
  rw [Inv, hsame]
  exact h

theorem Inv.number (h : Inv P s) (n k : Nat) : Inv P (s.number c n k) := by
  have hsame : (s.number c n k).profile P = s.profile P := by
    funext n
    cases n with
    | server t => rfl
    | client c' => by_cases hc : c' = c <;> simp [Sys.profile, Sys.number, hc]
  rw [Inv, hsame]
  exact h

end

/-! ## Servers -/

section

variable {s s' : Sys} {t req : Nat} {src : Node}

theorem NoReply.command (req : Nat) (cmd : RpcCmd) : NoReply [.cmd req cmd] := by
  intro f hf
  rw [mem_singleton.1 hf]
  exact Kind.noConfusion

/-- A server takes the first frame of a process. -/
theorem StageAt.take {prof : Node → Profile} {f : Frame} {fs back : List Frame}
    (h : StageAt P prof (f :: fs) back src (.server t)) : StageAt P prof fs back src (.server t) := by
  cases src with
  | server t' => trivial
  | client c => exact fun hc => (h hc).take

/-- A server that is ready has read a command; its first frame is `cmd`, and `rest` are the frames after it. -/
structure Taken (P : Setup) (s : Sys) (t : Nat) (src : Node) (req : Nat) (cmd : RpcCmd)
    (q : Node × Node → List Frame) (rest : List Frame) : Prop where
  ready : s.profile P (.server t) = .idle
  carried : carries src (.server t) cmd = true
  ok : Ok P s.net (update (s.profile P) (.server t) (.receiving src (cmd.follow P req)))
    (update q (src, .server t) rest)
  -- The stage before the command was taken.
  stage : StageAt P (s.profile P) (.cmd req cmd :: rest) (q (.server t, src)) src (.server t)

namespace Taken

variable {cmd : RpcCmd} {q : Node × Node → List Frame} {rest : List Frame}

section

variable (h : Taken P s t src req cmd q rest)

include h

theorem ok_of_follow (hfollow : cmd.follow P req = none) :
    Ok P s.net (s.profile P) (update q (src, .server t) rest) := by
  have hok := h.ok
  rwa [hfollow, Profile.receiving_none, ← h.ready, update_eq_self] at hok

/-- The handler does nothing. -/
theorem skip (hfollow : cmd.follow P req = none) : Inv P s := ⟨_, h.ok_of_follow hfollow⟩

/-- The server computes for ever. -/
theorem hang : Inv P (s.setServer t .lost) := by
  refine ⟨_, h.ok.lose (a := src) (b := .server t) ?_ (fun _ _ _ => ⟨rfl, Iff.rfl, rfl, rfl⟩) h.ok.reads⟩
  rw [profile_setServer, update_idem]
  rfl

end

/-- The handler receives the data that follows the command. -/
theorem receive {odsc odsc' : ObjDescriptor} (h : Taken P s t src req (.ssObjPut odsc) q rest)
    (hsize : objDataSize odsc' = objDataSize odsc) : Inv P (s.setServer t (.receiving src req odsc')) := by
  rw [Inv, profile_setServer, ServerMode.profile, hsize]
  exact ⟨_, h.ok⟩

/-- The handler leaves the data that follows the command. -/
theorem refuse {odsc : ObjDescriptor} (h : Taken P s t src req (.ssObjPut odsc) q rest) :
    Inv P (s.refuse (.server t) src (objDataSize odsc)) := by
  refine h.ok.refuse (update_self ..) ?_ fun fs hfs => ?_
  · rw [update_idem, ← h.ready, update_eq_self]
    rfl
  · cases src with
    | server t' => trivial
    | client c =>
      have hstage := h.stage.take
      rw [update_self] at hfs
      rw [update_of_ne (by simp)]
      rcases hfs with rfl | ⟨f, rfl⟩
      · exact hstage
      · exact hstage.take

/-- The handler sends an answer that the client looks for in its waits. -/
theorem answer {c : Nat} {gs : List Frame} (h : Taken P s t (.client c) req cmd q rest)
    (hfollow : cmd.follow P req = none) (hreply : cmd.reply P req = none)
    (hgs : Batches P (.server t) (.client c) gs) (hno : NoReply gs) :
    Inv P (s.send P (.server t) (.client c) gs) := by
  refine ⟨_, (h.ok_of_follow hfollow).sendOn Node.noConfusion hgs fun hc => ?_⟩
  rw [update_self, update_of_ne (by simp)]
  refine (h.stage hc).takeUp ?_ hno
  rintro ⟨w, hw, -⟩
  rw [hreply] at hw
  cases hw

/-- The handler sends the reply for which the client blocks, or data of no bytes. -/
theorem reply {c : Nat} {w : Want} {f : Frame} (h : Taken P s t (.client c) req cmd q rest)
    (hfollow : cmd.follow P req = none) (hreply : cmd.reply P req = some w) (hf : Wants P w f) :
    Inv P (s.send P (.server t) (.client c) [f]) := by
  have hok := h.ok_of_follow hfollow
  have hkind := RpcCmd.reply_meets_reply hreply hf.1
  by_cases hpos : 0 < w.2
  · have hsize : 0 < f.size P := by rw [hf.2]; exact hpos
    refine ⟨_, hok.sendOn Node.noConfusion (.reply rfl hkind hsize .nil) fun hc => ?_⟩
    obtain ⟨hw, hrest, hdown⟩ := (h.stage hc).takeAsk hreply hpos
    rw [update_self, update_of_ne (by simp), hrest]
    exact hw.symm ▸ .answered hdown hf hkind
  · have hsize : f.size P = 0 := by rw [hf.2]; omega
    exact ⟨_, hok.sendEmpty (by rw [hkind]; exact Kind.noConfusion) hsize⟩

end Taken

theorem client_of_carries {cmd : RpcCmd} (h : carries src (.server t) cmd = true)
    (hcmd : ∀ odsc, cmd ≠ .ssObjUpdate odsc) : ∃ c, src = .client c := by
  cases src with
  | client c => exact ⟨c, rfl⟩
  | server t' =>
    cases cmd with
    | ssObjUpdate odsc => exact (hcmd odsc rfl).elim
    | _ => cases h

theorem Taken.inv_handleServer {cmd : RpcCmd} {q : Node × Node → List Frame} {rest : List Frame}
    (h : Taken P s t src req cmd q rest) (obtained : Bool) :
    Inv P (handleServer P t src obtained s req cmd) := by
  cases cmd with
  | ssObjPut odsc =>
    cases obtained with
    | true => exact h.receive rfl
    | false => exact h.refuse
  | ssObjGetDhtPeers odsc =>
    obtain ⟨c, rfl⟩ := client_of_carries h.carried fun _ => RpcCmd.noConfusion
    rw [handleServer]
    split
    · exact h.hang
    · next tab _ =>
      cases obtained with
      | true => exact h.reply rfl rfl ⟨rfl, rfl⟩
      | false => exact h.skip rfl
  | ssObjGetDesc qid odsc =>
    obtain ⟨c, rfl⟩ := client_of_carries h.carried fun _ => RpcCmd.noConfusion
    cases obtained with
    | false => exact h.skip rfl
    | true =>
      rw [handleServer, if_pos rfl]
      split
      · exact h.answer rfl rfl (.plain rfl rfl .nil) (NoReply.command _ _)
      · refine h.answer rfl rfl (.paired rfl rfl ⟨rfl, rfl⟩ .nil) ?_
        exact forall_mem_cons.2 ⟨Kind.noConfusion, forall_mem_singleton.2 Kind.noConfusion⟩
  | ssObjGet odsc =>
    obtain ⟨c, rfl⟩ := client_of_carries h.carried fun _ => RpcCmd.noConfusion
    rw [handleServer]
    split
    · exact h.skip rfl
    · cases obtained with
      | true => exact h.reply rfl rfl ⟨rfl, rfl⟩
      | false => exact h.skip rfl
  | ssObjUpdate odsc => exact (h.skip rfl).setDs _
  | descNotFound qid versions => cases src <;> cases h.carried
  | descFound qid numDe => cases src <;> cases h.carried
  | dsPutCompletion => cases src <;> cases h.carried

theorem Inv.serve (h : Inv P s) {obtained : Bool} (hs : serve P t src obtained s = some s') : Inv P s' := by
  obtain ⟨q, hok⟩ := h
  rw [Tcp.serve] at hs
  split at hs
  · next hmode =>
    obtain ⟨⟨taken, net'⟩, hread, rfl⟩ := map_eq_some_iff.1 hs
    have hidle : s.profile P (.server t) = .idle := profile_server hmode
    have hconn := hok.conns src (.server t) (by rw [hidle]; exact id)
    rw [hidle] at hconn
    obtain ⟨hrd, hnone | ⟨req, cmd, rest, hsome, hc, hq, hconn'⟩⟩ :=
      hconn.readCommand (hconn.no_reply (by cases src <;> rfl)) hread
    · simp only [hnone]
      exact ⟨_, hok.recvLost hread hrd (profile_setServer _)⟩
    · simp only [hsome]
      have hstage := hok.stageAt src (.server t)
      rw [hq] at hstage
      have htaken : Taken P { s with net := net' } t src req cmd q rest := by
        refine ⟨hidle, hc,
          hok.recvFollow hread hrd (hidle.trans (Profile.receiving_none src).symm) rfl hconn' ?_, hstage⟩
        cases src with
        | server t' => trivial
        | client c => exact hstage.take
      exact htaken.inv_handleServer obtained
  · cases hs

/-- A decoder that knows what to do with no bytes and with the first byte of a frame decodes the whole frame. -/
theorem exists_decoded {α : Type} {decode : List (Frame × Nat) → Option α} {f : Frame} {x y : α}
    (hempty : decode [] = some x) (hfirst : ∀ bs, decode ((f, 0) :: bs) = some y) :
    ∃ z, decode (bytesOf (Frame.size P) f) = some z := by
  by_cases hpos : 0 < f.size P
  · obtain ⟨bs, hbs⟩ := exists_bytesOf_eq_cons hpos
    rw [hbs]
    exact ⟨y, hfirst bs⟩
  · rw [bytesOf_eq_nil (Nat.eq_zero_of_not_pos hpos)]
    exact ⟨x, hempty⟩

theorem exists_putDataOf {f : Frame} (h : (Expect.putData req).Meets f) :
    ∃ data, putDataOf (bytesOf (Frame.size P) f) = some data := by
  cases f with
  | putData _ _ data => exact exists_decoded rfl fun _ => rfl
  | _ => exact h.elim

/-- The loop of `obj_put_update_dht` sends commands to other servers. -/
theorem Inv.updatePeer (h : Inv P s) (odsc : ObjDescriptor) (peer : Nat) :
    Inv P (updatePeer P t req odsc s peer) := by
  rw [Tcp.updatePeer]
  split
  · exact h.setDs _
  · next hpeer =>
    obtain ⟨q, hok⟩ := h
    refine ⟨_, hok.sendOn (fun heq => ?_) (.plain rfl rfl .nil) trivial⟩
    exact hpeer (Node.server.inj heq).symm

theorem Inv.objPutUpdateDht (h : Inv P s) (odsc : ObjDescriptor) (stop : Option Nat) :
    Inv P (objPutUpdateDht P t req odsc stop s) := by
  rw [Tcp.objPutUpdateDht]
  induction rounds stop (P.space.peers odsc.bb) generalizing s with
  | nil => exact h
  | cons peer peers ih => exact ih (h.updatePeer odsc peer)

/-- The data of a put has been read; the server is ready again, and may send its notice. -/
theorem Ok.inv_objPutCompletion {q : Node × Node → List Frame} {c : Nat}
    (hok : Ok P s.net (update (s.profile P) (.server t) .idle) q)
    (hstage : StageAt P (s.profile P) (q (.server t, .client c) ++ [.cmd req .dsPutCompletion])
      (q (.client c, .server t)) (.server t) (.client c)) (notified : Bool) (od : ObjData) :
    Inv P (objPutCompletion P t (.client c) req notified od (s.setServer t .ready)) := by
  have hready : Ok P s.net ((s.setServer t .ready).profile P) q := by
    rw [profile_setServer]
    exact hok
  rw [Tcp.objPutCompletion]
  dsimp only
  split
  · let sent : Sys := (s.setServer t .ready).send P (.server t) (.client c) [.cmd req .dsPutCompletion]
    exact Inv.setDs (s := sent) ⟨_, hready.sendOn Node.noConfusion (.plain rfl rfl .nil) hstage⟩ _
  · exact Inv.setDs ⟨_, hready⟩ _

theorem Inv.receivePut (h : Inv P s) {notified : Bool} {stop : Option Nat}
    (hs : receivePut P t notified stop s = some s') : Inv P s' := by
  obtain ⟨q, hok⟩ := h
  rw [Tcp.receivePut] at hs
  split at hs
  · next src req odsc hmode =>
    obtain ⟨⟨taken, net'⟩, hread, rfl⟩ := map_eq_some_iff.1 hs
    have hprof : s.profile P (.server t) = .receiving src (some (.putData req, objDataSize odsc)) :=
      profile_server hmode
    have hconn := hok.conns src (.server t) (by rw [hprof]; exact id)
    rw [hprof, Profile.follow_receiving] at hconn
    obtain ⟨hrd, ⟨_, cmd, hc, hput⟩, f, rest, hq, hkind, hf, rfl, hconn'⟩ := hconn.readFollow hread
    obtain ⟨c, rfl⟩ : ∃ c, src = .client c := by
      apply client_of_carries hc
      rintro _ rfl
      cases hput
    obtain ⟨data, hdata⟩ := exists_putDataOf (P := P) hf.1
    simp only [hdata]
    apply Inv.objPutUpdateDht
    have hstage := hok.stages c t
    rw [hq] at hstage
    have hok' := hok.recvFollow hread hrd hprof rfl hconn' hstage.take
    rw [Profile.receiving_none] at hok'
    refine Ok.inv_objPutCompletion (s := { s with net := net' }) hok' (fun hlost => ?_) notified _
    rw [update_self, update_of_ne (by simp)]
    exact (hstage hlost).takeUp (not_asks_of_kind (by rw [hkind]; exact Kind.noConfusion)) (NoReply.command _ _)
  · cases hs

end

/-! ## Clients -/

section

variable {s s' : Sys} {c t : Nat} {req : Nat} {cmd : RpcCmd} {place : Place} {q : Node × Node → List Frame}
  {f : Frame}

theorem noAsk_command (h : ∀ w, cmd.reply P req = some w → w.2 = 0) : NoAsk P [.cmd req cmd] := by
  intro f hf
  rw [mem_singleton.1 hf]
  rintro ⟨w, hw, hpos⟩
  exact hpos.ne' (h w hw)

/-- A client goes on without reading or writing. -/
theorem Inv.goOn {place' : Place} (h : Inv P s) (hmode : (s.clients c).mode = .running place) :
    Inv P (s.setClient c (.running place')) := by
  have hsame : (s.setClient c (.running place')).profile P = s.profile P := by
    rw [profile_setClient, update_eq_self_iff, profile_client hmode]
    rfl
  rw [Inv, hsame]
  exact h

/-- A client that awaits nothing sends something that asks for no reply. -/
theorem Inv.sendUp {gs : List Frame} (h : Inv P s) (hidle : s.profile P (.client c) = .idle)
    (hgs : Batches P (.client c) (.server t) gs) (hno : NoAsk P gs) :
    Inv P (s.send P (.client c) (.server t) gs) := by
  obtain ⟨q, hok⟩ := h
  refine ⟨_, hok.sendOn Node.noConfusion hgs fun hc => ?_⟩
  have hstage := hok.stages c t hc
  rw [hidle] at hstage ⊢
  exact hstage.sendUp hno

theorem Inv.dcgObjPut {od : ObjData} (h : Inv P s) (hs : dcgObjPut P c t od s = some s') : Inv P s' := by
  rw [Tcp.dcgObjPut] at hs
  split at hs
  · next hmode =>
    cases hs
    apply Inv.number
    refine h.sendUp (profile_client hmode) (.paired rfl rfl ⟨rfl, rfl⟩ .nil) ?_
    refine forall_mem_cons.2 ⟨?_, forall_mem_singleton.2 fun h => h⟩
    rintro ⟨w, hw, -⟩
    cases hw
  · cases hs

variable {w : Want} {m : ClientMode} {obtained : Bool}

/-- A client that runs asks for a reply, and then waits for it. -/
theorem Ok.ask (hok : Ok P s.net (s.profile P) q) (hmode : (s.clients c).mode = .running place)
    (hc : carries (.client c) (.server t) cmd = true) (hfollow : cmd.follow P req = none)
    (hreply : cmd.reply P req = some w) (hm : m.profile P = .blocked t w) :
    Inv P ((s.send P (.client c) (.server t) [.cmd req cmd]).setClient c m) := by
  have hidle : s.profile P (.client c) = .idle := profile_client hmode
  refine ⟨_, hok.send Node.noConfusion (profile_setClient m) (fun _ => ?_) (.plain hc hfollow .nil) fun _ => ?_⟩
  · rw [hidle, hm]
    exact ⟨id, rfl, fun t' ht => update_of_ne (fun heq => ht (by rw [heq])) ..⟩
  · have hstage := hok.stages c t (by rw [hidle]; exact id)
    rw [hidle] at hstage
    rw [profile_setClient, update_self, hm, Profile.awaits_blocked]
    split
    · next hpos => exact hstage.ask hreply hpos
    · next hpos =>
      refine hstage.sendUp (noAsk_command fun w' hw' => ?_)
      rw [hreply] at hw'
      cases hw'
      exact Nat.eq_zero_of_not_pos hpos

theorem Inv.dcgObjGet {od : ObjDescriptor} (h : Inv P s) (hs : dcgObjGet P c t od s = some s') : Inv P s' := by
  obtain ⟨q, hok⟩ := h
  rw [Tcp.dcgObjGet] at hs
  split at hs
  · next hmode =>
    cases hs
    apply Inv.number
    exact hok.ask hmode rfl rfl rfl rfl
  · cases hs

theorem Inv.askPart (h : Inv P s) (hs : askPart P c obtained s = some s') : Inv P s' := by
  rw [Tcp.askPart] at hs
  split at hs
  · next q i hmode =>
    obtain ⟨od, -, rfl⟩ := map_eq_some_iff.1 hs
    cases obtained with
    | false => exact h.goOn hmode
    | true =>
      obtain ⟨q', hok⟩ := h
      rw [if_pos rfl]
      apply Inv.number
      exact hok.ask hmode rfl rfl rfl rfl
  · cases hs

/-- The loop of `get_obj_descriptors` sends commands for which the client does not block. -/
theorem Inv.askPeers {qid : Nat} {odsc : ObjDescriptor} (peers : List Nat) (h : Inv P s)
    (hidle : s.profile P (.client c) = .idle) :
    Inv P (askPeers P c qid odsc peers req s) ∧ (askPeers P c qid odsc peers req s).clients = s.clients := by
  induction peers generalizing s req with
  | nil => exact ⟨h, rfl⟩
  | cons peer peers ih =>
    refine ih (h.sendUp hidle (.plain rfl rfl .nil) (noAsk_command fun w hw => ?_)) hidle
    cases hw

theorem Inv.getObjDescriptors {stop : Option Nat} (h : Inv P s)
    (hs : getObjDescriptors P c stop s = some s') : Inv P s' := by
  rw [Tcp.getObjDescriptors] at hs
  split at hs
  · next q hmode =>
    cases hs
    obtain ⟨hasked, hclients⟩ := h.askPeers (rounds stop q.qhPeeridTab) (profile_client hmode)
    apply Inv.number
    exact hasked.goOn (by rw [hclients]; exact hmode)
  · cases hs

theorem Inv.proceed (h : Inv P s) (hs : proceed c s = some s') : Inv P s' := by
  rw [Tcp.proceed] at hs
  split at hs
  · next q hmode =>
    rw [ite_none_right_eq_some] at hs
    cases hs.2
    exact h.goOn hmode
  · cases hs

theorem Inv.finish (h : Inv P s) (hs : finish c s = some s') : Inv P s' := by
  rw [Tcp.finish] at hs
  split at hs
  · next q i hmode =>
    rw [ite_none_right_eq_some] at hs
    cases hs.2
    exact h.goOn hmode
  · cases hs

theorem exists_peersOf (h : (Expect.peers req).Meets f) (hpos : 0 < f.size P) :
    ∃ tab, peersOf (bytesOf (Frame.size P) f) = some tab := by
  obtain ⟨bs, hbs⟩ := exists_bytesOf_eq_cons hpos
  rw [hbs]
  cases f with
  | peers _ _ tab => exact ⟨tab, rfl⟩
  | _ => exact h.elim

theorem exists_partOf (h : (Expect.part req).Meets f) :
    ∃ data, partOf (bytesOf (Frame.size P) f) = some data := by
  cases f with
  | part _ _ data => exact exists_decoded rfl fun _ => rfl
  | _ => exact h.elim

theorem exists_tableOf (h : (Expect.table req).Meets f) :
    ∃ odTab, tableOf (bytesOf (Frame.size P) f) = some odTab := by
  cases f with
  | table _ _ odTab => exact exists_decoded rfl fun _ => rfl
  | _ => exact h.elim

/-- The reply has been read. -/
theorem Stage.finish {up : List Frame} (h : Stage P (some w) up [f]) (hkind : f.kind = .reply) :
    Stage P none up [] := by
  have hnone : ∀ {fs : List Frame}, NoReply fs → fs ≠ [f] := by
    rintro fs hno rfl
    exact hno f mem_cons_self hkind
  have hnil : ∀ {g : Frame}, g ∉ ([] : List Frame) := fun hg => not_mem_nil hg
  generalize hdown : [f] = down at h
  cases h with
  | asked _ _ _ hno => exact (hnone hno hdown.symm).elim
  | served hno => exact (hnone hno hdown.symm).elim
  | answered _ _ _ => exact .quiet (fun g hg => (hnil hg).elim) fun g hg => (hnil hg).elim

/-- A client that blocks for a reply reads it and runs on, or is lost. -/
theorem Ok.readReply {α : Type} (decode : List (Frame × Nat) → Option α) {e : Expect} {n : Nat}
    {taken : List (Frame × Nat)} {net' : Net} (hok : Ok P s.net (s.profile P) q)
    (hprof : s.profile P (.client c) = .blocked t (e, n)) (he : e.isReply = true)
    (hempty : n = 0 → ∃ f, e.Meets f ∧ f.size P = 0)
    (hother : ∀ f bs, f.kind ≠ .reply → decode ((f, 0) :: bs) = none)
    (hframe : ∀ f, Wants P (e, n) f → ∃ x, decode (bytesOf (Frame.size P) f) = some x)
    (hread : socketRecvBytes s.net (.server t) (.client c) e n = some (taken, net')) :
    (decode taken = none ∧ Inv P (({ s with net := net' } : Sys).setClient c .lost)) ∨
      ∃ x, decode taken = some x ∧
        ∀ place, Inv P (({ s with net := net' } : Sys).setClient c (.running place)) := by
  have hlive : ¬ (s.profile P (.client c)).lost := by rw [hprof]; exact id
  have hconn := hok.conns (.server t) (.client c) hlive
  have hstage := hok.stages c t hlive
  rw [hprof] at hconn
  rw [hprof, Profile.awaits_blocked] at hstage
  -- The client awaits nothing any more.
  have hrun : ∀ {fs : List Frame}, ReadOk P s.net.log ⟨.server t, .client c, e, n, taken⟩ →
      Conn P net' (.server t) (.client c) none fs → Stage P none (q (.client c, .server t)) fs →
      ∀ place, Inv P (({ s with net := net' } : Sys).setClient c (.running place)) := by
    intro fs hrd hconn' hstage' place
    refine ⟨_, hok.recv hread hrd (profile_setClient _) hlive (fun _ _ => by rw [hprof]; rfl) (fun t' ht => ?_)
      hconn' fun _ => ?_⟩
    · rw [hprof]
      exact (update_of_ne (fun heq => ht (by rw [heq])) ..).symm
    · rw [profile_setClient, update_self]
      exact hstage'
  by_cases hn : 0 < n
  · rw [if_pos hn] at hstage
    obtain ⟨hrd, ⟨f, bs, rfl, hkind⟩ | ⟨f, hq, hf, rfl, hconn'⟩⟩ :=
      hconn.readReply he hn (fun f rest hfs hkind => hstage.first hfs hkind) hread
    · exact Or.inl ⟨hother f bs hkind, _, hok.recvLost hread hrd (profile_setClient _)⟩
    · have hkind : f.kind = .reply := by
        rw [Expect.isReply_of_meets hf.1] at he
        exact of_decide_eq_true he
      rw [hq] at hstage
      obtain ⟨x, hx⟩ := hframe f hf
      exact Or.inr ⟨x, hx, hrun hrd hconn' (hstage.finish hkind)⟩
  · obtain rfl : n = 0 := Nat.eq_zero_of_not_pos hn
    have hne : e ≠ .command := by
      rintro rfl
      cases he
    obtain ⟨rfl, hconn'⟩ := hconn.readNothing hne hread
    obtain ⟨f, hf⟩ := hempty rfl
    have hbytes : [] = bytesOf (Frame.size P) f := (bytesOf_eq_nil hf.2).symm
    obtain ⟨x, hx⟩ := hframe f hf
    exact Or.inr ⟨x, hbytes.symm ▸ hx, hrun (iff_of_true ⟨f, hf.1, hbytes⟩ (Or.inl rfl)) hconn' hstage⟩

theorem Inv.readPeers (h : Inv P s) (hs : readPeers P c s = some s') : Inv P s' := by
  obtain ⟨q, hok⟩ := h
  rw [Tcp.readPeers] at hs
  split at hs
  · next t req query hmode =>
    obtain ⟨⟨taken, net'⟩, hread, rfl⟩ := map_eq_some_iff.1 hs
    have hpos : 0 < P.sizeofPeers := Nat.mul_pos (by decide) (Nat.succ_pos _)
    rcases hok.readReply peersOf (profile_client hmode) rfl (fun hzero => (hpos.ne' hzero).elim)
        (fun f _ hkind => by cases f <;> first | rfl | exact (hkind rfl).elim)
        (fun f hf => exists_peersOf hf.1 (by rw [hf.2]; exact hpos)) hread with
      ⟨hnone, hinv⟩ | ⟨tab, htab, hinv⟩
    · simp only [hnone]
      exact hinv
    · simp only [htab]
      exact hinv _
  · cases hs

theorem Inv.readPart (h : Inv P s) (hs : readPart c s = some s') : Inv P s' := by
  obtain ⟨q, hok⟩ := h
  rw [Tcp.readPart] at hs
  split at hs
  · next t req odsc query i hmode =>
    obtain ⟨⟨taken, net'⟩, hread, rfl⟩ := map_eq_some_iff.1 hs
    rcases hok.readReply partOf (profile_client hmode) rfl
        (fun _ => ⟨.part req 0 fun _ => none, rfl, rfl⟩)
        (fun f _ hkind => by cases f <;> first | rfl | exact (hkind rfl).elim)
        (fun f hf => exists_partOf hf.1) hread with ⟨hnone, hinv⟩ | ⟨data, hdata, hinv⟩
    · simp only [hnone]
      exact hinv
    · simp only [hdata]
      exact hinv _
  · cases hs

theorem Inv.readTable {added : Nat} (h : Inv P s) (hs : readTable P c added s = some s') : Inv P s' := by
  obtain ⟨q, hok⟩ := h
  rw [Tcp.readTable] at hs
  split at hs
  · next place f hmode =>
    obtain ⟨⟨taken, net'⟩, hread, rfl⟩ := map_eq_some_iff.1 hs
    have hprof : s.profile P (.client c) =
        .receiving (.server f.server) (some (.table f.req, P.sizeofObjDescriptor * f.numDe)) :=
      profile_client hmode
    have hlive : ¬ (s.profile P (.client c)).lost := by rw [hprof]; exact id
    have hconn := hok.conns (.server f.server) (.client c) hlive
    have hstage := hok.stages c f.server hlive
    rw [hprof, Profile.follow_receiving] at hconn
    obtain ⟨hrd, -, g, rest, hq, -, hg, rfl, hconn'⟩ := hconn.readFollow hread
    obtain ⟨odTab, htab⟩ := exists_tableOf (P := P) hg.1
    simp only [htab]
    rw [hprof, hq] at hstage
    refine ⟨_, hok.recvFollow hread hrd hprof ?_ hconn' fun _ => ?_⟩
    · rw [profile_setClient, Profile.receiving_none]
      rfl
    · rw [profile_setClient, update_self]
      exact hstage.takeDown
  · cases hs

/-- A client that runs has read a command; `rest` are the frames after it. -/
theorem Ok.inv_handleClient {rest : List Frame} (hmode : (s.clients c).mode = .running place)
    (hc : carries (.server t) (.client c) cmd = true)
    (hok : Ok P s.net (update (s.profile P) (.client c) (.receiving (.server t) (cmd.follow P req)))
      (update q (.server t, .client c) rest)) (hstage : Stage P none (q (.client c, .server t)) rest)
    (obtained : Bool) : Inv P (handleClient P c t place obtained s req cmd) := by
  have hidle : s.profile P (.client c) = .idle := profile_client hmode
  have hskip : cmd.follow P req = none → Inv P s := by
    intro hno
    rw [hno, Profile.receiving_none, ← hidle, update_eq_self] at hok
    exact ⟨_, hok⟩
  cases cmd with
  | dsPutCompletion => exact hskip rfl
  | descNotFound qid versions => exact (hskip rfl).goOn hmode
  | descFound qid numDe =>
    cases obtained with
    | true =>
      rw [handleClient, if_pos rfl, Inv, profile_setClient]
      exact ⟨_, hok⟩
    | false =>
      refine hok.refuse (update_self ..) ?_ fun fs hfs _ => ?_
      · rw [update_idem, ← hidle, update_eq_self]
        rfl
      · rw [update_self] at hfs
        rw [update_of_ne (by simp)]
        show Stage P ((s.profile P (.client c)).awaits t) _ fs
        rw [hidle]
        rcases hfs with rfl | ⟨f, rfl⟩
        · exact hstage
        · exact hstage.takeDown
  | _ => cases hc

theorem Inv.poll (h : Inv P s) (hs : poll P c t obtained s = some s') : Inv P s' := by
  obtain ⟨q, hok⟩ := h
  rw [Tcp.poll] at hs
  split at hs
  · next place hmode =>
    rw [ite_none_right_eq_some] at hs
    obtain ⟨⟨taken, net'⟩, hread, rfl⟩ := map_eq_some_iff.1 hs.2
    have hidle : s.profile P (.client c) = .idle := profile_client hmode
    have hlive : ¬ (s.profile P (.client c)).lost := by rw [hidle]; exact id
    have hconn := hok.conns (.server t) (.client c) hlive
    have hstage := hok.stages c t hlive
    rw [hidle] at hconn hstage
    obtain ⟨hrd, hnone | ⟨req, cmd, rest, hsome, hc, hq, hconn'⟩⟩ := hconn.readCommand hstage.noReply hread
    · simp only [hnone]
      exact ⟨_, hok.recvLost hread hrd (profile_setClient _)⟩
    · simp only [hsome]
      rw [hq] at hstage
      refine Ok.inv_handleClient (s := { s with net := net' }) hmode hc
        (hok.recvFollow hread hrd (hidle.trans (Profile.receiving_none _).symm) rfl hconn' fun _ => ?_)
        hstage.takeDown obtained
      rw [update_self]
      exact hstage.takeDown
  · cases hs

end

/-! ## Runs -/

theorem Inv.step {s s' : Sys} {a : Action} (h : Inv P s) (hs : step P s a = some s') : Inv P s' := by
  cases a with
  | put c t od => exact h.dcgObjPut hs
  | get c t q => exact h.dcgObjGet hs
  | readPeers c => exact h.readPeers hs
  | getObjDescriptors c stop => exact h.getObjDescriptors hs
  | poll c t obtained => exact h.poll hs
  | readTable c added => exact h.readTable hs
  | proceed c => exact h.proceed hs
  | askPart c obtained => exact h.askPart hs
  | readPart c => exact h.readPart hs
  | finish c => exact h.finish hs
  | serve t src obtained => exact h.serve hs
  | receivePut t notified stop => exact h.receivePut hs

theorem inv_start : Inv P (Sys.start P) := by
  have hnone : ∀ dst src, ¬ Refused [] dst src := by
    rintro dst src ⟨n, -, hmem⟩
    cases hmem
  have hnil : ∀ {f : Frame}, f ∉ ([] : List Frame) := fun hf => not_mem_nil hf
  refine ⟨fun _ => [], ?_, ?_, ?_⟩
  · intro src dst _
    have hfollow : ((Sys.start P).profile P dst).follow src = none := by cases dst <;> rfl
    rw [hfollow]
    exact ⟨rfl, ⟨[], [], rfl, .clean (hnone dst src), .nil⟩, rfl⟩
  · exact fun c t _ => .quiet (fun f hf => (hnil hf).elim) fun f hf => (hnil hf).elim
  · intro later rd earlier heq
    cases later <;> cases heq

theorem inv_run (P : Setup) (actions : List Action) : Inv P (run P actions) := by
  rw [run]
  generalize hs : Sys.start P = s
  have h : Inv P s := hs ▸ inv_start
  clear hs
  induction actions generalizing s with
  | nil => exact h
  | cons a actions ih =>
    apply ih
    show Inv P ((Tcp.step P s a).getD s)
    cases hstep : Tcp.step P s a with
    | none => exact h
    | some s' => exact h.step hstep

/-- In every run of puts and gets, with `DS_SYNC_MSG` or without, all reads take exactly what they are for if
and only if no read comes after data that its reader has left on the stream, and no client blocks for a reply of
a server before it has read all commands of that server. -/
theorem framed_reads_iff (P : Setup) (actions : List Action) :
    FramedReads P (run P actions).net.log ↔ UndisturbedReads (run P actions).net.log := by
  obtain ⟨q, hok⟩ := inv_run P actions
  constructor
  · intro hframed later rd earlier heq
    refine (hok.reads later rd earlier heq).1 (hframed rd ?_)
    rw [heq]
    exact mem_append_right _ mem_cons_self
  · intro hundisturbed rd hmem
    obtain ⟨later, earlier, heq⟩ := append_of_mem hmem
    exact (hok.reads later rd earlier heq).2 (hundisturbed later rd earlier heq)

/-! ## A put and a get -/

/-- The line over two servers. The sizes are those of the packed structures with three dimensions. -/
def lineSetup (syncMsg : Bool) : Setup where
  space := lineSpace
  maxVersions := 1
  syncMsg := syncMsg
  sizeofRpcCmd := 286
  sizeofObjDescriptor := 232
  rpcCmd_pos := by decide

/-- Client 0 puts the line at server 0, which stores it, and then gets it without waiting for the put. -/
def putThenGet : List Action :=
  [.put 0 0 (segmentObj 0 3), .serve 0 (.client 0) true, .receivePut 0 true none,
    .get 0 0 (segmentObj 0 3).objDesc, .serve 0 (.client 0) true, .readPeers 0]

/-- Server 0 has no memory for the data of a put, and then looks for the next command. -/
def refusedPut : List Action :=
  [.put 0 0 (segmentObj 0 3), .serve 0 (.client 0) false, .put 0 0 (segmentObj 0 3), .serve 0 (.client 0) true]

/-- The read starts with a frame of another kind. -/
def Event.misread : Event → Bool
  | .read ⟨_, _, .peers _, _, (.cmd _ _, 0) :: _⟩ => true
  | .read ⟨_, _, .command, _, (.putData _ _ _, 0) :: _⟩ => true
  | _ => false

theorem not_framedReads_of_misread {log : List Event} (h : log.any Event.misread = true) :
    ¬ FramedReads P log := by
  intro hframed
  obtain ⟨e, he, hmis⟩ := List.any_eq_true.1 h
  unfold Event.misread at hmis
  split at hmis
  · obtain ⟨f, hmeets, hbytes⟩ := hframed _ he
    rw [eq_of_bytesOf_eq_cons hbytes.symm] at hmeets
    exact hmeets
  · obtain ⟨f, hmeets, hbytes⟩ := hframed _ he
    rw [eq_of_bytesOf_eq_cons hbytes.symm] at hmeets
    exact hmeets
  · cases hmis

/-- With `DS_SYNC_MSG` the get takes the notice of the put for its table of peers; in both builds a server that
has left the data of a put takes it for a command. -/
theorem misframed_streams : ¬ FramedReads (lineSetup true) (run (lineSetup true) putThenGet).net.log ∧
      ∀ syncMsg, ¬ FramedReads (lineSetup syncMsg) (run (lineSetup syncMsg) refusedPut).net.log := by
  refine ⟨not_framedReads_of_misread (by decide +kernel), fun syncMsg => ?_⟩
  cases syncMsg <;> exact not_framedReads_of_misread (by decide +kernel)

end DataSpaces.Cluster.Tcp
