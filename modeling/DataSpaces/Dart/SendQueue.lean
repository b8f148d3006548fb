import DataSpaces.Lib.Links
import DataSpaces.Lib.Runs

/-!
# The send queue of the InfiniBand transport

`rpc_send` puts a request at the end of the peer's `req_list` and calls `peer_process_send_list`, which posts
the requests from the front. Before it takes a request, a client, and a server with more than 100 posted
requests, processes events; their handlers may call `rpc_send` for the same peer, so that calls of
`peer_process_send_list` are nested. The test for an empty list comes before the events.

A state has the list with its links, and the calls that have not returned. `Queue` says what holds in every
run, also after errors: the requests posted and those in the list are all that were queued, in this order.
`Moves` is what a step does to the requests in the list and to the calls.
A nested call leaves the list empty when it returns, so the call around it takes the list head for a request
(`Doomed`).
-/

namespace DataSpaces.Dart.Ib.SendQueue

open Lib List Option

/-! ## The source -/

inductive RpcComponent where
  | dartServer
  | dartClient
deriving DecidableEq, Repr

/-- The nodes of the list: its head in the peer, and the requests, numbered as they were queued. -/
inductive Node where
  | reqList
  | request (k : Nat)
deriving DecidableEq, Repr

/-- Where a call of `peer_process_send_list` is. -/
inductive Frame where
  /-- at the test of the loop -/
  | test
  /-- in the calls of `rpc_process_event_with_timeout` -/
  | events
  /-- before `list_entry` -/
  | take
deriving DecidableEq, Repr

structure State where
  links : Links Node
  numReq : Int
  reqPosted : Int
  /-- the calls that have not returned, innermost first -/
  frames : List Frame
  /-- requests queued so far -/
  queued : Nat
  /-- requests posted from the list so far -/
  posted : List Nat
  /-- the list head has been taken for a request -/
  headTaken : Bool

/-- `m` requests in the list. -/
def queueOf : Nat → Links Node
  | 0 => Links.initListHead ⟨fun _ => none, fun _ => none⟩ .reqList
  | m + 1 => ((queueOf m).listAddTail (.request m) .reqList).getD (queueOf m)

/-- A call of `peer_process_send_list` with `m` requests in the list. -/
def start (m : Nat) : State where
  links := queueOf m
  numReq := m
  reqPosted := m
  frames := [.test]
  queued := m
  posted := []
  headTaken := false

inductive Act where
  /-- `rpc_send` or `rpc_receive` -/
  | rpcSend
  /-- a request that is posted without the list -/
  | sendDirect
  /-- a completion in `rpc_process` -/
  | completion
  /-- `rpc_server_finish` -/
  | finish
  | test
  | eventsDone
  /-- an error of `rpc_process_event_with_timeout` -/
  | eventsFail
  | post
  /-- an error of `rpc_prepare_buffers` or `rpc_post_request` -/
  | postFail
deriving DecidableEq, Repr

/-- Code outside `peer_process_send_list` runs: that of the application or of a handler. -/
def State.outside (s : State) : Bool :=
  match s.frames with
  | [] => true
  | .events :: _ => true
  | _ => false

/-- `rpc_send` up to the call of `peer_process_send_list`. -/
def rpcSend (s : State) : Option State :=
  (s.links.listAddTail (.request s.queued) .reqList).map fun links =>
    { s with links := links, numReq := s.numReq + 1, reqPosted := s.reqPosted + 1,
             frames := .test :: s.frames, queued := s.queued + 1 }

/-- The test of the loop; the call returns when the list is empty. -/
def testLoop (com : RpcComponent) (s : State) (rest : List Frame) : State :=
  if s.links.listEmpty .reqList then { s with frames := rest }
  else if com = .dartClient ∨ s.reqPosted > 100 then { s with frames := .events :: rest }
  else { s with frames := .take :: rest }

/-- Take the first entry and post it. The list head has no message where a request has one: `msg` lies
over `f_req_msg` and `f_need_msg` of the peer, which nothing sets. The call then returns. -/
def postFirst (s : State) (rest : List Frame) : Option State :=
  match s.links.next .reqList with
  | none => none
  | some .reqList => some { s with frames := rest, headTaken := true }
  | some (.request k) => (s.links.listDel (.request k)).map fun links =>
    { s with links := links, posted := s.posted ++ [k], numReq := s.numReq - 1, frames := .test :: rest }

def step (com : RpcComponent) (s : State) : Act → Option State
  | .rpcSend => if s.outside then rpcSend s else none
  | .sendDirect => if s.outside then some { s with reqPosted := s.reqPosted + 1 } else none
  | .completion => if s.outside then some { s with reqPosted := s.reqPosted - 1 } else none
  | .finish => if s.frames = [] ∧ s.numReq ≠ 0 then some { s with frames := [.test] } else none
  | .test =>
    match s.frames with
    | .test :: rest => some (testLoop com s rest)
    | _ => none
  | .eventsDone =>
    match s.frames with
    | .events :: rest => some { s with frames := .take :: rest }
    | _ => none
  | .eventsFail =>
    match s.frames with
    | .events :: rest => some { s with frames := rest }
    | _ => none
  | .post =>
    match s.frames with
    | .take :: rest => postFirst s rest
    | _ => none
  | .postFail =>
    match s.frames with
    | .take :: rest => if s.links.next .reqList = some .reqList then none else some { s with frames := rest }
    | _ => none

/-! ## What a step does -/

/-- No error is returned. -/
def Act.Succeeds (a : Act) : Prop := a ≠ .eventsFail ∧ a ≠ .postFail

/-- What a step does to the requests in the list, to the calls and to the flag. -/
inductive Moves (pending : List Nat) (frames : List Frame) (head : Bool) :
    Act → List Nat → List Frame → Bool → Prop where
  | send (k : Nat) (hout : ∀ f rest, frames = f :: rest → f = .events) :
      Moves pending frames head .rpcSend (pending ++ [k]) (.test :: frames) head
  | count (a : Act) (ha : a ≠ .rpcSend) : Moves pending frames head a pending frames head
  | finish (hidle : frames = []) (hreq : pending ≠ []) : Moves pending frames head .finish pending [.test] head
  | leave (rest : List Frame) (hframes : frames = .test :: rest) (hempty : pending = []) :
      Moves pending frames head .test pending rest head
  | enter (f : Frame) (rest : List Frame) (hf : f ≠ .test) (hframes : frames = .test :: rest)
      (hsome : pending ≠ []) : Moves pending frames head .test pending (f :: rest) head
  | eventsDone (rest : List Frame) (hframes : frames = .events :: rest) :
      Moves pending frames head .eventsDone pending (.take :: rest) head
  | fail (a : Act) (f : Frame) (rest : List Frame) (ha : ¬ a.Succeeds) (hframes : frames = f :: rest) :
      Moves pending frames head a pending rest head
  | post (k : Nat) (pending' : List Nat) (rest : List Frame) (hframes : frames = .take :: rest)
      (hfirst : pending = k :: pending') : Moves pending frames head .post pending' (.test :: rest) head
  | head (rest : List Frame) (hframes : frames = .take :: rest) (hempty : pending = []) :
      Moves pending frames head .post pending rest true

/-- The requests in the list come after the posted ones, and `num_req` counts them. -/
structure Queue (s : State) (pending : List Nat) : Prop where
  ring : Links.Ring s.links .reqList (pending.map .request)
  order : s.posted ++ pending = range s.queued
  numReq : s.numReq = pending.length

variable {com : RpcComponent} {s s' : State} {frames rest : List Frame} {a : Act} {pending : List Nat}

namespace Queue

variable (h : Queue s pending)

include h

theorem listEmpty_iff : s.links.listEmpty .reqList ↔ pending = [] := by
  rw [h.ring.listEmpty_iff, map_eq_nil_iff]

theorem next_reqList :
    s.links.next .reqList = some ((pending.map Node.request).headD .reqList) := h.ring.next_head

/-- A new request is not in the list yet. -/
theorem request_notMem : Node.request s.queued ∉ Node.reqList :: pending.map .request := by
  simp only [mem_cons, reduceCtorEq, List.mem_map, Node.request.injEq, exists_eq_right, false_or]
  intro hmem
  have hrange : s.queued ∈ s.posted ++ pending := mem_append_right _ hmem
  rw [h.order, mem_range] at hrange
  exact lt_irrefl _ hrange

theorem send (hsend : rpcSend s = some s') : Queue s' (pending ++ [s.queued]) ∧
    s'.frames = .test :: s.frames ∧ s'.headTaken = s.headTaken := by
  obtain ⟨links, hadd, rfl⟩ := map_eq_some_iff.1 hsend
  refine ⟨⟨?_, ?_, ?_⟩, rfl, rfl⟩
  · obtain ⟨links', hadd', hring⟩ := h.ring.listAddTail h.request_notMem
    rw [hadd, some.injEq] at hadd'
    subst hadd'
    rw [map_append]
    exact hring
  · rw [← append_assoc, h.order, ← range_succ]
  · rw [h.numReq, length_append]
    simp

theorem test (hframes : s.frames = .test :: rest) : Queue (testLoop com s rest) pending ∧
    Moves pending s.frames s.headTaken .test pending (testLoop com s rest).frames
      (testLoop com s rest).headTaken := by
  unfold testLoop
  split
  next hempty => exact ⟨⟨h.ring, h.order, h.numReq⟩, .leave rest hframes (h.listEmpty_iff.1 hempty)⟩
  next hsome =>
    have hne : pending ≠ [] := fun hnil => hsome (h.listEmpty_iff.2 hnil)
    split
    · exact ⟨⟨h.ring, h.order, h.numReq⟩, .enter .events rest (by simp) hframes hne⟩
    · exact ⟨⟨h.ring, h.order, h.numReq⟩, .enter .take rest (by simp) hframes hne⟩

theorem post (hframes : s.frames = .take :: rest) (hpost : postFirst s rest = some s') :
    ∃ pending', Queue s' pending' ∧
      Moves pending s.frames s.headTaken .post pending' s'.frames s'.headTaken := by
  unfold postFirst at hpost
  rw [h.next_reqList] at hpost
  cases pending with
  | nil =>
    cases hpost
    exact ⟨[], ⟨h.ring, h.order, h.numReq⟩, .head rest hframes rfl⟩
  | cons k pending' =>
    obtain ⟨links, hdel, rfl⟩ := map_eq_some_iff.1 hpost
    refine ⟨pending', ⟨?_, ?_, ?_⟩, .post k pending' rest hframes rfl⟩
    · obtain ⟨links', hdel', hring, -⟩ := Links.Ring.listDel [] h.ring
      rw [hdel, some.injEq] at hdel'
      subst hdel'
      exact hring
    · rw [← h.order, append_assoc]
      rfl
    · have hnum := h.numReq
      simp only [length_cons] at hnum
      simp only
      omega

/-- Every step keeps the order of the queue. -/
theorem step (hstep : SendQueue.step com s a = some s') :
    ∃ pending', Queue s' pending' ∧ Moves pending s.frames s.headTaken a pending' s'.frames s'.headTaken := by
  have hkeep : ∀ {reqPosted frames}, Queue { s with reqPosted := reqPosted, frames := frames } pending :=
    ⟨h.ring, h.order, h.numReq⟩
  cases a with
  | rpcSend =>
    obtain ⟨hout, hsend⟩ := ite_none_right_eq_some.1 hstep
    obtain ⟨hqueue, hframes, hhead⟩ := h.send hsend
    refine ⟨_, hqueue, ?_⟩
    rw [hframes, hhead]
    refine .send _ fun f rest hrest => ?_
    rw [State.outside, hrest] at hout
    cases f with
    | events => rfl
    | _ => cases hout
  | sendDirect | completion =>
    obtain ⟨-, hs'⟩ := ite_none_right_eq_some.1 hstep
    cases hs'
    exact ⟨pending, hkeep, .count _ (by simp)⟩
  | finish =>
    obtain ⟨⟨hidle, hreq⟩, hs'⟩ := ite_none_right_eq_some.1 hstep
    cases hs'
    refine ⟨pending, hkeep, .finish hidle ?_⟩
    rintro rfl
    exact hreq h.numReq
  | test =>
    simp only [SendQueue.step] at hstep
    split at hstep
    next rest hframes =>
      cases hstep
      exact ⟨pending, h.test hframes⟩
    · cases hstep
  | eventsDone =>
    simp only [SendQueue.step] at hstep
    split at hstep
    next rest hframes =>
      cases hstep
      exact ⟨pending, hkeep, .eventsDone rest hframes⟩
    · cases hstep
  | eventsFail =>
    simp only [SendQueue.step] at hstep
    split at hstep
    next rest hframes =>
      cases hstep
      exact ⟨pending, hkeep, .fail _ _ rest (fun hok => hok.1 rfl) hframes⟩
    · cases hstep
  | post =>
    simp only [SendQueue.step] at hstep
    split at hstep
    next rest hframes => exact h.post hframes hstep
    · cases hstep
  | postFail =>
    simp only [SendQueue.step] at hstep
    split at hstep
    next rest hframes =>
      split at hstep
      · cases hstep
      · cases hstep
        exact ⟨pending, hkeep, .fail _ _ rest (fun hok => hok.2 rfl) hframes⟩
    · cases hstep

end Queue

theorem ring_queueOf (m : Nat) : Links.Ring (queueOf m) .reqList ((range m).map .request) := by
  induction m with
  | zero => exact Links.Ring.initListHead _ _
  | succ m ih =>
    obtain ⟨links, hadd, hring⟩ := ih.listAddTail (x := .request m) (by simp)
    rw [queueOf, hadd, getD_some, range_succ, map_append]
    exact hring

theorem queue_start (m : Nat) : Queue (start m) (range m) where
  ring := ring_queueOf m
  order := rfl
  numReq := by simp [start]

/-- All calls but the innermost are processing events. -/
def Nested (frames : List Frame) : Prop := ∀ f ∈ frames.tail, f = .events

theorem Moves.nested {pending' : List Nat} {frames' : List Frame} {head head' : Bool}
    (h : Moves pending frames head a pending' frames' head') (hnested : Nested frames) : Nested frames' := by
  have htail : ∀ f rest, frames = f :: rest → ∀ g ∈ rest, g = .events := by
    rintro f rest rfl
    exact hnested
  cases h with
  | send k hout =>
    intro f hf
    cases frames with
    | nil => cases hf
    | cons g rest =>
      rcases mem_cons.1 hf with rfl | hf
      · exact hout f rest rfl
      · exact hnested f hf
  | count a ha => exact hnested
  | finish hidle hreq => simp [Nested]
  | leave _ hframes _ => exact fun f hf => htail _ _ hframes f (mem_of_mem_tail hf)
  | enter _ _ _ hframes _ => exact htail _ _ hframes
  | eventsDone _ hframes => exact htail _ _ hframes
  | fail _ _ _ _ hframes => exact fun f hf => htail _ _ hframes f (mem_of_mem_tail hf)
  | post _ _ _ hframes _ => exact htail _ _ hframes
  | head _ hframes _ => exact fun f hf => htail _ _ hframes f (mem_of_mem_tail hf)

theorem exists_queue {m : Nat} (h : Reaches (step com) (start m) s) :
    ∃ pending, Queue s pending ∧ Nested s.frames := by
  refine h.invariant (P := fun s => ∃ pending, Queue s pending ∧ Nested s.frames)
    ⟨_, queue_start m, by simp [Nested, start]⟩ ?_
  rintro s a s' ⟨pending, hqueue, hnested⟩ hstep
  obtain ⟨pending', hqueue', hmoves⟩ := hqueue.step hstep
  exact ⟨pending', hqueue', hmoves.nested hnested⟩

/-! ## Calls return -/

/-- A step of `peer_process_send_list` itself, without an error. -/
def Act.own : Act → Bool
  | .test => true
  | .eventsDone => true
  | .post => true
  | _ => false

/-- Steps up to the next test of the loop. -/
def Frame.toGo : Frame → Nat
  | .test => 3
  | .events => 2
  | .take => 1

/-- Every request takes three steps, and every call that has not returned the rest of its round. -/
def work (s : State) : Nat := 3 * s.numReq.toNat + (s.frames.map Frame.toGo).sum

theorem work_testLoop_lt (com : RpcComponent) (hrest : s.frames = .test :: rest) :
    work (testLoop com s rest) < work s := by
  unfold testLoop
  split
  · simp [work, hrest, Frame.toGo]
  · split
    · simp [work, hrest, Frame.toGo]
    · simp [work, hrest, Frame.toGo]

/-- The innermost call goes on, with less work left. -/
theorem Queue.exists_own (com : RpcComponent) (h : Queue s pending) (hframes : s.frames ≠ []) :
    ∃ a s', (a.own = true ∧ SendQueue.step com s a = some s') ∧ work s' < work s := by
  obtain ⟨f, rest, hrest⟩ := exists_cons_of_ne_nil hframes
  cases f with
  | test =>
    exact ⟨.test, testLoop com s rest, ⟨rfl, by simp only [SendQueue.step, hrest]⟩, work_testLoop_lt com hrest⟩
  | events =>
    refine ⟨.eventsDone, { s with frames := .take :: rest }, ⟨rfl, by simp only [SendQueue.step, hrest]⟩, ?_⟩
    simp [work, hrest, Frame.toGo]
  | take =>
    have hnext := h.next_reqList
    cases pending with
    | nil =>
      refine ⟨.post, { s with frames := rest, headTaken := true }, ⟨rfl, ?_⟩, ?_⟩
      · simp only [SendQueue.step, hrest, postFirst, hnext, map_nil, headD_nil]
      · simp [work, hrest, Frame.toGo]
    | cons k pending =>
      obtain ⟨links, hdel, -⟩ := Links.Ring.listDel [] h.ring
      refine ⟨.post, { s with links := links, posted := s.posted ++ [k], numReq := s.numReq - 1,
                              frames := .test :: rest }, ⟨rfl, ?_⟩, ?_⟩
      · simp only [SendQueue.step, hrest, postFirst, hnext, map_cons, headD_cons, hdel, map_some]
      · simp only [work, hrest, Frame.toGo, h.numReq, map_cons, sum_cons, length_cons]
        omega

/-- All calls return if no handler sends any more and there is no error. -/
theorem exists_return (com : RpcComponent) (h : Queue s pending) :
    ∃ s', Reaches (guardStep (fun _ a => a.own) (step com)) s s' ∧ s'.frames = [] := by
  apply exists_reaches_of_work (P := fun s => ∃ pending, Queue s pending) work ?_ ⟨pending, h⟩
  rintro s ⟨pending, h⟩ hframes
  obtain ⟨a, s', hstep, hlt⟩ := h.exists_own com hframes
  obtain ⟨pending', hqueue, -⟩ := h.step hstep.2
  exact ⟨a, s', guardStep_eq_some.2 hstep, ⟨pending', hqueue⟩, hlt⟩

/-- Wherever a run has led, the calls under way can all return without further requests. -/
theorem send_calls_return (com : RpcComponent) (m : Nat) (h : Reaches (step com) (start m) s) :
    ∃ s', Reaches (guardStep (fun _ a => a.own) (step com)) s s' ∧ s'.frames = [] := by
  obtain ⟨pending, hqueue, -⟩ := exists_queue h
  exact exists_return com hqueue

theorem send_calls_return_nested :
    ∃ s s', runSteps (step .dartClient) (start 1) [.test, .rpcSend] = some s ∧ s.frames = [.test, .events] ∧
      Reaches (guardStep (fun _ a => a.own) (step .dartClient)) s s' ∧ s'.frames = [] := by
  obtain ⟨s', h⟩ := send_calls_return .dartClient 1 ⟨[.test, .rpcSend], rfl⟩
  exact ⟨_, s', rfl, rfl, h⟩

/-! ## Calls that are not nested, and nested ones -/

/-- No call is nested, the list is empty outside, and not empty when its first entry is taken. -/
def FlatFrames (pending : List Nat) : List Frame → Prop
  | [] => pending = []
  | [f] => f ≠ .test → pending ≠ []
  | _ => False

def Flat (s : State) : Prop :=
  ∃ pending, Queue s pending ∧ s.headTaken = false ∧ FlatFrames pending s.frames

theorem FlatFrames.eq_nil {f : Frame} (h : FlatFrames pending (f :: rest)) : rest = [] := by
  cases rest with
  | nil => rfl
  | cons g rest => exact h.elim

theorem flat_start (m : Nat) : Flat (start m) := ⟨_, queue_start m, rfl, fun h => absurd rfl h⟩

section

variable {pending' : List Nat} {frames' : List Frame} {head head' : Bool}
  (h : Moves pending frames head a pending' frames' head')

include h

theorem Moves.flat (hok : a.Succeeds) (hsend : a = .rpcSend → frames = [])
    (hflat : head = false ∧ FlatFrames pending frames) : head' = false ∧ FlatFrames pending' frames' := by
  obtain ⟨hhead, hflat⟩ := hflat
  cases h with
  | send k hout =>
    rw [hsend rfl]
    exact ⟨hhead, fun h => absurd rfl h⟩
  | count a ha => exact ⟨hhead, hflat⟩
  | finish hidle hreq =>
    -- there is nothing left to finish
    rw [hidle] at hflat
    exact absurd hflat hreq
  | leave rest hframes hempty =>
    rw [hframes] at hflat
    rw [hflat.eq_nil]
    exact ⟨hhead, hempty⟩
  | enter f rest hf hframes hsome =>
    rw [hframes] at hflat
    rw [hflat.eq_nil]
    exact ⟨hhead, fun _ => hsome⟩
  | eventsDone rest hframes =>
    rw [hframes] at hflat
    obtain rfl := hflat.eq_nil
    exact ⟨hhead, fun _ => hflat (by simp)⟩
  | fail a f rest ha hframes => exact absurd hok ha
  | post k pending' rest hframes hfirst =>
    rw [hframes] at hflat
    rw [hflat.eq_nil]
    exact ⟨hhead, fun h => absurd rfl h⟩
  | head rest hframes hempty =>
    -- the list is not empty when its first entry is taken
    rw [hframes] at hflat
    obtain rfl := hflat.eq_nil
    exact absurd hempty (hflat (by simp))

end

/-- A nested call runs, or it has returned and the call around it will find the list empty. -/
def DoomedFrames (pending : List Nat) : List Frame → Prop
  | [] => False
  | [f] => f ≠ .test ∧ pending = []
  | _ => True

/-- The list head has been taken for a request, or will be. -/
def Doomed (s : State) : Prop :=
  ∃ pending, Queue s pending ∧ Nested s.frames ∧ (s.headTaken = true ∨ DoomedFrames pending s.frames)

/-- When the innermost of nested calls returns and the list is empty, the call around it, which is processing
events, will find it so. -/
theorem DoomedFrames.leave (h : DoomedFrames pending (.test :: rest)) (hnested : ∀ f ∈ rest, f = .events)
    (hempty : pending = []) : DoomedFrames pending rest := by
  cases rest with
  | nil => exact absurd rfl h.1
  | cons f rest =>
    cases rest with
    | nil => exact ⟨by rw [hnested f mem_cons_self]; simp, hempty⟩
    | cons g rest => trivial

theorem DoomedFrames.replace {f g : Frame} (h : DoomedFrames pending (f :: rest)) (hg : f ≠ .test → g ≠ .test) :
    DoomedFrames pending (g :: rest) := by
  cases rest with
  | nil => exact ⟨hg h.1, h.2⟩
  | cons f' rest => trivial

section

variable {pending' : List Nat} {frames' : List Frame} {head head' : Bool}

theorem Moves.doomed (h : Moves pending frames head a pending' frames' head') (hok : a.Succeeds)
    (hnested : Nested frames) (hdoomed : head = true ∨ DoomedFrames pending frames) :
    head' = true ∨ DoomedFrames pending' frames' := by
  cases h with
  | send k hout =>
    refine hdoomed.imp_right fun hdoomed => ?_
    cases frames with
    | nil => exact hdoomed.elim
    | cons f rest => trivial
  | count a ha => exact hdoomed
  | finish hidle hreq =>
    refine hdoomed.imp_right fun hdoomed => ?_
    rw [hidle] at hdoomed
    exact hdoomed.elim
  | leave rest hframes hempty =>
    subst hframes
    exact hdoomed.imp_right fun hdoomed => hdoomed.leave hnested hempty
  | enter f rest hf hframes hsome =>
    subst hframes
    exact hdoomed.imp_right fun hdoomed => hdoomed.replace fun h => absurd rfl h
  | eventsDone rest hframes =>
    subst hframes
    exact hdoomed.imp_right fun hdoomed => hdoomed.replace fun _ => by simp
  | fail a f rest ha hframes => exact absurd hok ha
  | post k pending' rest hframes hfirst =>
    refine hdoomed.imp_right fun hdoomed => ?_
    rw [hframes, hfirst] at hdoomed
    cases rest with
    | nil => exact absurd hdoomed.2 (by simp)
    | cons g rest => trivial
  | head rest hframes hempty => exact Or.inl rfl

/-- A handler that sends to the peer nests a call. -/
theorem Moves.doomed_of_rpcSend (h : Moves pending frames head .rpcSend pending' frames' head')
    (hne : frames ≠ []) : DoomedFrames pending' frames' := by
  cases h with
  | send k hout =>
    obtain ⟨f, rest, rfl⟩ := exists_cons_of_ne_nil hne
    trivial
  | count a ha => exact absurd rfl ha
  | fail a f rest ha hframes => exact absurd ⟨by simp, by simp⟩ ha

end

/-! ## The queue over whole runs -/

/-- Posted requests and those in the list are all the queued ones in their order, `num_req` counts the list,
and the list head has not been taken for a request. -/
def Good (s : State) : Prop :=
  ∃ pending, Links.Ring s.links .reqList (pending.map .request) ∧ s.posted ++ pending = range s.queued ∧
    s.numReq = pending.length ∧ s.headTaken = false

theorem Flat.good (h : Flat s) : Good s := by
  obtain ⟨pending, hqueue, hhead, -⟩ := h
  exact ⟨pending, hqueue.ring, hqueue.order, hqueue.numReq, hhead⟩

/-- For any queue and any nesting of handlers, when all calls have returned and none of them failed: the
state was good at all times and every queued request has been posted, exactly if nothing was sent to the
peer while a call was processing events. -/
theorem send_queue_good_iff (com : RpcComponent) (m : Nat) (acts : List Act) {s : State}
    (hok : ∀ a ∈ acts, a.Succeeds) (hrun : runSteps (step com) (start m) acts = some s)
    (hdone : s.frames = []) : (s.posted = range s.queued ∧
      ∀ before s', before <+: acts → runSteps (step com) (start m) before = some s' → Good s') ↔
    ∀ before s', before ++ [.rpcSend] <+: acts → runSteps (step com) (start m) before = some s' →
      s'.frames = [] := by
  constructor
  · rintro ⟨-, hgood⟩ before s₁ hpre hbefore
    by_contra hframes
    obtain ⟨rest, rfl⟩ := hpre
    rw [runSteps_append] at hrun
    obtain ⟨s₂, hsend, hrest⟩ := bind_eq_some_iff.1 hrun
    obtain ⟨s₁', hs₁, hstep⟩ := exists_of_runSteps_concat hsend
    rw [hbefore, some.injEq] at hs₁
    subst hs₁
    obtain ⟨pending, hqueue, hnested⟩ := exists_queue ⟨before, hbefore⟩
    obtain ⟨pending', hqueue', hmoves⟩ := hqueue.step hstep
    -- from the nested call on the run cannot end well
    have hdoomed : Doomed s := by
      refine invariant_of_runSteps hrest
        ⟨pending', hqueue', hmoves.nested hnested, Or.inr (hmoves.doomed_of_rpcSend hframes)⟩ ?_
      rintro a ha s s' ⟨pending, hqueue, hnested, hdoomed⟩ hstep
      obtain ⟨pending', hqueue', hmoves⟩ := hqueue.step hstep
      exact ⟨pending', hqueue', hmoves.nested hnested,
        hmoves.doomed (hok a (mem_append_right _ ha)) hnested hdoomed⟩
    obtain ⟨_, -, -, hhead | hcalls⟩ := hdoomed
    · obtain ⟨_, -, -, -, hnot⟩ := hgood _ s prefix_rfl (by rw [runSteps_append, hsend]; exact hrest)
      rw [hhead] at hnot
      cases hnot
    · rw [hdone] at hcalls
      exact hcalls
  · intro hidle
    have hflat : ∀ before s', before <+: acts → runSteps (step com) (start m) before = some s' → Flat s' := by
      apply forall_prefix_of_step (flat_start m)
      rintro before a s s' hpre hbefore hstep ⟨pending, hqueue, hflat⟩
      obtain ⟨pending', hqueue', hmoves⟩ := hqueue.step hstep
      have ha : a ∈ acts := hpre.subset (mem_append_right _ mem_cons_self)
      exact ⟨pending', hqueue',
        hmoves.flat (hok a ha) (fun hsend => hidle before s (hsend ▸ hpre) hbefore) hflat⟩
    refine ⟨?_, fun before s' hpre hbefore => (hflat before s' hpre hbefore).good⟩
    obtain ⟨pending, hqueue, -, hframes⟩ := hflat acts s prefix_rfl hrun
    rw [hdone] at hframes
    have horder := hqueue.order
    rw [show pending = [] from hframes, append_nil] at horder
    exact horder

/-- A client posts two requests, with a completion and a direct send among the events, and sends another
request after that. -/
def eventsRun : List Act :=
  [.test, .completion, .sendDirect, .eventsDone, .post, .test, .eventsDone, .post, .test,
    .rpcSend, .test, .eventsDone, .post, .test]

theorem send_queue_good_iff_events :
    ∃ s, runSteps (step .dartClient) (start 2) eventsRun = some s ∧ s.posted = [0, 1, 2] ∧ Good s := by
  have hidle : ∀ before s', before ++ [.rpcSend] <+: eventsRun →
      runSteps (step .dartClient) (start 2) before = some s' → s'.frames = [] := by
    rintro before s' ⟨rest, hrest⟩ hbefore
    -- There is one send only.
    have hsends : ∀ n < eventsRun.length, eventsRun[n]? = some .rpcSend → n = 9 := by decide
    have hlength : before.length = 9 := by
      refine hsends _ ?_ ?_
      · rw [← hrest]
        simp
      · rw [← hrest]
        simp
    have hframes : (runSteps (step .dartClient) (start 2) (eventsRun.take 9)).map State.frames = some [] := rfl
    rw [← hrest, ← hlength, append_assoc, take_left, hbefore] at hframes
    exact some.inj hframes
  obtain ⟨hposted, hgood⟩ := (send_queue_good_iff .dartClient 2 eventsRun
    (by simp [eventsRun, Act.Succeeds]) rfl rfl).2 hidle
  exact ⟨_, rfl, hposted, hgood _ _ prefix_rfl rfl⟩

/-- A client sends a request, and a handler that it runs before it posts sends another one. -/
theorem nested_send_takes_head :
    ∃ s, runSteps (step .dartClient) (start 1) [.test, .rpcSend, .test, .eventsDone, .post,
        .test, .eventsDone, .post, .test, .eventsDone, .post] = some s ∧
      s.frames = [] ∧ s.posted = [0, 1] ∧ s.headTaken = true := by
  refine ⟨_, rfl, ?_⟩
  decide

end DataSpaces.Dart.Ib.SendQueue
