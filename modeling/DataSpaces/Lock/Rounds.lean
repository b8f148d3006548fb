import DataSpaces.Lock.Custom

/-!
# The rounds of the custom lock

The server of a custom lock takes turns: the writer, then every reader once, then the writer again. The
invariant `RoundsInv` says where each client is in its loop (`Stage`), and that the counters of the
lock are those of the turn: `WriterTurn k` after `k` finished rounds until the writer has released, and
`ReadersTurn k` until all readers have released for the `k + 1`-st time. A client on the wait list is
one whose turn it is not.
-/

namespace DataSpaces.Lock

open List
open Function (Injective update update_apply update_self update_of_ne)

variable {n : Nat}

/-! ## Where a client is -/

def getHdr (lockName : String) (c : Peer n) (k : Nat) : LockHdr := ⟨c.getType, k, lockName⟩

def releaseHdr (lockName : String) (c : Peer n) (k : Nat) : LockHdr := ⟨c.releaseType, k, lockName⟩

def OnList (dl : DsgLock (Peer n)) (c : Peer n) : Prop := ∃ cmd ∈ dl.waitList, cmd.id = c

/-- The places of a client in its loop, with the messages that are then under way: `g` and `r` count its
grants and releases, `on` says whether its request is on the wait list. -/
inductive Stage (lockName : String) (c : Peer n) (g r : Nat) (lock : DcgLock) (pc : Pc)
    (toServer toClient : List LockHdr) (on : Prop) : Prop
  | idle (hround : g = r) (hpc : pc = .outside) (hnum : lock.lockNum = g) (hto : toServer = [])
    (hfrom : toClient = []) (hlist : ¬ on)
  | asking (hround : g = r) (hpc : pc = .acquiring) (hack : lock.ack = false) (hnum : lock.lockNum = g)
    (hto : toServer = [getHdr lockName c g]) (hfrom : toClient = []) (hlist : ¬ on)
  | waiting (hround : g = r) (hpc : pc = .acquiring) (hack : lock.ack = false) (hto : toServer = [])
    (hfrom : toClient = []) (hlist : on)
  | granted (hround : g = r + 1) (hpc : pc = .acquiring) (hack : lock.ack = false)
    (hto : toServer = []) (hfrom : toClient = [⟨.grant, g, lockName⟩]) (hlist : ¬ on)
  | entering (hround : g = r + 1) (hpc : pc = .acquiring) (hack : lock.ack = true)
    (hnum : lock.lockNum = g) (hto : toServer = []) (hfrom : toClient = []) (hlist : ¬ on)
  | holding (hround : g = r + 1) (hpc : pc = .inside) (hnum : lock.lockNum = g) (hto : toServer = [])
    (hfrom : toClient = []) (hlist : ¬ on)
  | leaving (hround : g = r + 1) (hpc : pc = .outside) (hnum : lock.lockNum = g)
    (hto : toServer = [releaseHdr lockName c g]) (hfrom : toClient = []) (hlist : ¬ on)
  | again (hround : g = r + 1) (hpc : pc = .acquiring) (hack : lock.ack = false)
    (hnum : lock.lockNum = g) (hto : toServer = [releaseHdr lockName c g, getHdr lockName c g])
    (hfrom : toClient = []) (hlist : ¬ on)

/-- The stage of a client with `r` releases and with the messages `toServer` under way. -/
abbrev Sys.StageWith (lockName : String) (s : Sys n) (c : Peer n) (r : Nat) (toServer : List LockHdr)
    (on : Prop) : Prop :=
  Stage lockName c (s.grants c) r (s.lock c) (s.pc c) toServer (s.toClient c) on

def Sys.StageOf (lockName : String) (s : Sys n) (c : Peer n) : Prop :=
  Stage lockName c (s.grants c) (s.releases c) (s.lock c) (s.pc c) (s.toServer c) (s.toClient c)
    (OnList s.dl c)

/-! ## Whose turn it is -/

/-- After `k` rounds it is the turn of the writer: all readers have finished. -/
structure WriterTurn (dl : DsgLock (Peer n)) (g r : Peer n → Nat) (k : Nat) : Prop where
  readers : ∀ i, g (.reader i) = k ∧ r (.reader i) = k
  releases : r .writer = k
  free_or_held : (g .writer = k ∧ dl.wrCnt = 1 ∧ ¬ OnList dl .writer) ∨ (g .writer = k + 1 ∧ dl.wrCnt = 0)
  rdCnt_eq : dl.rdCnt = 0
  rdEpoch_eq : dl.rdEpoch = k
  wrEpoch_eq : dl.wrEpoch = k
  rdNotifyCnt_eq : dl.rdNotifyCnt = 0

/-- After `k` rounds and one more release of the writer it is the turn of the readers: some of them
have not released yet in this round. -/
structure ReadersTurn (dl : DsgLock (Peer n)) (g r : Peer n → Nat) (k : Nat) : Prop where
  writer : g .writer = k + 1 ∧ r .writer = k + 1
  bounds : ∀ i, k ≤ r (.reader i) ∧ r (.reader i) ≤ g (.reader i) ∧ g (.reader i) ≤ k + 1
  pending : ∃ i, r (.reader i) = k
  listed : ∀ i, OnList dl (.reader i) → g (.reader i) = k + 1
  wrCnt_eq : dl.wrCnt = 0
  rdCnt_eq : dl.rdCnt = (Finset.univ.filter fun i => g (.reader i) = k).card
  rdEpoch_eq : dl.rdEpoch = k
  wrEpoch_eq : dl.wrEpoch = k + 1
  rdNotifyCnt_eq : dl.rdNotifyCnt = (Finset.univ.filter fun i => r (.reader i) = k + 1).card

/-- The limits of the lock, and its counters in one of the two turns. -/
structure LockInv (dl : DsgLock (Peer n)) (g r : Peer n → Nat) : Prop where
  fixed : dl.wrMax = 1 ∧ dl.rdMax = n ∧ dl.wrNotifyCnt = 0
  turn : ∃ k, WriterTurn dl g r k ∨ ReadersTurn dl g r k

structure RoundsInv (lockName : String) (s : Sys n) : Prop extends LockInv s.dl s.grants s.releases where
  name_eq : ∀ c, (s.lock c).name = lockName
  stage : ∀ c, s.StageOf lockName c
  entries : ∀ cmd ∈ s.dl.waitList, cmd.hdr = getHdr lockName cmd.id (s.grants cmd.id)
  nodup : (s.dl.waitList.map RpcCmd.id).Nodup
  order : InOrder s.log

theorem roundsInv_start (lockName : String) : RoundsInv lockName (.start n lockName) where
  name_eq := fun _ => rfl
  stage := fun _ => Stage.idle rfl rfl rfl rfl rfl nofun
  entries := fun _ h => absurd h not_mem_nil
  nodup := nodup_nil
  fixed := ⟨rfl, rfl, rfl⟩
  turn := ⟨0, .inl ⟨fun _ => ⟨rfl, rfl⟩, rfl, .inl ⟨rfl, rfl, nofun⟩, rfl, rfl, rfl, rfl⟩⟩
  order := by
    intro pre ev post h
    exact absurd h (by simp [Sys.start])

/-! ## Steps of the clients -/

section

variable {lockName : String} {s : Sys n} (h : RoundsInv lockName s)

include h

variable {c : Peer n}

/-- A step of a client does not touch the server; it moves the client to another stage. -/
theorem RoundsInv.client_step {lock : Peer n → DcgLock} {pc : Peer n → Pc}
    {toServer toClient : Peer n → List LockHdr} (hothers : ∀ p, p ≠ c → pc p = s.pc p ∧ lock p = s.lock p ∧
      toServer p = s.toServer p ∧ toClient p = s.toClient p) (hname : (lock c).name = lockName)
    (hstage : Stage lockName c (s.grants c) (s.releases c) (lock c) (pc c) (toServer c) (toClient c)
      (OnList s.dl c)) :
    RoundsInv lockName { s with lock := lock, pc := pc, toServer := toServer, toClient := toClient } where
  name_eq := by
    intro p
    by_cases hp : p = c
    · rw [hp]
      exact hname
    · exact (congrArg DcgLock.name (hothers p hp).2.1).trans (h.name_eq p)
  -- The stage of the client is given; the others see neither its variables nor its channels.
  stage := by
    intro p
    by_cases hp : p = c
    · rw [hp]
      exact hstage
    · obtain ⟨hpc, hlock, hto, hfrom⟩ := hothers p hp
      show Stage lockName p _ _ (lock p) (pc p) (toServer p) (toClient p) _
      rw [hpc, hlock, hto, hfrom]
      exact h.stage p
  entries := h.entries
  nodup := h.nodup
  fixed := h.fixed
  turn := h.turn
  order := h.order

/-- The client sends a request. -/
theorem RoundsInv.post {type : LockType} {pc : Pc}
    (hstage : Stage lockName c (s.grants c) (s.releases c) { s.lock c with ack := false, req := true } pc
      (s.toServer c ++ [⟨type, (s.lock c).lockNum, lockName⟩]) (s.toClient c) (OnList s.dl c)) :
    RoundsInv lockName (s.post c type pc) := by
  refine h.client_step (c := c)
    (fun p hp => ⟨update_of_ne hp _ _, update_of_ne hp _ _, update_of_ne hp _ _, rfl⟩) ?_ ?_
  · rw [update_self]
    exact h.name_eq c
  · have hreq : (dcgLockRequest (s.lock c) type).2 = ⟨type, (s.lock c).lockNum, lockName⟩ :=
      congrArg (LockHdr.mk _ _) (h.name_eq c)
    rw [update_self, update_self, update_self, hreq]
    exact hstage

theorem RoundsInv.lock (hpc : s.pc c = .outside) : RoundsInv lockName (s.post c c.getType .acquiring) := by
  apply h.post
  have hstage := h.stage c
  rw [Sys.StageOf, hpc] at hstage
  -- The client was idle, or its release is still under way.
  cases hstage with
  | idle hround _ hnum hto hfrom hlist =>
    refine .asking hround rfl rfl hnum ?_ hfrom hlist
    rw [hto, hnum]
    rfl
  | leaving hround _ hnum hto hfrom hlist =>
    refine .again hround rfl rfl hnum ?_ hfrom hlist
    rw [hto, hnum]
    rfl
  | _ => contradiction

theorem RoundsInv.unlock (hpc : s.pc c = .inside) : RoundsInv lockName (s.post c c.releaseType .outside) := by
  apply h.post
  have hstage := h.stage c
  rw [Sys.StageOf, hpc] at hstage
  cases hstage with
  | holding hround _ hnum hto hfrom hlist =>
    refine .leaving hround rfl hnum ?_ hfrom hlist
    rw [hto, hnum]
    rfl
  | _ => contradiction

theorem RoundsInv.receive {lh : LockHdr} {rest : List LockHdr} (hfrom : s.toClient c = lh :: rest) :
    RoundsInv lockName { s with
      lock := update s.lock c (dcgrpcLockService (s.lock c) lh)
      toClient := update s.toClient c rest } := by
  refine h.client_step (c := c) (fun p hp => ⟨rfl, update_of_ne hp _ _, rfl, update_of_ne hp _ _⟩) ?_ ?_
  · rw [update_self]
    exact h.name_eq c
  · have hstage := h.stage c
    rw [Sys.StageOf, hfrom] at hstage
    rw [update_self, update_self]
    cases hstage with
    | granted hround hpc _ hto hfrom' hlist =>
      -- The only message that a client can get.
      rw [cons.injEq] at hfrom'
      obtain ⟨rfl, rfl⟩ := hfrom'
      exact Stage.entering hround hpc rfl rfl hto rfl hlist
    | _ => contradiction

theorem RoundsInv.acquired (hpc : s.pc c = .acquiring) (hack : (s.lock c).ack = true) :
    RoundsInv lockName { s with pc := update s.pc c .inside } := by
  refine h.client_step (c := c) (fun p hp => ⟨update_of_ne hp _ _, rfl, rfl, rfl⟩) (h.name_eq c) ?_
  cases h.stage c with
  | entering hround _ _ hnum hto hfrom hlist =>
    exact Stage.holding hround (update_self ..) hnum hto hfrom hlist
  | _ => simp_all

end

/-! ## Steps of the server -/

theorem Sys.grants_deliver (s : Sys n) (c : Peer n) (lh : LockHdr) (rest : List LockHdr) (p : Peer n) :
    (s.deliver c lh rest).grants p =
      s.grants p + (semService s.dl ⟨c, lh⟩).2.countP fun cmd => cmd.id = p := by
  have hmap : ∀ l : List (RpcCmd (Peer n)),
      (l.map fun cmd => LockEvent.grant cmd.id).count (.grant p) = l.countP fun cmd => cmd.id = p := by
    intro l
    rw [List.count, countP_map]
    apply countP_congr
    intro cmd _
    simp
  have hrel : (if lh.type = c.releaseType then [LockEvent.release c] else []).count (.grant p) = 0 := by
    split <;> simp
  rw [Sys.grants, Sys.deliver, served, count_append, count_append, hrel, hmap, Nat.zero_add]
  rfl

theorem served_get (lockName : String) (c : Peer n) (k : Nat) (granted : List (RpcCmd (Peer n))) :
    served c (getHdr lockName c k) granted = granted.map fun cmd => .grant cmd.id := by
  cases c <;> rfl

theorem served_release (lockName : String) (c : Peer n) (k : Nat) (granted : List (RpcCmd (Peer n))) :
    served c (releaseHdr lockName c k) granted = .release c :: granted.map fun cmd => .grant cmd.id := by
  cases c <;> rfl

/-- Grants are not releases. -/
theorem count_release_map (p : Peer n) (l : List (RpcCmd (Peer n))) :
    (l.map fun cmd => LockEvent.grant cmd.id).count (.release p) = 0 := by
  rw [count_eq_zero]
  simp

theorem Sys.count_release_append (s : Sys n) (c p : Peer n) :
    (s.log ++ [LockEvent.release c]).count (.release p) = update s.releases c (s.releases c + 1) p := by
  rw [count_append, count_singleton, update_apply]
  by_cases hp : p = c
  · rw [if_pos hp, hp]
    simp [Sys.releases]
  · rw [if_neg hp]
    simp [Sys.releases, Ne.symm hp]

theorem Sys.count_grant_append (s : Sys n) (c p : Peer n) :
    (s.log ++ [LockEvent.release c]).count (.grant p) = s.grants p := by
  simp [Sys.grants]

theorem Sys.releases_deliver_get (s : Sys n) (lockName : String) (c : Peer n) (k : Nat)
    (rest : List LockHdr) : (s.deliver c (getHdr lockName c k) rest).releases = s.releases := by
  funext p
  rw [Sys.releases, Sys.deliver, served_get, count_append, count_release_map, Nat.add_zero]
  rfl

theorem Sys.releases_deliver_release (s : Sys n) (lockName : String) (c : Peer n) (k : Nat)
    (rest : List LockHdr) : (s.deliver c (releaseHdr lockName c k) rest).releases =
      update s.releases c (s.releases c + 1) := by
  funext p
  rw [Sys.releases, Sys.deliver, served_release, ← singleton_append, ← append_assoc,
    count_append, count_release_map, s.count_release_append]
  rfl

/-- The request that a client has sent. -/
abbrev Sys.request (s : Sys n) (lockName : String) (c : Peer n) : RpcCmd (Peer n) :=
  ⟨c, getHdr lockName c (s.grants c)⟩

/-- The server serves it. -/
abbrev Sys.serveGet (s : Sys n) (lockName : String) (c : Peer n) : Sys n :=
  s.deliver c (getHdr lockName c (s.grants c)) []

/-- The server serves the release that a client has sent; `rest` are the messages behind it. -/
abbrev Sys.serveRelease (s : Sys n) (lockName : String) (c : Peer n) (rest : List LockHdr) : Sys n :=
  s.deliver c (releaseHdr lockName c (s.grants c)) rest

/-! ## Requests taken from the wait list -/

section

variable {L : List (RpcCmd (Peer n))} (hnd : (L.map RpcCmd.id).Nodup) (P : RpcCmd (Peer n) → Bool)

/-- The request of the client is taken out of the list. -/
def TakenOut (L : List (RpcCmd (Peer n))) (P : RpcCmd (Peer n) → Bool) (p : Peer n) : Prop :=
  ∃ cmd ∈ L, P cmd = true ∧ cmd.id = p

include hnd

/-- A client has one request on the list. -/
theorem filter_of_takenOut {p : Peer n} {cmd : RpcCmd (Peer n)} (hcmd : cmd ∈ L) (hP : P cmd = true)
    (hid : cmd.id = p) : (L.filter P).filter (fun cmd => cmd.id = p) = [cmd] := by
  have hcount : ((L.filter P).filter fun cmd => cmd.id = p).length = 1 := by
    have hsub : ((L.filter P).map RpcCmd.id).Nodup := hnd.sublist (filter_sublist.map _)
    have hone : ((L.filter P).map RpcCmd.id).count p = 1 := by
      refine count_eq_one_of_mem hsub (mem_map.2 ⟨cmd, ?_, hid⟩)
      exact mem_filter.2 ⟨hcmd, hP⟩
    rw [List.count, countP_map] at hone
    rw [← countP_eq_length_filter, ← hone]
    apply countP_congr
    intro x _
    simp
  obtain ⟨x, hx⟩ := length_eq_one_iff.1 hcount
  have hmem : x ∈ (L.filter P).filter fun cmd => cmd.id = p := by
    rw [hx]
    exact mem_singleton_self x
  obtain ⟨hmemP, hxid⟩ := mem_filter.1 hmem
  rw [hx, inj_on_of_nodup_map hnd (mem_filter.1 hmemP).1 hcmd ((of_decide_eq_true hxid).trans hid.symm)]

omit hnd in
theorem filter_of_not_takenOut {p : Peer n} (hp : ¬ TakenOut L P p) :
    (L.filter P).filter (fun cmd => cmd.id = p) = [] := by
  rw [filter_eq_nil_iff]
  intro cmd hcmd hid
  obtain ⟨hmem, hP⟩ := mem_filter.1 hcmd
  exact hp ⟨cmd, hmem, hP, of_decide_eq_true hid⟩

end

variable {dl : DsgLock (Peer n)}

/-- The clients on the list after requests are taken out of it. -/
theorem onList_filter {dl' : DsgLock (Peer n)} (hnd : (dl.waitList.map RpcCmd.id).Nodup)
    {P : RpcCmd (Peer n) → Bool} (hlist : dl'.waitList = dl.waitList.filter fun cmd => !P cmd) (p : Peer n) :
    OnList dl' p ↔ OnList dl p ∧ ¬ TakenOut dl.waitList P p := by
  rw [OnList, hlist]
  constructor
  · rintro ⟨cmd, hcmd, hid⟩
    obtain ⟨hmem, hP⟩ := mem_filter.1 hcmd
    refine ⟨⟨cmd, hmem, hid⟩, ?_⟩
    rintro ⟨cmd', hmem', hP', hid'⟩
    rw [inj_on_of_nodup_map hnd hmem' hmem (hid'.trans hid.symm)] at hP'
    rw [hP'] at hP
    cases hP
  · rintro ⟨⟨cmd, hmem, hid⟩, hnot⟩
    refine ⟨cmd, mem_filter.2 ⟨hmem, ?_⟩, hid⟩
    rw [Bool.not_eq_true']
    exact Bool.eq_false_iff.2 fun hP => hnot ⟨cmd, hmem, hP, hid⟩

section ServerSteps

variable {lockName : String} {s : Sys n} (h : RoundsInv lockName s)

include h

variable {c : Peer n} {rest : List LockHdr} {dl' : DsgLock (Peer n)} {P : RpcCmd (Peer n) → Bool}

/-- The server serves a message of `c`: the requests on the list of `dl₀` are those that wait then, and
the requests `P` among them are granted. -/
theorem RoundsInv.serve_step {lh : LockHdr} {dl₀ : DsgLock (Peer n)}
    (heq : semService s.dl ⟨c, lh⟩ = (dl', dl₀.waitList.filter P))
    (hlist : dl'.waitList = dl₀.waitList.filter fun cmd => !P cmd)
    (hstage : ∀ p, s.StageWith lockName p ((s.deliver c lh rest).releases p) (update s.toServer c rest p)
      (OnList dl₀ p))
    (hentries : ∀ cmd ∈ dl₀.waitList, cmd.hdr = getHdr lockName cmd.id (s.grants cmd.id))
    (hnd : (dl₀.waitList.map RpcCmd.id).Nodup)
    (hlock : LockInv dl' (s.deliver c lh rest).grants (s.deliver c lh rest).releases)
    (horder : InOrder (s.log ++ served c lh (dl₀.waitList.filter P))) :
    RoundsInv lockName (s.deliver c lh rest) := by
  have hg : ∀ p, (s.deliver c lh rest).grants p =
      s.grants p + ((dl₀.waitList.filter P).filter fun cmd => cmd.id = p).length := by
    intro p
    rw [Sys.grants_deliver, heq, countP_eq_length_filter]
  have hdl : (s.deliver c lh rest).dl = dl' := congrArg Prod.fst heq
  have hto : ∀ p, (s.deliver c lh rest).toClient p = s.toClient p ++
      ((dl₀.waitList.filter P).filter fun cmd => cmd.id = p).map fun cmd => dsgLockGrant cmd.hdr := by
    intro p
    rw [Sys.deliver, heq]
    rfl
  have hon := onList_filter hnd hlist
  have hnone : ∀ p, ¬ TakenOut dl₀.waitList P p → (s.deliver c lh rest).grants p = s.grants p ∧
      (s.deliver c lh rest).toClient p = s.toClient p := by
    intro p hp
    rw [hg, hto, filter_of_not_takenOut P hp]
    exact ⟨rfl, append_nil _⟩
  refine ⟨?_, h.name_eq, fun p => ?_, ?_, ?_, ?_⟩
  · rw [hdl]
    exact hlock
  · by_cases hout : TakenOut dl₀.waitList P p
    · -- A client whose request is taken out has waited.
      obtain ⟨cmd, hcmd, hP, hid⟩ := hout
      have hop : ¬ OnList dl' p := fun hyes => ((hon p).1 hyes).2 ⟨cmd, hcmd, hP, hid⟩
      have hhdr := hentries cmd hcmd
      rw [hid] at hhdr
      rw [Sys.StageOf, hg, hto, filter_of_takenOut hnd P hcmd hP hid, hdl]
      cases hstage p with
      | waiting hround hpc hack hto' hfrom _ =>
        refine .granted (by rw [hround]; rfl) hpc hack hto' ?_ hop
        rw [hfrom, map_singleton, hhdr]
        rfl
      | _ =>
        have hyes : OnList dl₀ p := ⟨cmd, hcmd, hid⟩
        contradiction
    · obtain ⟨hgp, hfromp⟩ := hnone p hout
      rw [Sys.StageOf, hgp, hfromp, hdl, hon, and_iff_left hout]
      exact hstage p
  · rw [hdl, hlist]
    intro cmd hcmd
    have hstay := ((hon cmd.id).1 ⟨cmd, by rw [hlist]; exact hcmd, rfl⟩).2
    rw [(hnone cmd.id hstay).1]
    exact hentries cmd (mem_filter.1 hcmd).1
  · rw [hdl, hlist]
    exact hnd.sublist (filter_sublist.map _)
  · rw [Sys.deliver, heq]
    exact horder

/-- The server serves a request: it goes on the wait list, and the requests `P` are granted. -/
theorem RoundsInv.get_step (hnot : ¬ OnList s.dl c)
    (hwaits : s.StageWith lockName c (s.releases c) [] True)
    (heq : semService s.dl (s.request lockName c) =
      (dl', (dsgLockPutOnWait s.dl (s.request lockName c)).waitList.filter P))
    (hlist : dl'.waitList = (dsgLockPutOnWait s.dl (s.request lockName c)).waitList.filter fun cmd => !P cmd)
    (hlock : LockInv dl' (s.serveGet lockName c).grants s.releases)
    (horder : InOrder (s.log ++
      ((dsgLockPutOnWait s.dl (s.request lockName c)).waitList.filter P).map fun cmd => .grant cmd.id)) :
    RoundsInv lockName (s.serveGet lockName c) := by
  have hr := s.releases_deliver_get lockName c (s.grants c) []
  refine h.serve_step heq hlist (fun p => ?_) (fun cmd hcmd => ?_) ?_ ?_ ?_
  · rw [hr]
    by_cases hp : p = c
    · have hon : OnList (dsgLockPutOnWait s.dl (s.request lockName c)) c :=
        ⟨_, mem_append_right _ (mem_singleton_self _), rfl⟩
      rw [hp, update_self, iff_true_intro hon]
      exact hwaits
    · have hon : OnList (dsgLockPutOnWait s.dl (s.request lockName c)) p ↔ OnList s.dl p := by
        simp [OnList, dsgLockPutOnWait, or_and_right, exists_or, Ne.symm hp]
      rw [update_of_ne hp, hon]
      exact h.stage p
  · rcases mem_append.1 hcmd with hcmd | hcmd
    · exact h.entries cmd hcmd
    · rw [mem_singleton.1 hcmd]
  · rw [dsgLockPutOnWait, map_append]
    refine h.nodup.append (nodup_singleton _) fun p hp hp' => ?_
    obtain ⟨cmd, hcmd, hid⟩ := mem_map.1 hp
    rw [map_singleton, mem_singleton] at hp'
    exact hnot ⟨cmd, hcmd, hid.trans hp'⟩
  · rw [hr]
    exact hlock
  · rw [served_get]
    exact horder

/-- The server grants a request at once. -/
theorem RoundsInv.grant_step (hnot : ¬ OnList s.dl c)
    (hwaits : s.StageWith lockName c (s.releases c) [] True)
    (hgrant : semProcessRequest s.dl (getHdr lockName c (s.grants c)) false = (.grant, dl'))
    (hlist : dl'.waitList = s.dl.waitList)
    (hlock : LockInv dl' (update s.grants c (s.grants c + 1)) s.releases)
    (hev : EventInOrder s.log (.grant c)) : RoundsInv lockName (s.serveGet lockName c) := by
  have heq : semService s.dl (s.request lockName c) = (dl', [s.request lockName c]) := by
    rw [semService, service, hgrant]
  have hg : (s.serveGet lockName c).grants = update s.grants c (s.grants c + 1) := by
    funext p
    rw [Sys.grants_deliver, heq, update_apply, countP_singleton]
    by_cases hp : p = c
    · rw [if_pos hp, hp]
      simp
    · rw [if_neg hp]
      simp [Ne.symm hp]
  -- The request is the only one of the client.
  have hothers : ∀ cmd ∈ s.dl.waitList, cmd.id ≠ c := fun cmd hcmd hid => hnot ⟨cmd, hcmd, hid⟩
  have hone : (dsgLockPutOnWait s.dl (s.request lockName c)).waitList.filter
      (fun cmd => cmd.id = c) = [s.request lockName c] := by
    rw [dsgLockPutOnWait, filter_append, filter_eq_nil_iff.2 (by simpa using hothers)]
    simp
  refine h.get_step hnot hwaits (P := fun cmd => cmd.id = c) (by rw [hone, heq]) ?_ ?_ ?_
  · rw [hlist, dsgLockPutOnWait, filter_append, filter_eq_self.2 (by simpa using hothers)]
    simp
  · rw [hg]
    exact hlock
  · rw [hone]
    exact h.order.append hev

/-- The server lets a request wait. -/
theorem RoundsInv.wait_step (hnot : ¬ OnList s.dl c)
    (hwaits : s.StageWith lockName c (s.releases c) [] True)
    (heq : semService s.dl (s.request lockName c) =
      (dsgLockPutOnWait s.dl (s.request lockName c), []))
    (hlock : LockInv (dsgLockPutOnWait s.dl (s.request lockName c)) s.grants s.releases) :
    RoundsInv lockName (s.serveGet lockName c) := by
  have hg : (s.serveGet lockName c).grants = s.grants := by
    funext p
    rw [Sys.grants_deliver, heq]
    rfl
  refine h.get_step hnot hwaits (P := fun _ => false) (by rw [filter_false, heq]) ?_ ?_ ?_
  · exact (filter_true _).symm
  · rw [hg]
    exact hlock
  · rw [filter_false, map_nil, append_nil]
    exact h.order

/-- The server serves a release and takes requests out of the wait list. -/
theorem RoundsInv.release_step (hafter : s.StageWith lockName c (s.releases c + 1) rest (OnList s.dl c))
    (heq : semService s.dl ⟨c, releaseHdr lockName c (s.grants c)⟩ = (dl', s.dl.waitList.filter P))
    (hlist : dl'.waitList = s.dl.waitList.filter fun cmd => !P cmd) (hlock : LockInv dl'
      (s.serveRelease lockName c rest).grants (update s.releases c (s.releases c + 1)))
    (horder : InOrder (s.log ++ .release c :: (s.dl.waitList.filter P).map fun cmd => .grant cmd.id)) :
    RoundsInv lockName (s.serveRelease lockName c rest) := by
  have hr := s.releases_deliver_release lockName c (s.grants c) rest
  refine h.serve_step heq hlist (fun p => ?_) h.entries h.nodup ?_ ?_
  · rw [hr]
    by_cases hp : p = c
    · rw [hp, update_self, update_self]
      exact hafter
    · rw [update_of_ne hp, update_of_ne hp]
      exact h.stage p
  · rw [hr]
    exact hlock
  · rw [served_release]
    exact horder

end ServerSteps

/-! ## The turns -/

/-- One value of a function changes from `k` to something else. -/
theorem card_filter_update (g g' : Fin n → Nat) {i : Fin n} {k : Nat} (hi : g i = k) (hi' : g' i ≠ k)
    (hothers : ∀ j, j ≠ i → g' j = g j) :
    (Finset.univ.filter fun j => g j = k).card = (Finset.univ.filter fun j => g' j = k).card + 1 := by
  have hinsert : (Finset.univ.filter fun j => g j = k) = insert i (Finset.univ.filter fun j => g' j = k) := by
    ext j
    by_cases hj : j = i
    · simp [hj, hi]
    · simp [hj, hothers j hj]
  rw [hinsert, Finset.card_insert_of_notMem (by simp [hi'])]

section Turns

variable {lockName : String} {s : Sys n} (h : RoundsInv lockName s) {g r : Peer n → Nat} {k : Nat}
  {cmd : RpcCmd (Peer n)}

/-- The lock without its wait list decides whose turn it is, except for the clients on the list. -/
theorem WriterTurn.putOnWait {dl : DsgLock (Peer n)} (hw : WriterTurn dl g r k) (hcmd : cmd.id ≠ .writer) :
    WriterTurn (dsgLockPutOnWait dl cmd) g r k where
  readers := hw.readers
  releases := hw.releases
  free_or_held := by
    refine hw.free_or_held.imp (fun hfree => ⟨hfree.1, hfree.2.1, ?_⟩) id
    rintro ⟨x, hx, hid⟩
    rcases mem_append.1 hx with hx | hx
    · exact hfree.2.2 ⟨x, hx, hid⟩
    · rw [mem_singleton.1 hx] at hid
      exact hcmd hid
  rdCnt_eq := hw.rdCnt_eq
  rdEpoch_eq := hw.rdEpoch_eq
  wrEpoch_eq := hw.wrEpoch_eq
  rdNotifyCnt_eq := hw.rdNotifyCnt_eq

theorem ReadersTurn.putOnWait {dl : DsgLock (Peer n)} (hr : ReadersTurn dl g r k)
    (hcmd : ∀ i, cmd.id = .reader i → g (.reader i) = k + 1) :
    ReadersTurn (dsgLockPutOnWait dl cmd) g r k where
  writer := hr.writer
  bounds := hr.bounds
  pending := hr.pending
  listed := by
    rintro i ⟨x, hx, hid⟩
    rcases mem_append.1 hx with hx | hx
    · exact hr.listed i ⟨x, hx, hid⟩
    · rw [mem_singleton.1 hx] at hid
      exact hcmd i hid
  wrCnt_eq := hr.wrCnt_eq
  rdCnt_eq := hr.rdCnt_eq
  rdEpoch_eq := hr.rdEpoch_eq
  wrEpoch_eq := hr.wrEpoch_eq
  rdNotifyCnt_eq := hr.rdNotifyCnt_eq

/-- A writer that does not hold the lock in its turn has not been granted in this round. -/
theorem WriterTurn.free {dl : DsgLock (Peer n)} (hw : WriterTurn dl g r k) (hround : g .writer = r .writer) :
    g .writer = k ∧ dl.wrCnt = 1 ∧ ¬ OnList dl .writer := by
  have hrel := hw.releases
  rcases hw.free_or_held with hfree | hheld
  · exact hfree
  · omega

include h

/-- The writer asks for the lock. -/
theorem RoundsInv.serve_writeGet (hround : s.grants .writer = s.releases .writer)
    (hnot : ¬ OnList s.dl .writer) (hwaits : s.StageWith lockName .writer (s.releases .writer) [] True) :
    RoundsInv lockName (s.serveGet lockName .writer) := by
  obtain ⟨k, hw | hr⟩ := h.turn
  · -- It is its turn, and it has not been granted yet.
    obtain ⟨hgk, hcnt, -⟩ := hw.free hround
    have hgrant : semProcessRequest s.dl (getHdr lockName (.writer : Peer n) (s.grants .writer)) false =
        (.grant, { s.dl with wrCnt := s.dl.wrCnt - 1 }) :=
      if_pos ⟨by omega, by rw [hw.wrEpoch_eq, hgk]; rfl⟩
    refine h.grant_step hnot hwaits hgrant rfl ⟨h.fixed, k, .inl ?_⟩ ?_
    · refine ⟨fun i => ?_, hw.releases, .inr ⟨?_, ?_⟩, hw.rdCnt_eq, hw.rdEpoch_eq, hw.wrEpoch_eq,
        hw.rdNotifyCnt_eq⟩
      · rw [update_of_ne (show Peer.reader i ≠ .writer by nofun)]
        exact hw.readers i
      · rw [update_self, hgk]
      · show s.dl.wrCnt - 1 = 0
        omega
    · refine ⟨hround.symm, fun i => ?_⟩
      have hreader := hw.readers i
      exact ⟨hreader.1.trans hgk.symm, hreader.2.trans hgk.symm⟩
  · have hwait : semProcessRequest s.dl (getHdr lockName (.writer : Peer n) (s.grants .writer)) false =
        (.wait, s.dl) := if_neg fun hyes => by
      have hzero := hr.wrCnt_eq
      omega
    refine h.wait_step hnot hwaits ?_ ⟨h.fixed, k, .inr (hr.putOnWait nofun)⟩
    rw [semService, service, hwait]

/-- A reader asks for the lock. -/
theorem RoundsInv.serve_readGet {i : Fin n} (hnot : ¬ OnList s.dl (.reader i))
    (hwaits : s.StageWith lockName (.reader i) (s.releases (.reader i)) [] True) :
    RoundsInv lockName (s.serveGet lockName (.reader i)) := by
  obtain ⟨k, hw | hr⟩ := h.turn
  · have hwait : semProcessRequest s.dl (getHdr lockName (.reader i) (s.grants (.reader i))) false =
        (.wait, s.dl) := if_neg fun hyes => by
      have hzero := hw.rdCnt_eq
      omega
    refine h.wait_step hnot hwaits ?_ ⟨h.fixed, k, .inl (hw.putOnWait nofun)⟩
    rw [semService, service, hwait]
  · have hbounds := hr.bounds i
    by_cases hgk : s.grants (.reader i) = k
    · -- The reader has not had its lock of this round.
      have hcard := card_filter_update (fun j => s.grants (.reader j))
        (fun j => update s.grants (.reader i) (s.grants (.reader i) + 1) (.reader j))
        hgk (by simp only [update_self]; omega) fun j hj => by
          simp only [ne_eq, Peer.reader.injEq, hj, not_false_eq_true, update_of_ne]
      have hcnt := hr.rdCnt_eq
      have hgrant : semProcessRequest s.dl (getHdr lockName (.reader i) (s.grants (.reader i))) false =
          (.grant, { s.dl with rdCnt := s.dl.rdCnt - 1 }) :=
        if_pos ⟨by omega, by rw [hr.rdEpoch_eq, hgk]; rfl⟩
      refine h.grant_step hnot hwaits hgrant rfl ⟨h.fixed, k, .inr ?_⟩ ?_
      · refine ⟨⟨hr.writer.1, hr.writer.2⟩, fun j => ?_, hr.pending, fun j hj => ?_, hr.wrCnt_eq, ?_,
          hr.rdEpoch_eq, hr.wrEpoch_eq, hr.rdNotifyCnt_eq⟩
        · by_cases hj : j = i
          · subst hj
            rw [update_self]
            omega
          · rw [update_of_ne (by simpa using hj)]
            exact hr.bounds j
        · have hji : j ≠ i := fun hj' => hnot (hj' ▸ hj)
          rw [update_of_ne (by simpa using hji)]
          exact hr.listed j hj
        · show s.dl.rdCnt - 1 = _
          rw [hcnt, hcard]
          push_cast
          exact add_sub_cancel_right _ _
      · exact ⟨hr.writer.1.trans (congrArg (· + 1) hgk.symm), hr.writer.2.trans (congrArg (· + 1) hgk.symm)⟩
    · have hgk' : s.grants (.reader i) = k + 1 := by omega
      have hwait : semProcessRequest s.dl (getHdr lockName (.reader i) (s.grants (.reader i))) false =
          (.wait, s.dl) := if_neg fun hyes => by
        have hnum := hyes.2
        rw [hr.rdEpoch_eq] at hnum
        exact hgk (Nat.cast_inj.1 hnum)
      refine h.wait_step hnot hwaits ?_ ⟨h.fixed, k, .inr (hr.putOnWait fun j hj => ?_)⟩
      · rw [semService, service, hwait]
      · rw [← hj]
        exact hgk'

end Turns

/-! ## The end of a turn -/

/-- Grants to readers that are all in order, one for each reader. -/
theorem InOrder.append_readers {log : List (LockEvent n)} (h : InOrder log)
    {L : List (RpcCmd (Peer n))} (hnd : (L.map RpcCmd.id).Nodup)
    (hL : ∀ cmd ∈ L, ∃ i, cmd.id = .reader i ∧ EventInOrder log (.grant (.reader i))) :
    InOrder (log ++ L.map fun cmd => .grant cmd.id) := by
  induction L generalizing log with
  | nil =>
    rw [map_nil, append_nil]
    exact h
  | cons x rest ih =>
    obtain ⟨i, hid, hev⟩ := hL x mem_cons_self
    rw [map_cons, nodup_cons] at hnd
    rw [map_cons, ← singleton_append, ← append_assoc]
    refine ih (h.append (by rw [hid]; exact hev)) hnd.2 fun cmd hcmd => ?_
    obtain ⟨j, hid', hev'⟩ := hL cmd (mem_cons_of_mem x hcmd)
    -- The grant to another reader does not change the counts of this one.
    have hne : j ≠ i := by
      rintro rfl
      exact hnd.1 (hid ▸ hid' ▸ mem_map_of_mem hcmd)
    refine ⟨j, hid', ?_⟩
    have hwriter : (LockEvent.grant x.id : LockEvent n) ≠ .grant .writer := by
      rw [hid]
      nofun
    have hreader : (LockEvent.grant x.id : LockEvent n) ≠ .grant (.reader j) := by
      rw [hid]
      simpa using Ne.symm hne
    have hrelease : (LockEvent.grant x.id : LockEvent n) ≠ .release .writer := nofun
    simp only [EventInOrder, count_append, count_singleton, beq_iff_eq, hwriter, hreader, hrelease,
      if_false, Nat.add_zero]
    exact hev'

/-- The readers on a list of requests of readers. -/
theorem card_onList {L : List (RpcCmd (Peer n))} (hnd : (L.map RpcCmd.id).Nodup)
    (hL : ∀ cmd ∈ L, ∃ i, cmd.id = .reader i) :
    (Finset.univ.filter fun i : Fin n => Peer.reader i ∈ L.map RpcCmd.id).card = L.length := by
  have hinj : Injective (Peer.reader : Fin n → Peer n) := fun i j hij => by
    rwa [Peer.reader.injEq] at hij
  rw [← Finset.card_image_of_injective _ hinj, ← length_map RpcCmd.id, ← toFinset_card_of_nodup hnd]
  congr 1
  ext p
  simp only [Finset.mem_image, Finset.mem_filter, Finset.mem_univ, true_and, mem_toFinset]
  constructor
  · rintro ⟨i, hi, rfl⟩
    exact hi
  · intro hp
    obtain ⟨cmd, hcmd, rfl⟩ := mem_map.1 hp
    obtain ⟨i, hi⟩ := hL cmd hcmd
    exact ⟨i, hi ▸ hp, hi.symm⟩

/-! ### Releases of readers -/

section

variable {dl : DsgLock (Peer n)} {g r : Peer n → Nat} {k : Nat} (hr : ReadersTurn dl g r k) {i : Fin n}
  (hround : g (.reader i) = r (.reader i) + 1)

include hr hround

/-- One reader more has released. -/
theorem ReadersTurn.card_released : (Finset.univ.filter fun j =>
        update r (.reader i) (r (.reader i) + 1) (.reader j) = k + 1).card =
      (Finset.univ.filter fun j => r (.reader j) = k + 1).card + 1 := by
  have hbounds := hr.bounds i
  apply card_filter_update (fun j => update r (.reader i) (r (.reader i) + 1) (.reader j))
    (fun j => r (.reader j)) (i := i)
  · simp only [update_self]
    omega
  · omega
  · intro j hj
    exact (update_of_ne (by simpa using hj) _ _).symm

/-- A reader releases the lock and is not the last one of its round. -/
theorem ReadersTurn.release_more (hmore : dl.rdNotifyCnt + 1 ≠ n) :
    ReadersTurn { dl with rdNotifyCnt := dl.rdNotifyCnt + 1 } g
      (update r (.reader i) (r (.reader i) + 1)) k := by
  have hbounds := hr.bounds i
  have hcard := hr.card_released hround
  have hcnt := hr.rdNotifyCnt_eq
  have hbounds' : ∀ j, k ≤ update r (.reader i) (r (.reader i) + 1) (.reader j) ∧
      update r (.reader i) (r (.reader i) + 1) (.reader j) ≤ g (.reader j) ∧
        g (.reader j) ≤ k + 1 := by
    intro j
    by_cases hj : j = i
    · rw [hj, update_self]
      omega
    · rw [update_of_ne (by simpa using hj)]
      exact hr.bounds j
  refine ⟨⟨hr.writer.1, hr.writer.2⟩, hbounds', ?_, hr.listed, hr.wrCnt_eq, hr.rdCnt_eq,
    hr.rdEpoch_eq, hr.wrEpoch_eq, ?_⟩
  · -- Otherwise all readers had released.
    by_contra hall
    rw [Finset.filter_true_of_mem, Finset.card_univ, Fintype.card_fin] at hcard
    · omega
    · intro j _
      have hbj := hbounds' j
      have hne : update r (.reader i) (r (.reader i) + 1) (.reader j) ≠ k := fun hk => hall ⟨j, hk⟩
      omega
  · show dl.rdNotifyCnt + 1 = _
    rw [hcnt, hcard]
    push_cast
    rfl

/-- When the last reader of a round releases the lock, all readers have had it and released it. -/
theorem ReadersTurn.release_last (hlast : dl.rdNotifyCnt + 1 = n) : (∀ j, g (.reader j) = k + 1 ∧
        update r (.reader i) (r (.reader i) + 1) (.reader j) = k + 1) ∧ dl.rdCnt = 0 := by
  have hcard := hr.card_released hround
  have hcnt := hr.rdNotifyCnt_eq
  -- The counter counts the readers that have released in this round; now it is the number of all.
  have hfull : (Finset.univ.filter fun j =>
      update r (.reader i) (r (.reader i) + 1) (.reader j) = k + 1).card =
        Fintype.card (Fin n) := by
    rw [Fintype.card_fin]
    omega
  have hall : ∀ j, update r (.reader i) (r (.reader i) + 1) (.reader j) = k + 1 := by
    intro j
    have hmem := Finset.mem_univ j
    rw [← Finset.eq_univ_of_card _ hfull] at hmem
    exact (Finset.mem_filter.1 hmem).2
  have hgranted : ∀ j, g (.reader j) = k + 1 := by
    intro j
    have hbj := hr.bounds j
    have hrj := hall j
    by_cases hj : j = i
    · rw [hj, update_self] at hrj
      rw [hj]
      omega
    · rw [update_of_ne (by simpa using hj)] at hrj
      omega
  -- All have been granted, so no read slot of the round is left.
  refine ⟨fun j => ⟨hgranted j, hall j⟩, ?_⟩
  rw [hr.rdCnt_eq, Nat.cast_eq_zero, Finset.card_eq_zero, Finset.filter_eq_empty_iff]
  intro j _
  rw [hgranted j]
  omega

end

/-- A writer that holds the lock is not on the list; the others there are readers. -/
theorem readers_of_not_onList (hnot : ¬ OnList dl .writer) :
    ∀ cmd ∈ dl.waitList, ∃ i, cmd.id = .reader i := by
  intro cmd hcmd
  cases hid : cmd.id with
  | writer => exact absurd ⟨cmd, hcmd, hid⟩ hnot
  | reader i => exact ⟨i, rfl⟩

/-- The lock after the release of the writer: every reader on the list has got it. -/
def writeReleased (dl : DsgLock (Peer n)) : DsgLock (Peer n) :=
  { dl with
    wrNotifyCnt := 0
    rdCnt := dl.rdMax - dl.waitList.length
    wrEpoch := dl.wrEpoch + 1
    waitList := [] }

/-- After the release of the writer it is the turn of the readers. -/
theorem WriterTurn.release {g g' r : Peer n → Nat} {k : Nat} (hw : WriterTurn dl g r k) (hn : 0 < n)
    (hround : g .writer = r .writer + 1) (hrdMax : dl.rdMax = n) (hnd : (dl.waitList.map RpcCmd.id).Nodup)
    (hnot : ¬ OnList dl .writer) (hg : ∀ p, g' p = g p + if p ∈ dl.waitList.map RpcCmd.id then 1 else 0) :
    ReadersTurn (writeReleased dl) g' (update r .writer (r .writer + 1)) k := by
  have hrel := hw.releases
  have hwriter : Peer.writer ∉ dl.waitList.map RpcCmd.id := by
    intro hmem
    obtain ⟨cmd, hcmd, hid⟩ := mem_map.1 hmem
    exact hnot ⟨cmd, hcmd, hid⟩
  have hreader : ∀ i, update r .writer (r .writer + 1) (.reader i) = k := by
    intro i
    rw [update_of_ne (show Peer.reader i ≠ .writer by nofun), (hw.readers i).2]
  refine ⟨⟨?_, by rw [update_self, hrel]⟩, fun i => ?_, ⟨⟨0, hn⟩, hreader _⟩, nofun, ?_, ?_,
    hw.rdEpoch_eq, ?_, ?_⟩
  · rw [hg, if_neg hwriter]
    omega
  · rw [hg, hreader, (hw.readers i).1]
    split <;> omega
  · show dl.wrCnt = 0
    rcases hw.free_or_held with hfree | hheld
    · omega
    · exact hheld.2
  · -- The readers that have not had the lock are those that were not on the list.
    show dl.rdMax - (dl.waitList.length : Int) = _
    have hsplit := Finset.card_filter_add_card_filter_not
      (s := (Finset.univ : Finset (Fin n))) fun i => Peer.reader i ∈ dl.waitList.map RpcCmd.id
    have hcongr : (Finset.univ.filter fun i => g' (.reader i) = k) =
        Finset.univ.filter fun i => ¬ Peer.reader i ∈ dl.waitList.map RpcCmd.id := by
      ext i
      rw [Finset.mem_filter, Finset.mem_filter, hg, (hw.readers i).1]
      split <;> simp_all
    rw [card_onList hnd (readers_of_not_onList hnot), Finset.card_univ, Fintype.card_fin] at hsplit
    rw [hcongr, hrdMax]
    omega
  · show dl.wrEpoch + 1 = _
    rw [hw.wrEpoch_eq]
  · show dl.rdNotifyCnt = _
    rw [hw.rdNotifyCnt_eq, eq_comm, Nat.cast_eq_zero, Finset.card_eq_zero, Finset.filter_eq_empty_iff]
    intro i _
    rw [hreader]
    omega

section EndOfTurn

variable {lockName : String} {s : Sys n} (h : RoundsInv lockName s)

include h

variable {k : Nat} {rest : List LockHdr} {i : Fin n}

/-- The release of the writer gives the lock to all readers on the list. -/
theorem RoundsInv.semService_writeRelease (hw : WriterTurn s.dl s.grants s.releases k)
    (hnot : ¬ OnList s.dl .writer) :
    semService s.dl ⟨.writer, releaseHdr lockName (.writer : Peer n) (s.grants .writer)⟩ =
      (writeReleased s.dl, s.dl.waitList) := by
  obtain ⟨hwrMax, hrdMax, hnotify⟩ := h.fixed
  have hreaders := readers_of_not_onList hnot
  have hlen : s.dl.waitList.length ≤ n := by
    rw [← card_onList h.nodup hreaders]
    exact (Finset.card_filter_le _ _).trans (by rw [Finset.card_univ, Fintype.card_fin])
  -- The lock before the wait list is gone through.
  let dl₁ : DsgLock (Peer n) :=
    { s.dl with wrNotifyCnt := 0, rdCnt := s.dl.rdMax, wrEpoch := s.dl.wrEpoch + 1 }
  have hproc : semProcessRequest s.dl (releaseHdr lockName (.writer : Peer n) (s.grants .writer)) false =
      (.notify, dl₁) := if_pos (by rw [hnotify, hwrMax]; rfl)
  have hscan : scanWaitList s.dl.waitList [] dl₁ =
      ({ dl₁ with rdCnt := dl₁.rdCnt - s.dl.waitList.length, waitList := [] }, s.dl.waitList) := by
    apply scanWaitList_readers
    · intro cmd hcmd
      obtain ⟨i, hi⟩ := hreaders cmd hcmd
      rw [h.entries cmd hcmd, hi]
      refine ⟨rfl, ?_⟩
      show (s.grants (.reader i) : Int) = s.dl.rdEpoch
      rw [hw.rdEpoch_eq, (hw.readers i).1]
    · show _ ≤ s.dl.rdMax
      rw [hrdMax]
      exact_mod_cast hlen
  rw [semService, service, hproc]
  exact hscan

/-- The writer releases the lock: all readers that wait get it. -/
theorem RoundsInv.serve_writeRelease (hn : 0 < n) (hround : s.grants .writer = s.releases .writer + 1)
    (hafter : s.StageWith lockName .writer (s.releases .writer + 1) rest (OnList s.dl .writer))
    (hnot : ¬ OnList s.dl .writer) : RoundsInv lockName (s.serveRelease lockName .writer rest) := by
  obtain ⟨hwrMax, hrdMax, hnotify⟩ := h.fixed
  obtain ⟨k, hw | hr⟩ := h.turn
  swap
  · have hwriter := hr.writer
    omega
  have heq := h.semService_writeRelease hw hnot
  have hg : ∀ p,
      (s.serveRelease lockName .writer rest).grants p =
        s.grants p + if p ∈ s.dl.waitList.map RpcCmd.id then 1 else 0 := by
    intro p
    rw [Sys.grants_deliver, heq, ← h.nodup.count, List.count, countP_map]
    rfl
  have hall : semService s.dl ⟨.writer, releaseHdr lockName (.writer : Peer n) (s.grants .writer)⟩ =
      (writeReleased s.dl, s.dl.waitList.filter fun _ => true) := by
    rw [heq, filter_true]
  refine h.release_step hafter hall (by simp [writeReleased]) ⟨⟨hwrMax, hrdMax, rfl⟩,
    k, .inr (hw.release hn hround hrdMax h.nodup hnot hg)⟩ ?_
  rw [filter_true, ← singleton_append, ← append_assoc]
  have hev : EventInOrder s.log (.release .writer) := by
    show s.releases .writer < s.grants .writer
    omega
  refine (h.order.append hev).append_readers h.nodup fun cmd hcmd => ?_
  obtain ⟨i, hi⟩ := readers_of_not_onList hnot cmd hcmd
  refine ⟨i, hi, ?_⟩
  have hrel := hw.releases
  have hgi : s.log.count (.grant (.reader i)) = k := (hw.readers i).1
  have hgw : s.log.count (.grant .writer) = k + 1 := by
    have hround' : s.log.count (.grant .writer) = s.releases .writer + 1 := hround
    omega
  have hrw : s.log.count (.release .writer) = k := hrel
  simp [EventInOrder, count_append, hgi, hgw, hrw]

/-- A reader releases the lock and is not the last one of its round. -/
theorem RoundsInv.serve_readRelease_more (hr : ReadersTurn s.dl s.grants s.releases k)
    (hround : s.grants (.reader i) = s.releases (.reader i) + 1)
    (hafter : s.StageWith lockName (.reader i) (s.releases (.reader i) + 1) rest (OnList s.dl (.reader i)))
    (hmore : s.dl.rdNotifyCnt + 1 ≠ n) : RoundsInv lockName (s.serveRelease lockName (.reader i) rest) := by
  obtain ⟨hwrMax, hrdMax, hnotify⟩ := h.fixed
  -- The counter goes up and the list is not scanned.
  have heq : semService s.dl ⟨.reader i, releaseHdr lockName (.reader i) (s.grants (.reader i))⟩ =
      ({ s.dl with rdNotifyCnt := s.dl.rdNotifyCnt + 1 }, s.dl.waitList.filter fun _ => false) := by
    have hproc : semProcessRequest s.dl (releaseHdr lockName (.reader i) (s.grants (.reader i))) false =
        (.none, { s.dl with rdNotifyCnt := s.dl.rdNotifyCnt + 1 }) := if_neg (by rw [hrdMax]; exact hmore)
    rw [semService, service, hproc, filter_false]
  have hg : (s.serveRelease lockName (.reader i) rest).grants = s.grants := by
    funext p
    rw [Sys.grants_deliver, heq, filter_false]
    rfl
  refine h.release_step hafter heq (by simp) ⟨⟨hwrMax, hrdMax, hnotify⟩, k, .inr ?_⟩ ?_
  · rw [hg]
    exact hr.release_more hround hmore
  · rw [filter_false, map_nil]
    apply h.order.append
    show s.releases (.reader i) < s.grants (.reader i)
    omega

/-- The requests of the writer on the wait list: at most one. -/
theorem RoundsInv.filter_writer : (s.dl.waitList.filter fun cmd => cmd.hdr.type = .writeGet) =
        (s.dl.waitList.filter fun cmd => cmd.id = .writer) ∧ ((OnList s.dl .writer ∧ ∃ cmd, cmd.id = .writer ∧
          (s.dl.waitList.filter fun cmd => cmd.id = .writer) = [cmd]) ∨
        ¬ OnList s.dl .writer ∧ (s.dl.waitList.filter fun cmd => cmd.id = .writer) = []) := by
  constructor
  · apply filter_congr
    intro cmd hcmd
    rw [h.entries cmd hcmd]
    cases cmd.id with
    | writer => simp [getHdr, Peer.getType]
    | reader j => simp [getHdr, Peer.getType]
  · by_cases hon : OnList s.dl .writer
    · obtain ⟨cmd, hcmd, hid⟩ := hon
      have hsingle := filter_of_takenOut h.nodup (fun _ => true) hcmd rfl hid
      rw [filter_true] at hsingle
      exact .inl ⟨⟨cmd, hcmd, hid⟩, cmd, hid, hsingle⟩
    · refine .inr ⟨hon, ?_⟩
      rw [filter_eq_nil_iff]
      exact fun cmd hcmd hid => hon ⟨cmd, hcmd, of_decide_eq_true hid⟩

/-- The lock after the last release of a round: the writer has got it if it was on the list. -/
def readReleased (dl : DsgLock (Peer n)) : DsgLock (Peer n) :=
  { dl with
    rdNotifyCnt := 0
    wrCnt := dl.wrMax - (dl.waitList.filter fun cmd => cmd.id = Peer.writer).length
    rdEpoch := dl.rdEpoch + 1
    waitList := dl.waitList.filter fun cmd => !decide (cmd.hdr.type = .writeGet) }

/-- The last release of a round gives the lock to the writer if it is on the list. -/
theorem RoundsInv.semService_readRelease_last (hr : ReadersTurn s.dl s.grants s.releases k)
    (hrd : s.dl.rdCnt = 0) (hlast : s.dl.rdNotifyCnt + 1 = n) :
    semService s.dl ⟨.reader i, releaseHdr lockName (.reader i) (s.grants (.reader i))⟩ =
      (readReleased s.dl, s.dl.waitList.filter fun cmd => cmd.hdr.type = .writeGet) := by
  obtain ⟨hwrMax, hrdMax, hnotify⟩ := h.fixed
  obtain ⟨hfilter, hwriter⟩ := h.filter_writer
  -- The lock before the wait list is gone through.
  let dl₁ : DsgLock (Peer n) :=
    { s.dl with rdNotifyCnt := 0, wrCnt := s.dl.wrMax, rdEpoch := s.dl.rdEpoch + 1 }
  let w := s.dl.waitList.filter fun cmd => cmd.id = Peer.writer
  have hproc : semProcessRequest s.dl (releaseHdr lockName (.reader i) (s.grants (.reader i))) false =
      (.notify, dl₁) := if_pos (by rw [hrdMax]; exact hlast)
  have hlen : (w.length : Int) ≤ dl₁.wrCnt := by
    show (w.length : Int) ≤ s.dl.wrMax
    rw [hwrMax]
    rcases hwriter with ⟨-, cmd, -, hcmd⟩ | ⟨-, hnil⟩
    · rw [show w = [cmd] from hcmd]
      simp
    · rw [show w = [] from hnil]
      simp
  have hentries : ∀ cmd ∈ s.dl.waitList, cmd.hdr.type = .readGet ∨
      cmd.hdr.type = .writeGet ∧ cmd.hdr.lockNum = dl₁.wrEpoch := by
    intro cmd hcmd
    rw [h.entries cmd hcmd]
    cases cmd.id with
    | writer =>
      refine .inr ⟨rfl, ?_⟩
      show (s.grants .writer : Int) = s.dl.wrEpoch
      rw [hr.wrEpoch_eq, hr.writer.1]
      rfl
    | reader j => exact .inl rfl
  rw [semService, service, hproc]
  refine (scanWaitList_writer hentries hrd (by rw [hfilter]; exact hlen)).trans ?_
  rw [hfilter, nil_append]
  simp only [ne_eq, decide_not]
  rfl

/-- The last reader of a round releases the lock: the writer gets it if it waits. -/
theorem RoundsInv.serve_readRelease_last (hr : ReadersTurn s.dl s.grants s.releases k)
    (hround : s.grants (.reader i) = s.releases (.reader i) + 1)
    (hafter : s.StageWith lockName (.reader i) (s.releases (.reader i) + 1) rest (OnList s.dl (.reader i)))
    (hlast : s.dl.rdNotifyCnt + 1 = n) : RoundsInv lockName (s.serveRelease lockName (.reader i) rest) := by
  obtain ⟨hwrMax, hrdMax, hnotify⟩ := h.fixed
  obtain ⟨hreaders, hrd⟩ := hr.release_last hround hlast
  obtain ⟨hfilter, hwriter⟩ := h.filter_writer
  have heq := h.semService_readRelease_last (i := i) hr hrd hlast
  let w := s.dl.waitList.filter fun cmd => cmd.id = Peer.writer
  have hg : ∀ p, (s.serveRelease lockName (.reader i) rest).grants p =
        s.grants p + if p = .writer then w.length else 0 := by
    intro p
    rw [Sys.grants_deliver, heq, hfilter, countP_filter]
    by_cases hp : p = .writer
    · rw [if_pos hp, hp, ← countP_eq_length_filter]
      simp only [Bool.and_self]
    · rw [if_neg hp, countP_eq_zero.2]
      intro cmd _ hboth
      rw [Bool.and_eq_true, decide_eq_true_eq, decide_eq_true_eq] at hboth
      exact hp (hboth.1.symm.trans hboth.2)
  refine h.release_step hafter heq rfl ⟨⟨hwrMax, hrdMax, hnotify⟩, k + 1, .inl ?_⟩ ?_
  · refine ⟨fun j => ?_, ?_, ?_, hrd, ?_, hr.wrEpoch_eq, rfl⟩
    · rw [hg, if_neg nofun]
      exact hreaders j
    · rw [update_of_ne (show Peer.writer ≠ .reader i by nofun)]
      exact hr.writer.2
    · rw [hg, if_pos rfl, hr.writer.1]
      show _ ∧ s.dl.wrMax - (w.length : Int) = 1 ∧ _ ∨ _ ∧ s.dl.wrMax - (w.length : Int) = 0
      rw [hwrMax]
      rcases hwriter with ⟨-, cmd, -, hcmd⟩ | ⟨hnot, hnil⟩
      · rw [show w = [cmd] from hcmd]
        exact .inr ⟨rfl, rfl⟩
      · rw [show w = [] from hnil]
        refine .inl ⟨rfl, rfl, ?_⟩
        rintro ⟨cmd, hcmd, hid⟩
        exact hnot ⟨cmd, (mem_filter.1 hcmd).1, hid⟩
    · show s.dl.rdEpoch + 1 = _
      rw [hr.rdEpoch_eq]
      push_cast
      rfl
  · have hev : EventInOrder s.log (.release (.reader i)) := by
      show s.releases (.reader i) < s.grants (.reader i)
      omega
    rw [hfilter, ← singleton_append, ← append_assoc]
    rcases hwriter with ⟨-, cmd, hid, hcmd⟩ | ⟨-, hnil⟩
    · rw [hcmd, map_singleton, hid]
      apply (h.order.append hev).append
      -- All readers have finished the round.
      simp only [EventInOrder, s.count_release_append, s.count_grant_append, hr.writer.1]
      refine ⟨?_, fun j => hreaders j⟩
      rw [update_of_ne (show Peer.writer ≠ .reader i by nofun)]
      exact hr.writer.2
    · rw [hnil, map_nil, append_nil]
      exact h.order.append hev

/-- A client releases the lock. -/
theorem RoundsInv.serve_release (hn : 0 < n) {c : Peer n} (hround : s.grants c = s.releases c + 1)
    (hafter : s.StageWith lockName c (s.releases c + 1) rest (OnList s.dl c)) (hnot : ¬ OnList s.dl c) :
    RoundsInv lockName (s.serveRelease lockName c rest) := by
  cases c with
  | writer => exact h.serve_writeRelease hn hround hafter hnot
  | reader i =>
    obtain ⟨k, hw | hr⟩ := h.turn
    · have hreader := hw.readers i
      omega
    · by_cases hlast : s.dl.rdNotifyCnt + 1 = n
      · exact h.serve_readRelease_last hr hround hafter hlast
      · exact h.serve_readRelease_more hr hround hafter hlast

end EndOfTurn

/-! ## Runs -/

section

variable {lockName : String} {s : Sys n} (h : RoundsInv lockName s)

include h

variable {c : Peer n}

/-- The server serves the next message of a client. -/
theorem RoundsInv.serve (hn : 0 < n) {lh : LockHdr} {rest : List LockHdr} (hto : s.toServer c = lh :: rest) :
    RoundsInv lockName (s.deliver c lh rest) := by
  have hstage := h.stage c
  rw [Sys.StageOf, hto] at hstage
  -- The message is a request, or a release with or without a request behind it.
  cases hstage with
  | asking hround hpc hack hnum hget hfrom hlist =>
    obtain ⟨rfl, rfl⟩ := cons.inj hget
    cases c with
    | writer => exact h.serve_writeGet hround hlist (.waiting hround hpc hack rfl hfrom trivial)
    | reader i => exact h.serve_readGet hlist (.waiting hround hpc hack rfl hfrom trivial)
  | leaving hround hpc hnum hrel hfrom hlist =>
    obtain ⟨rfl, rfl⟩ := cons.inj hrel
    exact h.serve_release hn hround (.idle hround hpc hnum rfl hfrom hlist) hlist
  | again hround hpc hack hnum hrel hfrom hlist =>
    obtain ⟨rfl, rfl⟩ := cons.inj hrel
    exact h.serve_release hn hround (.asking hround hpc hack hnum rfl hfrom hlist) hlist
  | _ => contradiction

theorem RoundsInv.step (hn : 0 < n) {a : LockStep n} {s' : Sys n} (hstep : s.step a = some s') :
    RoundsInv lockName s' := by
  cases a with
  | lock c =>
    obtain ⟨hpc, rfl⟩ : s.pc c = .outside ∧ s.post c c.getType .acquiring = s' := by
      simpa [Sys.step] using hstep
    exact h.lock hpc
  | unlock c =>
    obtain ⟨hpc, rfl⟩ : s.pc c = .inside ∧ s.post c c.releaseType .outside = s' := by
      simpa [Sys.step] using hstep
    exact h.unlock hpc
  | serve c =>
    rw [Sys.step] at hstep
    split at hstep
    · cases hstep
    · next lh rest hto =>
      rw [Option.some.injEq] at hstep
      rw [← hstep]
      exact h.serve hn hto
  | receive c =>
    rw [Sys.step] at hstep
    split at hstep
    · cases hstep
    · next lh rest hfrom =>
      rw [Option.some.injEq] at hstep
      rw [← hstep]
      exact h.receive hfrom
  | acquired c =>
    rw [Sys.step] at hstep
    split at hstep
    · next hyes =>
      rw [Option.some.injEq] at hstep
      rw [← hstep]
      exact h.acquired hyes.1 hyes.2
    · cases hstep

/-- A client without messages that is neither granted nor on the wait list has not asked. -/
theorem RoundsInv.outside_of_idle (hto : s.toServer c = []) (hnot : ¬ OnList s.dl c)
    (hround : s.grants c = s.releases c) : s.pc c = .outside ∧ (s.lock c).lockNum = s.grants c := by
  have hstage := h.stage c
  rw [Sys.StageOf, hto] at hstage
  cases hstage with
  | idle _ hpc hnum => exact ⟨hpc, hnum⟩
  | asking => contradiction
  | waiting => contradiction
  | _ => omega

theorem RoundsInv.round_of_free (hfree : ¬ Holds s c) : s.grants c = s.releases c := by
  have hle : s.grants c ≤ s.releases c := Nat.le_of_not_lt hfree
  cases h.stage c <;> omega

/-- If nothing is under way and nobody holds the lock, then a client whose request would be granted has
not asked. -/
theorem RoundsInv.next_outside (hquiet : NoMessage s) (hfree : ∀ c, ¬ Holds s c) : ∃ c, s.pc c = .outside ∧
      (semProcessRequest s.dl (dcgLockRequest (s.lock c) c.getType).2 false).1 = .grant := by
  obtain ⟨k, hw | hr⟩ := h.turn
  · -- The writer's turn: it does not wait, since it would have been granted.
    have hround := h.round_of_free (hfree .writer)
    obtain ⟨hgk, hcnt, hnot⟩ := hw.free hround
    obtain ⟨hpc, hnum⟩ := h.outside_of_idle (hquiet .writer).1 hnot hround
    refine ⟨.writer, hpc, ?_⟩
    have hgrant : semProcessRequest s.dl (dcgLockRequest (s.lock .writer) (.writer : Peer n).getType).2 false =
        (.grant, { s.dl with wrCnt := s.dl.wrCnt - 1 }) :=
      if_pos ⟨by omega, by rw [hw.wrEpoch_eq, ← hgk]; exact hnum⟩
    rw [hgrant]
  · -- The readers' turn: some reader has not been granted in this round.
    obtain ⟨i, hi⟩ := hr.pending
    have hround := h.round_of_free (hfree (.reader i))
    have hgk : s.grants (.reader i) = k := hround.trans hi
    have hnot : ¬ OnList s.dl (.reader i) := fun hon => by
      have hgk' := hr.listed i hon
      omega
    obtain ⟨hpc, hnum⟩ := h.outside_of_idle (hquiet (.reader i)).1 hnot hround
    refine ⟨.reader i, hpc, ?_⟩
    have hpos : 0 < s.dl.rdCnt := by
      rw [hr.rdCnt_eq, Nat.cast_pos, Finset.card_pos]
      exact ⟨i, Finset.mem_filter.2 ⟨Finset.mem_univ i, hgk⟩⟩
    have hgrant : semProcessRequest s.dl
        (dcgLockRequest (s.lock (.reader i)) (Peer.reader i).getType).2 false =
          (.grant, { s.dl with rdCnt := s.dl.rdCnt - 1 }) :=
      if_pos ⟨hpos, by rw [hr.rdEpoch_eq, ← hgk]; exact hnum⟩
    rw [hgrant]

theorem RoundsInv.exclusive (i : Fin n) : ¬ (Holds s .writer ∧ Holds s (.reader i)) := by
  rintro ⟨hwriter, hreader⟩
  rw [Holds] at hwriter hreader
  obtain ⟨k, hw | hr⟩ := h.turn
  · have hi := hw.readers i
    omega
  · have hi := hr.writer
    omega

theorem RoundsInv.holds_of_inside (hpc : s.pc c = .inside) : Holds s c := by
  have hstage := h.stage c
  rw [Sys.StageOf, hpc] at hstage
  rw [Holds]
  cases hstage with
  | holding hround => omega
  | _ => contradiction

end

/-- In every interleaving of a writer and `n` readers: the grants and releases of the log come in
rounds, a writer and a reader never hold the lock together, only holders are inside, and if nothing is
under way and nobody holds the lock, then a client that would get it at once has not asked for it. -/
theorem custom_lock_rounds (hn : 0 < n) (lockName : String) (s : Sys n) (hs : Reachable lockName s) :
    InOrder s.log ∧ (∀ i, ¬ (Holds s .writer ∧ Holds s (.reader i))) ∧ (∀ c, s.pc c = .inside → Holds s c) ∧
      (NoMessage s → (∀ c, ¬ Holds s c) → ∃ c, s.pc c = .outside ∧
          (semProcessRequest s.dl (dcgLockRequest (s.lock c) c.getType).2 false).1 = .grant) := by
  have h : RoundsInv lockName s :=
    hs.induction (roundsInv_start lockName) fun s a s' hs hstep => hs.step hn hstep
  exact ⟨h.order, h.exclusive, fun c hpc => h.holds_of_inside hpc, h.next_outside⟩

/-- A client goes through the lock once. -/
def visit {n : Nat} (c : Peer n) : List (LockStep n) :=
  [.lock c, .serve c, .receive c, .acquired c, .unlock c, .serve c]

/-- The writer and then both readers go through the lock. -/
def fullRound : List (LockStep 2) := visit .writer ++ visit (.reader 0) ++ visit (.reader 1)

def afterRound : Sys 2 := ((Sys.start 2 "field").run fullRound).getD (.start 2 "field")

/-- All three have been granted and have released once, and the writer would be granted again. -/
theorem custom_lock_rounds_two_readers :
    0 < 2 ∧ Reachable "field" afterRound ∧ afterRound.log.length = 6 ∧ InOrder afterRound.log ∧
      ∃ c, afterRound.pc c = .outside ∧
        (semProcessRequest afterRound.dl (dcgLockRequest (afterRound.lock c) c.getType).2 false).1 =
          .grant := by
  have hreach : Reachable "field" afterRound := ⟨fullRound, rfl⟩
  have h := custom_lock_rounds two_pos "field" afterRound hreach
  refine ⟨two_pos, hreach, rfl, h.1, h.2.2.2 ?_ ?_⟩
  · rintro (_ | i)
    · exact ⟨rfl, rfl⟩
    · fin_cases i <;> exact ⟨rfl, rfl⟩
  · rintro (_ | i)
    · decide
    · fin_cases i <;> decide

/-- The writer goes through the lock once and asks again; the only reader has not asked yet. -/
def writerTwice : List (LockStep 1) := visit .writer ++ [.lock .writer, .serve .writer]

/-- Without the client that has not asked, the last clause is false: the writer waits for a reader that
is between unlock and lock. -/
theorem custom_lock_free_while_waiting :
    ∃ s : Sys 1, Reachable "field" s ∧ NoMessage s ∧ (∀ c, ¬ Holds s c) ∧ Waits s .writer := by
  refine ⟨_, ⟨writerTwice, rfl⟩, ?_, ?_, rfl, rfl⟩
  · rintro (_ | i)
    · exact ⟨rfl, rfl⟩
    · fin_cases i
      exact ⟨rfl, rfl⟩
  · rintro (_ | i)
    · decide
    · fin_cases i
      decide

end DataSpaces.Lock
