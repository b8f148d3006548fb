import DataSpaces.Cluster.GetRuns

/-!
# A get that waits for nothing

A get hangs if it waits and none of its messages is under way. `get_never_waits_iff` says when this is
excluded: `ssd_hash` has to select a server for the query, and whenever all peers have answered with
descriptors, the owners must have objects for all of them, at every later time. The condition fails for a
query outside the domain, for which there is no one to ask, and after a remove, which leaves the
descriptors in the directory: the server that is asked for the data then does not answer.
-/

namespace DataSpaces.Cluster

open Lib Geometry Space Store Client Copy List Function Option

/-! ## The statement -/

/-- The servers after the first `n` events. -/
def serversAt (S : SharedSpace) (m : Nat) (events : Nat → Event) (n : Nat) : State :=
  run S m ((range n).map events)

/-- Whenever the get is blocked, some of its messages is under way, and it can always come to its end. -/
def NeverWaitsForNothing (S : SharedSpace) (env : Nat → State) (od : ObjData) (start : Nat) : Prop :=
  ∀ g, Reaches (getStep S env od) (dcgObjGetStart od.objDesc start) g →
    (g.Blocked → g.messages ≠ []) ∧ ∃ g', Reaches (getStep S env od) g g' ∧ g'.Returned

/-- When a get does not wait for nothing. -/
structure PeersServe (S : SharedSpace) (env : Nat → State) (q : ObjDescriptor) (start : Nat) : Prop where
  /-- There is someone to ask. -/
  peers_ne : S.peers q.bb ≠ []
  /-- If all peers have descriptors when they are asked, at the times `τ`, then afterwards the owners
  have objects for these descriptors. -/
  served : ∀ τ : Nat → Nat,
    (∀ t ∈ S.peers q.bb, start ≤ τ t ∧ dhtFindEntryAll ((env (τ t)).servers t).entSelf q ≠ []) →
    ∀ now, (∀ t ∈ S.peers q.bb, τ t ≤ now) →
      ∀ t ∈ S.peers q.bb, ∀ o ∈ dhtFindEntryAll ((env (τ t)).servers t).entSelf q,
        (lsFind ((env now).servers o.owner).ls (clip q o)).isSome = true

/-! ## The first wait -/

theorem eq_peers_of_sendDhtPeers {S : SharedSpace} {bb : Bbox} {tab : List Nat}
    (h : dsgrpcObjSendDhtPeers S bb = some tab) : tab = S.peers bb := by
  obtain ⟨deTab, hhash, rfl⟩ := map_eq_some_iff.1 h
  rw [SharedSpace.peers, hhash, getD_some]

theorem exists_sendDhtPeers (S : SharedSpace) {bb : Bbox} (hwf : bb.Wf) (hd : bb.numDims ≤ bboxMaxNdim) :
    dsgrpcObjSendDhtPeers S bb = some (S.peers bb) := by
  obtain ⟨deTab, hhash⟩ := exists_ssdHashFresh S.spaceOf hwf hd
  rw [dsgrpcObjSendDhtPeers, SharedSpace.peers, hhash, map_some, getD_some]

/-- The state at the beginning of the second wait, when the peers have been asked. -/
def askedState (S : SharedSpace) (q : ObjDescriptor) (time : Nat) : GetState where
  time := time
  phase := .descriptors
  fPeerReceived := true
  qhPeeridTab := S.peers q.bb
  qte := qteAlloc q (S.peers q.bb).length
  messages := (S.peers q.bb).map .getDesc

theorem reaches_askedState {S : SharedSpace} (env : Nat → State) (od : ObjData) (start : Nat)
    (hash : dsgrpcObjSendDhtPeers S od.objDesc.bb = some (S.peers od.objDesc.bb)) :
    Reaches (getStep S env od) (dcgObjGetStart od.objDesc start) (askedState S od.objDesc start) := by
  have hserve : getStep S env od (dcgObjGetStart od.objDesc start) (.deliver 0) =
      some { dcgObjGetStart od.objDesc start with
        messages := [.dhtPeers (S.peers od.objDesc.bb)] } := by
    show (dsgrpcObjSendDhtPeers S od.objDesc.bb).map _ = _
    rw [hash]
    rfl
  exact Reaches.head hserve ⟨[.deliver 0, .resume], rfl⟩

theorem descInv_askedState (S : SharedSpace) (env : Nat → State) (q : ObjDescriptor) {start time : Nat}
    (htime : start ≤ time) :
    DescInv env q (S.peers q.bb) start (fun _ => 0) [] [] (askedState S q time) where
  phase_eq := rfl
  kind := by
    intro msg hmsg
    obtain ⟨t, -, rfl⟩ := List.mem_map.1 hmsg
    rfl
  asked := by
    have hall : ((S.peers q.bb).map GetMessage.getDesc).filterMap GetMessage.askedPeer = S.peers q.bb := by
      rw [filterMap_map]
      exact filterMap_some
    rw [append_nil]
    exact Perm.of_eq hall
  arrive := by
    have hnone : ((S.peers q.bb).map GetMessage.getDesc).filterMap GetMessage.arriving = [] := by
      rw [filterMap_map]
      exact filterMap_eq_nil_iff.2 fun _ _ => rfl
    rw [append_nil]
    exact Perm.of_eq hnone
  times := fun t ht => (not_mem_nil ht).elim
  started := htime
  entry := qteInv_alloc q _

/-- A request for a piece of an answered descriptor is served when the owner finds an object. -/
theorem isSome_dsgrpcObjGet {de : OdscTable} {srv : DsServer} {q o : ObjDescriptor}
    (ho : o ∈ dhtFindEntryAll de q) :
    (dsgrpcObjGet srv { clip q o with version := q.version }).isSome =
      (lsFind srv.ls (clip q o)).isSome := by
  obtain ⟨-, hver, -⟩ := objDescEqualsIntersect_iff.1 (mem_dhtFindEntryAll.1 ho).2
  have hclip : { clip q o with version := q.version } = clip q o := by rw [← hver]; rfl
  rw [hclip, dsgrpcObjGet, isSome_map]

/-! ## Sufficiency -/

section

variable {S : SharedSpace} {env : Nat → State} {od : ObjData} {start : Nat}

/-- Where a get is, and what is under way then. -/
inductive WaitInv (S : SharedSpace) (env : Nat → State) (q : ObjDescriptor) (start : Nat) (g : GetState) :
    Prop where
  | asking (phase_eq : g.phase = .peers) (started : start ≤ g.time) (entry : g.qte = qteAlloc q 0)
      (flag : g.fPeerReceived = false)
      (messages : g.messages = [.getDhtPeers] ∨ g.messages = [.dhtPeers (S.peers q.bb)])
  | peers (phase_eq : g.phase = .peers) (started : start ≤ g.time)
      (entry : g.qte = qteAlloc q (S.peers q.bb).length) (flag : g.fPeerReceived = true)
      (tab : g.qhPeeridTab = S.peers q.bb) (messages : g.messages = [])
  | descriptors (τ : Nat → Nat) (answeredBy : List Nat) (replies : List DescReply)
      (inv : DescInv env q (S.peers q.bb) start τ answeredBy replies g)
  | parts (inv : PartsInv 0 g)
      (served : ∀ i odsc, .getPart i odsc ∈ g.messages → ∀ now, g.time ≤ now →
        (dsgrpcObjGet ((env now).servers odsc.owner) odsc).isSome = true)
  | returned (done : g.Returned)

theorem waitInv_start (S : SharedSpace) (env : Nat → State) (q : ObjDescriptor) (start : Nat) :
    WaitInv S env q start (dcgObjGetStart q start) := .asking rfl le_rfl rfl rfl (Or.inl rfl)

variable {q : ObjDescriptor} {g : GetState}

theorem WaitInv.later (h : WaitInv S env q start g) {n : Nat} (hn : g.time ≤ n) :
    WaitInv S env q start { g with time := n } := by
  cases h with
  | asking hphase hstart hentry hflag hmsg => exact .asking hphase (hstart.trans hn) hentry hflag hmsg
  | peers hphase hstart hentry hflag htab hmsg =>
    exact .peers hphase (hstart.trans hn) hentry hflag htab hmsg
  | descriptors τ answeredBy replies hinv => exact .descriptors τ answeredBy replies (hinv.later hn)
  | parts hinv hserved =>
    exact .parts (hinv.later n) fun i odsc hmsg now hnow => hserved i odsc hmsg now (hn.trans hnow)
  | returned hdone => exact .returned hdone

theorem WaitInv.handle {g' : GetState} (h : WaitInv S env q start g) {msg : GetMessage}
    {rest : List GetMessage} (hperm : g.messages.Perm (msg :: rest))
    (hhandle : GetState.handle S (env g.time) { g with messages := rest } msg = some g') :
    WaitInv S env q start g' := by
  have hhandled := handled_of_eq_some hhandle
  cases h with
  | asking hphase hstart hentry hflag hmsg =>
    rcases hmsg with hmsg | hmsg
    · -- The request for the peers is answered.
      rw [hmsg] at hperm
      obtain ⟨rfl, rfl⟩ := cons.inj (singleton_perm.1 hperm).symm
      obtain ⟨tab, htab, rfl⟩ := map_eq_some_iff.1 hhandle
      refine .asking hphase hstart hentry hflag (Or.inr ?_)
      rw [eq_peers_of_sendDhtPeers htab, hentry]
      rfl
    · -- The peers have come.
      rw [hmsg] at hperm
      obtain ⟨rfl, rfl⟩ := cons.inj (singleton_perm.1 hperm).symm
      obtain rfl := some.inj hhandle
      refine .peers hphase hstart ?_ rfl rfl rfl
      rw [getDhtPeersCompletion, hentry]
      rfl
  | peers hphase hstart hentry hflag htab hmsg =>
    rw [hmsg] at hperm
    exact absurd hperm.symm.eq_nil (cons_ne_nil _ _)
  | descriptors τ answeredBy replies hinv =>
    obtain ⟨τ', answeredBy', replies', hinv'⟩ := hinv.handle (S.peers_nodup _) hperm hhandle
    exact .descriptors τ' answeredBy' replies' hinv'
  | parts hinv hserved =>
    rcases hinv.handle hperm hhandle with ⟨hinv', hmem⟩ | ⟨-, i, odsc, rfl, hnone⟩
    · refine .parts hinv' fun i odsc hmsg now hnow => hserved i odsc (hmem i odsc hmsg) now ?_
      rwa [hhandled.time_eq] at hnow
    · -- The owner has an object.
      have hsome := hserved i odsc (hperm.mem_iff.2 mem_cons_self) g.time le_rfl
      rw [hnone] at hsome
      cases hsome
  | returned hdone =>
    obtain ⟨result, hresult⟩ := hdone
    exact .returned ⟨result, hhandled.phase_eq.trans hresult⟩

theorem WaitInv.proceed {g' : GetState} (hp : PeersServe S env od.objDesc start)
    (h : WaitInv S env od.objDesc start g) (hawaited : g.awaited = true) (hproceed : g.proceed od = some g') :
    WaitInv S env od.objDesc start g' := by
  cases h with
  | asking hphase hstart hentry hflag hmsg =>
    rw [GetState.awaited, hphase, hflag] at hawaited
    cases hawaited
  | peers hphase hstart hentry hflag htab hmsg =>
    rw [GetState.proceed, hphase] at hproceed
    obtain rfl := some.inj hproceed
    have hasked : getObjDescriptors g = askedState S od.objDesc g.time := by
      simp only [getObjDescriptors, askedState, hentry, hflag, htab, hmsg]
      rfl
    rw [hasked]
    exact .descriptors _ _ _ (descInv_askedState S env od.objDesc hstart)
  | descriptors τ answeredBy replies hinv =>
    rw [GetState.awaited, hinv.phase_eq] at hawaited
    have hdone := (hinv.messages_eq_nil_iff hp.peers_ne).2 hawaited
    rw [GetState.proceed, hinv.phase_eq] at hproceed
    obtain rfl := some.inj hproceed
    by_cases herr : g.qte.fErr = true
    · rw [if_pos herr]
      exact .returned ⟨_, rfl⟩
    · rw [if_neg herr]
      have herr' := Bool.eq_false_of_not_eq_true herr
      have hall := hinv.answeredBy_perm hdone
      refine .parts (hinv.parts hp.peers_ne hdone herr') fun i odsc hmsg now hnow => ?_
      -- The piece comes from a descriptor that some peer has answered.
      obtain ⟨p, hpiece, rfl⟩ := (hinv.mem_parts hdone).1 ⟨i, hmsg⟩
      obtain ⟨t, ht, o, ho, rfl⟩ := (hinv.mem_answered hdone).1 (mem_of_mem_foldl_addNew hpiece)
      rw [isSome_dsgrpcObjGet ho]
      refine hp.served τ (fun u hu => ⟨(hinv.times u (hall.mem_iff.2 hu)).1, ?_⟩) now
        (fun u hu => (hinv.times u (hall.mem_iff.2 hu)).2.trans hnow) t ht o ho
      exact (hinv.fErr_eq_false_iff hdone).1 herr' u hu
  | parts hinv hserved =>
    rw [GetState.proceed, hinv.phase_eq] at hproceed
    obtain rfl := some.inj hproceed
    exact .returned ⟨_, rfl⟩
  | returned hdone =>
    obtain ⟨result, hresult⟩ := hdone
    rw [GetState.proceed, hresult] at hproceed
    cases hproceed

theorem waitInv_of_reaches (hp : PeersServe S env od.objDesc start)
    (h : Reaches (getStep S env od) (dcgObjGetStart od.objDesc start) g) :
    WaitInv S env od.objDesc start g := by
  refine h.invariant (P := WaitInv S env od.objDesc start) (waitInv_start S env _ start) ?_
  intro g a g' hinv hstep
  rcases getStep_cases hstep with rfl | ⟨msg, rest, hperm, hhandle⟩ | ⟨hawaited, hproceed⟩
  · exact hinv.later (Nat.le_succ _)
  · exact hinv.handle hperm hhandle
  · exact hinv.proceed hp hawaited hproceed

/-- A blocked get has a message under way. -/
theorem WaitInv.messages_ne_nil (hne : S.peers q.bb ≠ []) (h : WaitInv S env q start g) (hblocked : g.Blocked) :
    g.messages ≠ [] := by
  rw [GetState.Blocked, GetState.awaited] at hblocked
  cases h with
  | asking hphase hstart hentry hflag hmsg =>
    rcases hmsg with hmsg | hmsg
    · rw [hmsg]
      exact cons_ne_nil _ _
    · rw [hmsg]
      exact cons_ne_nil _ _
  -- The list has arrived: the get does not wait for it any more.
  | peers hphase hstart hentry hflag htab hmsg =>
    rw [hphase] at hblocked
    rw [hflag] at hblocked
    cases hblocked
  -- As long as a reply is missing, a request, a reply or a table is under way.
  | descriptors τ answeredBy replies hinv =>
    rw [hinv.phase_eq] at hblocked
    intro hnil
    rw [(hinv.messages_eq_nil_iff hne).1 hnil] at hblocked
    cases hblocked
  -- No part is lost, so a missing part is under way.
  | parts hinv hserved =>
    rw [hinv.phase_eq] at hblocked
    intro hnil
    rw [hinv.fComplete_iff.2 ⟨hnil, rfl⟩] at hblocked
    cases hblocked
  | returned hdone =>
    obtain ⟨result, hresult⟩ := hdone
    rw [hresult] at hblocked
    cases hblocked

theorem qObj_of_reaches (h : Reaches (getStep S env od) (dcgObjGetStart od.objDesc start) g) :
    g.qte.qObj = od.objDesc :=
  h.invariant (P := fun g => g.qte.qObj = od.objDesc) rfl fun _ _ _ hq hstep => (getStep_qObj hstep).trans hq

theorem neverWaits_of_serve (hwf : od.objDesc.bb.Wf) (hd : od.objDesc.bb.numDims ≤ bboxMaxNdim)
    (hp : PeersServe S env od.objDesc start) : NeverWaitsForNothing S env od start := by
  intro g hreach
  have hmsg : ∀ g', Reaches (getStep S env od) g g' → g'.Blocked → g'.messages ≠ [] := fun g' hg' =>
    (waitInv_of_reaches hp (hreach.trans hg')).messages_ne_nil hp.peers_ne
  refine ⟨hmsg g (Reaches.refl g), exists_return ?_ hmsg⟩
  rw [qObj_of_reaches hreach]
  exact ⟨_, exists_sendDhtPeers S hwf hd⟩

end

/-! ## Necessity -/

section

variable {S : SharedSpace} {env : Nat → State} {od : ObjData} {start : Nat}

theorem peers_ne_of_neverWaits (hash : dsgrpcObjSendDhtPeers S od.objDesc.bb = some (S.peers od.objDesc.bb))
    (h : NeverWaitsForNothing S env od start) : S.peers od.objDesc.bb ≠ [] := by
  intro hnil
  refine (h _ (reaches_askedState env od start hash)).1 rfl ?_
  rw [askedState, hnil]
  rfl

variable {q o : ObjDescriptor} {peers answeredBy : List Nat} {τ σ : Nat → Nat} {replies : List DescReply}
  {g : GetState} {t now : Nat}

variable (S od) in
/-- A server is asked, and its answer and the table arrive at once. -/
theorem DescInv.reaches_counted (h : DescInv env q peers start τ answeredBy replies g) (hnd : peers.Nodup)
    {rest : List GetMessage} (hperm : g.messages.Perm (.getDesc t :: rest))
    (hfound : dhtFindEntryAll ((env g.time).servers t).entSelf q ≠ []) :
    ∃ g' reply, Reaches (getStep S env od) g g' ∧ g'.time = g.time ∧ g'.messages.Perm rest ∧
      DescInv env q peers start (update τ t g.time) (answeredBy ++ [t]) (replies ++ [reply]) g' := by
  obtain ⟨odTab, hreply⟩ : ∃ odTab, dsgrpcObjGetDesc ((env g.time).servers t) q = .found odTab := by
    unfold dsgrpcObjGetDesc
    split
    · next hnil => exact absurd hnil hfound
    · exact ⟨_, rfl⟩
  -- The request is served.
  obtain ⟨i₁, rest₁, hperm₁, hstep₁⟩ := deliver_of_mem S env od (hperm.mem_iff.2 mem_cons_self)
  have h₁ := h.answer hnd hperm₁
  rw [GetState.handle, show ({ g with messages := rest₁ } : GetState).qte.qObj = q from h.entry.qObj_eq,
    hreply] at hstep₁
  rw [hreply] at h₁
  -- The answer arrives.
  have hmem₂ : .desc (.found odTab) ∈
      (GetState.send { g with messages := rest₁ } (.desc (.found odTab))).messages :=
    mem_append_right _ (mem_singleton_self _)
  obtain ⟨i₂, rest₂, hperm₂, hstep₂⟩ := deliver_of_mem S env od hmem₂
  have h₂ := h₁.fetch hperm₂
  -- The table arrives.
  have hmem₃ : .descTable odTab ∈ (GetState.send { GetState.send { g with messages := rest₁ }
      (.desc (.found odTab)) with messages := rest₂ } (.descTable odTab)).messages :=
    mem_append_right _ (mem_singleton_self _)
  obtain ⟨i₃, rest₃, hperm₃, hstep₃⟩ := deliver_of_mem S env od hmem₃
  have h₃ := h₂.receive rfl rfl hperm₃
  have hrest₂ : rest₂.Perm rest₁ := (hperm₂.symm.trans (perm_append_singleton _ _)).cons_inv
  have hrest₃ : rest₃.Perm rest₂ := (hperm₃.symm.trans (perm_append_singleton _ _)).cons_inv
  have hrest₁ : rest₁.Perm rest := (hperm₁.symm.trans hperm).cons_inv
  have hreach := Reaches.head hstep₁ (Reaches.head hstep₂ (Reaches.head hstep₃ (Reaches.refl _)))
  exact ⟨_, _, hreach, rfl, hrest₃.trans (hrest₂.trans hrest₁), h₃⟩

variable (S od) in
/-- The peers answer at the times `σ`, in the order of these times. -/
theorem reaches_answered (hnd : peers.Nodup) (hnow : ∀ t ∈ peers, σ t ≤ now)
    (hfound : ∀ t ∈ peers, dhtFindEntryAll ((env (σ t)).servers t).entSelf q ≠ []) (l : List Nat)
    (hsorted : l.Pairwise fun t u => σ t ≤ σ u) (h : DescInv env q peers start τ answeredBy replies g)
    (hperm : g.messages.Perm (l.map .getDesc)) (hl : ∀ t ∈ l, t ∈ peers) (hle : ∀ t ∈ l, g.time ≤ σ t)
    (hτ : ∀ t ∈ answeredBy, τ t = σ t) (hg : g.time ≤ now) :
    ∃ g' τ' answeredBy' replies', Reaches (getStep S env od) g g' ∧ g'.messages = [] ∧ g'.time ≤ now ∧
      (∀ t ∈ answeredBy', τ' t = σ t) ∧ DescInv env q peers start τ' answeredBy' replies' g' := by
  induction l generalizing τ answeredBy replies g with
  | nil => exact ⟨g, τ, answeredBy, replies, Reaches.refl g, hperm.eq_nil, hg, hτ, h⟩
  | cons t l ih =>
    rw [pairwise_cons] at hsorted
    have ht := hl t mem_cons_self
    -- Wait until the time of the next answer.
    have hlater := h.later (hle t mem_cons_self)
    obtain ⟨g₁, reply, hreach, htime, hrest, h₁⟩ := hlater.reaches_counted S od hnd hperm (hfound t ht)
    have hle₁ : ∀ u ∈ l, g₁.time ≤ σ u := by
      intro u hu
      rw [htime]
      exact hsorted.1 u hu
    have hτ₁ : ∀ u ∈ answeredBy ++ [t], update τ t (σ t) u = σ u := by
      intro u hu
      by_cases hut : u = t
      · rw [hut, update_self]
      · rw [update_of_ne hut]
        rcases mem_append.1 hu with hu | hu
        · exact hτ u hu
        · exact absurd (mem_singleton.1 hu) hut
    have hg₁ : g₁.time ≤ now := by
      rw [htime]
      exact hnow t ht
    obtain ⟨g', τ', answeredBy', replies', hreach', hrest'⟩ :=
      ih hsorted.2 h₁ hrest (fun u hu => hl u (mem_cons_of_mem _ hu)) hle₁ hτ₁ hg₁
    refine ⟨g', τ', answeredBy', replies', ?_, hrest'⟩
    exact (reaches_later S env od g (hle t mem_cons_self)).trans (hreach.trans hreach')

variable (S od) in
/-- A piece that its owner cannot serve when it is asked is lost. -/
theorem DescInv.reaches_lost (h : DescInv env q peers start τ answeredBy replies g)
    (hne : peers ≠ []) (hdone : g.messages = []) (herr : g.qte.fErr = false)
    (hg : g.time ≤ now) (ht : t ∈ peers) (ho : o ∈ dhtFindEntryAll ((env (τ t)).servers t).entSelf q)
    (hlost : lsFind ((env now).servers o.owner).ls (clip q o) = none) :
    ∃ g', Reaches (getStep S env od) g g' ∧ PartsInv 1 g' := by
  -- The kept piece with the owner and the box of the descriptor is asked for.
  obtain ⟨p, hpiece, hkey⟩ := exists_mem_foldl_addNew objDescEquals_iff_pieceKey
    ((h.mem_answered hdone).2 ⟨t, ht, o, ho, rfl⟩)
  obtain ⟨u, -, o', ho', rfl⟩ := (h.mem_answered hdone).1 (mem_of_mem_foldl_addNew hpiece)
  obtain ⟨i, hmsg⟩ := (h.mem_parts hdone).2 ⟨_, hpiece, rfl⟩
  have hnone : dsgrpcObjGet ((env now).servers o'.owner) { clip q o' with version := q.version } = none := by
    obtain ⟨hname, hver, -⟩ := objDescEqualsIntersect_iff.1 (mem_dhtFindEntryAll.1 ho).2
    obtain ⟨hname', hver', -⟩ := objDescEqualsIntersect_iff.1 (mem_dhtFindEntryAll.1 ho').2
    have howner : o'.owner = o.owner := congrArg Prod.fst hkey
    have hbox : bboxEquals (clip q o').bb (clip q o).bb = true := corners_eq_iff.1 (congrArg Prod.snd hkey)
    have hsame : lsFind ((env now).servers o'.owner).ls (clip q o') = none := by
      rw [howner, ← hlost]
      exact lsFind_congr _ (p := clip q o') (hname'.trans hname.symm) (hver'.trans hver.symm) hbox
    rw [← not_isSome_iff_eq_none, isSome_dsgrpcObjGet ho', hsame]
    exact Bool.false_ne_true
  have hresume : getStep S env od g .resume = some (dcgObjDataGet g) := by
    have hawaited : g.awaited = true := by
      rw [GetState.awaited, h.phase_eq]
      exact (h.messages_eq_nil_iff hne).1 hdone
    rw [getStep, if_pos hawaited, GetState.proceed, h.phase_eq, herr]
    rfl
  -- The request arrives at the time `now`.
  have hmsg' : .getPart i { clip q o' with version := q.version } ∈
      ({ dcgObjDataGet g with time := now } : GetState).messages := hmsg
  obtain ⟨j, rest, hperm, hstep⟩ := deliver_of_mem S env od hmsg'
  rw [GetState.handle] at hstep
  split at hstep
  · refine ⟨_, ?_, ((h.parts hne hdone herr).later now).lose hperm⟩
    exact Reaches.head hresume
      ((reaches_later S env od (dcgObjDataGet g) hg).trans (Reaches.head hstep (Reaches.refl _)))
  · next data hsome => exact absurd (hsome.symm.trans hnone) (some_ne_none _)

theorem served_of_neverWaits (hash : dsgrpcObjSendDhtPeers S od.objDesc.bb = some (S.peers od.objDesc.bb))
    (h : NeverWaitsForNothing S env od start) (hσ : ∀ t ∈ S.peers od.objDesc.bb,
      start ≤ σ t ∧ dhtFindEntryAll ((env (σ t)).servers t).entSelf od.objDesc ≠ [])
    (hnow : ∀ t ∈ S.peers od.objDesc.bb, σ t ≤ now)
    (ht : t ∈ S.peers od.objDesc.bb) (ho : o ∈ dhtFindEntryAll ((env (σ t)).servers t).entSelf od.objDesc) :
    (lsFind ((env now).servers o.owner).ls (clip od.objDesc o)).isSome = true := by
  by_contra hlost
  rw [not_isSome_iff_eq_none] at hlost
  -- All peers answer, in the order of the times.
  let r : Nat → Nat → Prop := fun t u => σ t ≤ σ u
  have : IsTrans Nat r := ⟨fun _ _ _ => le_trans⟩
  have : Std.Total r := ⟨fun _ _ => le_total _ _⟩
  have hsort := perm_insertionSort r (S.peers od.objDesc.bb)
  obtain ⟨g, τ, answeredBy, replies, hreach, hdone, hg, hτ, hinv⟩ :=
    reaches_answered S od (S.peers_nodup _) hnow (fun u hu => (hσ u hu).2)
      ((S.peers od.objDesc.bb).insertionSort r) (pairwise_insertionSort r _)
      (descInv_askedState S env od.objDesc le_rfl) (hsort.symm.map _) (fun u hu => hsort.mem_iff.1 hu)
      (fun u hu => (hσ u (hsort.mem_iff.1 hu)).1) (fun u hu => (not_mem_nil hu).elim)
      ((hσ t ht).1.trans (hnow t ht))
  have hτσ : ∀ u ∈ S.peers od.objDesc.bb, τ u = σ u := fun u hu =>
    hτ u ((hinv.answeredBy_perm hdone).mem_iff.2 hu)
  have herr : g.qte.fErr = false := by
    refine (hinv.fErr_eq_false_iff hdone).2 fun u hu => ?_
    rw [hτσ u hu]
    exact (hσ u hu).2
  -- Then the piece is lost, and the get does not return any more.
  rw [← hτσ t ht] at ho
  obtain ⟨g₁, hreach₁, hparts⟩ := hinv.reaches_lost S od
    (peers_ne_of_neverWaits hash h) hdone herr hg ht ho hlost
  obtain ⟨g', hreturn, hreturned⟩ :=
    (h g₁ ((reaches_askedState env od start hash).trans (hreach.trans hreach₁))).2
  exact hparts.not_returned Nat.one_pos hreturn hreturned

end

/-- While the servers handle any sequence of puts and removes, a get of any well-formed box never waits
for nothing exactly when its peers serve it. -/
theorem get_never_waits_iff (S : SharedSpace) (m : Nat) (events : Nat → Event) (start : Nat) (od : ObjData)
    (hwf : od.objDesc.bb.Wf) (hd : od.objDesc.bb.numDims ≤ bboxMaxNdim) :
    NeverWaitsForNothing S (serversAt S m events) od start ↔
      PeersServe S (serversAt S m events) od.objDesc start := by
  have hash := exists_sendDhtPeers S hwf hd
  constructor
  · intro h
    exact ⟨peers_ne_of_neverWaits hash h, fun σ hσ now hnow t ht o ho =>
      served_of_neverWaits hash h hσ hnow ht ho⟩
  · exact neverWaits_of_serve hwf hd

/-! ## The line: a query of what was put, one outside, and one after a remove -/

theorem serversAt_succ (S : SharedSpace) (m : Nat) (events : Nat → Event) (n : Nat) :
    serversAt S m events (n + 1) = step S (serversAt S m events n) (events n) := by
  rw [serversAt, range_succ, map_append, map_singleton, run_append_singleton]
  rfl

/-- The events of a list, and then nothing any more. -/
def eventsOf (l : List Event) (n : Nat) : Event := l.getD n (.complete 0 0)

theorem serversAt_line {n : Nat} (hn : 3 ≤ n) :
    serversAt lineSpace 1 (eventsOf (lineEvents (segmentObj 0 3))) n = wholeState := by
  induction n, hn using Nat.le_induction with
  | base => rfl
  | succ n hn ih =>
    have hnone : eventsOf (lineEvents (segmentObj 0 3)) n = .complete 0 0 := getD_eq_default _ _ hn
    rw [serversAt_succ, ih, hnone]
    rfl

/-- After a put of the line a get of it never waits for nothing. -/
theorem get_never_waits_line :
    NeverWaitsForNothing lineSpace (serversAt lineSpace 1 (eventsOf (lineEvents (segmentObj 0 3))))
      (segmentObj 0 3) 3 := by
  refine (get_never_waits_iff lineSpace 1 (eventsOf (lineEvents (segmentObj 0 3))) 3 (segmentObj 0 3)
    (by decide) (by decide)).2 ⟨by decide, fun τ hτ now hnow t ht o ho => ?_⟩
  have hstart := (hτ t ht).1
  rw [serversAt_line hstart] at ho
  rw [serversAt_line (hstart.trans (hnow t ht))]
  exact (answers_wholeState.2 t ht).2 o ho

/-- A get of cells outside the line has no peers to ask, and a get of the line after a remove asks
server `0` for an object that is gone. -/
theorem get_waits_for_nothing :
    (∃ g, Reaches (getStep lineSpace
          (serversAt lineSpace 1 (eventsOf (lineEvents (segmentObj 0 3)))) (segmentObj 10 11))
        (dcgObjGetStart (segmentObj 10 11).objDesc 3) g ∧ g.Blocked ∧ g.messages = []) ∧
      ∃ g, Reaches (getStep lineSpace
          (serversAt lineSpace 1 (eventsOf (lineEvents (segmentObj 0 3) ++
            [.remove "temperature" 1, .removeService 0 0, .removeService 1 0]))) (segmentObj 0 3))
        (dcgObjGetStart (segmentObj 0 3).objDesc 6) g ∧ g.Blocked ∧ g.messages = [] := by
  refine ⟨⟨_, ⟨[.deliver 0, .deliver 0, .resume], rfl⟩, rfl, rfl⟩, ?_⟩
  -- The peers, their two answers with the tables, and the request for the only piece.
  exact ⟨_, ⟨[.deliver 0, .deliver 0, .resume, .deliver 0, .deliver 0, .deliver 0, .deliver 0, .deliver 0,
    .deliver 0, .resume, .deliver 0], rfl⟩, rfl, rfl⟩

end DataSpaces.Cluster
