import DataSpaces.Dart.PeerTable

/-!
# Runs of the registration

The invariant of a run has a part for the master (`MasterInv`), one for each other server (`SlaveInv`) and
one for the announcements under way. What a server or an announcement says about an application is a
`Block`: the entries of all its clients, as the master has assigned them.

The invariant holds in the runs in which the master handles no message of a client while its listening
thread is between counting a new application and listing it (`notBetween`).
-/

namespace DataSpaces.Dart

open Lib Function Finset

variable {κ : Type*} [Fintype κ] {app : κ → Int} {numSp : Nat}

/-! ## Blocks -/

/-- The entries of the application `a`, from place `b` of the table on. -/
structure Block (app : κ → Int) (s : Registration κ) (a : Int) (b n : Nat) (entry : Nat → PtlidMap κ) :
    Prop where
  size : n = appSize app a
  entries : ∀ j < n, ∃ c, app c = a ∧ Assigned s c (b + j) ∧ entry j = ⟨b + j, a, .client c⟩

variable {s : Registration κ} {b n : Nat} {entry : Nat → PtlidMap κ} {ds : RegServer κ}

theorem Block.mono {s' : Registration κ} {a : Int}
    (h : Block app s a b n entry) (hmono : ∀ c k, Assigned s c k → Assigned s' c k) :
    Block app s' a b n entry := by
  refine ⟨h.size, fun j hj => ?_⟩
  obtain ⟨c, hc, hassigned, hentry⟩ := h.entries j hj
  exact ⟨c, hc, hmono c _ hassigned, hentry⟩

/-- Every client of the application is in the block. -/
theorem Block.place {a : Int} (h : Block app s a b n entry)
    (hinj : ∀ c k k', Assigned s c k → Assigned s c k' → k = k') {c : κ} (hc : app c = a) :
    ∃ j < n, Assigned s c (b + j) := by
  -- There are as many entries as clients, and no client has two.
  have hmaps : Set.MapsTo (fun j => ((s.server 0).peerTab (b + j)).sock) (range n)
      ((univ.filter fun c => app c = a).map Embedding.some) := by
    intro j hj
    obtain ⟨c', hc', hassigned, -⟩ := h.entries j (mem_range.1 hj)
    exact mem_map.2 ⟨c', mem_filter.2 ⟨mem_univ c', hc'⟩, hassigned.symm⟩
  have hinjOn : Set.InjOn (fun j => ((s.server 0).peerTab (b + j)).sock) (range n) := by
    intro j hj j' _ heq
    obtain ⟨c', -, hassigned, -⟩ := h.entries j (mem_range.1 hj)
    exact Nat.add_left_cancel (hinj c' _ _ hassigned (Eq.trans heq.symm hassigned))
  have hcard : ((univ.filter fun c => app c = a).map Embedding.some).card ≤ (range n).card := by
    rw [card_map, card_range, h.size]
    exact le_rfl
  have hmem : some c ∈ (univ.filter fun c => app c = a).map Embedding.some :=
    mem_map.2 ⟨c, mem_filter.2 ⟨mem_univ c, hc⟩, rfl⟩
  obtain ⟨j, hj, hsock⟩ := surjOn_of_injOn_of_card_le _ hmaps hinjOn hcard hmem
  exact ⟨j, mem_range.1 hj, hsock⟩

/-! ## Invariant -/

/-- All processes of an application have registered. -/
def AppDone (app : κ → Int) (s : Registration κ) (a : Int) : Prop :=
  (∃ c, app c = a) ∧ ∀ c, app c = a → c ∈ s.registered

/-- The master `ds`, whose listening thread may be at work on an application. -/
structure MasterInv (app : κ → Int) (numSp : Nat) (ds : RegServer κ) (listen : Option (κ × AppInfo))
    (acc reg : Finset κ) : Prop where
  table : Table app numSp ds (listen.toList.map Prod.snd)
  self : ds.id = 0 ∧ ds.sizeCp = Fintype.card κ
  accepted : ∀ c k, (ds.peerTab k).sock = some c → c ∈ acc
  waiting : ∀ c ∈ acc, (∃ k, (ds.peerTab k).sock = some c) ∨ ∃ a, listen = some (c, a)
  listening : ∀ c a, listen = some (c, a) → a.appId = app c ∧ a.appCntPeers = 0 ∧
    a.cntRegisteredPeers = 0 ∧ c ∈ acc ∧ ∀ k, (ds.peerTab k).sock ≠ some c
  counted : ∀ a ∈ ds.appList, a.cntRegisteredPeers = (reg.filter fun c => app c = a.appId).card
  stored : ∀ c ∈ reg, ∃ k, (ds.peerTab k).sock = some c ∧
    (ds.peerTab k).ptlmap = ⟨k, app c, .client c⟩
  done : ds.fReg = true ↔ Nonempty κ ∧ ∀ c, c ∈ reg

/-- The applications that server `i` knows or is about to know. -/
def announcedTo (s : Registration κ) (i : Nat) : List Int :=
  (s.server i).appList.map AppInfo.appId ++
    (s.inFlight.filter fun p => p.1 = i).map fun p => p.2.appId

structure SlaveInv (app : κ → Int) (numSp : Nat) (s : Registration κ) (i : Nat) : Prop where
  self : (s.server i).id = i ∧ (s.server i).sizeSp = numSp ∧ (s.server i).sizeCp = Fintype.card κ
  numCp : (s.server i).numCp = total (s.server i).appList
  nodup : (announcedTo s i).Nodup
  announced : ∀ a, a ∈ announcedTo s i ↔ AppDone app s a
  blocks : ∀ a ∈ (s.server i).appList, Block app s a.appId a.appPeerTab a.appNumPeers
    fun j => ((s.server i).peerTab (a.appPeerTab + j)).ptlmap
  done : (s.server i).fReg = true ↔ (s.server i).appList ≠ [] ∧ (s.server i).numCp = Fintype.card κ

structure RegInv (app : κ → Int) (numSp : Nat) (s : Registration κ) : Prop where
  master : MasterInv app numSp (s.server 0) s.listen s.accepted s.registered
  slave : ∀ i, 0 < i → i < numSp → SlaveInv app numSp s i
  messages : ∀ p ∈ s.inFlight, 0 < p.1 ∧ p.1 < numSp ∧ ∃ entry,
    p.2.data = (List.range p.2.appSize).map entry ∧
      Block app s p.2.appId p.2.id p.2.appSize entry
  replied : ∀ i ∈ s.replied, i < numSp ∧ (s.server i).fReg = true
  sent : ∀ i, s.sent i = if i ∈ s.replied then dsRegisterCp (s.server i) else []

theorem regInv_start : RegInv app numSp (.start κ numSp) := by
  have hfree : ∀ c k, ¬ Assigned (Registration.start κ numSp) c k := by
    intro c k hassigned
    exact absurd ((serverPeers_sock numSp k).symm.trans hassigned) nofun
  refine ⟨⟨⟨rfl, rfl, trivial, List.nodup_nil, nofun, nofun, fun c k h => absurd h (hfree c k),
    fun c k _ h => absurd h (hfree c k)⟩, ⟨rfl, rfl⟩, fun c k h => absurd h (hfree c k), nofun, nofun,
    nofun, nofun, ?_⟩, fun i hi hlt => ⟨⟨rfl, rfl, rfl⟩, rfl, List.nodup_nil, fun a => ?_, nofun, ?_⟩,
    nofun, nofun, fun i => rfl⟩
  · constructor
    · intro h
      cases h
    · rintro ⟨⟨c⟩, hall⟩
      exact absurd (hall c) (notMem_empty c)
  · constructor
    · intro ha
      exact absurd ha List.not_mem_nil
    · rintro ⟨⟨c, hc⟩, hall⟩
      exact absurd (hall c hc) (notMem_empty c)
  · constructor
    · intro h
      cases h
    · rintro ⟨hne, -⟩
      exact absurd rfl hne

/-! ## The listening thread -/

section

variable {s : Registration κ} {s' : Registration κ} {i : Nat} {c : κ} {a : AppInfo}

/-- A server that does not change itself depends on the others through its announcements only. -/
theorem SlaveInv.frame (h : SlaveInv app numSp s i) (hserver : s'.server i = s.server i)
    (hnd : (announcedTo s' i).Nodup) (hannounced : ∀ a, a ∈ announcedTo s' i ↔ AppDone app s' a)
    (hmono : ∀ c k, Assigned s c k → Assigned s' c k) : SlaveInv app numSp s' i := by
  refine ⟨?_, ?_, hnd, hannounced, ?_, ?_⟩
  · rw [hserver]
    exact h.self
  · rw [hserver]
    exact h.numCp
  · rw [hserver]
    exact fun a ha => (h.blocks a ha).mono hmono
  · rw [hserver]
    exact h.done

theorem SlaveInv.congr (h : SlaveInv app numSp s i) (hserver : s'.server i = s.server i)
    (hflight : s'.inFlight = s.inFlight) (hregistered : s'.registered = s.registered)
    (hmono : ∀ c k, Assigned s c k → Assigned s' c k) : SlaveInv app numSp s' i := by
  have hannounced : announcedTo s' i = announcedTo s i := by rw [announcedTo, hserver, hflight]; rfl
  refine h.frame hserver (hannounced ▸ h.nodup) (fun a => ?_) hmono
  rw [hannounced, h.announced a, AppDone, AppDone, hregistered]

/-- An announcement stays good as long as it is under way. -/
theorem RegInv.messages_mono (h : RegInv app numSp s) (hmono : ∀ c k, Assigned s c k → Assigned s' c k)
    {p : Nat × Announce κ} (hp : p ∈ s.inFlight) :
    0 < p.1 ∧ p.1 < numSp ∧ ∃ entry, p.2.data = (List.range p.2.appSize).map entry ∧
      Block app s' p.2.appId p.2.id p.2.appSize entry := by
  obtain ⟨hpos, hlt, entry, hdata, hblock⟩ := h.messages p hp
  exact ⟨hpos, hlt, entry, hdata, hblock.mono hmono⟩

/-- A server that has ended its registration knows that all clients have registered. -/
theorem RegInv.registered_of_done (h : RegInv app numSp s) (hi : i < numSp) (hdone : (s.server i).fReg = true)
    (c : κ) : c ∈ s.registered := by
  rcases Nat.eq_zero_or_pos i with rfl | hpos
  · exact (h.master.done.1 hdone).2 c
  · have hslave := h.slave i hpos hi
    obtain ⟨-, hcard⟩ := hslave.done.1 hdone
    have hnd : ((s.server i).appList.map AppInfo.appId).Nodup := (List.nodup_append.1 hslave.nodup).1
    rw [hslave.numCp, total_eq_card_iff hnd fun a ha => (hslave.blocks a ha).size] at hcard
    have hknown := (hslave.announced (app c)).1 (List.mem_append_left _ (hcard c))
    exact hknown.2 c rfl

/-- A server that has replied does not change any more as long as a client is missing. -/
theorem RegInv.not_replied (h : RegInv app numSp s) (hc : c ∉ s.registered) (i : Nat) :
    i ∉ s.replied := fun hi =>
  hc (h.registered_of_done (h.replied i hi).1 (h.replied i hi).2 c)

/-- As long as a client is missing nothing has been sent to the clients. -/
theorem RegInv.sent_eq_nil (h : RegInv app numSp s) (hc : c ∉ s.registered) (i : Nat) :
    s.sent i = [] := (h.sent i).trans (if_neg (h.not_replied hc i))

variable [DecidableEq κ]

omit [Fintype κ] [DecidableEq κ] in
/-- The entry of a client is new, all others are as before. -/
theorem sock_listenAssign {ds : RegServer κ} {a : AppInfo} {c : κ}
    (hplace : (ds.peerTab (a.appPeerTab + a.appCntPeers)).sock = none) (c' : κ) (k : Nat) :
    ((listenAssign ds a c).peerTab k).sock = some c' ↔
      (ds.peerTab k).sock = some c' ∨ c' = c ∧ k = a.appPeerTab + a.appCntPeers := by
  by_cases hk : k = a.appPeerTab + a.appCntPeers
  · subst hk
    simp [listenAssign, hplace, eq_comm]
  · simp [listenAssign, hk]

variable (h : RegInv app numSp s)

include h

omit [DecidableEq κ] in
/-- The listening thread changes the table of the master while a client is missing; entries stay. -/
theorem RegInv.listen (hc : c ∉ s.registered) {ds : RegServer κ} {listen : Option (κ × AppInfo)}
    {accepted : Finset κ} (hmaster : MasterInv app numSp ds listen accepted s.registered)
    (hmono : ∀ c k, Assigned s c k → (ds.peerTab k).sock = some c) :
    RegInv app numSp
      { s with
        server := update s.server 0 ds
        listen := listen
        accepted := accepted } := by
  rw [← update_self 0 ds s.server] at hmaster hmono
  exact ⟨hmaster, fun i hi hlt => (h.slave i hi hlt).congr (update_of_ne hi.ne' ..) rfl rfl hmono,
    fun p hp => by apply h.messages_mono _ hp; exact hmono, fun i hi => absurd hi (h.not_replied hc i),
    fun i => (h.sent_eq_nil hc i).trans (if_neg (h.not_replied hc i)).symm⟩

/-- The listening thread gives a client its entry. Before that the server is `ds`, with the application
of the client in its list. -/
theorem RegInv.assign (hnew : ∀ k, ¬ Assigned s c k)
    (hothers : ∀ c' ∈ s.accepted, c' ≠ c → ∃ k, Assigned s c' k) {ds : RegServer κ}
    (htable : Table app numSp ds []) (hpeers : ds.peerTab = (s.server 0).peerTab)
    (hself : ds.id = (s.server 0).id ∧ ds.sizeCp = (s.server 0).sizeCp) (hreg : ds.fReg = (s.server 0).fReg)
    (hcounted : ∀ a ∈ ds.appList, a.cntRegisteredPeers = (s.registered.filter fun c => app c = a.appId).card)
    (ha : a ∈ ds.appList) (hac : a.appId = app c) :
    RegInv app numSp
      { s with
        server := update s.server 0 (listenAssign ds a c)
        listen := none
        accepted := insert c s.accepted } := by
  have hfree : ∀ k, (ds.peerTab k).sock ≠ some c := by
    rw [hpeers]
    exact hnew
  have hunregistered : c ∉ s.registered := fun hc => by
    obtain ⟨k, hassigned, -⟩ := h.master.stored c hc
    exact hnew k hassigned
  have hplace : (ds.peerTab (a.appPeerTab + a.appCntPeers)).sock = none :=
    htable.free ha (htable.cnt_lt_size ha hac.symm hfree)
  have hother : ∀ k, k ≠ a.appPeerTab + a.appCntPeers →
      (listenAssign ds a c).peerTab k = (s.server 0).peerTab k := fun k hk =>
    (update_of_ne hk ..).trans (congrFun hpeers k)
  have hassigned : ∀ c' k, ((listenAssign ds a c).peerTab k).sock = some c' ↔
      Assigned s c' k ∨ c' = c ∧ k = a.appPeerTab + a.appCntPeers := by
    intro c' k
    rw [sock_listenAssign hplace, hpeers]
    rfl
  have hmono := fun c' k (hck : Assigned s c' k) => (hassigned c' k).2 (Or.inl hck)
  refine h.listen hunregistered ⟨htable.assign ha hac.symm hfree, ⟨hself.1.trans h.master.self.1,
    hself.2.trans h.master.self.2⟩, ?_, ?_, nofun, ?_, ?_, ?_⟩ hmono
  · intro c' k hck
    rcases (hassigned c' k).1 hck with hck | ⟨rfl, -⟩
    · exact mem_insert_of_mem (h.master.accepted c' k hck)
    · exact mem_insert_self c' _
  · intro c' hc'
    left
    by_cases hcc : c' = c
    · exact ⟨_, (hassigned c' _).2 (Or.inr ⟨hcc, rfl⟩)⟩
    · obtain ⟨k, hck⟩ := hothers c' (mem_of_mem_insert_of_ne hc' hcc) hcc
      exact ⟨k, hmono c' k hck⟩
  · rw [listenAssign, updateApp_eq_map htable.nodup_appList]
    intro b' hb'
    obtain ⟨b, hb, rfl⟩ := List.mem_map.1 hb'
    have hb'' := hcounted b hb
    split
    · exact hb''
    · exact hb''
  · intro c' hc'
    obtain ⟨k, hck, hentry⟩ := h.master.stored c' hc'
    refine ⟨k, hmono c' k hck, ?_⟩
    rw [hother, hentry]
    rintro rfl
    rw [← hpeers, hplace] at hck
    exact absurd hck nofun
  · exact (iff_of_eq (congrArg (· = true) hreg)).trans h.master.done

/-- A client of a known application connects. -/
theorem RegInv.accept_known (hlisten : s.listen = none) (hc : c ∉ s.accepted)
    (ha : appFind (s.server 0) (app c) = some a) :
    RegInv app numSp
      { s with
        server := update s.server 0 (listenAssign (s.server 0) a c)
        accepted := insert c s.accepted } := by
  have htable := h.master.table
  rw [hlisten] at htable
  have hothers : ∀ c' ∈ s.accepted, c' ≠ c → ∃ k, Assigned s c' k := by
    intro c' hc' _
    rcases h.master.waiting c' hc' with hck | ⟨b, hb⟩
    · exact hck
    · exact absurd (hlisten.symm.trans hb) nofun
  obtain ⟨hmem, hid⟩ := appFind_eq_some ha
  have hinv := h.assign (fun k hck => hc (h.master.accepted c k hck)) hothers htable rfl ⟨rfl, rfl⟩ rfl
    h.master.counted hmem hid
  rw [← hlisten] at hinv
  exact hinv

/-- The first client of an application connects: its block is reserved. -/
theorem RegInv.accept_new (hlisten : s.listen = none) (hc : c ∉ s.accepted)
    (ha : appFind (s.server 0) (app c) = none) :
    RegInv app numSp
      { s with
        server := update s.server 0 (listenReserve (s.server 0) (app c) (appSize app (app c))).2
        listen := some (c, (listenReserve (s.server 0) (app c) (appSize app (app c))).1)
        accepted := insert c s.accepted } := by
  have htable := h.master.table
  rw [hlisten] at htable
  have hnew : ∀ k, ¬ Assigned s c k := fun k hck => hc (h.master.accepted c k hck)
  have hunregistered : c ∉ s.registered := fun hc' => by
    obtain ⟨k, hck, -⟩ := h.master.stored c hc'
    exact hnew k hck
  -- No entry changes.
  refine h.listen hunregistered ⟨htable.reserve ha, h.master.self, fun c' k hck =>
    mem_insert_of_mem (h.master.accepted c' k hck), ?_, ?_, h.master.counted, h.master.stored,
    h.master.done⟩ fun _ _ hck => hck
  · intro c' hc'
    by_cases hcc : c' = c
    · exact Or.inr ⟨_, by rw [hcc]⟩
    · left
      rcases h.master.waiting c' (mem_of_mem_insert_of_ne hc' hcc) with hck | ⟨b, hb⟩
      · exact hck
      · exact absurd (hlisten.symm.trans hb) nofun
  · rintro c' a hca
    obtain ⟨rfl, rfl⟩ := Prod.mk.inj (Option.some.inj hca)
    exact ⟨rfl, rfl, rfl, mem_insert_self _ _, hnew⟩

/-- The listening thread lists the new application and goes on. -/
theorem RegInv.enter (hlisten : s.listen = some (c, a)) :
    RegInv app numSp
      { s with
        server := update s.server 0
          (listenAssign { s.server 0 with appList := a :: (s.server 0).appList } a c)
        listen := none } := by
  obtain ⟨hac, hcnt, hreg, hc, hnew⟩ := h.master.listening c a hlisten
  have htable := h.master.table
  rw [hlisten] at htable
  have htable' : Table app numSp (s.server 0) [a] := htable
  have hothers : ∀ c' ∈ s.accepted, c' ≠ c → ∃ k, Assigned s c' k := by
    intro c' hc' hne
    rcases h.master.waiting c' hc' with hck | ⟨b, hb⟩
    · exact hck
    · rw [hlisten, Option.some.injEq, Prod.mk.injEq] at hb
      exact absurd hb.1.symm hne
  -- No client of the application has registered: its application would be listed.
  have hnone : (s.registered.filter fun c' => app c' = a.appId) = ∅ := by
    rw [filter_eq_empty_iff]
    intro c' hc' heq
    obtain ⟨k, hck, -⟩ := h.master.stored c' hc'
    obtain ⟨-, b, hb, hbc, -⟩ := htable'.owner c' k hck
    have hnd := htable'.nodup
    rw [List.singleton_append, List.map_cons, List.nodup_cons] at hnd
    exact hnd.1 (heq ▸ hbc ▸ List.mem_map_of_mem hb)
  have hcounted : ∀ b ∈ a :: (s.server 0).appList,
      b.cntRegisteredPeers = (s.registered.filter fun c => app c = b.appId).card := by
    intro b hb
    rcases List.mem_cons.1 hb with rfl | hb
    · rw [hnone, hreg, card_empty]
    · exact h.master.counted b hb
  have hinv := h.assign hnew hothers (htable'.list hcnt) rfl ⟨rfl, rfl⟩ rfl hcounted List.mem_cons_self hac
  rw [insert_eq_of_mem hc] at hinv
  exact hinv

end

/-! ## The master handles a client -/

/-- One more registered process of an application. -/
def countIn (i : Int) (a : AppInfo) : AppInfo :=
  if a.appId = i then { a with cntRegisteredPeers := a.cntRegisteredPeers + 1 } else a

theorem countIn_sameBlock (i : Int) (a : AppInfo) : SameBlock a (countIn i a) := by
  rw [countIn]
  split
  · exact ⟨rfl, rfl, rfl⟩
  · exact ⟨rfl, rfl, rfl⟩

theorem countIn_appCntPeers (i : Int) (a : AppInfo) : (countIn i a).appCntPeers = a.appCntPeers := by
  rw [countIn]
  split
  · rfl
  · rfl

/-- What the master does about the message of client `c` in entry `k`, where `a` is its application. -/
structure RegHandled (app : κ → Int) (ds ds' : RegServer κ) (k : Nat) (c : κ) (a : AppInfo)
    (sent : List (Nat × Announce κ)) : Prop where
  same : ds'.id = ds.id ∧ ds'.sizeSp = ds.sizeSp ∧ ds'.sizeCp = ds.sizeCp ∧ ds'.numCp = ds.numCp
  peers : ds'.peerTab = update ds.peerTab k ⟨⟨k, app c, .client c⟩, some c⟩
  apps : ds'.appList = ds.appList.map (countIn (app c))
  more : a.cntRegisteredPeers + 1 ≠ a.appNumPeers → ds'.fReg = ds.fReg ∧ sent = []
  last : a.cntRegisteredPeers + 1 = a.appNumPeers →
    (ds'.fReg = true ↔ ds.fReg = true ∨ ds.numCp = ds.sizeCp ∧
      ∀ b ∈ ds'.appList, b.cntRegisteredPeers = b.appNumPeers) ∧
    sent = dsAnnounceCp ds' a

omit [Fintype κ] in
theorem rpcHandlerCnRegister_spec (hnd : (ds.appList.map AppInfo.appId).Nodup) {k : Nat}
    {c : κ} (hid : (ds.peerTab k).ptlmap.id = k) (hsock : (ds.peerTab k).sock = some c) {a : AppInfo}
    (ha : a ∈ ds.appList) (hac : a.appId = app c) : RegHandled app ds
      (rpcHandlerCnRegister ds (ds.peerTab k).ptlmap.id (app c) (.client c)).1 k c a
      (rpcHandlerCnRegister ds (ds.peerTab k).ptlmap.id (app c) (.client c)).2 := by
  -- The handler finds the application, and no other one has its number.
  have hfind : ∀ peers : Nat → NodeId κ, appFind { ds with peerTab := peers } (app c) = some a := by
    intro peers
    cases hf : appFind { ds with peerTab := peers } (app c) with
    | none => exact absurd (hac ▸ List.mem_map_of_mem ha) (appFind_eq_none hf)
    | some b =>
      obtain ⟨hb, hbc⟩ := appFind_eq_some hf
      rw [eq_of_appId_eq hnd hb ha (hbc.trans hac.symm)]
  have happs : updateApp (app c) (fun _ => { a with cntRegisteredPeers := a.cntRegisteredPeers + 1 })
      ds.appList = ds.appList.map (countIn (app c)) := by
    rw [updateApp_eq_map hnd]
    apply List.map_congr_left
    intro b hb
    rw [countIn]
    split
    · next hbc => rw [eq_of_appId_eq hnd hb ha (hbc.trans hac.symm)]
    · rfl
  rw [rpcHandlerCnRegister, hid]
  dsimp only
  rw [hfind]
  dsimp only
  rw [happs, hid, hsock]
  -- The two returns of the handler: before and after the last process of the application.
  by_cases hlast : a.cntRegisteredPeers + 1 = a.appNumPeers
  · rw [if_neg (not_not.2 hlast)]
    refine ⟨⟨rfl, rfl, rfl, rfl⟩, rfl, rfl, fun hne => absurd hlast hne, fun _ => ⟨?_, rfl⟩⟩
    simp only [Bool.or_eq_true, Bool.and_eq_true, decide_eq_true_eq, List.all_eq_true]
  · rw [if_pos hlast]
    exact ⟨⟨rfl, rfl, rfl, rfl⟩, rfl, rfl, fun _ => ⟨rfl, rfl⟩, fun heq => absurd heq hlast⟩

/-- All processes of an application have registered when their number has. -/
theorem card_registered_eq_iff {R : Finset κ} {i : Int} :
    (R.filter fun c => app c = i).card = appSize app i ↔ ∀ c, app c = i → c ∈ R := by
  classical
  have hfilter : (R.filter fun c => app c = i) = (univ.filter fun c => app c = i).filter (· ∈ R) := by
    ext c
    simp only [mem_filter, mem_univ, true_and, and_comm]
  rw [hfilter, appSize, card_filter_eq_iff]
  simp only [mem_filter, mem_univ, true_and]

variable {listen : Option (κ × AppInfo)} {accepted registered : Finset κ}

/-- The master has the block of an application that has registered. -/
theorem MasterInv.block (h : MasterInv app numSp ds listen accepted registered) (hs : s.server 0 = ds)
    {a : AppInfo} (ha : a ∈ ds.appList) (hdone : ∀ c, app c = a.appId → c ∈ registered) :
    Block app s a.appId a.appPeerTab a.appNumPeers fun j => (ds.peerTab (a.appPeerTab + j)).ptlmap := by
  classical
  subst hs
  have hsize := h.table.size a (List.mem_append_right _ ha)
  refine ⟨hsize, ?_⟩
  -- Every client has one of the entries that are taken, so all are.
  have hsub : (univ.filter fun c => app c = a.appId).map Embedding.some ⊆
      (range a.appCntPeers).image fun j => ((s.server 0).peerTab (a.appPeerTab + j)).sock := by
    intro x hx
    obtain ⟨c, hc, rfl⟩ := mem_map.1 hx
    have hac := (mem_filter.1 hc).2
    obtain ⟨k, hck, -⟩ := h.stored c (hdone c hac)
    obtain ⟨-, b, hb, hbc, hle, hlt⟩ := h.table.owner c k hck
    obtain rfl := h.table.eq_of_appId_eq hb ha (hbc.trans hac)
    refine mem_image.2 ⟨k - b.appPeerTab, mem_range.2 (by omega), ?_⟩
    rw [Nat.add_sub_cancel' hle]
    exact hck
  have hcnt : a.appNumPeers ≤ a.appCntPeers := by
    have hcard := (card_le_card hsub).trans card_image_le
    rwa [card_map, card_range, ← appSize, ← hsize] at hcard
  intro j hj
  obtain ⟨c, hc, hsock⟩ := h.table.slots a ha j (Nat.lt_of_lt_of_le hj hcnt)
  obtain ⟨k, hck, hentry⟩ := h.stored c (hdone c hc)
  obtain rfl := h.table.inj c k _ hck hsock
  exact ⟨c, hc, hsock, by rw [hentry, hc]⟩

/-- The announcement that the master makes of it names the block by the id of its first entry. -/
theorem MasterInv.announced_block (h : MasterInv app numSp ds listen accepted registered)
    (hs : s.server 0 = ds) {a : AppInfo} (ha : a ∈ ds.appList)
    (hdone : ∀ c, app c = a.appId → c ∈ registered) (hpos : 0 < a.appNumPeers) :
    Block app s a.appId (ds.peerTab a.appPeerTab).ptlmap.id a.appNumPeers
      fun j => (ds.peerTab (a.appPeerTab + j)).ptlmap := by
  have hblock := h.block hs ha hdone
  obtain ⟨c, -, -, hentry⟩ := hblock.entries 0 hpos
  rw [Nat.add_zero] at hentry
  rw [hentry]
  exact hblock

omit [Fintype κ] in
/-- One announcement goes to each other server. -/
theorem filter_dsAnnounceCp {a : AppInfo} {i : Nat} (hpos : 0 < i) (hlt : i < ds.sizeSp) :
    (dsAnnounceCp ds a).filter (fun p => p.1 = i) =
      [(i, ⟨(ds.peerTab a.appPeerTab).ptlmap.id, a.appId, a.appNumPeers,
        (List.range a.appNumPeers).map fun j => (ds.peerTab (a.appPeerTab + j)).ptlmap⟩)] := by
  rw [dsAnnounceCp, List.filter_map]
  have hone : (List.range' 1 (ds.sizeSp - 1)).filter (fun x => x = i) = [i] := by
    rw [List.filter_eq, List.count_eq_one_of_mem (List.nodup_range' 1) (List.mem_range'_1.2 (by omega))]
    rfl
  exact congrArg (List.map _) hone

section

variable [DecidableEq κ] {k : Nat} {c : κ} {a : AppInfo} {ds' : RegServer κ} {sent : List (Nat × Announce κ)}

/-- The master is done with the last client: its list then has all applications, each complete. -/
theorem MasterInv.register_done (h : MasterInv app numSp ds none accepted registered)
    (hck : (ds.peerTab k).sock = some c) (hc : c ∉ registered) (ha : a ∈ ds.appList) (hac : a.appId = app c)
    (hd : RegHandled app ds ds' k c a sent)
    (htable : Table app numSp ds' []) (hcounted : ∀ b ∈ ds'.appList,
      b.cntRegisteredPeers = ((insert c registered).filter fun c => app c = b.appId).card)
    (hsock : ∀ k', (ds'.peerTab k').sock = (ds.peerTab k').sock) :
    ds'.fReg = true ↔ Nonempty κ ∧ ∀ c', c' ∈ insert c registered := by
  have hnd := htable.nodup_appList
  have hsizes : ∀ b ∈ ds'.appList, b.appNumPeers = appSize app b.appId := htable.size
  have htotal : ds'.numCp = total ds'.appList := htable.numCp
  have hnotDone : ¬ ds.fReg = true := fun hold => hc ((h.done.1 hold).2 c)
  constructor
  · intro hdone
    refine ⟨⟨c⟩, fun c' => ?_⟩
    by_cases hlast : a.cntRegisteredPeers + 1 = a.appNumPeers
    · rcases (hd.last hlast).1.1 hdone with hold | ⟨hcp, hall⟩
      · exact absurd hold hnotDone
      · -- All clients belong to an application of the list, and all of these have registered.
        have hfull : total ds'.appList = Fintype.card κ := by
          rw [← htotal, hd.same.2.2.2, hcp, h.self.2]
        obtain ⟨b, hb, hbc⟩ := List.mem_map.1 ((total_eq_card_iff hnd hsizes).1 hfull c')
        have hb' := hall b hb
        rw [hcounted b hb, hsizes b hb, card_registered_eq_iff] at hb'
        exact hb' c' hbc.symm
    · rw [(hd.more hlast).1] at hdone
      exact absurd hdone hnotDone
  · rintro ⟨-, hall⟩
    have hcomplete : ∀ b ∈ ds'.appList, b.cntRegisteredPeers = b.appNumPeers := by
      intro b hb
      rw [hcounted b hb, hsizes b hb, card_registered_eq_iff]
      exact fun c' _ => hall c'
    have hknown : ∀ c', app c' ∈ ds'.appList.map AppInfo.appId := by
      intro c'
      have hassigned : ∃ k', (ds.peerTab k').sock = some c' := by
        by_cases hcc : c' = c
        · exact ⟨k, hcc ▸ hck⟩
        · obtain ⟨k', hck', -⟩ := h.stored c' (mem_of_mem_insert_of_ne (hall c') hcc)
          exact ⟨k', hck'⟩
      obtain ⟨k', hck'⟩ := hassigned
      obtain ⟨-, b, hb, hbc, -⟩ := htable.owner c' k' ((hsock k').trans hck')
      exact hbc ▸ List.mem_map_of_mem hb
    have hlast : a.cntRegisteredPeers + 1 = a.appNumPeers := by
      have hmem : countIn (app c) a ∈ ds'.appList := hd.apps ▸ List.mem_map_of_mem ha
      have hcnt := hcomplete _ hmem
      rw [(countIn_sameBlock (app c) a).appNumPeers, countIn, if_pos hac] at hcnt
      exact hcnt
    refine (hd.last hlast).1.2 (Or.inr ⟨?_, hcomplete⟩)
    rw [← hd.same.2.2.2, htotal, h.self.2]
    exact (total_eq_card_iff hnd hsizes).2 hknown

theorem MasterInv.register (h : MasterInv app numSp ds none accepted registered)
    (hck : (ds.peerTab k).sock = some c) (hc : c ∉ registered) (ha : a ∈ ds.appList) (hac : a.appId = app c)
    (hd : RegHandled app ds ds' k c a sent) :
    MasterInv app numSp ds' none accepted (insert c registered) := by
  -- The handler writes the entry of the client once more, with the address it was sent.
  have hpeer : ∀ k', (ds'.peerTab k').sock = (ds.peerTab k').sock ∧
      (ds'.peerTab k').ptlmap.id = (ds.peerTab k').ptlmap.id := by
    intro k'
    rw [hd.peers]
    by_cases hk : k' = k
    · rw [hk, update_self]
      exact ⟨Eq.symm hck, (h.table.owner c k hck).1.symm⟩
    · rw [update_of_ne hk]
      exact ⟨rfl, rfl⟩
  have hassigned : ∀ c' k', (ds'.peerTab k').sock = some c' ↔ (ds.peerTab k').sock = some c' := by
    intro c' k'
    rw [(hpeer k').1]
  have htable' : Table app numSp ds' [] :=
    h.table.store (countIn_sameBlock (app c)) (countIn_appCntPeers (app c)) hd.same.2.1 hd.same.2.2.2
      hd.apps hpeer
  -- One more client is counted, in its own application only.
  have hcounted : ∀ b ∈ ds'.appList,
      b.cntRegisteredPeers = ((insert c registered).filter fun c => app c = b.appId).card := by
    rw [hd.apps]
    intro b' hb'
    obtain ⟨b, hb, rfl⟩ := List.mem_map.1 hb'
    have hb'' := h.counted b hb
    rw [(countIn_sameBlock (app c) b).appId, filter_insert, countIn]
    by_cases hbc : b.appId = app c
    · rw [if_pos hbc, if_pos hbc.symm, card_insert_of_notMem fun hmem =>
        hc (mem_filter.1 hmem).1]
      exact congrArg (· + 1) hb''
    · rw [if_neg hbc, if_neg (Ne.symm hbc)]
      exact hb''
  refine ⟨htable', ⟨hd.same.1.trans h.self.1, hd.same.2.2.1.trans h.self.2⟩,
    fun c' k' hck' => h.accepted c' k' ((hassigned c' k').1 hck'), ?_, nofun, hcounted, ?_,
    h.register_done hck hc ha hac hd htable' hcounted fun k' => (hpeer k').1⟩
  · simp only [hassigned]
    exact h.waiting
  · intro c' hc'
    by_cases hcc : c' = c
    · subst hcc
      exact ⟨k, (hassigned _ k).2 hck, by rw [hd.peers, update_self]⟩
    · obtain ⟨k', hck', hentry⟩ := h.stored c' (mem_of_mem_insert_of_ne hc' hcc)
      refine ⟨k', (hassigned c' k').2 hck', ?_⟩
      rw [hd.peers, update_of_ne, hentry]
      rintro rfl
      exact hcc (Option.some.inj (hck'.symm.trans hck))

omit [Fintype κ] in
/-- The registration of a client matters only for its own application. -/
theorem appDone_insert {c : κ} {s' : Registration κ} (hs' : s'.registered = insert c s.registered) (i : Int) :
    AppDone app s' i ↔ AppDone app s i ∨ i = app c ∧ ∀ c', app c' = i → c' ∈ insert c s.registered := by
  rw [AppDone, AppDone, hs']
  by_cases hi : i = app c
  · constructor
    · exact fun hall => Or.inr ⟨hi, hall.2⟩
    · rintro (hall | hall)
      · exact ⟨hall.1, fun c' hc' => mem_insert_of_mem (hall.2 c' hc')⟩
      · exact ⟨⟨c, hi.symm⟩, hall.2⟩
  · constructor
    · rintro ⟨hex, hall⟩
      refine Or.inl ⟨hex, fun c' hc' => mem_of_mem_insert_of_ne (hall c' hc') ?_⟩
      rintro rfl
      exact hi hc'.symm
    · rintro (hall | hall)
      · exact ⟨hall.1, fun c' hc' => mem_insert_of_mem (hall.2 c' hc')⟩
      · exact absurd hall.1 hi

/-- The registration of a client at another server: it hears of the application if this was the last client. -/
theorem SlaveInv.register {i : Nat} (h : SlaveInv app numSp s i) {s' : Registration κ} (hc : c ∉ s.registered)
    (hserver : s'.server i = s.server i) (hregistered : s'.registered = insert c s.registered)
    (hflight : s'.inFlight = s.inFlight ++ sent) {last : Prop} [Decidable last]
    (hlast : last ↔ ∀ c', app c' = app c → c' ∈ insert c s.registered)
    (hsent : ((sent.filter fun p => p.1 = i).map fun p => p.2.appId) = if last then [app c] else [])
    (hmono : ∀ c' k', Assigned s c' k' → Assigned s' c' k') : SlaveInv app numSp s' i := by
  have hannounced : announcedTo s' i = announcedTo s i ++ if last then [app c] else [] := by
    rw [announcedTo, hserver, hflight, List.filter_append, List.map_append, hsent, ← List.append_assoc]
    rfl
  refine h.frame hserver ?_ ?_ hmono
  · rw [hannounced]
    split
    · rw [List.nodup_append]
      refine ⟨h.nodup, List.nodup_singleton _, fun x hx y hy hxy => ?_⟩
      rw [List.mem_singleton.1 hy] at hxy
      exact hc (((h.announced _).1 (hxy ▸ hx)).2 c rfl)
    · rw [List.append_nil]
      exact h.nodup
  · intro i'
    rw [hannounced, appDone_insert hregistered, List.mem_append, h.announced]
    apply or_congr_right
    split
    · next hyes =>
      rw [List.mem_singleton]
      constructor
      · rintro rfl
        exact ⟨rfl, hlast.1 hyes⟩
      · exact fun hi' => hi'.1
    · next hno =>
      refine iff_of_false List.not_mem_nil ?_
      rintro ⟨rfl, hall⟩
      exact hno (hlast.2 hall)

/-- The message of a client is handled while the listening thread is not at work on an application. -/
theorem RegInv.register (h : RegInv app numSp s) (hlisten : s.listen = none) (hck : Assigned s c k)
    (hc : c ∉ s.registered) (ha : a ∈ (s.server 0).appList) (hac : a.appId = app c)
    (hd : RegHandled app (s.server 0) ds' k c a sent) :
    RegInv app numSp
      { s with
        server := update s.server 0 ds'
        registered := insert c s.registered
        inFlight := s.inFlight ++ sent } := by
  have hmaster : MasterInv app numSp ds' none s.accepted (insert c s.registered) :=
    MasterInv.register (hlisten ▸ h.master) hck hc ha hac hd
  have hmono : ∀ c' k', Assigned s c' k' → Assigned
      { s with
        server := update s.server 0 ds'
        registered := insert c s.registered
        inFlight := s.inFlight ++ sent } c' k' := by
    intro c' k' hck'
    rw [Assigned]
    dsimp only
    rw [update_self, hd.peers]
    by_cases hk : k' = k
    · rw [hk, update_self]
      rw [hk] at hck'
      exact Eq.trans hck.symm hck'
    · rw [update_of_ne hk]
      exact hck'
  -- The message is the last one of the application if and only if it completes it.
  have hsize := h.master.table.size a (List.mem_append_right _ ha)
  have hlast : a.cntRegisteredPeers + 1 = a.appNumPeers ↔
      ∀ c', app c' = app c → c' ∈ insert c s.registered := by
    rw [← card_registered_eq_iff, filter_insert, if_pos rfl,
      card_insert_of_notMem fun hmem => hc (mem_filter.1 hmem).1, ← hac, ← hsize,
      h.master.counted a ha]
  have hsizeSp : ds'.sizeSp = numSp := hd.same.2.1.trans h.master.table.sizeSp
  have hsent : ∀ i, 0 < i → i < numSp → ((sent.filter fun p => p.1 = i).map fun p => p.2.appId) =
      if a.cntRegisteredPeers + 1 = a.appNumPeers then [app c] else [] := by
    intro i hi hlt
    split
    · next hyes =>
      rw [(hd.last hyes).2, filter_dsAnnounceCp hi (hsizeSp.symm ▸ hlt), ← hac]
      rfl
    · next hno =>
      rw [(hd.more hno).2]
      rfl
  refine ⟨?_, fun i hi hlt => ?_, ?_, ?_, ?_⟩
  · dsimp only
    rwa [hlisten, update_self]
  · exact (h.slave i hi hlt).register hc (update_of_ne hi.ne' ..) rfl rfl hlast (hsent i hi hlt) hmono
  · intro p hp
    rcases List.mem_append.1 hp with hold | hnew
    · exact h.messages_mono hmono hold
    · by_cases hyes : a.cntRegisteredPeers + 1 = a.appNumPeers
      · rw [(hd.last hyes).2] at hnew
        obtain ⟨i, hi, rfl⟩ := List.mem_map.1 hnew
        rw [List.mem_range'_1] at hi
        refine ⟨by dsimp only; omega, by dsimp only; omega, _, rfl, ?_⟩
        -- The announcement is the block of the master.
        obtain ⟨happId, hpeerTab, hnumPeers⟩ :
            (countIn (app c) a).appId = a.appId ∧ (countIn (app c) a).appPeerTab = a.appPeerTab ∧
              (countIn (app c) a).appNumPeers = a.appNumPeers :=
          let hsame := countIn_sameBlock (app c) a
          ⟨hsame.appId, hsame.appPeerTab, hsame.appNumPeers⟩
        have ha' : countIn (app c) a ∈ ds'.appList := hd.apps ▸ List.mem_map_of_mem ha
        have hdone : ∀ c', app c' = (countIn (app c) a).appId → c' ∈ insert c s.registered := by
          rw [happId, hac]
          exact hlast.1 hyes
        rw [← happId, ← hpeerTab, ← hnumPeers]
        exact hmaster.announced_block (by dsimp only; rw [update_self]) ha' hdone (by rw [hnumPeers]; omega)
      · rw [(hd.more hyes).2] at hnew
        exact absurd hnew List.not_mem_nil
  · exact fun i hi => absurd hi (h.not_replied hc i)
  · exact fun i => (h.sent_eq_nil hc i).trans (if_neg (h.not_replied hc i)).symm

end

/-! ## The other servers -/

section

variable [DecidableEq κ] {s : Registration κ} {i : Nat} {info : Announce κ} {s' : Registration κ}

omit [Fintype κ] in
/-- An application that is handled moves from the announcements to the list. -/
theorem announcedTo_announce (hm : (i, info) ∈ s.inFlight) (i' : Nat) :
    (announcedTo
      { s with
        server := update s.server i (rpcHandlerSpAnnounceCp (s.server i) info)
        inFlight := s.inFlight.erase (i, info) } i').Perm (announcedTo s i') := by
  have hperm := (List.perm_cons_erase hm).filter fun p => p.1 = i'
  rw [announcedTo, announcedTo]
  dsimp only
  by_cases hi : i' = i
  · subst hi
    rw [update_self]
    rw [List.filter_cons_of_pos (by simp)] at hperm
    have hmap := (hperm.map fun p => p.2.appId).append_left ((s.server i').appList.map AppInfo.appId)
    rw [List.map_cons] at hmap
    exact (hmap.trans List.perm_middle).symm
  · rw [update_of_ne hi]
    rw [List.filter_cons_of_neg (by simpa using Ne.symm hi)] at hperm
    exact ((hperm.map fun p => p.2.appId).append_left _).symm

omit [DecidableEq κ] in
/-- The server is not done before the announcement. -/
theorem RegInv.not_done_of_inFlight (h : RegInv app numSp s)
    (hm : (i, info) ∈ s.inFlight) : (s.server i).fReg = false := by
  obtain ⟨hpos, hlt, -⟩ := h.messages _ hm
  have hslave := h.slave i hpos hlt
  rw [← Bool.not_eq_true, hslave.done]
  rintro ⟨-, hcard⟩
  obtain ⟨hnd, -, hdisj⟩ := List.nodup_append.1 hslave.nodup
  rw [hslave.numCp, total_eq_card_iff hnd fun a ha => (hslave.blocks a ha).size] at hcard
  -- The application has a client, so it would be listed and announced.
  have hflight : info.appId ∈ (s.inFlight.filter fun p => p.1 = i).map fun p => p.2.appId :=
    List.mem_map.2 ⟨(i, info), List.mem_filter.2 ⟨hm, by simp⟩, rfl⟩
  obtain ⟨⟨c, hc⟩, -⟩ := (hslave.announced _).1 (List.mem_append_right _ hflight)
  exact hdisj _ (hc ▸ hcard c) _ hflight rfl

omit [DecidableEq κ] in
/-- A server stores the block of an application that is new to it. -/
theorem SlaveInv.announce (h : SlaveInv app numSp s i)
    (hserver : s'.server i = rpcHandlerSpAnnounceCp (s.server i) info)
    {entry : Nat → PtlidMap κ} (hdata : info.data = (List.range info.appSize).map entry)
    (hblock : Block app s info.appId info.id info.appSize entry) (hnotDone : (s.server i).fReg = false)
    (hnd : (announcedTo s' i).Nodup) (hannounced : ∀ a, a ∈ announcedTo s' i ↔ AppDone app s' a)
    (hmono : ∀ c k, Assigned s c k → Assigned s' c k) : SlaveInv app numSp s' i := by
  have hnew : info.appId ∉ (s.server i).appList.map AppInfo.appId := by
    rw [announcedTo, hserver] at hnd
    exact (List.nodup_cons.1 (List.nodup_append.1 hnd).1).1
  have htotal : (rpcHandlerSpAnnounceCp (s.server i) info).numCp =
      total (rpcHandlerSpAnnounceCp (s.server i) info).appList := by
    show (s.server i).numCp + info.appSize = info.appSize + total (s.server i).appList
    rw [h.numCp, Nat.add_comm]
  have hfReg : (rpcHandlerSpAnnounceCp (s.server i) info).fReg =
      decide ((rpcHandlerSpAnnounceCp (s.server i) info).numCp = (s.server i).sizeCp) := by
    rw [rpcHandlerSpAnnounceCp]
    dsimp only
    rw [hnotDone, Bool.false_or]
  refine ⟨?_, ?_, hnd, hannounced, ?_, ?_⟩
  · rw [hserver]
    exact h.self
  · rw [hserver]
    exact htotal
  · rw [hserver]
    intro a ha
    rcases List.mem_cons.1 ha with rfl | ha
    · refine ⟨hblock.size, fun j hj => ?_⟩
      dsimp only at hj ⊢
      obtain ⟨c, hc, hck, hentry⟩ := hblock.entries j hj
      refine ⟨c, hc, hmono c _ hck, ?_⟩
      rw [rpcHandlerSpAnnounceCp]
      dsimp only
      rw [if_pos ⟨Nat.le_add_right _ _, Nat.add_lt_add_left hj _⟩, hdata, Nat.add_sub_cancel_left]
      rw [List.getElem?_map, List.getElem?_range hj]
      exact hentry
    · -- The block of another application is elsewhere in the table.
      have hold := h.blocks a ha
      refine ⟨hold.size, fun j hj => ?_⟩
      obtain ⟨c, hc, hck, hentry⟩ := hold.entries j hj
      refine ⟨c, hc, hmono c _ hck, ?_⟩
      rw [rpcHandlerSpAnnounceCp]
      dsimp only
      rw [if_neg, hentry]
      rintro ⟨hle, hlt⟩
      obtain ⟨c', hc', hck', -⟩ := hblock.entries (a.appPeerTab + j - info.id) (by omega)
      rw [Nat.add_sub_cancel' hle] at hck'
      obtain rfl := Option.some.inj (Eq.trans hck.symm hck')
      exact hnew (hc'.symm.trans hc ▸ List.mem_map_of_mem ha)
  · rw [hserver, hfReg, decide_eq_true_iff, h.self.2.2]
    exact ⟨fun hcard => ⟨List.cons_ne_nil _ _, hcard⟩, And.right⟩

theorem RegInv.announce (h : RegInv app numSp s) (hm : (i, info) ∈ s.inFlight) :
    RegInv app numSp
      { s with
        server := update s.server i (rpcHandlerSpAnnounceCp (s.server i) info)
        inFlight := s.inFlight.erase (i, info) } := by
  obtain ⟨hpos, hlt, entry, hdata, hblock⟩ := h.messages _ hm
  dsimp only at hpos hlt hdata hblock
  -- An announcement is under way, so this server has not ended its registration.
  have hnotDone := h.not_done_of_inFlight hm
  have hmaster : update s.server i (rpcHandlerSpAnnounceCp (s.server i) info) 0 = s.server 0 :=
    update_of_ne hpos.ne ..
  have hmono : ∀ c k, Assigned s c k → Assigned
      { s with
        server := update s.server i (rpcHandlerSpAnnounceCp (s.server i) info)
        inFlight := s.inFlight.erase (i, info) } c k := by
    intro c k hck
    rw [Assigned]
    dsimp only
    rw [hmaster]
    exact hck
  -- The master is another server: it does not change.
  refine ⟨?_, ?_, ?_, ?_, ?_⟩
  · dsimp only
    rw [hmaster]
    exact h.master
  · -- What is announced to a server is the same before and after, up to the order.
    intro i' hi' hlt'
    have hslave := h.slave i' hi' hlt'
    have hperm := announcedTo_announce hm i'
    have hnd := hperm.nodup_iff.2 hslave.nodup
    have hannounced := fun a => (hperm.mem_iff (a := a)).trans (hslave.announced a)
    by_cases hii : i' = i
    · subst hii
      exact hslave.announce (update_self ..) hdata hblock hnotDone hnd hannounced hmono
    · exact hslave.frame (update_of_ne hii ..) hnd hannounced hmono
  · exact fun p hp => h.messages_mono hmono (List.mem_of_mem_erase hp)
  · intro i' hi'
    obtain ⟨hlt', hdone⟩ := h.replied i' hi'
    refine ⟨hlt', ?_⟩
    dsimp only
    rw [update_of_ne, hdone]
    rintro rfl
    exact absurd (hnotDone.symm.trans hdone) nofun
  · intro i'
    rw [h.sent i']
    split
    · next hi' =>
      dsimp only
      rw [update_of_ne]
      rintro rfl
      exact absurd (hnotDone.symm.trans (h.replied i' hi').2) nofun
    · rfl

omit [DecidableEq κ] in
/-- A server answers its clients. -/
theorem RegInv.reply (h : RegInv app numSp s) (hi : i < numSp) (hdone : (s.server i).fReg = true) :
    RegInv app numSp
      { s with
        replied := insert i s.replied
        sent := update s.sent i (dsRegisterCp (s.server i)) } := by
  refine ⟨h.master, fun i' hpos hlt => (h.slave i' hpos hlt).congr rfl rfl rfl
    fun _ _ hck => hck, ?_, ?_, ?_⟩
  · intro p hp
    apply h.messages_mono _ hp
    exact fun _ _ hck => hck
  · intro i' hi'
    rcases mem_insert.1 hi' with rfl | hi'
    · exact ⟨hi, hdone⟩
    · exact h.replied i' hi'
  · intro i'
    dsimp only
    by_cases hii : i' = i
    · rw [hii, update_self, if_pos (mem_insert_self i _)]
    · rw [update_of_ne hii, h.sent i']
      simp only [mem_insert, hii, false_or]

/-- Every step of a run in which the master handles no message between the two parts of a new
application. -/
theorem RegInv.step (h : RegInv app numSp s) {x : RegStep κ}
    (hok : notBetween s x = true) (hstep : s.step app numSp x = some s') : RegInv app numSp s' := by
  cases x with
  | accept c =>
    obtain ⟨⟨hlisten, hc⟩, hs'⟩ := Option.ite_none_right_eq_some.1 hstep
    split at hs'
    · next a ha =>
      rw [← Option.some.inj hs']
      exact h.accept_known hlisten hc ha
    · next ha =>
      rw [← Option.some.inj hs']
      exact h.accept_new hlisten hc ha
  | enter =>
    rw [Registration.step] at hstep
    split at hstep
    · cases hstep
    · next c a hlisten =>
      rw [← Option.some.inj hstep]
      exact h.enter hlisten
  -- The guard says that no application is between its two parts.
  | register k =>
    rw [Registration.step] at hstep
    split at hstep
    · cases hstep
    · next c hck =>
      obtain ⟨hc, hs'⟩ := Option.ite_none_left_eq_some.1 hstep
      rw [← Option.some.inj hs']
      obtain ⟨hid, a, ha, hac, -⟩ := h.master.table.owner c k hck
      exact h.register (Option.isNone_iff_eq_none.1 hok) hck hc ha hac
        (rpcHandlerCnRegister_spec h.master.table.nodup_appList hid hck ha hac)
  | announce i info =>
    obtain ⟨hm, hs'⟩ := Option.ite_none_right_eq_some.1 hstep
    rw [← Option.some.inj hs']
    exact h.announce hm
  | reply i =>
    obtain ⟨⟨hi, hdone, -⟩, hs'⟩ := Option.ite_none_right_eq_some.1 hstep
    rw [← Option.some.inj hs']
    exact h.reply hi hdone

end

end DataSpaces.Dart
