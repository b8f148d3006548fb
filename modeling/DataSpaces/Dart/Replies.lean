import DataSpaces.Dart.RegisterRuns

/-!
# What the clients are told

A server that has ended its registration knows the entries of all clients (`Enrolled`), so that the loop
of `ds_register_cp` goes through to its end and answers the clients whose place is its own modulo the
number of servers. `registration_complete` puts the properties of the registration together.
-/

namespace DataSpaces.Dart

open Lib Finset

variable {κ : Type*} [Fintype κ] {app : κ → Int} {numSp : Nat} {s : Registration κ}

/-! ## Servers that know all clients -/

structure Enrolled (app : κ → Int) (numSp : Nat) (s : Registration κ) (ds : RegServer κ) : Prop where
  sizes : ds.sizeSp = numSp ∧ ds.sizeCp = Fintype.card κ ∧ ds.numCp = Fintype.card κ
  nodup : (ds.appList.map AppInfo.appId).Nodup
  known : ∀ c, app c ∈ ds.appList.map AppInfo.appId
  blocks : ∀ a ∈ ds.appList, Block app s a.appId a.appPeerTab a.appNumPeers
    fun j => (ds.peerTab (a.appPeerTab + j)).ptlmap

theorem RegInv.inj (h : RegInv app numSp s) (c : κ) (k k' : Nat) (hck : Assigned s c k)
    (hck' : Assigned s c k') : k = k' := h.master.table.inj c k k' hck hck'

theorem RegInv.enrolled (h : RegInv app numSp s) {i : Nat} (hi : i < numSp)
    (hdone : (s.server i).fReg = true) : Enrolled app numSp s (s.server i) := by
  have hall := h.registered_of_done hi hdone
  rcases Nat.eq_zero_or_pos i with rfl | hpos
  · have hlisten : s.listen = none := by
      cases hl : s.listen with
      | none => rfl
      | some p =>
        -- The client of the listening thread has no entry yet.
        obtain ⟨k, hck, -⟩ := h.master.stored p.1 (hall p.1)
        exact absurd hck ((h.master.listening p.1 p.2 hl).2.2.2.2 k)
    have htable := h.master.table
    rw [hlisten] at htable
    have hknown : ∀ c, app c ∈ (s.server 0).appList.map AppInfo.appId := by
      intro c
      obtain ⟨k, hck, -⟩ := h.master.stored c (hall c)
      obtain ⟨-, a, ha, hac, -⟩ := htable.owner c k hck
      exact hac ▸ List.mem_map_of_mem ha
    have htotal : (s.server 0).numCp = total (s.server 0).appList := htable.numCp
    refine ⟨⟨htable.sizeSp, h.master.self.2, ?_⟩, htable.nodup_appList, hknown, fun a ha =>
      h.master.block rfl ha fun c _ => hall c⟩
    rw [htotal, total_eq_card_iff htable.nodup_appList fun a ha => htable.size a ha]
    exact hknown
  · have hslave := h.slave i hpos hi
    have hnd := (List.nodup_append.1 hslave.nodup).1
    obtain ⟨-, hcard⟩ := hslave.done.1 hdone
    refine ⟨⟨hslave.self.2.1, hslave.self.2.2, hcard⟩, hnd, ?_, hslave.blocks⟩
    rw [hslave.numCp] at hcard
    exact (total_eq_card_iff hnd fun a ha => (hslave.blocks a ha).size).1 hcard

/-- If all clients have connected, all entries are taken. -/
theorem RegInv.onto (h : RegInv app numSp s) (hall : ∀ c, ∃ k, Assigned s c k) {k : Nat}
    (hle : numSp ≤ k) (hlt : k < numSp + Fintype.card κ) : ∃ c, Assigned s c k := by
  -- There are as many entries in the range as clients, and no two clients have the same.
  choose place hplace using hall
  have hmaps : Set.MapsTo place (univ : Finset κ) (Ico numSp (numSp + Fintype.card κ)) := fun c _ =>
    mem_coe.2 (mem_Ico.2 (h.master.table.range (hplace c)))
  have hinjOn : Set.InjOn place (univ : Finset κ) := by
    intro c _ c' _ heq
    have hsock := hplace c
    rw [heq] at hsock
    exact Option.some.inj (Eq.trans hsock.symm (hplace c'))
  obtain ⟨c, -, rfl⟩ := surjOn_of_injOn_of_card_le place hmaps hinjOn
    (by rw [Nat.card_Ico, Nat.add_sub_cancel_left, card_univ]) (mem_coe.2 (mem_Ico.2 ⟨hle, hlt⟩))
  exact ⟨c, hplace c⟩

section

variable {ds : RegServer κ}

theorem Enrolled.entry (h : Enrolled app numSp s ds)
    (hinj : ∀ c k k', Assigned s c k → Assigned s c k' → k = k') {c : κ} {k : Nat}
    (hck : Assigned s c k) : (ds.peerTab k).ptlmap = ⟨k, app c, .client c⟩ := by
  obtain ⟨a, ha, hac⟩ := List.mem_map.1 (h.known c)
  obtain ⟨j, hj, hcj⟩ := (h.blocks a ha).place hinj hac.symm
  obtain rfl := hinj c k _ hck hcj
  obtain ⟨c', -, hcj', hentry⟩ := (h.blocks a ha).entries j hj
  obtain rfl := Option.some.inj (Eq.trans hcj.symm hcj')
  rw [hentry, hac]

omit [Fintype κ] in
/-- The loop over the applications finds the only one with the id. -/
theorem idCpMin_eq {a : AppInfo} (hnd : (ds.appList.map AppInfo.appId).Nodup) (ha : a ∈ ds.appList) :
    idCpMin ds a.appId = some (ds.peerTab a.appPeerTab).ptlmap.id := by
  -- The loop does not stop at a hit, so nothing after the hit may change the result.
  have hskip : ∀ (l : List AppInfo) found, a.appId ∉ l.map AppInfo.appId →
      l.foldl (fun found b => if b.appId = a.appId then some (ds.peerTab b.appPeerTab).ptlmap.id else found)
        found = found := by
    intro l
    induction l with
    | nil => exact fun _ _ => rfl
    | cons b rest ih =>
      intro found hnot
      rw [List.map_cons, List.mem_cons, not_or] at hnot
      rw [List.foldl_cons, if_neg (Ne.symm hnot.1)]
      exact ih found hnot.2
  -- Up to the hit the value found before does not matter.
  have hfound : ∀ (l : List AppInfo) found, (l.map AppInfo.appId).Nodup → a ∈ l →
      l.foldl (fun found b => if b.appId = a.appId then some (ds.peerTab b.appPeerTab).ptlmap.id else found)
        found = some (ds.peerTab a.appPeerTab).ptlmap.id := by
    intro l
    induction l with
    | nil => exact fun _ _ hmem => absurd hmem List.not_mem_nil
    | cons b rest ih =>
      intro found hnd hmem
      obtain ⟨hnot, hrest⟩ := List.nodup_cons.1 hnd
      rw [List.foldl_cons]
      rcases List.mem_cons.1 hmem with rfl | hmem
      · rw [if_pos rfl]
        exact hskip rest _ hnot
      · exact ih _ hrest hmem
  exact hfound _ none hnd ha

/-- A server knows the smallest id of every application. -/
theorem Enrolled.idCpMin (h : Enrolled app numSp s ds)
    (hinj : ∀ c k k', Assigned s c k → Assigned s c k' → k = k') (c : κ) :
    ∃ b, DataSpaces.Dart.idCpMin ds (app c) = some b ∧
      IsLeast {k | ∃ c', app c' = app c ∧ Assigned s c' k} b := by
  obtain ⟨a, ha, hac⟩ := List.mem_map.1 (h.known c)
  have hblock := h.blocks a ha
  obtain ⟨j, hj, -⟩ := hblock.place hinj hac.symm
  obtain ⟨c₀, hc₀, hfirst, hentry⟩ := hblock.entries 0 (Nat.zero_lt_of_lt hj)
  rw [Nat.add_zero] at hfirst hentry
  refine ⟨a.appPeerTab, ?_, ⟨c₀, hc₀.trans hac, hfirst⟩, ?_⟩
  · rw [← hac, idCpMin_eq h.nodup ha, hentry]
  · rintro k ⟨c', hc', hck'⟩
    obtain ⟨j', -, hcj'⟩ := hblock.place hinj (hc'.trans hac.symm)
    rw [hinj c' k _ hck' hcj']
    exact Nat.le_add_right _ _

/-- The replies from entry `i` on reach the client in entry `m` if the loop comes by it. -/
theorem Enrolled.registerFrom [DecidableEq κ] (h : Enrolled app numSp s ds) (hsp : 0 < numSp)
    (hinj : ∀ c k k', Assigned s c k → Assigned s c k' → k = k')
    (honto : ∀ k, numSp ≤ k → k < numSp + Fintype.card κ → ∃ c, Assigned s c k) {c : κ} {m b : Nat}
    (hck : Assigned s c (numSp + m)) (hm : m < Fintype.card κ)
    (hb : DataSpaces.Dart.idCpMin ds (app c) = some b) (fuel i : Nat) (hfuel : Fintype.card κ ≤ fuel + i) :
    (registerFrom ds fuel i).filter (fun r => r.dest = .client c) = if i ≤ m ∧ m % numSp = i % numSp then
        [⟨.client c, ds.id, numSp + m, numSp, Fintype.card κ, b,
          (List.range (numSp + Fintype.card κ)).map fun j => (ds.peerTab j).ptlmap⟩] else [] := by
  induction fuel generalizing i with
  | zero =>
    rw [if_neg fun hyes => by omega]
    rfl
  | succ fuel ih =>
    rw [DataSpaces.Dart.registerFrom, h.sizes.1, h.sizes.2.1, h.sizes.2.2]
    split
    · next hi =>
      obtain ⟨c', hck'⟩ := honto (numSp + i) (Nat.le_add_right _ _) (Nat.add_lt_add_left hi _)
      obtain ⟨b', hb', -⟩ := h.idCpMin hinj c'
      rw [h.entry hinj hck']
      dsimp only
      rw [hb']
      dsimp only
      have hnext := ih (i + numSp) (by omega)
      rw [Nat.add_mod_right] at hnext
      by_cases him : i = m
      · -- This is the round of the client; the later ones are behind it.
        subst him
        obtain rfl := Option.some.inj (Eq.trans hck.symm hck')
        obtain rfl := Option.some.inj (hb.symm.trans hb')
        rw [List.filter_cons_of_pos (by simp), hnext, if_neg (by omega), if_pos ⟨le_rfl, rfl⟩]
      · have hne : c' ≠ c := by
          rintro rfl
          exact him (Nat.add_left_cancel (hinj c' _ _ hck' hck))
        rw [List.filter_cons_of_neg (by simpa using hne), hnext]
        congr 1
        rw [eq_iff_iff]
        constructor
        · rintro ⟨hle, hmod⟩
          exact ⟨by omega, hmod⟩
        · rintro ⟨hle, hmod⟩
          have hdvd : numSp ∣ m - i := (Nat.modEq_iff_dvd' hle).1 hmod.symm
          have hpos : 0 < m - i := by omega
          have hstep := Nat.le_of_dvd hpos hdvd
          exact ⟨by omega, hmod⟩
    · next hi =>
      rw [if_neg fun hyes => by omega]
      rfl

end

/-! ## The registration as a whole -/

/-- When all clients have registered and all announcements have arrived, every server is done. -/
theorem RegInv.done_of_quiet (h : RegInv app numSp s) [Nonempty κ] (hall : ∀ c, c ∈ s.registered)
    (hquiet : s.inFlight = []) {i : Nat} (hi : i < numSp) : (s.server i).fReg = true := by
  rcases Nat.eq_zero_or_pos i with rfl | hpos
  · exact h.master.done.2 ⟨inferInstance, hall⟩
  · have hslave := h.slave i hpos hi
    have hannounced : announcedTo s i = (s.server i).appList.map AppInfo.appId := by
      rw [announcedTo, hquiet]
      exact List.append_nil _
    have hknown : ∀ c, app c ∈ (s.server i).appList.map AppInfo.appId := by
      intro c
      rw [← hannounced, hslave.announced]
      exact ⟨⟨c, rfl⟩, fun c' _ => hall c'⟩
    rw [hslave.done, hslave.numCp, total_eq_card_iff (List.nodup_append.1 hslave.nodup).1 fun a ha =>
      (hslave.blocks a ha).size]
    refine ⟨fun hnil => ?_, hknown⟩
    have hmem := hknown (Classical.arbitrary κ)
    rw [hnil] at hmem
    exact absurd hmem List.not_mem_nil

/-- Ids, end of the registration and replies. -/
structure RegistrationOk [DecidableEq κ] (app : κ → Int) (numSp : Nat) (s : Registration κ) : Prop where
  id : ∀ c k, Assigned s c k → ((s.server 0).peerTab k).ptlmap.id = k ∧
    numSp ≤ k ∧ k < numSp + Fintype.card κ
  unique : ∀ c k k', Assigned s c k → Assigned s c k' → k = k'
  all : (∀ c, ∃ k, Assigned s c k) → ∀ k, numSp ≤ k → k < numSp + Fintype.card κ → ∃ c, Assigned s c k
  contiguous : ∀ i, ∃ b, ∀ c k, app c = i → Assigned s c k → b ≤ k ∧ k < b + appSize app i
  done : ∀ i < numSp, (s.server i).fReg = true → ∀ c, c ∈ s.registered
  -- After the registration: one reply, from the server of the id, with the id and the smallest one of
  -- the application.
  replies : (∀ c, c ∈ s.registered) → s.inFlight = [] →
    (∀ i < numSp, (s.server i).fReg = true → i ∈ s.replied) → ∀ c, ∃ k b data, Assigned s c k ∧
      IsLeast {k' | ∃ c', app c' = app c ∧ Assigned s c' k'} b ∧
      (s.sent ((k - numSp) % numSp)).filter (fun r => r.dest = .client c) =
        [⟨.client c, (k - numSp) % numSp, k, numSp, Fintype.card κ, b, data⟩] ∧
      ∀ i < numSp, i ≠ (k - numSp) % numSp → (s.sent i).filter (fun r => r.dest = .client c) = []

theorem RegInv.contiguous (h : RegInv app numSp s) (i : Int) :
    ∃ b, ∀ c k, app c = i → Assigned s c k → b ≤ k ∧ k < b + appSize app i := by
  by_cases hlisted : ∃ a ∈ (s.server 0).appList, a.appId = i
  · obtain ⟨a, ha, rfl⟩ := hlisted
    refine ⟨a.appPeerTab, fun c k hc hck => ?_⟩
    obtain ⟨-, a', ha', hac, hle, hlt⟩ := h.master.table.owner c k hck
    obtain rfl := h.master.table.eq_of_appId_eq ha' ha (hac.trans hc)
    have hcnt := h.master.table.cnt_le_size ha'
    rw [h.master.table.size a' (List.mem_append_right _ ha')] at hcnt
    exact ⟨hle, by omega⟩
  · refine ⟨0, fun c k hc hck => ?_⟩
    obtain ⟨-, a, ha, hac, -⟩ := h.master.table.owner c k hck
    exact absurd ⟨a, ha, hac.trans hc⟩ hlisted

/-- What a server has sent to a client. -/
theorem RegInv.filter_sent [DecidableEq κ] (h : RegInv app numSp s) (hsp : 0 < numSp)
    (hall : ∀ c, c ∈ s.registered) {i : Nat} (hi : i < numSp) (hdone : (s.server i).fReg = true)
    (hreplied : i ∈ s.replied) {c : κ} {m : Nat} (hck : Assigned s c (numSp + m)) (hm : m < Fintype.card κ) :
    ∃ b data, IsLeast {k' | ∃ c', app c' = app c ∧ Assigned s c' k'} b ∧
      (s.sent i).filter (fun r => r.dest = .client c) =
        if m % numSp = i then [⟨.client c, i, numSp + m, numSp, Fintype.card κ, b, data⟩] else [] := by
  have henrolled := h.enrolled hi hdone
  -- All entries of the clients are in use, so the loop of `ds_register_cp` skips none.
  have honto : ∀ k, numSp ≤ k → k < numSp + Fintype.card κ → ∃ c, Assigned s c k := fun k hle hlt =>
    h.onto (fun c => (h.master.stored c (hall c)).imp fun _ hk => hk.1) hle hlt
  have hid : (s.server i).id = i := by
    rcases Nat.eq_zero_or_pos i with rfl | hpos
    · exact h.master.self.1
    · exact (h.slave i hpos hi).self.1
  obtain ⟨b, hb, hleast⟩ := henrolled.idCpMin h.inj c
  have hfilter := henrolled.registerFrom hsp h.inj honto hck hm hb (s.server i).numCp (s.server i).id
    (by rw [henrolled.sizes.2.2]; exact Nat.le_add_right _ _)
  refine ⟨b, (List.range (numSp + Fintype.card κ)).map fun j => ((s.server i).peerTab j).ptlmap, hleast, ?_⟩
  rw [h.sent i, if_pos hreplied, dsRegisterCp, hfilter, hid, Nat.mod_eq_of_lt hi]
  congr 1
  rw [eq_iff_iff]
  constructor
  · exact And.right
  · exact fun hmod => ⟨hmod ▸ Nat.mod_le m numSp, hmod⟩

/-- In every run in which the master handles no message of a client while its listening thread is
between counting a new application and listing it. -/
theorem registration_complete [DecidableEq κ] (app : κ → Int) (numSp : Nat) (hsp : 1 ≤ numSp)
    (s : Registration κ)
    (hs : Reaches (guardStep notBetween (Registration.step app numSp)) (.start κ numSp) s) :
    RegistrationOk app numSp s := by
  have h : RegInv app numSp s := hs.invariant regInv_start fun s x s' h hstep => by
    obtain ⟨hok, hstep'⟩ := guardStep_eq_some.1 hstep
    exact h.step hok hstep'
  -- All but the replies are read off the invariant.
  refine ⟨fun c k hck => ⟨(h.master.table.owner c k hck).1, h.master.table.range hck⟩, h.inj,
    fun hall k hle hlt => h.onto hall hle hlt, h.contiguous, fun i hi hdone => h.registered_of_done hi hdone,
    fun hall hquiet hreplied c => ?_⟩
  have : Nonempty κ := ⟨c⟩
  have hdone := fun i (hi : i < numSp) => h.done_of_quiet hall hquiet hi
  obtain ⟨k, hck, -⟩ := h.master.stored c (hall c)
  obtain ⟨hle, hlt⟩ := h.master.table.range hck
  obtain ⟨m, rfl⟩ := Nat.exists_eq_add_of_le hle
  have hi : m % numSp < numSp := Nat.mod_lt m hsp
  obtain ⟨b, data, hleast, hsent⟩ := h.filter_sent hsp hall hi (hdone _ hi) (hreplied _ hi (hdone _ hi)) hck
    (by omega)
  rw [if_pos rfl] at hsent
  refine ⟨numSp + m, b, data, hck, hleast, ?_⟩
  rw [Nat.add_sub_cancel_left]
  -- The other servers' loops do not come to this entry.
  refine ⟨hsent, fun i hi' hne => ?_⟩
  obtain ⟨_, _, -, hnone⟩ := h.filter_sent hsp hall hi' (hdone i hi') (hreplied i hi' (hdone i hi')) hck
    (by omega)
  rw [hnone, if_neg (Ne.symm hne)]

/-- Three clients, of which the first two belong to application `7`. -/
def threeApps (c : Fin 3) : Int := if c = 2 then 9 else 7

/-- They register with two servers; the second one hears of the application of one client first. -/
def registerThree : List (RegStep (Fin 3)) :=
  [.accept 0, .enter, .accept 2, .enter, .accept 1, .register 2, .register 4, .register 3,
    .announce 1 ⟨4, 9, 1, [⟨4, 9, .client 2⟩]⟩,
    .announce 1 ⟨2, 7, 2, [⟨2, 7, .client 0⟩, ⟨3, 7, .client 1⟩]⟩, .reply 1, .reply 0]

theorem registration_complete_three :
    ∃ s, Reaches (guardStep notBetween (Registration.step threeApps 2)) (.start (Fin 3) 2) s ∧
      (∀ c, c ∈ s.registered) ∧ s.inFlight = [] ∧ (∀ i < 2, i ∈ s.replied) ∧
      RegistrationOk threeApps 2 s := by
  obtain ⟨s, hrun, hall, hquiet, hreplied⟩ : ∃ s,
      runSteps (guardStep notBetween (Registration.step threeApps 2)) (.start (Fin 3) 2) registerThree =
        some s ∧ (∀ c, c ∈ s.registered) ∧ s.inFlight = [] ∧ ∀ i < 2, i ∈ s.replied :=
    ⟨_, rfl, by decide, by decide, by decide⟩
  exact ⟨s, ⟨_, hrun⟩, hall, hquiet, hreplied,
    registration_complete threeApps 2 (by decide) s ⟨_, hrun⟩⟩

/-- Two applications of one client each. The second one is counted and not yet listed when the master
handles the message of the first one, and it ends the registration. -/
theorem registration_ends_early :
    ∃ s, Reaches (Registration.step (fun c : Fin 2 => (c.val : Int)) 1) (.start (Fin 2) 1) s ∧
      (s.server 0).fReg = true ∧ (1 : Fin 2) ∉ s.registered := by
  obtain ⟨s, hrun, hdone, hmissing⟩ : ∃ s,
      runSteps (Registration.step (fun c : Fin 2 => (c.val : Int)) 1) (.start (Fin 2) 1)
        [.accept 0, .enter, .accept 1, .register 1] = some s ∧
        (s.server 0).fReg = true ∧ (1 : Fin 2) ∉ s.registered := ⟨_, rfl, by decide, by decide⟩
  exact ⟨s, ⟨_, hrun⟩, hdone, hmissing⟩

end DataSpaces.Dart
