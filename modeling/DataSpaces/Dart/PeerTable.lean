import DataSpaces.Dart.Register

/-!
# The peer table of the master

The blocks of the applications lie one after the other in the peer table (`Stacked`), and the
connections of an application fill its block from the start (`Table`). Every operation of the listening
thread and of the main thread keeps this.
-/

namespace DataSpaces.Dart

open List Function Finset

variable {κ : Type*}

/-! ## Lists of applications -/

/-- The number of entries of the applications. -/
def total (l : List AppInfo) : Nat := (l.map AppInfo.appNumPeers).sum

/-- The block of an application starts where the blocks of the older ones end. -/
def Stacked (numSp : Nat) : List AppInfo → Prop
  | [] => True
  | a :: rest => a.appPeerTab = numSp + total rest ∧ Stacked numSp rest

theorem total_cons (a : AppInfo) (l : List AppInfo) : total (a :: l) = a.appNumPeers + total l := rfl

variable {numSp : Nat} {l : List AppInfo} {a : AppInfo} {i : Int} {g : AppInfo → AppInfo}

theorem Stacked.bounds (h : Stacked numSp l) (ha : a ∈ l) :
    numSp ≤ a.appPeerTab ∧ a.appPeerTab + a.appNumPeers ≤ numSp + total l := by
  induction l with
  | nil => exact absurd ha not_mem_nil
  | cons b rest ih =>
    obtain ⟨hb, hrest⟩ := h
    rw [total_cons]
    rcases List.mem_cons.1 ha with rfl | ha
    · omega
    · have hbounds := ih hrest ha
      omega

/-- The blocks of two applications are disjoint. -/
theorem Stacked.disjoint (h : Stacked numSp l) {b : AppInfo} (ha : a ∈ l) (hb : b ∈ l) (hne : a ≠ b) :
    a.appPeerTab + a.appNumPeers ≤ b.appPeerTab ∨ b.appPeerTab + b.appNumPeers ≤ a.appPeerTab := by
  induction l with
  | nil => exact absurd ha not_mem_nil
  | cons x rest ih =>
    obtain ⟨hx, hrest⟩ := h
    rcases List.mem_cons.1 ha with rfl | ha'
    · rcases List.mem_cons.1 hb with rfl | hb'
      · exact absurd rfl hne
      · have hbounds := hrest.bounds hb'
        omega
    · rcases List.mem_cons.1 hb with rfl | hb'
      · have hbounds := hrest.bounds ha'
        omega
      · exact ih hrest ha' hb'

theorem updateApp_eq_map {f : AppInfo → AppInfo} (hnd : (l.map AppInfo.appId).Nodup) :
    updateApp i f l = l.map fun a => if a.appId = i then f a else a := by
  induction l with
  | nil => rfl
  | cons a rest ih =>
    obtain ⟨hnot, hrest⟩ := nodup_cons.1 hnd
    rw [updateApp, List.map_cons]
    split
    · next hi =>
      -- No other application has this id.
      rw [map_congr_left (g := id), map_id]
      intro b hb
      apply if_neg
      rintro rfl
      exact hnot (hi ▸ List.mem_map_of_mem hb)
    · rw [ih hrest]

/-- The update changes only the counters of the applications. -/
structure SameBlock (a b : AppInfo) : Prop where
  appId : b.appId = a.appId
  appNumPeers : b.appNumPeers = a.appNumPeers
  appPeerTab : b.appPeerTab = a.appPeerTab

theorem map_appId_map (hg : ∀ a, SameBlock a (g a)) : (l.map g).map AppInfo.appId = l.map AppInfo.appId := by
  rw [List.map_map]
  exact map_congr_left fun a _ => (hg a).appId

theorem total_map (hg : ∀ a, SameBlock a (g a)) : total (l.map g) = total l := by
  rw [total, List.map_map]
  exact congrArg List.sum (map_congr_left fun a _ => (hg a).appNumPeers)

theorem Stacked.map (h : Stacked numSp l) (hg : ∀ a, SameBlock a (g a)) : Stacked numSp (l.map g) := by
  induction l with
  | nil => trivial
  | cons a rest ih =>
    obtain ⟨ha, hrest⟩ := h
    refine ⟨?_, ih hrest⟩
    rw [total_map hg, (hg a).appPeerTab]
    exact ha

theorem appFind_eq_some {ds : RegServer κ} (h : appFind ds i = some a) : a ∈ ds.appList ∧ a.appId = i :=
  ⟨mem_of_find?_eq_some h, by simpa using find?_some h⟩

theorem appFind_eq_none {ds : RegServer κ} (h : appFind ds i = none) : i ∉ ds.appList.map AppInfo.appId := by
  intro hi
  obtain ⟨a, ha, hai⟩ := List.mem_map.1 hi
  exact absurd hai (of_decide_eq_false (by simpa using find?_eq_none.1 h a ha))

theorem eq_of_appId_eq (hnd : (l.map AppInfo.appId).Nodup) {b : AppInfo} (ha : a ∈ l) (hb : b ∈ l)
    (h : a.appId = b.appId) : a = b :=
  inj_on_of_nodup_map hnd ha hb h

/-! ## Counting the clients -/

section

variable [Fintype κ] {app : κ → Int} {l : List AppInfo} (hnd : (l.map AppInfo.appId).Nodup)
  (hsize : ∀ a ∈ l, a.appNumPeers = appSize app a.appId)

include hnd hsize

/-- Applications of announced sizes have as many entries as they have clients. -/
theorem total_eq_card : total l = (univ.filter fun c => app c ∈ l.map AppInfo.appId).card := by
  classical
  induction l with
  | nil => simp [total]
  | cons a rest ih =>
    obtain ⟨hnot, hrest⟩ := nodup_cons.1 hnd
    have hsplit : (univ.filter fun c => app c ∈ (a :: rest).map AppInfo.appId) =
        (univ.filter fun c => app c = a.appId) ∪
          univ.filter fun c => app c ∈ rest.map AppInfo.appId := by
      ext c
      simp only [Finset.mem_filter, mem_univ, true_and, mem_union, List.map_cons, List.mem_cons]
    have hdisj : Disjoint (univ.filter fun c => app c = a.appId)
        (univ.filter fun c => app c ∈ rest.map AppInfo.appId) := by
      rw [disjoint_filter]
      intro c _ hc hmem
      exact hnot (hc ▸ hmem)
    rw [total_cons, hsize a List.mem_cons_self, ih hrest fun b hb => hsize b (List.mem_cons_of_mem a hb),
      hsplit, card_union_of_disjoint hdisj]
    rfl

theorem total_le_card : total l ≤ Fintype.card κ := by
  rw [total_eq_card hnd hsize]
  exact card_filter_le _ _

/-- All entries of the table are taken if and only if all applications are there. -/
theorem total_eq_card_iff : total l = Fintype.card κ ↔ ∀ c, app c ∈ l.map AppInfo.appId := by
  rw [total_eq_card hnd hsize, ← card_univ, card_filter_eq_iff]
  simp

end

/-! ## The table -/

section

variable [Fintype κ]

/-- The table of a server, with the application that the listening thread has reserved entries for but
not listed yet. -/
structure Table (app : κ → Int) (numSp : Nat) (ds : RegServer κ) (pending : List AppInfo) : Prop where
  sizeSp : ds.sizeSp = numSp
  numCp : ds.numCp = total (pending ++ ds.appList)
  stacked : Stacked numSp (pending ++ ds.appList)
  nodup : ((pending ++ ds.appList).map AppInfo.appId).Nodup
  size : ∀ a ∈ pending ++ ds.appList, a.appNumPeers = appSize app a.appId
  -- The connections of an application fill its block from the start, and there are no others.
  slots : ∀ a ∈ ds.appList, ∀ j < a.appCntPeers, ∃ c, app c = a.appId ∧
    (ds.peerTab (a.appPeerTab + j)).sock = some c
  owner : ∀ c k, (ds.peerTab k).sock = some c → (ds.peerTab k).ptlmap.id = k ∧
    ∃ a ∈ ds.appList, a.appId = app c ∧ a.appPeerTab ≤ k ∧ k < a.appPeerTab + a.appCntPeers
  inj : ∀ c k k', (ds.peerTab k).sock = some c → (ds.peerTab k').sock = some c → k = k'

variable {app : κ → Int} {numSp : Nat} {ds : RegServer κ} {pending : List AppInfo}

theorem Table.nodup_appList (h : Table app numSp ds pending) : (ds.appList.map AppInfo.appId).Nodup := by
  have hnd := h.nodup
  rw [map_append] at hnd
  exact (List.nodup_append.1 hnd).2.1

variable {a : AppInfo} {c : κ}

section

variable (h : Table app numSp ds pending)

include h

theorem Table.eq_of_appId_eq {b : AppInfo} (ha : a ∈ ds.appList) (hb : b ∈ ds.appList)
    (hab : a.appId = b.appId) : a = b :=
  DataSpaces.Dart.eq_of_appId_eq h.nodup_appList ha hb hab

/-- The entries of an application that are taken belong to different clients of it. -/
theorem Table.cnt_le (ha : a ∈ ds.appList) {C : Finset κ}
    (hC : ∀ c k, app c = a.appId → (ds.peerTab k).sock = some c → c ∈ C) : a.appCntPeers ≤ C.card := by
  have hmaps : ∀ j ∈ Finset.range a.appCntPeers,
      (ds.peerTab (a.appPeerTab + j)).sock ∈ C.map Embedding.some := by
    intro j hj
    obtain ⟨c, hc, hsock⟩ := h.slots a ha j (Finset.mem_range.1 hj)
    rw [hsock, Finset.mem_map]
    exact ⟨c, hC c _ hc hsock, rfl⟩
  have hinj : Set.InjOn (fun j => (ds.peerTab (a.appPeerTab + j)).sock) (Finset.range a.appCntPeers) := by
    intro j hj j' hj' heq
    obtain ⟨c, -, hsock⟩ := h.slots a ha j (Finset.mem_range.1 (mem_coe.1 hj))
    have hsame := h.inj c _ _ hsock (heq.symm.trans hsock)
    omega
  have hcard := card_le_card_of_injOn _ hmaps hinj
  rwa [card_range, card_map] at hcard

theorem Table.cnt_le_size (ha : a ∈ ds.appList) : a.appCntPeers ≤ a.appNumPeers := by
  rw [h.size a (mem_append_right _ ha)]
  exact h.cnt_le ha fun c k hc _ => Finset.mem_filter.2 ⟨mem_univ c, hc⟩

/-- There is an entry left for a client without one. -/
theorem Table.cnt_lt_size (ha : a ∈ ds.appList) (hc : app c = a.appId)
    (hnot : ∀ k, (ds.peerTab k).sock ≠ some c) : a.appCntPeers < a.appNumPeers := by
  classical
  have hmem : c ∈ univ.filter fun c => app c = a.appId := Finset.mem_filter.2 ⟨mem_univ c, hc⟩
  have hle := h.cnt_le ha (C := (univ.filter fun c => app c = a.appId).erase c)
    fun c' k hc' hsock => mem_erase.2
      ⟨fun heq => hnot k (heq ▸ hsock), Finset.mem_filter.2 ⟨mem_univ c', hc'⟩⟩
  have hpos := card_erase_lt_of_mem hmem
  rw [h.size a (mem_append_right _ ha)]
  exact lt_of_le_of_lt hle hpos

/-- An entry of another application, or behind the ones that are taken, has no connection. -/
theorem Table.free (ha : a ∈ ds.appList) (hlt : a.appCntPeers < a.appNumPeers) :
    (ds.peerTab (a.appPeerTab + a.appCntPeers)).sock = none := by
  cases hsock : (ds.peerTab (a.appPeerTab + a.appCntPeers)).sock with
  | none => rfl
  | some c =>
    obtain ⟨-, b, hb, -, hle, hlt'⟩ := h.owner c _ hsock
    have hcnt := h.cnt_le_size hb
    by_cases hab : a = b
    · subst hab
      omega
    · have hdisj := h.stacked.disjoint (mem_append_right _ ha) (mem_append_right _ hb) hab
      omega

theorem Table.range {k : Nat} (hsock : (ds.peerTab k).sock = some c) :
    numSp ≤ k ∧ k < numSp + Fintype.card κ := by
  obtain ⟨-, a, ha, -, hle, hlt⟩ := h.owner c k hsock
  have hbounds := h.stacked.bounds (mem_append_right _ ha)
  have hcnt := h.cnt_le_size ha
  have htotal := total_le_card h.nodup h.size
  omega

end

/-! ## The operations -/

/-- The listening thread reserves the block of a new application. -/
theorem Table.reserve (h : Table app numSp ds []) {i : Int} (hi : appFind ds i = none) :
    Table app numSp (listenReserve ds i (appSize app i)).2 [(listenReserve ds i (appSize app i)).1] where
  sizeSp := h.sizeSp
  numCp := by
    rw [singleton_append, total_cons, Nat.add_comm]
    exact congrArg (· + appSize app i) h.numCp
  stacked := by
    refine ⟨?_, h.stacked⟩
    rw [listenReserve, h.sizeSp, h.numCp]
    rfl
  nodup := nodup_cons.2 ⟨appFind_eq_none hi, h.nodup⟩
  size := by
    intro a ha
    rcases List.mem_cons.1 ha with rfl | ha
    · rfl
    · exact h.size a ha
  slots := h.slots
  owner := h.owner
  inj := h.inj

/-- It lists the application. -/
theorem Table.list (h : Table app numSp ds [a]) (ha : a.appCntPeers = 0) :
    Table app numSp { ds with appList := a :: ds.appList } [] where
  sizeSp := h.sizeSp
  numCp := h.numCp
  stacked := h.stacked
  nodup := h.nodup
  size := h.size
  slots := by
    intro b hb j hj
    rcases List.mem_cons.1 hb with rfl | hb
    · rw [ha] at hj
      exact absurd hj (Nat.not_lt_zero j)
    · exact h.slots b hb j hj
  owner := by
    intro c k hsock
    obtain ⟨hid, b, hb, hbounds⟩ := h.owner c k hsock
    exact ⟨hid, b, List.mem_cons_of_mem a hb, hbounds⟩
  inj := h.inj

variable (h : Table app numSp ds [])

include h

/-- A change of the counters and of the stored addresses keeps the table, as long as the entries that
are taken follow. -/
theorem Table.update {ds' : RegServer κ} {g : AppInfo → AppInfo} (hg : ∀ a, SameBlock a (g a))
    (hsp : ds'.sizeSp = ds.sizeSp) (hcp : ds'.numCp = ds.numCp) (hlist : ds'.appList = ds.appList.map g)
    (hslots : ∀ a ∈ ds.appList, ∀ j < (g a).appCntPeers, ∃ c, app c = a.appId ∧
      (ds'.peerTab (a.appPeerTab + j)).sock = some c)
    (howner : ∀ c k, (ds'.peerTab k).sock = some c → (ds'.peerTab k).ptlmap.id = k ∧
      ∃ a ∈ ds.appList, a.appId = app c ∧ a.appPeerTab ≤ k ∧ k < a.appPeerTab + (g a).appCntPeers)
    (hinj : ∀ c k k', (ds'.peerTab k).sock = some c → (ds'.peerTab k').sock = some c → k = k') :
    Table app numSp ds' [] where
  sizeSp := hsp.trans h.sizeSp
  -- The blocks are where they were, so all that depends on them alone is unchanged.
  numCp := by
    rw [hcp, h.numCp, hlist, nil_append, nil_append, total_map hg]
  stacked := by
    rw [hlist]
    exact Stacked.map h.stacked hg
  nodup := by
    rw [hlist, nil_append, map_appId_map hg]
    exact h.nodup
  size := by
    intro b hb
    rw [hlist, nil_append] at hb
    obtain ⟨a, ha, rfl⟩ := List.mem_map.1 hb
    rw [(hg a).appNumPeers, (hg a).appId]
    exact h.size a ha
  slots := by
    intro b hb j hj
    rw [hlist] at hb
    obtain ⟨a, ha, rfl⟩ := List.mem_map.1 hb
    rw [(hg a).appId, (hg a).appPeerTab]
    exact hslots a ha j hj
  owner := by
    intro c k hsock
    obtain ⟨hid, a, ha, hac, hbounds⟩ := howner c k hsock
    refine ⟨hid, g a, ?_, (hg a).appId.trans hac, ?_⟩
    · rw [hlist]
      exact List.mem_map_of_mem ha
    · rw [(hg a).appPeerTab]
      exact hbounds
  inj := hinj

/-- A client gets the next entry of its application. -/
theorem Table.assign (ha : a ∈ ds.appList) (hc : app c = a.appId) (hnot : ∀ k, (ds.peerTab k).sock ≠ some c) :
    Table app numSp (listenAssign ds a c) [] := by
  -- The client gets the first free entry of the block, which is not full yet.
  have hfree := h.free ha (h.cnt_lt_size ha hc hnot)
  have hself : (listenAssign ds a c).peerTab (a.appPeerTab + a.appCntPeers) =
      ⟨{ (ds.peerTab (a.appPeerTab + a.appCntPeers)).ptlmap with id := a.appPeerTab + a.appCntPeers },
        some c⟩ := update_self ..
  have hother : ∀ k, k ≠ a.appPeerTab + a.appCntPeers →
      (listenAssign ds a c).peerTab k = ds.peerTab k := fun k hk => update_of_ne hk ..
  apply h.update (g := fun b =>
    if b.appId = a.appId then { b with appCntPeers := b.appCntPeers + 1 } else b)
  · intro b
    split
    · exact ⟨rfl, rfl, rfl⟩
    · exact ⟨rfl, rfl, rfl⟩
  · rfl
  · rfl
  · exact updateApp_eq_map h.nodup
  · -- The entries in use: those before, and the new one as the last of its application.
    intro b hb j hj
    by_cases hid : b.appId = a.appId
    · obtain rfl := h.eq_of_appId_eq hb ha hid
      rw [if_pos rfl] at hj
      by_cases hlast : j = b.appCntPeers
      · rw [hlast, hself]
        exact ⟨c, hc, rfl⟩
      · rw [hother _ fun heq => hlast (Nat.add_left_cancel heq)]
        exact h.slots b hb j (Nat.lt_of_le_of_ne (Nat.le_of_lt_succ hj) hlast)
    · rw [if_neg hid] at hj
      obtain ⟨c', hc', hsock⟩ := h.slots b hb j hj
      refine ⟨c', hc', ?_⟩
      rw [hother, hsock]
      intro heq
      rw [heq, hfree] at hsock
      exact absurd hsock nofun
  · -- The owner of an entry: the new client for the new entry, as before for all others.
    intro c' k hsock
    by_cases hk : k = a.appPeerTab + a.appCntPeers
    · subst hk
      rw [hself] at hsock ⊢
      obtain rfl := Option.some.inj hsock
      refine ⟨rfl, a, ha, hc.symm, Nat.le_add_right _ _, ?_⟩
      rw [if_pos rfl]
      exact Nat.lt_succ_self _
    · rw [hother k hk] at hsock ⊢
      obtain ⟨hid, b, hb, hbc, hle, hlt⟩ := h.owner c' k hsock
      refine ⟨hid, b, hb, hbc, hle, ?_⟩
      split
      · exact Nat.lt_succ_of_lt hlt
      · exact hlt
  · -- No other entry belongs to the new client.
    intro c' k k' hsock hsock'
    by_cases hk : k = a.appPeerTab + a.appCntPeers
    · by_cases hk' : k' = a.appPeerTab + a.appCntPeers
      · rw [hk, hk']
      · rw [hk, hself] at hsock
        rw [hother k' hk', ← hsock] at hsock'
        exact absurd hsock' (hnot k')
    · rw [hother k hk] at hsock
      by_cases hk' : k' = a.appPeerTab + a.appCntPeers
      · rw [hk', hself] at hsock'
        rw [← hsock'] at hsock
        exact absurd hsock (hnot k)
      · rw [hother k' hk'] at hsock'
        exact h.inj c' k k' hsock hsock'

/-- What the main thread changes about a client that is connected. -/
theorem Table.store {ds' : RegServer κ} {g : AppInfo → AppInfo} (hg : ∀ a, SameBlock a (g a))
    (hcnt : ∀ a, (g a).appCntPeers = a.appCntPeers) (hsp : ds'.sizeSp = ds.sizeSp)
    (hcp : ds'.numCp = ds.numCp) (hlist : ds'.appList = ds.appList.map g)
    (hpeer : ∀ k, (ds'.peerTab k).sock = (ds.peerTab k).sock ∧
      (ds'.peerTab k).ptlmap.id = (ds.peerTab k).ptlmap.id) : Table app numSp ds' [] := by
  apply h.update hg hsp hcp hlist
  · intro a ha j hj
    rw [hcnt] at hj
    rw [(hpeer _).1]
    exact h.slots a ha j hj
  · intro c k hsock
    rw [(hpeer k).1] at hsock
    obtain ⟨hid, a, ha, hac, hbounds⟩ := h.owner c k hsock
    refine ⟨(hpeer k).2.trans hid, a, ha, hac, ?_⟩
    rw [hcnt]
    exact hbounds
  · intro c k k' hsock hsock'
    rw [(hpeer _).1] at hsock hsock'
    exact h.inj c k k' hsock hsock'

end

end DataSpaces.Dart
