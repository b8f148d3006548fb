import DataSpaces.Dimes.Get
import DataSpaces.Dimes.Rdma

/-!
# The fetch loop of a DIMES client

The table of the first loop of `dimes_fetch_data` is a window of jobs in the sense of `Lib.Window`: at every
point of every run it is in a state that the window reaches (`FetchInv`), so no more reads are outstanding
than allowed and no part is fetched twice. In runs in which all reads succeed the window and the loop have
the same states, and the loop fails exactly where the window refuses a job (`GoodInv`). A part that does not
fit beside the outstanding ones fails the query, it does not wait, so `fetchRight_iff` has the condition that
any `max_num_concurrent_rdma_read_op` contiguous parts fit together.
-/

namespace DataSpaces.Dimes.Rdma

open Lib Store List Option

/-! ## The table as a window -/

/-- The loop over the table as a window of jobs: each takes its size of the memory that is available at the
beginning. -/
def tableStep (o : RdmaOptions) (pieces : List Piece) : Window Nat → WindowEvent Nat → Option (Window Nat) :=
  Window.step (pieceSize pieces) (getAvailableRdmaBufferSize o) o.maxNumConcurrentRdmaReadOp.toNat

/-- The states of the table. -/
def TableReaches (o : RdmaOptions) (pieces : List Piece) (w : Window Nat) : Prop :=
  Reaches (tableStep o pieces) (Window.start (fetchTab pieces)) w

/-- The entries for the second loop. -/
def otherEntries (pieces : List Piece) (l : List Nat) : List Nat := l.filter fun i => !isContiguous pieces i

/-- All reads of the table are done. -/
structure TableDone (o : RdmaOptions) (pieces : List Piece) (w : Window Nat) : Prop where
  reached : TableReaches o pieces w
  waiting_eq : w.waiting = []
  posted_eq : w.posted = []

/-- What holds at a point of the function. -/
def PcInv (o : RdmaOptions) (pieces : List Piece) (s : Fetch) : FetchPc → Prop
  | .table => TableReaches o pieces s.tab ∧ s.later = [] ∧ s.leaked = []
  | .others rest => TableDone o pieces s.tab ∧ rest <:+ range pieces.length ∧
      s.later ++ otherEntries pieces rest = otherEntries pieces (range pieces.length)
  | .returned true => TableDone o pieces s.tab ∧ s.later = otherEntries pieces (range pieces.length)
  | .returned false => s.tab.posted = [] ∧ (s.tab.finished ++ s.later).Nodup

structure FetchInv (o : RdmaOptions) (pieces : List Piece) (s : Fetch) : Prop where
  accounted : Accounted o pieces s
  atPc : PcInv o pieces s s.pc

section

variable {o : RdmaOptions} {pieces : List Piece} {s s' : Fetch} {i : Nat} {w : Window Nat}

theorem mem_fetchTab (h : i ∈ fetchTab pieces) : isContiguous pieces i = true := (mem_filter.1 h).2

theorem nodup_fetchTab (pieces : List Piece) : (fetchTab pieces).Nodup := nodup_range.filter _

/-- What is posted and what is finished are different entries of the table. -/
theorem TableReaches.nodup (h : TableReaches o pieces w) :
    (w.posted ++ w.finished).Nodup ∧ ∀ i ∈ w.posted ++ w.finished, i ∈ fetchTab pieces := by
  obtain ⟨before, hinv⟩ := Window.exists_inv_of_reaches h
  have hsub : before.Sublist (fetchTab pieces) := hinv.split ▸ sublist_append_left _ _
  exact ⟨hinv.perm.nodup_iff.2 (hsub.nodup (nodup_fetchTab pieces)),
    fun i hi => hsub.subset (hinv.perm.subset hi)⟩

theorem TableDone.perm (h : TableDone o pieces w) : w.finished.Perm (fetchTab pieces) := by
  obtain ⟨before, hinv⟩ := Window.exists_inv_of_reaches h.reached
  have hperm := hinv.perm
  rw [h.posted_eq, nil_append] at hperm
  rw [hinv.split, h.waiting_eq, append_nil]
  exact hperm

/-- Entries of the table and of the second loop are different ones. -/
theorem TableDone.nodup_append {later : List Nat} (h : TableDone o pieces w)
    (hlater : later.Sublist (otherEntries pieces (range pieces.length))) : (w.finished ++ later).Nodup := by
  obtain ⟨hnodup, hmem⟩ := h.reached.nodup
  refine List.nodup_append.2 ⟨hnodup.of_append_right, hlater.nodup (nodup_range.filter _), ?_⟩
  rintro i hi j hj rfl
  have hcontiguous := mem_fetchTab (hmem i (mem_append_right _ hi))
  have hother := (mem_filter.1 (hlater.subset hj)).2
  rw [hcontiguous] at hother
  cases hother

/-- Without an error a pass splits the posted reads. -/
theorem passLoop_ok {completed freed : Nat → Bool} {l : List Nat} {o : RdmaOptions}
    (h : (passLoop pieces completed freed l o).failed = false) :
    (passLoop pieces completed freed l o).done = l.filter completed ∧
      (passLoop pieces completed freed l o).posted = l.filter fun i => !completed i := by
  induction l generalizing o with
  | nil => exact ⟨rfl, rfl⟩
  | cons i l ih =>
    by_cases hi : completed i = true
    · cases hfree : dimesMemoryFree o (pieceSize pieces i) .rdma (freed i) with
      | none => simp [passLoop, hi, hfree] at h
      | some o' =>
        simp only [passLoop, hi, hfree, if_true] at h ⊢
        obtain ⟨hdone, hposted⟩ := ih h
        simp [hi, hdone, hposted]
    · simp only [passLoop, hi, if_false, Bool.false_eq_true] at h ⊢
      obtain ⟨hdone, hposted⟩ := ih h
      simp [hi, hdone, hposted]

theorem passLoop_done_sublist (pieces : List Piece) (completed freed : Nat → Bool) (l : List Nat)
    (o : RdmaOptions) : (passLoop pieces completed freed l o).done.Sublist l := by
  induction l generalizing o with
  | nil => exact Sublist.refl _
  | cons i l ih =>
    rw [passLoop]
    split
    · split
      · exact nil_sublist _
      · exact (ih _).cons_cons i
    · exact (ih o).cons i

/-- With every deregistration successful a pass does not fail. -/
theorem passLoop_failed (pieces : List Piece) (completed : Nat → Bool) (l : List Nat) (o : RdmaOptions) :
    (passLoop pieces completed (fun _ => true) l o).failed = false := by
  induction l generalizing o with
  | nil => rfl
  | cons i l ih =>
    rw [passLoop, Counts.free_iff.2 ⟨rfl, rfl⟩]
    split
    · exact ih _
    · exact ih o

/-- In the first loop an allocation succeeds if and only if the window takes the job. -/
theorem alloc_iff_of_table (h : FetchInv o pieces s) (hpc : s.pc = .table) {obtained : Bool}
    {o' : RdmaOptions} : dimesMemoryAlloc s.options (pieceSize pieces i) .rdma obtained = some o' ↔
      (s.tab.used (pieceSize pieces) + pieceSize pieces i ≤ getAvailableRdmaBufferSize o ∧ obtained = true) ∧
        o' = s.options.setUsage (s.options.rdmaBufferUsage + pieceSize pieces i) := by
  have hat := h.atPc
  rw [hpc] at hat
  have hheld : s.held pieces = s.tab.used (pieceSize pieces) := by
    rw [Fetch.held, hat.2.2, sum_nil, Nat.add_zero]
    rfl
  rw [Counts.alloc_iff h.accounted, hheld, getAvailableRdmaBufferSize_eq]

theorem pcInv_errOutFree {freed : Nat → Bool} (hnodup : (s.tab.finished ++ s.later).Nodup) :
    PcInv o pieces (errOutFree pieces freed s) (errOutFree pieces freed s).pc := ⟨rfl, hnodup⟩

/-- A part of the second loop has been handled. -/
theorem PcInv.handled {rest : List Nat} (h : PcInv o pieces s (.others (i :: rest)))
    (hkind : isContiguous pieces i = false) (htab : s'.tab = s.tab) (hlater : s'.later = s.later ++ [i]) :
    PcInv o pieces s' (.others rest) := by
  obtain ⟨hdone, hsuffix, hall⟩ := h
  rw [otherEntries, filter_cons_of_pos (by rw [hkind]; rfl)] at hall
  refine ⟨htab ▸ hdone, (suffix_cons i rest).trans hsuffix, ?_⟩
  rw [hlater, append_assoc]
  exact hall

/-- The second loop gives up. -/
theorem PcInv.givenUp {rest : List Nat} (h : PcInv o pieces s (.others rest)) :
    PcInv o pieces s (.returned false) :=
  ⟨h.1.posted_eq, h.1.nodup_append (h.2.2 ▸ sublist_append_left _ _)⟩

theorem FetchInv.step (h : FetchInv o pieces s) (hstep : FetchTrans pieces s s') : FetchInv o pieces s' := by
  refine ⟨h.accounted.step hstep, ?_⟩
  have hat := h.atPc
  -- In the first loop nothing of the second one has been handled.
  have hexit : s.pc = .table → (s.tab.finished ++ s.later).Nodup := by
    intro hpc
    rw [hpc] at hat
    rw [hat.2.1, append_nil]
    exact hat.1.nodup.1.of_append_right
  cases hstep with
  | @posted i rest obtained o' hpc hwaiting hlen halloc =>
    obtain ⟨⟨hfits, -⟩, -⟩ := (alloc_iff_of_table h hpc).1 halloc
    rw [hpc] at hat
    rw [h.accounted.max_eq] at hlen
    have hpost : tableStep o pieces s.tab .post = some (s.post i rest o').tab :=
      Window.step_post.2 ⟨i, hwaiting, hlen, hfits, rfl, rfl⟩
    show PcInv o pieces _ s.pc
    rw [hpc]
    exact ⟨hat.1.trans (Reaches.head hpost (Reaches.refl _)), hat.2⟩
  | gaveUp freed hpc => exact pcInv_errOutFree (hexit hpc)
  | notPerformed freed hpc _ _ => exact pcInv_errOutFree (hexit hpc)
  | idle _ => exact hat
  | @passed completed freed hpc hsat hany hok =>
    rw [hpc] at hat
    show PcInv o pieces _ s.pc
    rw [hpc]
    obtain ⟨hdone, hposted⟩ := passLoop_ok hok
    rw [h.accounted.max_eq] at hsat
    have hpass : tableStep o pieces s.tab (.pass completed) = some (s.tab.complete completed) :=
      Window.step_pass.2 ⟨⟨hsat, hany⟩, rfl⟩
    refine ⟨hat.1.trans (Reaches.head hpass ?_), hat.2⟩
    rw [Fetch.afterPass, hdone, hposted]
    exact Reaches.refl _
  | @notFreed completed freed exitFreed hpc =>
    rw [hpc] at hat
    refine pcInv_errOutFree ?_
    show (s.tab.finished ++ (passLoop pieces completed freed s.tab.posted s.options).done ++ s.later).Nodup
    rw [hat.2.1, append_nil]
    have hsub := passLoop_done_sublist pieces completed freed s.tab.posted s.options
    exact (nodup_append_comm.1 hat.1.nodup.1).sublist ((Sublist.refl _).append hsub)
  | loopDone hpc hwaiting hposted =>
    rw [hpc] at hat
    refine ⟨⟨hat.1, hwaiting, hposted⟩, suffix_refl _, ?_⟩
    show s.later ++ _ = _
    rw [hat.2.1, nil_append]
  | allDone hpc =>
    rw [hpc] at hat
    refine ⟨hat.1, ?_⟩
    have hall := hat.2.2
    rw [otherEntries, filter_nil, append_nil] at hall
    exact hall
  | @skipped i rest hpc hkind =>
    rw [hpc] at hat
    refine ⟨hat.1, (suffix_cons i rest).trans hat.2.1, ?_⟩
    have hall := hat.2.2
    rw [otherEntries, filter_cons_of_neg (by rw [hkind]; decide)] at hall
    exact hall
  | copied hpc hkind =>
    rw [hpc] at hat
    exact hat.handled hkind rfl rfl
  | read freed hpc hkind _ =>
    rw [hpc] at hat
    exact hat.handled hkind rfl rfl
  | lost hpc =>
    rw [hpc] at hat
    exact hat.givenUp
  | leaked hpc _ =>
    rw [hpc] at hat
    exact hat.givenUp

theorem FetchInv.start (o : RdmaOptions) (pieces : List Piece) : FetchInv o pieces (startFetch o pieces) := by
  refine ⟨accounted_startFetch o pieces, ?_⟩
  unfold startFetch
  split
  · exact ⟨rfl, nodup_nil⟩
  · exact ⟨Reaches.refl _, rfl, rfl⟩

theorem fetchInv_of_reaches (h : Reaches (fetchStep pieces) (startFetch o pieces) s) : FetchInv o pieces s :=
  h.invariant (FetchInv.start o pieces) fun _ _ _ hinv hstep => hinv.step (fetchStep_trans hstep)

/-- No more reads are outstanding than allowed. -/
theorem FetchInv.window (h : FetchInv o pieces s) :
    s.tab.posted.length ≤ o.maxNumConcurrentRdmaReadOp.toNat := by
  have hat := h.atPc
  have hreached : TableReaches o pieces s.tab → s.tab.posted.length ≤ o.maxNumConcurrentRdmaReadOp.toNat := by
    intro hreaches
    obtain ⟨before, hinv⟩ := Window.exists_inv_of_reaches hreaches
    exact hinv.length_le
  cases hpc : s.pc with
  | table => rw [hpc] at hat; exact hreached hat.1
  | others rest => rw [hpc] at hat; exact hreached hat.1.reached
  | returned ok =>
    rw [hpc] at hat
    cases ok with
    | true => exact hreached hat.1.reached
    | false => rw [hat.1]; exact Nat.zero_le _

/-- No part is fetched twice, and a fetch that returns without an error has fetched all. -/
theorem FetchInv.once (h : FetchInv o pieces s) : (s.tab.finished ++ s.later).Nodup ∧
    (s.pc = .returned true → (s.tab.finished ++ s.later).Perm (range pieces.length)) := by
  have hat := h.atPc
  cases hpc : s.pc with
  | table =>
    rw [hpc] at hat
    refine ⟨?_, fun hret => by cases hret⟩
    rw [hat.2.1, append_nil]
    exact hat.1.nodup.1.of_append_right
  | others rest =>
    rw [hpc] at hat
    exact ⟨hat.givenUp.2, fun hret => by cases hret⟩
  | returned ok =>
    rw [hpc] at hat
    cases ok with
    | true =>
      refine ⟨hat.1.nodup_append (hat.2 ▸ Sublist.refl _), fun _ => ?_⟩
      rw [hat.2]
      exact (hat.1.perm.append_right _).trans (filter_append_perm _ _)
    | false => exact ⟨hat.2, fun hret => by cases hret⟩

end

/-! ## Runs in which all reads succeed -/

/-- Events without a failure outside of the client: memory is found and registered, reads are performed
and deregistrations succeed. The order in which reads complete is arbitrary. -/
inductive GoodEvent where
  | issue
  | pass (completed : Nat → Bool)
  | loopDone
  | next

def GoodEvent.event : GoodEvent → FetchEvent
  | .issue => .issue true true fun _ => true
  | .pass completed => .pass true completed (fun _ => true) fun _ => true
  | .loopDone => .loopDone
  | .next => .next true true true true

def goodStep (pieces : List Piece) (s : Fetch) (g : GoodEvent) : Option Fetch := fetchStep pieces s g.event

/-- Every run without a failure from outside returns without an error after finitely many steps. -/
structure Succeeds (o : RdmaOptions) (pieces : List Piece) : Prop where
  never_fails : ∀ s, Reaches (goodStep pieces) (startFetch o pieces) s → s.pc ≠ .returned false
  goes_on : ∀ s, Reaches (goodStep pieces) (startFetch o pieces) s → s.pc ≠ .returned true →
    ∃ g s', goodStep pieces s g = some s'
  bounded : ∃ bound, ∀ events s, runSteps (goodStep pieces) (startFetch o pieces) events = some s →
    events.length ≤ bound

/-- Posting, passes and entries that are left. -/
def fetchWork (pieces : List Piece) (s : Fetch) : Nat :=
  match s.pc with
  | .table => s.tab.work + pieces.length + 2
  | .others rest => rest.length + 1
  | .returned _ => 0

/-- What holds along such runs. -/
structure GoodInv (o : RdmaOptions) (pieces : List Piece) (s : Fetch) : Prop extends FetchInv o pieces s where
  no_leak : ∀ rest, s.pc = .others rest → s.leaked = []
  failed : s.pc = .returned false → ∃ w, TableReaches o pieces w ∧
    w.Refused (pieceSize pieces) (getAvailableRdmaBufferSize o) o.maxNumConcurrentRdmaReadOp.toNat

section

variable {o : RdmaOptions} {pieces : List Piece} {s s' : Fetch}
  (halone : ∀ p ∈ pieces, p.size ≤ getAvailableRdmaBufferSize o)

include halone in
theorem startFetch_pc : (startFetch o pieces).pc = .table := by
  refine if_neg fun hany => ?_
  obtain ⟨p, hp, hlarge⟩ := List.any_eq_true.1 hany
  exact absurd (of_decide_eq_true hlarge).2 (not_lt.2 (halone p hp))

include halone in
theorem GoodInv.start : GoodInv o pieces (startFetch o pieces) := by
  refine ⟨FetchInv.start o pieces, fun rest hpc => rfl, fun hpc => ?_⟩
  rw [startFetch_pc halone] at hpc
  cases hpc

theorem releaseBuffer_true (size : Nat) (m : RdmaOptions × List Nat) :
    (releaseBuffer size true m).2 = m.2 := by
  rw [releaseBuffer, Counts.free_iff.2 ⟨rfl, rfl⟩]

/-- A step of the window is a step of the fetch. -/
theorem goodStep_of_tableStep (h : FetchInv o pieces s) (hpc : s.pc = .table) {event : WindowEvent Nat}
    {w : Window Nat} (hstep : tableStep o pieces s.tab event = some w) :
    ∃ g s', goodStep pieces s g = some s' ∧ s'.pc = .table ∧ s'.tab = w := by
  cases event with
  | post =>
    obtain ⟨i, hwaiting, hlen, hfits, hposted, hfinished⟩ := Window.step_post.1 hstep
    have halloc := (alloc_iff_of_table h hpc).2 ⟨⟨hfits, rfl⟩, rfl⟩
    have hmax : ¬ s.options.maxNumConcurrentRdmaReadOp ≤ s.tab.posted.length := by
      rw [h.accounted.max_eq]
      omega
    refine ⟨.issue, s.post i w.waiting (s.options.setUsage (s.options.rdmaBufferUsage + pieceSize pieces i)),
      ?_, hpc, ?_⟩
    · simp only [goodStep, GoodEvent.event, fetchStep, hpc, hwaiting, halloc, hmax, if_false, if_true]
    · obtain ⟨waiting, posted, finished⟩ := w
      simp only at hposted hfinished
      rw [hposted, hfinished]
      rfl
  | pass completed =>
    obtain ⟨⟨hsat, i, hi, hcompleted⟩, rfl⟩ := Window.step_pass.1 hstep
    obtain ⟨j, rest, hposted⟩ := exists_cons_of_ne_nil (ne_nil_of_mem hi)
    have hok := passLoop_failed pieces completed s.tab.posted s.options
    obtain ⟨hdone, hstill⟩ := passLoop_ok hok
    have hany : s.tab.posted.any completed = true := List.any_eq_true.2 ⟨i, hi, hcompleted⟩
    rw [← h.accounted.max_eq] at hsat
    rw [hposted] at hok hany
    refine ⟨.pass completed, s.afterPass (passLoop pieces completed (fun _ => true) s.tab.posted s.options),
      ?_, hpc, ?_⟩
    · simp only [goodStep, GoodEvent.event, fetchStep, hpc, hposted, hok, hany, hsat, true_and, if_true,
        if_false, Bool.false_eq_true, Bool.true_eq_false]
    · rw [Fetch.afterPass, hdone, hstill]
      rfl

include halone in
/-- Every state of the window is a state of the fetch. -/
theorem reaches_of_table {w : Window Nat} (h : TableReaches o pieces w) :
    ∃ s, Reaches (goodStep pieces) (startFetch o pieces) s ∧
      FetchInv o pieces s ∧ s.pc = .table ∧ s.tab = w := by
  refine h.invariant (P := fun w => ∃ s, Reaches (goodStep pieces) (startFetch o pieces) s ∧
      FetchInv o pieces s ∧ s.pc = .table ∧ s.tab = w)
    ⟨_, Reaches.refl _, FetchInv.start o pieces, startFetch_pc halone, rfl⟩ ?_
  rintro w event w' ⟨s, hreach, hinv, hpc, rfl⟩ hstep
  obtain ⟨g, s', hgood, hpc', rfl⟩ := goodStep_of_tableStep hinv hpc hstep
  exact ⟨s', hreach.trans (Reaches.head hgood (Reaches.refl _)), hinv.step (fetchStep_trans hgood), hpc', rfl⟩

include halone in
/-- An entry of the second loop that fits the available memory is handled. -/
theorem goodStep_next (h : GoodInv o pieces s) {rest : List Nat} (hpc : s.pc = .others rest) :
    ∃ s', goodStep pieces s .next = some s' ∧ s'.leaked = [] ∧
      (s'.pc = .returned true ∨ ∃ rest', s'.pc = .others rest' ∧ rest'.length < rest.length) := by
  have hat := h.atPc
  rw [hpc] at hat
  have hleak := h.no_leak rest hpc
  cases rest with
  | nil => exact ⟨{ s with pc := .returned true }, by simp only [goodStep, GoodEvent.event, fetchStep, hpc],
      hleak, Or.inl rfl⟩
  | cons i rest =>
    have hi : i < pieces.length := mem_range.1 (hat.2.1.subset mem_cons_self)
    have hp : pieces[i]? = some pieces[i] := getElem?_eq_getElem hi
    have hshorter : rest.length < (i :: rest).length := Nat.lt_succ_self _
    cases hk : pieces[i].kind with
    | contiguous => exact ⟨{ s with pc := .others rest },
        by simp only [goodStep, GoodEvent.event, fetchStep, hpc, hp, hk], hleak, Or.inr ⟨rest, rfl, hshorter⟩⟩
    | sameNode | myself => exact ⟨{ s with later := s.later ++ [i], pc := .others rest },
        by simp only [goodStep, GoodEvent.event, fetchStep, hpc, hp, hk, if_true], hleak,
        Or.inr ⟨rest, rfl, hshorter⟩⟩
    | subArray =>
      -- Nothing of this query is outstanding, so the part fits.
      have hheld : s.held pieces = 0 := by rw [Fetch.held, hat.1.posted_eq, hleak]; rfl
      have hfits : s.held pieces + pieces[i].size ≤ o.rdmaBufferSize - o.rdmaBufferUsage := by
        rw [hheld, Nat.zero_add, ← getAvailableRdmaBufferSize_eq]
        exact halone _ (getElem_mem hi)
      have halloc := (Counts.alloc_iff h.accounted).2 ⟨⟨hfits, rfl⟩, rfl⟩
      let freed := releaseBuffer pieces[i].size true
        (s.options.setUsage (s.options.rdmaBufferUsage + pieces[i].size), s.leaked)
      refine ⟨{ s with
          options := freed.1, leaked := freed.2, later := s.later ++ [i], pc := .others rest }, ?_, ?_,
        Or.inr ⟨rest, rfl, hshorter⟩⟩
      · simp only [goodStep, GoodEvent.event, fetchStep, hpc, hp, hk, halloc, if_true, freed]
      · show freed.2 = []
        rw [releaseBuffer_true]
        exact hleak

/-- An attempt to post a read: it is posted or the fetch fails. -/
theorem goodStep_issue (hstep : goodStep pieces s .issue = some s') : s.pc = .table ∧
    ∃ i rest, s.tab.waiting = i :: rest ∧ s.tab.posted.length < s.options.maxNumConcurrentRdmaReadOp.toNat ∧
      ((∃ o', s' = s.post i rest o') ∨
        (dimesMemoryAlloc s.options (pieceSize pieces i) .rdma true = none ∧ s'.pc = .returned false)) := by
  simp only [goodStep, GoodEvent.event, fetchStep] at hstep
  split at hstep
  · next i rest hpc hwaiting =>
    rw [ite_none_left_eq_some] at hstep
    obtain ⟨hmax, hstep⟩ := hstep
    refine ⟨hpc, i, rest, hwaiting, by omega, ?_⟩
    cases halloc : dimesMemoryAlloc s.options (pieceSize pieces i) .rdma true with
    | none =>
      simp only [halloc, some.injEq] at hstep
      exact Or.inr ⟨rfl, hstep ▸ rfl⟩
    | some o' =>
      simp only [halloc, if_true, some.injEq] at hstep
      exact Or.inl ⟨o', hstep.symm⟩
  · cases hstep

/-- A pass over the posted reads, of which some are done. -/
theorem goodStep_pass {completed : Nat → Bool} (hstep : goodStep pieces s (.pass completed) = some s') :
    s.pc = .table ∧ s.tab.Saturated s.options.maxNumConcurrentRdmaReadOp.toNat ∧
      ((s.tab.posted = [] ∧ s.tab.waiting ≠ [] ∧ s' = s) ∨
        (∃ i ∈ s.tab.posted, completed i = true) ∧ s'.pc = s.pc ∧ s'.tab = s.tab.complete completed) := by
  simp only [goodStep, GoodEvent.event, fetchStep, ite_none_right_eq_some] at hstep
  obtain ⟨⟨hpc, hsat⟩, hstep⟩ := hstep
  refine ⟨hpc, hsat, ?_⟩
  split at hstep
  · next hposted =>
    rw [ite_none_left_eq_some] at hstep
    exact Or.inl ⟨hposted, hstep.1, (some.inj hstep.2).symm⟩
  · next i rest hposted =>
    rw [← hposted] at hstep
    have hok := passLoop_failed pieces completed s.tab.posted s.options
    obtain ⟨hdone, hstill⟩ := passLoop_ok hok
    simp only [hok, Bool.true_eq_false, if_false, ite_none_right_eq_some, some.injEq,
      Bool.false_eq_true] at hstep
    refine Or.inr ⟨List.any_eq_true.1 hstep.1, ?_, ?_⟩
    · rw [← hstep.2]
      rfl
    · rw [← hstep.2, Fetch.afterPass, hdone, hstill]
      rfl

/-- Where the fetch has not failed only the memory of the second loop matters. -/
theorem FetchInv.good (h : FetchInv o pieces s) (hleak : ∀ rest, s.pc = .others rest → s.leaked = [])
    (hpc : s.pc ≠ .returned false) : GoodInv o pieces s :=
  ⟨h, hleak, fun hret => (hpc hret).elim⟩

/-- Only the second loop has the step to the next entry. -/
theorem goodStep_next_pc (hstep : goodStep pieces s .next = some s') : ∃ rest, s.pc = .others rest := by
  simp only [goodStep, GoodEvent.event, fetchStep] at hstep
  split at hstep
  · next hpc => exact ⟨_, hpc⟩
  · next hpc => exact ⟨_, hpc⟩
  · cases hstep

include halone in
/-- A step keeps the invariant, and there is less to do after it unless no read may be posted at all. -/
theorem GoodInv.step (h : GoodInv o pieces s) {g : GoodEvent} (hstep : goodStep pieces s g = some s') :
    GoodInv o pieces s' ∧ (fetchWork pieces s' < fetchWork pieces s ∨
        s.pc = .table ∧ s.tab.waiting ≠ [] ∧ o.maxNumConcurrentRdmaReadOp.toNat = 0) := by
  have hinv := h.toFetchInv.step (fetchStep_trans hstep)
  -- Within the first loop the window says how much is left.
  have htable : s.pc = .table → s'.pc = .table → s'.tab.work < s.tab.work →
      GoodInv o pieces s' ∧ fetchWork pieces s' < fetchWork pieces s := by
    intro hpc hpc' hwork
    refine ⟨hinv.good (fun rest hrest => ?_) (by rw [hpc']; exact FetchPc.noConfusion), ?_⟩
    · rw [hpc'] at hrest
      cases hrest
    · simp only [fetchWork, hpc, hpc']
      omega
  cases g with
  | issue =>
    obtain ⟨hpc, i, rest, hwaiting, hlen, ⟨o', rfl⟩ | ⟨halloc, hpc'⟩⟩ := goodStep_issue hstep
    · have hwork : (s.post i rest o').tab.work < s.tab.work := by
        simp only [Fetch.post, Window.work, hwaiting, length_append, length_cons, length_nil]
        omega
      obtain ⟨hgood, hless⟩ := htable hpc hpc hwork
      exact ⟨hgood, Or.inl hless⟩
    · -- The allocation was refused: so was the job in the window.
      have hat := h.atPc
      rw [hpc] at hat
      rw [h.accounted.max_eq] at hlen
      refine ⟨⟨hinv, fun rest hrest => ?_, fun _ => ⟨s.tab, hat.1, i, rest, hwaiting, hlen, ?_⟩⟩, Or.inl ?_⟩
      · rw [hpc'] at hrest
        cases hrest
      · by_contra hfits
        have hsome := (alloc_iff_of_table h.toFetchInv hpc).2 ⟨⟨not_lt.1 hfits, rfl⟩, rfl⟩
        rw [halloc] at hsome
        cases hsome
      · simp only [fetchWork, hpc, hpc']
        omega
  | pass completed =>
    obtain ⟨hpc, hsat, ⟨hposted, hwaiting, rfl⟩ | ⟨hany, hpc', htab⟩⟩ := goodStep_pass hstep
    · refine ⟨h, Or.inr ⟨hpc, hwaiting, ?_⟩⟩
      have hle := hsat.resolve_left hwaiting
      rw [hposted, h.accounted.max_eq] at hle
      exact Nat.le_zero.1 hle
    · have hwork : s'.tab.work < s.tab.work := by
        have hpass : Window.step (pieceSize pieces) 0 s.options.maxNumConcurrentRdmaReadOp.toNat s.tab
            (.pass completed) = some (s.tab.complete completed) :=
          Window.step_pass.2 ⟨⟨hsat, hany⟩, rfl⟩
        rw [htab]
        exact Window.work_lt hpass
      obtain ⟨hgood, hless⟩ := htable hpc (hpc'.trans hpc) hwork
      exact ⟨hgood, Or.inl hless⟩
  | loopDone =>
    simp only [goodStep, GoodEvent.event, fetchStep, ite_none_right_eq_some, some.injEq] at hstep
    obtain ⟨⟨hpc, -, -⟩, rfl⟩ := hstep
    have hat := h.atPc
    rw [hpc] at hat
    refine ⟨hinv.good (fun _ _ => hat.2.2) FetchPc.noConfusion, Or.inl ?_⟩
    simp only [fetchWork, hpc, length_range]
    omega
  | next =>
    obtain ⟨rest, hpc⟩ := goodStep_next_pc hstep
    obtain ⟨s'', hstep', hleak, hcases⟩ := goodStep_next halone h hpc
    rw [hstep] at hstep'
    cases hstep'
    rcases hcases with hret | ⟨rest', hpc', hshorter⟩
    · refine ⟨hinv.good (fun _ _ => hleak) (by rw [hret]; simp), Or.inl ?_⟩
      simp only [fetchWork, hpc, hret]
      omega
    · refine ⟨hinv.good (fun _ _ => hleak) (by rw [hpc']; exact FetchPc.noConfusion), Or.inl ?_⟩
      simp only [fetchWork, hpc, hpc']
      omega

include halone in
theorem goodInv_of_reaches (h : Reaches (goodStep pieces) (startFetch o pieces) s) : GoodInv o pieces s :=
  h.invariant (GoodInv.start halone) fun _ _ _ hinv hstep => (hinv.step halone hstep).1

end

/-! ## When the fetch succeeds -/

/-- Any choice of as many contiguous parts as may be read at once fits into the available memory, and one
may be read at once if there is one. -/
structure WindowFits (o : RdmaOptions) (pieces : List Piece) : Prop where
  fits : ∀ chosen : List Nat, chosen.Sublist (fetchTab pieces) →
    chosen.length ≤ o.maxNumConcurrentRdmaReadOp.toNat → sizes pieces chosen ≤ getAvailableRdmaBufferSize o
  limit_pos : 1 ≤ o.maxNumConcurrentRdmaReadOp ∨ fetchTab pieces = []

section

variable {o : RdmaOptions} {pieces : List Piece} {s : Fetch}

theorem WindowFits.not_refused (h : WindowFits o pieces) {w : Window Nat} (hreach : TableReaches o pieces w) :
    ¬ w.Refused (pieceSize pieces) (getAvailableRdmaBufferSize o) o.maxNumConcurrentRdmaReadOp.toNat :=
  (Window.forall_not_refused_iff (nodup_fetchTab pieces)).2 h.fits w hreach

/-- If a part waits or is outstanding there is room for one. -/
theorem WindowFits.limit_pos_of_table (h : WindowFits o pieces) {w : Window Nat}
    (hreach : TableReaches o pieces w) (hleft : w.waiting ≠ [] ∨ w.posted ≠ []) :
    1 ≤ o.maxNumConcurrentRdmaReadOp.toNat := by
  rcases h.limit_pos with hpos | hnil
  · omega
  · obtain ⟨before, hinv⟩ := Window.exists_inv_of_reaches hreach
    have hsplit := hinv.split
    rw [hnil, eq_comm, append_eq_nil_iff] at hsplit
    have hposted := hinv.posted_sublist
    rw [hsplit.1, sublist_nil] at hposted
    exact (hleft.elim (fun hne => hne hsplit.2) fun hne => hne hposted).elim

theorem succeeds_of_windowFits (halone : ∀ p ∈ pieces, p.size ≤ getAvailableRdmaBufferSize o)
    (h : WindowFits o pieces) : Succeeds o pieces where
  never_fails s hreach hpc := by
    obtain ⟨w, hw, hrefused⟩ := (goodInv_of_reaches halone hreach).failed hpc
    exact h.not_refused hw hrefused
  goes_on s hreach hpc := by
    have hinv := goodInv_of_reaches halone hreach
    have hat := hinv.atPc
    cases hs : s.pc with
    | table =>
      rw [hs] at hat
      by_cases hdone : s.tab.waiting = [] ∧ s.tab.posted = []
      · exact ⟨.loopDone, { s with pc := .others (range pieces.length) }, by
          simp only [goodStep, GoodEvent.event, fetchStep, hs, hdone, true_and, if_true]⟩
      · have hleft : s.tab.waiting ≠ [] ∨ s.tab.posted ≠ [] := not_and_or.1 hdone
        obtain ⟨event, w, hstep⟩ := Window.exists_step (h.limit_pos_of_table hat.1 hleft)
          (h.not_refused hat.1) hleft
        obtain ⟨g, s', hgood, -⟩ := goodStep_of_tableStep hinv.toFetchInv hs hstep
        exact ⟨g, s', hgood⟩
    | others rest =>
      obtain ⟨s', hgood, -⟩ := goodStep_next halone hinv hs
      exact ⟨.next, s', hgood⟩
    | returned ok =>
      cases ok with
      | true => exact absurd hs hpc
      | false =>
        obtain ⟨w, hw, hrefused⟩ := hinv.failed hs
        exact absurd hrefused (h.not_refused hw)
  bounded := by
    refine ⟨fetchWork pieces (startFetch o pieces), fun events s hrun => ?_⟩
    refine length_le_of_work (P := GoodInv o pieces) (fetchWork pieces) ?_ (GoodInv.start halone) hrun
    intro s g s' hinv hstep
    obtain ⟨hgood, hless | ⟨hpc, hwaiting, hzero⟩⟩ := hinv.step halone hstep
    · exact ⟨hgood, hless⟩
    · -- A part that waits has room for one.
      have hat := hinv.atPc
      rw [hpc] at hat
      have hpos := h.limit_pos_of_table hat.1 (Or.inl hwaiting)
      omega

theorem windowFits_of_succeeds (halone : ∀ p ∈ pieces, p.size ≤ getAvailableRdmaBufferSize o)
    (h : Succeeds o pieces) : WindowFits o pieces := by
  constructor
  · refine (Window.forall_not_refused_iff (nodup_fetchTab pieces)).1 fun w hw => ?_
    rintro ⟨i, rest, hwaiting, hlen, hlarge⟩
    -- The fetch gets to this state of the table and fails there.
    obtain ⟨s, hreach, hinv, hpc, rfl⟩ := reaches_of_table halone hw
    have halloc : dimesMemoryAlloc s.options (pieceSize pieces i) .rdma true = none := by
      cases hcase : dimesMemoryAlloc s.options (pieceSize pieces i) .rdma true with
      | none => rfl
      | some o' => exact absurd ((alloc_iff_of_table hinv hpc).1 hcase).1.1 (not_le.2 hlarge)
    have hmax : ¬ s.options.maxNumConcurrentRdmaReadOp ≤ s.tab.posted.length := by
      rw [hinv.accounted.max_eq]
      omega
    have hstep : goodStep pieces s .issue = some (errOutFree pieces (fun _ => true) s) := by
      simp only [goodStep, GoodEvent.event, fetchStep, hpc, hwaiting, halloc, hmax, if_false]
    exact h.never_fails _ (hreach.trans (Reaches.head hstep (Reaches.refl _))) rfl
  · by_contra hnot
    obtain ⟨hmax, hne⟩ := not_or.1 hnot
    obtain ⟨bound, hbound⟩ := h.bounded
    -- Nothing is ever posted and the loop goes round and round.
    have hidle : goodStep pieces (startFetch o pieces) (.pass fun _ => true) = some (startFetch o pieces) := by
      have hpc := startFetch_pc halone
      have hposted : (startFetch o pieces).tab.posted = [] := rfl
      have hwaiting : (startFetch o pieces).tab.waiting = fetchTab pieces := rfl
      have hsat : (startFetch o pieces).tab.Saturated
          (startFetch o pieces).options.maxNumConcurrentRdmaReadOp.toNat := by
        refine Or.inr ?_
        show o.maxNumConcurrentRdmaReadOp.toNat ≤ 0
        omega
      simp only [goodStep, GoodEvent.event, fetchStep, hpc, hsat, hposted, hwaiting, hne, and_self, if_true,
        if_false]
    have hrun : ∀ n, runSteps (goodStep pieces) (startFetch o pieces)
        (replicate n (.pass fun _ => true)) = some (startFetch o pieces) := by
      intro n
      induction n with
      | zero => rfl
      | succ n ih => rw [replicate_succ, runSteps, hidle, bind_some, ih]
    have hlength := hbound _ _ (hrun (bound + 1))
    rw [length_replicate] at hlength
    omega

end

/-- The fetch of a query: at most so many reads are outstanding, every part is fetched once, and the fetch
succeeds if every part alone fits into the memory that is available at the beginning, for all orders in
which the reads complete. -/
structure FetchRight (o : RdmaOptions) (pieces : List Piece) : Prop where
  window : ∀ s, Reaches (fetchStep pieces) (startFetch o pieces) s →
    s.tab.posted.length ≤ o.maxNumConcurrentRdmaReadOp.toNat
  once : ∀ s, Reaches (fetchStep pieces) (startFetch o pieces) s → (s.tab.finished ++ s.later).Nodup ∧
    (s.pc = .returned true → (s.tab.finished ++ s.later).Perm (range pieces.length))
  succeeds : (∀ p ∈ pieces, p.size ≤ getAvailableRdmaBufferSize o) → Succeeds o pieces

/-- The fetch is right if and only if the parts that may be read at once fit together, whenever every part
alone fits. -/
theorem fetchRight_iff (o : RdmaOptions) (pieces : List Piece) : FetchRight o pieces ↔
    ((∀ p ∈ pieces, p.size ≤ getAvailableRdmaBufferSize o) → WindowFits o pieces) := by
  constructor
  · exact fun h halone => windowFits_of_succeeds halone (h.succeeds halone)
  · intro h
    refine ⟨fun s hs => (fetchInv_of_reaches hs).window, fun s hs => (fetchInv_of_reaches hs).once, ?_⟩
    exact fun halone => succeeds_of_windowFits halone (h halone)

/-- 100 bytes of RDMA memory and at most two reads at a time. -/
def smallOptions : RdmaOptions := ⟨100, 0, 2, by decide, by decide⟩

/-- Of two parts of 60 bytes the second one does not wait for the first: the query fails. -/
theorem second_read_fails : ¬ FetchRight smallOptions [⟨60, .contiguous⟩, ⟨60, .contiguous⟩] ∧
    (runSteps (goodStep [⟨60, .contiguous⟩, ⟨60, .contiguous⟩])
      (startFetch smallOptions [⟨60, .contiguous⟩, ⟨60, .contiguous⟩]) [.issue, .issue]).map Fetch.pc =
        some (.returned false) := by
  refine ⟨fun h => ?_, by decide⟩
  have halone : ∀ p ∈ ([⟨60, .contiguous⟩, ⟨60, .contiguous⟩] : List Piece),
      p.size ≤ getAvailableRdmaBufferSize smallOptions := by decide
  have hfits := windowFits_of_succeeds halone (h.succeeds halone)
  exact absurd (hfits.fits [0, 1] (by decide) (by decide)) (by decide)

end DataSpaces.Dimes.Rdma
