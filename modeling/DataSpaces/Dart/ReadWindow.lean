import DataSpaces.Lib.Links
import DataSpaces.Lib.Runs

/-!
# The window of RDMA reads on InfiniBand

`dart_rdma_check_reads` walks over the scheduled operations of a transaction with `list_for_each_entry` and
posts them, each for one credit. Without credit it processes completions; `dart_rdma_process_ibv_cq` unlinks
and frees the operations that have completed, while the cursor stands in the same list. After the loop it
processes completions until the list is empty.

`Window` divides the list into the operations that are outstanding and those that have not been posted, with
the cursor between the two (`At`). Only outstanding operations can complete, and none does between the post
of an operation and the step of the cursor over it. Posting and the completion queue do not fail, and the
queue delivers the reads of this transaction.
-/

namespace DataSpaces.Dart.Ib.ReadWindow

open Lib List

/-! ## The source -/

/-- The nodes of the list: its head in the transaction, and the operations as they were scheduled. -/
inductive Node where
  | readOpsList
  | readOp (k : Nat)
deriving DecidableEq, Repr

/-- Where a call of `dart_rdma_check_reads` is. -/
inductive Pc where
  /-- the cursor goes to the node after this one -/
  | advance (p : Node)
  /-- at the test of the loop, with the cursor at this node -/
  | test (p : Node)
  /-- in the loop, before this operation is posted -/
  | body (k : Nat)
  /-- behind the loop -/
  | drain
  /-- returned 1 -/
  | done
  /-- followed a null link -/
  | fault
deriving DecidableEq, Repr

structure State where
  links : Links Node
  availRdmaCredit : Int
  pc : Pc
  /-- operations posted so far -/
  posted : List Nat
  /-- operations completed, unlinked and freed so far -/
  completed : List Nat

/-- The list after `n` calls of `dart_rdma_schedule_read`, which adds at the front. -/
def scheduleReads : Nat → Links Node
  | 0 => Links.initListHead ⟨fun _ => none, fun _ => none⟩ .readOpsList
  | n + 1 => ((scheduleReads n).listAdd (.readOp n) .readOpsList).getD (scheduleReads n)

/-- `dart_rdma_check_reads` with `n` scheduled operations; the loop begins with the node after the head. -/
def start (n : Nat) (numBuf : Int) : State where
  links := scheduleReads n
  availRdmaCredit := numBuf
  pc := .advance .readOpsList
  posted := []
  completed := []

/-- One completion in `dart_rdma_process_ibv_cq`. -/
def completeRead (s : State) (k : Nat) : State :=
  match s.links.listDel (.readOp k) with
  | none => { s with pc := .fault }
  | some links =>
    { s with links := links, completed := s.completed ++ [k], availRdmaCredit := s.availRdmaCredit + 1 }

/-- The loop of `dart_rdma_process_ibv_cq` over the completions that it polls; there may be none. -/
def processIbvCq (s : State) (wcs : List Nat) : State := wcs.foldl completeRead s

def State.outstanding (s : State) : List Nat := s.posted.filter fun k => k ∉ s.completed

/-- The call is in one of its two loops around `dart_rdma_process_ibv_cq`. -/
def State.waiting (s : State) : Bool :=
  match s.pc with
  | .body _ => decide (s.availRdmaCredit ≤ 0)
  | .drain => !decide (s.links.listEmpty .readOpsList)
  | _ => false

inductive Act where
  | advance
  | test
  | processIbvCq (wcs : List Nat)
  /-- `dart_rdma_get` -/
  | get
  | finish
deriving DecidableEq, Repr

def step (s : State) : Act → Option State
  | .advance =>
    match s.pc with
    | .advance p =>
      match s.links.next p with
      | none => some { s with pc := .fault }
      | some q => some { s with pc := .test q }
    | _ => none
  | .test =>
    match s.pc with
    | .test .readOpsList => some { s with pc := .drain }
    | .test (.readOp k) => some { s with pc := .body k }
    | _ => none
  | .processIbvCq wcs =>
    if s.waiting ∧ wcs.Nodup ∧ ∀ k ∈ wcs, k ∈ s.outstanding then some (processIbvCq s wcs) else none
  | .get =>
    match s.pc with
    | .body k =>
      if s.availRdmaCredit ≤ 0 then none
      else some { s with posted := s.posted ++ [k], availRdmaCredit := s.availRdmaCredit - 1,
                         pc := .advance (.readOp k) }
    | _ => none
  | .finish =>
    match s.pc with
    | .drain => if s.links.listEmpty .readOpsList then some { s with pc := .done } else none
    | _ => none

/-! ## The window -/

/-- The list has the outstanding operations and then those that have not been posted. -/
structure Window (n : Nat) (numBuf : Int) (s : State) (live rest : List Nat) : Prop where
  ring : Links.Ring s.links .readOpsList ((live ++ rest).map .readOp)
  order : s.posted ++ rest = (range n).reverse
  perm : s.posted.Perm (s.completed ++ live)
  credit : s.availRdmaCredit + live.length = numBuf
  room : 0 ≤ s.availRdmaCredit

/-- The cursor stands between the two parts. -/
def At (live rest : List Nat) : Pc → Prop
  | .advance .readOpsList => live = []
  | .advance (.readOp k) => ∃ before, live = before ++ [k]
  | .test p => (rest.map Node.readOp).headD .readOpsList = p
  | .body k => ∃ after, rest = k :: after
  | .drain => rest = []
  | .done => live = [] ∧ rest = []
  | .fault => False

namespace Window

variable {n k : Nat} {numBuf : Int} {s : State} {live rest : List Nat}

section

variable (h : Window n numBuf s live rest)

include h

theorem setPc (pc : Pc) : Window n numBuf { s with pc := pc } live rest :=
  ⟨h.ring, h.order, h.perm, h.credit, h.room⟩

theorem nodup_all : (s.posted ++ rest).Nodup := by
  rw [h.order]
  exact nodup_reverse.2 nodup_range

theorem nodup_posted : s.posted.Nodup := (List.nodup_append.1 h.nodup_all).1

theorem mem_live {k : Nat} (hk : k ∈ s.outstanding) : k ∈ live := by
  simp only [State.outstanding, mem_filter, decide_eq_true_eq] at hk
  have hmem := h.perm.subset hk.1
  rw [mem_append] at hmem
  exact hmem.resolve_left hk.2

/-- A node of the list has not been deleted. -/
theorem notMem_completed {k : Nat} (hk : k ∈ live ++ rest) : k ∉ s.completed := by
  intro hcompleted
  rw [mem_append] at hk
  rcases hk with hlive | hrest
  · have hnodup := h.perm.nodup_iff.1 h.nodup_posted
    exact (List.nodup_append.1 hnodup).2.2 k hcompleted k hlive rfl
  · have hposted : k ∈ s.posted := h.perm.symm.subset (mem_append_left _ hcompleted)
    exact (List.nodup_append.1 h.nodup_all).2.2 k hposted k hrest rfl

theorem mem_outstanding {k : Nat} (hk : k ∈ live) : k ∈ s.outstanding := by
  simp only [State.outstanding, mem_filter, decide_eq_true_eq]
  exact ⟨h.perm.symm.subset (mem_append_right _ hk), h.notMem_completed (mem_append_left _ hk)⟩

theorem outstanding_le : s.outstanding.length ≤ numBuf := by
  have hsub : s.outstanding.Subperm live := (h.nodup_posted.filter _).subperm fun k hk => h.mem_live hk
  have hlength := hsub.length_le
  have hcredit := h.credit
  have hroom := h.room
  omega

/-- A completion takes an operation out of the outstanding ones, whatever its place. -/
theorem completeRead (hk : k ∈ live) :
    ∃ links, ReadWindow.completeRead s k =
        { s with links := links, completed := s.completed ++ [k], availRdmaCredit := s.availRdmaCredit + 1 } ∧
      Window n numBuf (ReadWindow.completeRead s k) (live.erase k) rest := by
  obtain ⟨l₁, l₂, -, hlive, herase⟩ := exists_erase_eq hk
  have hring := h.ring
  rw [hlive, append_assoc, cons_append, map_append, map_cons] at hring
  obtain ⟨links, hdel, hring', -⟩ := hring.listDel (l₁.map Node.readOp)
  rw [ReadWindow.completeRead, hdel]
  refine ⟨links, rfl, ?_, h.order, ?_, ?_, ?_⟩
  · rw [herase, append_assoc, map_append]
    exact hring'
  · apply h.perm.trans
    rw [append_assoc]
    exact (perm_cons_erase hk).append_left _
  · have hlength := length_erase_add_one hk
    have hcredit := h.credit
    simp only
    omega
  · have hroom := h.room
    simp only
    omega

theorem processIbvCq {wcs : List Nat} (hnodup : wcs.Nodup) (hmem : ∀ k ∈ wcs, k ∈ live) :
    ∃ links live', ReadWindow.processIbvCq s wcs =
        { s with links := links, completed := s.completed ++ wcs,
                 availRdmaCredit := s.availRdmaCredit + wcs.length } ∧
      Window n numBuf (ReadWindow.processIbvCq s wcs) live' rest := by
  induction wcs generalizing s live with
  | nil => exact ⟨s.links, live, by simp [ReadWindow.processIbvCq], h⟩
  | cons k wcs ih =>
    obtain ⟨hk, hnodup'⟩ := nodup_cons.1 hnodup
    obtain ⟨links, heq, hone⟩ := h.completeRead (hmem k mem_cons_self)
    -- the other completions are for other operations
    obtain ⟨links', live', heq', hrest⟩ := ih hone hnodup' fun j hj =>
      (mem_erase_of_ne (ne_of_mem_of_not_mem hj hk)).2 (hmem j (mem_cons_of_mem _ hj))
    have hcredit : s.availRdmaCredit + 1 + wcs.length = s.availRdmaCredit + (k :: wcs).length := by
      rw [length_cons]
      omega
    refine ⟨links', live', ?_, hrest⟩
    apply heq'.trans
    rw [heq]
    simp only [hcredit, append_assoc, singleton_append]

end

theorem get (h : Window n numBuf s live (k :: rest)) (hcredit : 0 < s.availRdmaCredit) (pc : Pc) :
    Window n numBuf { s with posted := s.posted ++ [k], availRdmaCredit := s.availRdmaCredit - 1, pc := pc }
      (live ++ [k]) rest where
  ring := by
    rw [append_assoc]
    exact h.ring
  order := by
    rw [append_assoc]
    exact h.order
  perm := by
    rw [← append_assoc]
    exact h.perm.append_right _
  credit := by
    have hcredit := h.credit
    simp only [length_append, length_singleton]
    omega
  room := Int.sub_nonneg_of_le hcredit

end Window

/-- The window, with the cursor at its place. -/
def Inv (n : Nat) (numBuf : Int) (s : State) : Prop :=
  ∃ live rest, Window n numBuf s live rest ∧ At live rest s.pc

section

variable {n : Nat} {numBuf : Int} {s s' : State}

/-- The node after the cursor is the first that has not been posted. -/
theorem Window.next_eq {live rest : List Nat} (h : Window n numBuf s live rest) {p : Node}
    (hat : At live rest (.advance p)) :
    s.links.next p = some ((rest.map Node.readOp).headD .readOpsList) := by
  have hring := h.ring
  cases p with
  | readOpsList =>
    rw [show live = [] from hat] at hring
    exact hring.next_head
  | readOp k =>
    obtain ⟨before, rfl⟩ := hat
    rw [append_assoc, map_append] at hring
    exact hring.next_mem

theorem At.of_waiting {live live' rest : List Nat} (hat : At live rest s.pc) (hwait : s.waiting = true) :
    At live' rest s.pc := by
  unfold State.waiting at hwait
  split at hwait
  next k hpc =>
    rw [hpc] at hat ⊢
    exact hat
  next hpc =>
    rw [hpc] at hat ⊢
    exact hat
  next => cases hwait

theorem ring_scheduleReads (n : Nat) :
    Links.Ring (scheduleReads n) .readOpsList ((range n).reverse.map .readOp) := by
  induction n with
  | zero => exact Links.Ring.initListHead _ _
  | succ n ih =>
    obtain ⟨links, hadd, hring⟩ := ih.listAdd (x := .readOp n) (by simp)
    rw [scheduleReads, hadd, Option.getD_some, range_succ, reverse_concat, map_cons]
    exact hring

theorem inv_start (hbuf : 0 ≤ numBuf) : Inv n numBuf (start n numBuf) :=
  ⟨[], (range n).reverse, ⟨ring_scheduleReads n, rfl, Perm.refl _, by simp [start], hbuf⟩, rfl⟩

end

/-! ## The call returns -/

def Pc.toGo : Pc → Nat
  | .advance _ => 4
  | .test _ => 3
  | .body _ => 2
  | .drain => 1
  | .done => 0
  | .fault => 0

/-- An operation takes three steps of the loop and one completion. -/
def work (n : Nat) (s : State) : Nat := 3 * (n - s.posted.length) + (n - s.completed.length) + s.pc.toGo

/-- A step that is not a poll without completions. -/
def Act.goesOn : Act → Bool
  | .processIbvCq [] => false
  | _ => true

section

variable {n : Nat} {numBuf : Int} {s s' : State} {live rest : List Nat} {a : Act}

theorem Window.posted_add_rest (h : Window n numBuf s live rest) : s.posted.length + rest.length = n := by
  rw [← length_append, h.order, length_reverse, length_range]

theorem Window.completed_add_live (h : Window n numBuf s live rest) :
    s.completed.length + live.length = s.posted.length := by
  rw [← length_append, h.perm.length_eq]

/-- A step keeps the window, and every step but a poll without completions makes the work less. -/
theorem Inv.step (h : Inv n numBuf s) (hstep : ReadWindow.step s a = some s') :
    Inv n numBuf s' ∧ (a.goesOn = true → work n s' < work n s) := by
  obtain ⟨live, rest, hwin, hat⟩ := h
  have hposted := hwin.posted_add_rest
  have hcompleted := hwin.completed_add_live
  cases a with
  | advance =>
    simp only [ReadWindow.step] at hstep
    split at hstep
    next p hpc =>
      -- the cursor follows no null link
      rw [hpc] at hat
      rw [hwin.next_eq hat] at hstep
      cases hstep
      exact ⟨⟨live, rest, hwin.setPc _, rfl⟩, fun _ => by simp [work, hpc, Pc.toGo]⟩
    · cases hstep
  | test =>
    simp only [ReadWindow.step] at hstep
    split at hstep
    next hpc =>
      cases hstep
      rw [hpc] at hat
      cases rest with
      | nil => exact ⟨⟨live, [], hwin.setPc _, rfl⟩, fun _ => by simp [work, hpc, Pc.toGo]⟩
      | cons k rest => cases hat
    next k hpc =>
      cases hstep
      rw [hpc] at hat
      cases rest with
      | nil => cases hat
      | cons j rest =>
        cases hat
        exact ⟨⟨live, k :: rest, hwin.setPc _, rest, rfl⟩, fun _ => by simp [work, hpc, Pc.toGo]⟩
    · cases hstep
  | processIbvCq wcs =>
    obtain ⟨⟨hwait, hnodup, hout⟩, hs'⟩ := Option.ite_none_right_eq_some.1 hstep
    cases hs'
    obtain ⟨links, live', heq, hwin'⟩ := hwin.processIbvCq hnodup fun k hk => hwin.mem_live (hout k hk)
    have hcompleted' := hwin'.completed_add_live
    refine ⟨⟨live', rest, hwin', ?_⟩, fun ha => ?_⟩
    · rw [heq]
      exact hat.of_waiting hwait
    · cases wcs with
      | nil => cases ha
      | cons k wcs =>
        simp only [heq, length_append, length_cons] at hcompleted'
        simp only [heq, work, length_append, length_cons]
        omega
  | get =>
    simp only [ReadWindow.step] at hstep
    split at hstep
    next k hpc =>
      obtain ⟨hcredit, hs'⟩ := Option.ite_none_left_eq_some.1 hstep
      cases hs'
      rw [hpc] at hat
      obtain ⟨after, rfl⟩ := hat
      refine ⟨⟨live ++ [k], after, hwin.get (not_le.1 hcredit) _, live, rfl⟩, fun _ => ?_⟩
      rw [length_cons] at hposted
      simp only [work, hpc, Pc.toGo, length_append, length_singleton]
      omega
    · cases hstep
  | finish =>
    simp only [ReadWindow.step] at hstep
    split at hstep
    next hpc =>
      obtain ⟨hempty, hs'⟩ := Option.ite_none_right_eq_some.1 hstep
      cases hs'
      rw [hwin.ring.listEmpty_iff, map_eq_nil_iff, append_eq_nil_iff] at hempty
      exact ⟨⟨live, rest, hwin.setPc _, hempty⟩, fun _ => by simp [work, hpc, Pc.toGo]⟩
    · cases hstep

/-- A call that waits has an outstanding operation to wait for. -/
theorem Window.exists_complete (h : Window n numBuf s live rest)
    (hwait : s.waiting = true) (hlive : live ≠ []) : ∃ a, a.goesOn = true ∧ (step s a).isSome := by
  obtain ⟨k, live', rfl⟩ := exists_cons_of_ne_nil hlive
  have hout : k ∈ s.outstanding := h.mem_outstanding mem_cons_self
  exact ⟨.processIbvCq [k], rfl, by simp [step, hwait, hout]⟩

theorem Inv.exists_step (h : Inv n numBuf s) (hbuf : 1 ≤ numBuf) (hpc : s.pc ≠ .done) :
    ∃ a, a.goesOn = true ∧ (ReadWindow.step s a).isSome := by
  obtain ⟨live, rest, hwin, hat⟩ := h
  cases hs : s.pc with
  | advance p =>
    rw [hs] at hat
    exact ⟨.advance, rfl, by simp [ReadWindow.step, hs, hwin.next_eq hat]⟩
  | test p =>
    cases p with
    | readOpsList => exact ⟨.test, rfl, by simp [ReadWindow.step, hs]⟩
    | readOp k => exact ⟨.test, rfl, by simp [ReadWindow.step, hs]⟩
  | body k =>
    by_cases hcredit : s.availRdmaCredit ≤ 0
    · apply hwin.exists_complete (by simp [State.waiting, hs, hcredit])
      rintro rfl
      have hnone := hwin.credit
      rw [length_nil] at hnone
      omega
    · exact ⟨.get, rfl, by simp [ReadWindow.step, hs, hcredit]⟩
  | drain =>
    rw [hs] at hat
    by_cases hempty : s.links.listEmpty .readOpsList
    · exact ⟨.finish, rfl, by simp [ReadWindow.step, hs, hempty]⟩
    · apply hwin.exists_complete (by simp [State.waiting, hs, hempty])
      rintro rfl
      apply hempty
      rw [hwin.ring.listEmpty_iff, show rest = [] from hat]
      rfl
  | done => exact absurd hs hpc
  | fault =>
    rw [hs] at hat
    exact hat.elim

theorem eq_of_not_goesOn (ha : ¬ a.goesOn = true) (hstep : step s a = some s') : s' = s := by
  cases a with
  | processIbvCq wcs =>
    cases wcs with
    | nil =>
      obtain ⟨-, hs'⟩ := Option.ite_none_right_eq_some.1 hstep
      exact (Option.some.inj hs').symm
    | cons k wcs => exact absurd rfl ha
  | advance => exact absurd rfl ha
  | test => exact absurd rfl ha
  | get => exact absurd rfl ha
  | finish => exact absurd rfl ha

/-- A call whose state keeps changing returns. -/
theorem exists_done (hbuf : 0 ≤ numBuf) {ρ : Nat → State} (hρ : Behaviour step (start n numBuf) ρ)
    (hmove : ∀ t, (ρ t).pc ≠ .done → ∃ t' ≥ t, ρ (t' + 1) ≠ ρ t') : ∃ t, (ρ t).pc = .done := by
  have hgoes : Behaviour (guardStep (fun _ a => a.goesOn) step) (start n numBuf) ρ := by
    refine ⟨hρ.start, fun t => ?_⟩
    rcases hρ.next t with hstay | ⟨a, ha⟩
    · exact Or.inl hstay
    · by_cases hgo : a.goesOn = true
      · exact Or.inr ⟨a, guardStep_eq_some.2 ⟨hgo, ha⟩⟩
      · exact Or.inl (eq_of_not_goesOn hgo ha)
  -- every step but a poll without completions makes the work less
  have hbound : ∀ actions s, runSteps (guardStep (fun _ a => a.goesOn) step) (start n numBuf) actions = some s →
      ¬ s.pc = .done → actions.length ≤ work n (start n numBuf) := by
    intro actions s hrun _
    apply length_le_of_work (P := Inv n numBuf) (work n) ?_ (inv_start hbuf) hrun
    intro s a s' h hstep
    obtain ⟨hgo, hstep'⟩ := guardStep_eq_some.1 hstep
    obtain ⟨hinv, hlt⟩ := h.step hstep'
    exact ⟨hinv, hlt hgo⟩
  obtain ⟨t, -, hdone⟩ := hgoes.eventually (fun s => s.pc = .done) (work n (start n numBuf)) (t := 0) hbound
    fun t' _ hnot => by
      obtain ⟨t'', ht'', hne⟩ := hmove t' hnot
      exact ⟨t'', ht'', (hgoes.next t'').resolve_left hne⟩
  exact ⟨t, hdone⟩

end

/-! ## The window over whole runs -/

/-- The operation under the cursor, from the test of the loop until the cursor has gone over it. -/
def Pc.readOp : Pc → Option Nat
  | .advance (.readOp k) => some k
  | .test (.readOp k) => some k
  | .body k => some k
  | _ => none

theorem At.mem_of_readOp {live rest : List Nat} {pc : Pc} (hat : At live rest pc) {k : Nat}
    (hk : pc.readOp = some k) : k ∈ live ++ rest := by
  cases pc with
  | advance p =>
    cases p with
    | readOpsList => cases hk
    | readOp j =>
      cases hk
      obtain ⟨before, rfl⟩ := hat
      simp
  | test p =>
    cases p with
    | readOpsList => cases hk
    | readOp j =>
      cases hk
      cases rest with
      | nil => cases hat
      | cons i rest =>
        cases hat
        simp
  | body j =>
    cases hk
    obtain ⟨after, rfl⟩ := hat
    simp
  | drain => cases hk
  | done => cases hk
  | fault => cases hk

/-- For any number of scheduled operations and any completions: no operation is posted twice, at most
`numBuf` are outstanding, the cursor is never at a deleted node and follows no null link; the call returns
when every operation has been posted once and has completed. It never waits for nothing, and it does return
if the completion queue goes on. -/
theorem check_reads_window (n : Nat) {numBuf : Int} (hbuf : 1 ≤ numBuf) :
    (∀ s, Reaches step (start n numBuf) s → s.posted.Nodup ∧ s.outstanding.length ≤ numBuf ∧
      (∀ k, s.pc.readOp = some k → k ∉ s.completed) ∧ s.pc ≠ .fault ∧
      (s.pc = .done → s.posted = (range n).reverse ∧ s.completed.Perm (range n)) ∧
      (s.pc ≠ .done → ∃ a s', step s a = some s' ∧ s' ≠ s)) ∧
    ∀ ρ, Behaviour step (start n numBuf) ρ → (∀ t, (ρ t).pc ≠ .done → ∃ t' ≥ t, ρ (t' + 1) ≠ ρ t') →
      ∃ t, (ρ t).pc = .done := by
  have hbuf' : 0 ≤ numBuf := by omega
  refine ⟨fun s hs => ?_, fun ρ hρ hmove => exists_done hbuf' hρ hmove⟩
  have hinv : Inv n numBuf s := hs.invariant (inv_start hbuf') fun s a s' h hstep => (h.step hstep).1
  obtain ⟨live, rest, hwin, hat⟩ := hinv
  refine ⟨hwin.nodup_posted, hwin.outstanding_le, fun k hk => hwin.notMem_completed (hat.mem_of_readOp hk), ?_,
    fun hdone => ?_, fun hnot => ?_⟩
  · intro hfault
    rw [hfault] at hat
    exact hat
  · rw [hdone] at hat
    obtain ⟨rfl, rfl⟩ := hat
    have horder := hwin.order
    have hperm := hwin.perm
    rw [append_nil] at horder hperm
    exact ⟨horder, hperm.symm.trans (horder ▸ reverse_perm _)⟩
  · have hinv : Inv n numBuf s := ⟨live, rest, hwin, hat⟩
    obtain ⟨a, hgo, hsome⟩ := hinv.exists_step hbuf hnot
    obtain ⟨s', hstep⟩ := Option.isSome_iff_exists.1 hsome
    refine ⟨a, s', hstep, ?_⟩
    rintro rfl
    exact lt_irrefl _ ((hinv.step hstep).2 hgo)

/-- Two operations and one credit: the first completes before the second is posted. -/
theorem check_reads_window_two :
    ∃ s, Reaches step (start 2 1) s ∧ s.pc = .done ∧ s.posted = [1, 0] ∧ s.completed.Perm (range 2) := by
  have hrun : Reaches step (start 2 1) _ := ⟨[.advance, .test, .get, .advance, .test, .processIbvCq [1], .get,
    .advance, .test, .processIbvCq [0], .finish], rfl⟩
  obtain ⟨-, -, -, -, hdone, -⟩ := (check_reads_window 2 (le_refl 1)).1 _ hrun
  exact ⟨_, hrun, rfl, hdone rfl⟩

end DataSpaces.Dart.Ib.ReadWindow
