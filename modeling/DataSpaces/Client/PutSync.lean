import DataSpaces.Lib.Runs

/-!
# Waiting for a put

A put hands its data to the transport, which sends it later. Its completion is signalled by a flag out
of a ring of 4095 (`sync_op` in `dc_gspace.c`): `syncop_next` takes the next flag and clears it, and the
completion of the transfer sets it. `dspaces_put_sync` waits for the flag that the last transfer has
taken (`sync_op_id` in `common_dataspaces.c`). A put in shared memory builds is a loop over blocks, each
with a transfer and a flag of its own; a block that fails ends the loop.

Transfers complete in any order and at any time, also between the blocks of a put. The log keeps which
call has issued a transfer and which call was the last one that succeeded.
-/

namespace DataSpaces.Client

open Lib List Function

/-! ## The source -/

/-- The number of flags. -/
def numOp : Nat := 4095

/-- `sync_op`; a flag is `true` for the value `1`. -/
structure SyncOp where
  next : Nat
  opid : Nat → Bool

/-- Take the next flag. A flag that is still in use is reported, but taken all the same. -/
def syncopNext (op : SyncOp) : Nat × SyncOp :=
  (op.next, ⟨(op.next + 1) % numOp, update op.opid op.next false⟩)

/-- A transfer that has been posted and has not completed, with the call that has issued it. -/
structure Transfer where
  slot : Nat
  call : Nat
  deriving DecidableEq

/-- The client, between or in calls of put. The calls are numbered; `current` is the number of blocks
that the running call has sent, `latest` the last call that returned `0`. -/
structure PutClient where
  syncOp : SyncOp
  syncOpId : Nat
  outstanding : List Transfer
  calls : Nat
  current : Option Nat
  latest : Option Nat

/-- `dcg_obj_put`: the flag is taken before the message is allocated and sent. -/
def dcgObjPut (s : PutClient) (sent : Bool) : Option Nat × PutClient :=
  let syncOpId := (syncopNext s.syncOp).1
  let s := { s with syncOp := (syncopNext s.syncOp).2 }
  if sent then (some syncOpId, { s with outstanding := s.outstanding ++ [⟨syncOpId, s.calls⟩] })
  else (none, s)

/-- `obj_put_completion`. -/
def objPutCompletion (s : PutClient) (t : Transfer) : PutClient :=
  { s with
    syncOp := { s.syncOp with opid := update s.syncOp.opid t.slot true }
    outstanding := s.outstanding.erase t }

/-- The loop of `dcg_obj_sync` has come to its end. -/
def dspacesPutSync (s : PutClient) : Bool := s.syncOp.opid s.syncOpId

/-! ## Runs -/

def PutClient.start : PutClient := ⟨⟨0, fun _ => true⟩, 0, [], 0, none, none⟩

/-- What becomes of a block: it is sent, or sending it fails, or the object cannot be allocated. -/
inductive BlockResult where
  | sent
  | notSent
  | notAllocated

inductive PutStep where
  /-- put is called -/
  | call
  /-- the next block of the call -/
  | block (r : BlockResult)
  /-- the call returns `0` -/
  | finish
  /-- a transfer completes -/
  | complete (t : Transfer)

/-- The call ends with an error. -/
def PutClient.fail (s : PutClient) : PutClient := { s with calls := s.calls + 1, current := none }

/-- One round of the loop over the blocks, after `b` blocks. -/
def PutClient.block (s : PutClient) (b : Nat) : BlockResult → PutClient
  | .notAllocated => s.fail
  -- The flag is taken before the message is sent.
  | .notSent => (dcgObjPut s false).2.fail
  | .sent =>
    match dcgObjPut s true with
    -- Every block overwrites the flag of the one before.
    | (some syncOpId, s') => { s' with syncOpId := syncOpId, current := some (b + 1) }
    | (none, s') => s'.fail

def PutClient.step (s : PutClient) : PutStep → Option PutClient
  | .call => if s.current = none then some { s with current := some 0 } else none
  | .block r => s.current.map fun b => s.block b r
  | .finish =>
    match s.current with
    | some (_ + 1) =>
      some { s with calls := s.calls + 1, current := none, latest := some s.calls }
    | _ => none
  | .complete t => if t ∈ s.outstanding then some (objPutCompletion s t) else none

/-- No transfer of the last successful put is outstanding. -/
def LatestDone (s : PutClient) : Prop := ∀ t ∈ s.outstanding, s.latest ≠ some t.call

/-- The steps for which the flags work: a flag is not taken for a transfer while another one that uses it
is outstanding, a call does not fail after it has sent a block, and the blocks of a call complete in
their order. -/
def orderly (s : PutClient) : PutStep → Bool
  | .block .sent => s.outstanding.all fun t => t.slot ≠ s.syncOp.next
  | .block _ => decide (s.current = some 0)
  | .complete t => decide (s.outstanding.find? (fun t' => t'.call = t.call) = some t)
  | _ => true

/-! ## Invariant -/

/-- The call whose last block has taken the flag that `dspaces_put_sync` waits for. -/
def PutClient.owner (s : PutClient) : Option Nat :=
  match s.current with
  | some (_ + 1) => some s.calls
  | _ => s.latest

structure PutInv (s : PutClient) : Prop where
  slots : (s.outstanding.map Transfer.slot).Nodup
  flags : ∀ t ∈ s.outstanding, s.syncOp.opid t.slot = false
  -- The running call has outstanding transfers only if it has sent blocks.
  calls : ∀ t ∈ s.outstanding, t.call < s.calls ∨ t.call = s.calls ∧ s.owner = some s.calls
  latest : ∀ p, s.latest = some p → p < s.calls
  last : ∀ p, s.owner = some p →
    ∀ t, (s.outstanding.filter fun t => t.call = p).getLast? = some t → t.slot = s.syncOpId

theorem putInv_start : PutInv .start := by
  refine ⟨nodup_nil, nofun, nofun, nofun, nofun⟩

variable {α : Type*} {l : List α} {t : α}

/-- The first outstanding transfer of a call goes away. -/
theorem filter_erase_of_find?_eq [DecidableEq α] {q : α → Bool} (h : l.find? q = some t) :
    (l.erase t).filter q = (l.filter q).tail := by
  have ht : q t = true := find?_some h
  induction l with
  | nil => cases h
  | cons x l ih =>
    rcases hx : q x with _ | _
    · rw [find?_cons_of_neg (by simp [hx])] at h
      have hxt : (x == t) = false := by
        rw [beq_eq_false_iff_ne]
        rintro rfl
        exact absurd (ht.symm.trans hx) nofun
      rw [erase_cons_tail (by simp [hxt]), filter_cons_of_neg (by simp [hx]),
        filter_cons_of_neg (by simp [hx]), ih h]
    · rw [find?_cons_of_pos hx, Option.some.injEq] at h
      subst h
      rw [erase_cons_head, filter_cons_of_pos hx, tail_cons]

theorem filter_erase_of_not [DecidableEq α] {q : α → Bool} (h : q t = false) :
    (l.erase t).filter q = l.filter q := by
  induction l with
  | nil => rfl
  | cons x l ih =>
    by_cases hxt : x = t
    · subst hxt
      rw [erase_cons_head, filter_cons_of_neg (by simp [h])]
    · rw [erase_cons_tail (by simpa using hxt), filter_cons, filter_cons, ih]

theorem getLast?_of_tail (h : l.tail.getLast? = some t) : l.getLast? = some t := by
  cases l with
  | nil => exact h
  | cons x l =>
    rw [tail_cons] at h
    rw [getLast?_cons, h]
    rfl

section

variable {s : PutClient} (h : PutInv s)

include h

/-- A flag is taken for a block that is sent. -/
theorem PutInv.sent (hfree : ∀ t ∈ s.outstanding, t.slot ≠ s.syncOp.next) (b : Nat) :
    PutInv (s.block b .sent) := by
  have hblock : s.block b .sent =
      { s with
        syncOp := (syncopNext s.syncOp).2
        outstanding := s.outstanding ++ [⟨s.syncOp.next, s.calls⟩]
        syncOpId := s.syncOp.next
        current := some (b + 1) } := rfl
  rw [hblock]
  refine ⟨?_, ?_, ?_, h.latest, ?_⟩
  · rw [map_append, List.nodup_append]
    refine ⟨h.slots, nodup_singleton _, fun x hx y hy => ?_⟩
    obtain ⟨t, ht, rfl⟩ := mem_map.1 hx
    rw [mem_singleton.1 hy]
    exact hfree t ht
  · intro t ht
    rcases mem_append.1 ht with hold | hnew
    · show update s.syncOp.opid s.syncOp.next false t.slot = false
      rw [update_of_ne (hfree t hold)]
      exact h.flags t hold
    · rw [mem_singleton.1 hnew]
      exact update_self ..
  · intro t ht
    rcases mem_append.1 ht with hold | hnew
    · rcases h.calls t hold with hlt | ⟨heq, -⟩
      · exact Or.inl hlt
      · exact Or.inr ⟨heq, rfl⟩
    · rw [mem_singleton.1 hnew]
      exact Or.inr ⟨rfl, rfl⟩
  · intro p hp t ht
    obtain rfl : s.calls = p := Option.some.inj hp
    dsimp only at ht ⊢
    -- The new transfer is the last one of the call.
    rw [filter_append, filter_cons_of_pos (by simp), filter_nil,
      getLast?_append_of_ne_nil _ (cons_ne_nil _ _)] at ht
    rw [← Option.some.inj ht]
    rfl

/-- Once the running call is over, all transfers are of earlier calls. -/
theorem PutInv.call_lt_succ {t : Transfer} (ht : t ∈ s.outstanding) : t.call < s.calls + 1 := by
  rcases h.calls t ht with hlt | ⟨heq, -⟩
  · exact Nat.lt_succ_of_lt hlt
  · exact Nat.lt_succ_of_le heq.le

/-- A call fails before it has sent a block. -/
theorem PutInv.fail (hcurrent : s.current = some 0) : PutInv s.fail := by
  have howner : s.owner = s.latest := by rw [PutClient.owner, hcurrent]
  refine ⟨h.slots, h.flags, ?_, ?_, ?_⟩
  · exact fun t ht => Or.inl (h.call_lt_succ ht)
  · exact fun p hp => Nat.lt_succ_of_lt (h.latest p hp)
  · intro p hp
    exact h.last p (howner.trans hp)

/-- A flag is taken in vain. -/
theorem PutInv.notSent : PutInv (dcgObjPut s false).2 := by
  refine ⟨h.slots, fun t ht => ?_, h.calls, h.latest, h.last⟩
  show update s.syncOp.opid s.syncOp.next false t.slot = false
  by_cases hslot : t.slot = s.syncOp.next
  · rw [hslot, update_self]
  · rw [update_of_ne hslot]
    exact h.flags t ht

/-- A call returns. -/
theorem PutInv.finish {b : Nat} (hcurrent : s.current = some (b + 1)) :
    PutInv { s with calls := s.calls + 1, current := none, latest := some s.calls } := by
  have howner : s.owner = some s.calls := by rw [PutClient.owner, hcurrent]
  refine ⟨h.slots, h.flags, ?_, ?_, ?_⟩
  · exact fun t ht => Or.inl (h.call_lt_succ ht)
  · intro p hp
    rw [← Option.some.inj hp]
    exact Nat.lt_succ_self _
  · intro p hp
    exact h.last p (howner.trans hp)

/-- A transfer completes, the first one of its call. -/
theorem PutInv.complete {t : Transfer} (ht : t ∈ s.outstanding)
    (hfirst : s.outstanding.find? (fun t' => t'.call = t.call) = some t) : PutInv (objPutCompletion s t) := by
  have howner : (objPutCompletion s t).owner = s.owner := rfl
  refine ⟨?_, ?_, ?_, h.latest, ?_⟩
  · exact h.slots.sublist (Sublist.map _ (erase_sublist))
  · intro t' ht'
    -- The other transfers use other flags.
    have hslot : t'.slot ≠ t.slot := by
      have hperm := (perm_cons_erase ht).map Transfer.slot
      have hnd := hperm.nodup_iff.1 h.slots
      rw [map_cons, nodup_cons] at hnd
      intro heq
      exact hnd.1 (heq ▸ mem_map_of_mem ht')
    show update s.syncOp.opid t.slot true t'.slot = false
    rw [update_of_ne hslot]
    exact h.flags t' (mem_of_mem_erase ht')
  · exact fun t' ht' => h.calls t' (mem_of_mem_erase ht')
  · intro p hp t' ht'
    apply h.last p (howner ▸ hp) t'
    have ht'' : ((s.outstanding.erase t).filter fun t' => t'.call = p).getLast? = some t' := ht'
    by_cases hcall : t.call = p
    · subst hcall
      rw [filter_erase_of_find?_eq hfirst] at ht''
      exact getLast?_of_tail ht''
    · rw [filter_erase_of_not (by simpa using hcall)] at ht''
      exact ht''

theorem PutInv.step {a : PutStep} {s' : PutClient} (hok : orderly s a = true)
    (hstep : s.step a = some s') : PutInv s' := by
  cases a with
  | call =>
    obtain ⟨hcurrent, hs'⟩ := Option.ite_none_right_eq_some.1 hstep
    rw [← Option.some.inj hs']
    have howner : s.owner = s.latest := by rw [PutClient.owner, hcurrent]
    refine ⟨h.slots, h.flags, ?_, h.latest, ?_⟩
    · intro t ht
      have hcall := h.calls t ht
      rw [howner] at hcall
      exact hcall
    · intro p hp
      exact h.last p (howner.trans hp)
  | block r =>
    obtain ⟨b, hcurrent, hs'⟩ := Option.map_eq_some_iff.1 hstep
    rw [← hs']
    cases r with
    | sent => exact h.sent (fun t ht => of_decide_eq_true (all_eq_true.1 hok t ht)) b
    | notSent => exact h.notSent.fail (of_decide_eq_true hok)
    | notAllocated => exact h.fail (of_decide_eq_true hok)
  -- Only here the most recent successful put changes.
  | finish =>
    rw [PutClient.step] at hstep
    split at hstep
    · next b hcurrent =>
      rw [← Option.some.inj hstep]
      exact h.finish hcurrent
    · cases hstep
  -- The blocks of a put complete in order, so an earlier transfer does not set the flag of the last.
  | complete t =>
    obtain ⟨ht, hs'⟩ := Option.ite_none_right_eq_some.1 hstep
    rw [← Option.some.inj hs']
    exact h.complete ht (of_decide_eq_true hok)

/-- Between two calls the flag of the last block tells about the whole put. -/
theorem PutInv.latestDone (hidle : s.current = none) (hsync : dspacesPutSync s = true) : LatestDone s := by
  intro t ht hlatest
  have howner : s.owner = some t.call := by rw [PutClient.owner, hidle, hlatest]
  have hmem : t ∈ s.outstanding.filter fun t' => t'.call = t.call := mem_filter.2 ⟨ht, by simp⟩
  obtain ⟨t', ht'⟩ : ∃ t', (s.outstanding.filter fun t' => t'.call = t.call).getLast? = some t' :=
    ⟨_, getLast?_eq_some_getLast (ne_nil_of_mem hmem)⟩
  have hslot := h.last _ howner t' ht'
  have hflag := h.flags t' (mem_filter.1 (mem_of_getLast? ht')).1
  rw [hslot] at hflag
  exact absurd (hsync.symm.trans hflag) nofun

end

/-- In every run of orderly steps, `dspaces_put_sync` returns only after all transfers of the most recent
successful put have completed. -/
theorem put_sync_waits (s : PutClient) (hs : Reaches (guardStep orderly PutClient.step) .start s)
    (hidle : s.current = none) (hsync : dspacesPutSync s = true) : LatestDone s := by
  have h : PutInv s := hs.invariant putInv_start fun s a s' h hstep => by
    obtain ⟨hok, hstep'⟩ := guardStep_eq_some.1 hstep
    exact h.step hok hstep'
  exact h.latestDone hidle hsync

/-- A put, and one that cannot be sent before the transfer of the first one completes. -/
theorem put_sync_waits_failed_put :
    ∃ s, Reaches (guardStep orderly PutClient.step) .start s ∧ s.current = none ∧
      dspacesPutSync s = true ∧ s.latest = some 0 ∧ LatestDone s := by
  obtain ⟨s, hrun, hidle, hsync, hlatest⟩ : ∃ s,
      runSteps (guardStep orderly PutClient.step) .start
        [.call, .block .sent, .finish, .call, .block .notSent, .complete ⟨0, 0⟩] = some s ∧
        s.current = none ∧ dspacesPutSync s = true ∧ s.latest = some 0 := ⟨_, rfl, rfl, rfl, rfl⟩
  exact ⟨s, ⟨_, hrun⟩, hidle, hsync, hlatest, put_sync_waits s ⟨_, hrun⟩ hidle hsync⟩

/-- A put of two blocks: the second one completes first. -/
theorem put_sync_misses_block :
    ∃ s, Reaches PutClient.step .start s ∧ s.current = none ∧ dspacesPutSync s = true ∧ ¬ LatestDone s := by
  obtain ⟨s, hrun, hidle, hsync, hlatest, hmem⟩ : ∃ s,
      runSteps PutClient.step .start
        [.call, .block .sent, .block .sent, .finish, .complete ⟨1, 0⟩] = some s ∧
        s.current = none ∧ dspacesPutSync s = true ∧ s.latest = some 0 ∧ ⟨0, 0⟩ ∈ s.outstanding :=
    ⟨_, rfl, rfl, rfl, rfl, mem_singleton_self _⟩
  exact ⟨s, ⟨_, hrun⟩, hidle, hsync, fun hdone => hdone _ hmem hlatest⟩

/-- The first condition is needed for puts of one block too: when the ring has come around to a flag that
an outstanding transfer uses, the completion of that transfer ends the wait for the new one. -/
theorem putSync_early_of_reuse {s : PutClient} (hcurrent : s.current = some 0) {t : Transfer}
    (ht : t ∈ s.outstanding) (hslot : t.slot = s.syncOp.next) (hcall : t.call < s.calls) :
    ∃ s', Reaches PutClient.step s s' ∧ s'.current = none ∧ dspacesPutSync s' = true ∧ ¬ LatestDone s' := by
  let sent := s.block 0 .sent
  let done : PutClient := { sent with calls := sent.calls + 1, current := none, latest := some sent.calls }
  have ht' : t ∈ done.outstanding := mem_append_left _ ht
  have hrun : runSteps PutClient.step s [.block .sent, .finish, .complete t] =
      some (objPutCompletion done t) := by
    have hblock : s.step (.block .sent) = some sent := by
      rw [PutClient.step, hcurrent]
      rfl
    have hcomplete : done.step (.complete t) = some (objPutCompletion done t) := if_pos ht'
    have hfinish : sent.step .finish = some done := rfl
    simp only [runSteps, hblock, hfinish, hcomplete, Option.bind_some]
  refine ⟨_, ⟨_, hrun⟩, rfl, ?_, fun hdone => ?_⟩
  · show update done.syncOp.opid t.slot true s.syncOp.next = true
    rw [hslot, update_self]
  · -- The transfer of the new put is still outstanding.
    have hnew : (⟨s.syncOp.next, s.calls⟩ : Transfer) ∈ done.outstanding.erase t := by
      refine (mem_erase_of_ne ?_).2 (mem_append_right _ (mem_singleton_self _))
      rintro rfl
      exact absurd hcall (Nat.lt_irrefl _)
    exact hdone _ hnew rfl

/-- The client after puts number `0` to `k` of one block each, all but the first of which have completed. -/
def firstOutstanding (k : Nat) : PutClient :=
  ⟨⟨(k + 1) % numOp, fun slot => decide (slot ≠ 0)⟩, k, [⟨0, 0⟩], k + 1, none, some k⟩

theorem reaches_firstOutstanding {k : Nat} (hk : k < numOp) :
    Reaches PutClient.step PutClient.start (firstOutstanding k) := by
  induction k with
  | zero =>
    have hflags : update (fun _ => true) 0 false = fun slot : Nat => decide (slot ≠ 0) := by
      funext slot
      by_cases hslot : slot = 0
      · rw [hslot, update_self]
        rfl
      · rw [update_of_ne hslot, decide_eq_true hslot]
    rw [firstOutstanding, ← hflags]
    exact ⟨[.call, .block .sent, .finish], rfl⟩
  | succ k ih =>
    refine (ih (Nat.lt_of_succ_lt hk)).trans ⟨[.call, .block .sent, .finish, .complete ⟨k + 1, k + 1⟩], ?_⟩
    -- The flag of the new put is cleared, and set again by the completion.
    have hnext : (k + 1) % numOp = k + 1 := Nat.mod_eq_of_lt hk
    have herase : ([⟨0, 0⟩, ⟨k + 1, k + 1⟩] : List Transfer).erase ⟨k + 1, k + 1⟩ = [⟨0, 0⟩] := by simp
    simp [runSteps, PutClient.step, PutClient.block, dcgObjPut, syncopNext, firstOutstanding, objPutCompletion,
      hnext, herase]

/-- After 4095 puts the ring has come around to the flag of the first one. -/
theorem putSync_early_of_reuse_first :
    ∃ s s', Reaches PutClient.step PutClient.start s ∧ Reaches PutClient.step s s' ∧
      s'.current = none ∧ dspacesPutSync s' = true ∧ ¬ LatestDone s' := by
  have hring : Reaches PutClient.step PutClient.start { firstOutstanding 4094 with current := some 0 } :=
    (reaches_firstOutstanding (by decide)).trans ⟨[.call], rfl⟩
  obtain ⟨s', h⟩ := putSync_early_of_reuse (s := { firstOutstanding 4094 with current := some 0 })
    rfl (mem_singleton_self _) rfl (by decide)
  exact ⟨_, s', hring, h⟩

end DataSpaces.Client
