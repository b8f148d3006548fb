import Mathlib.Tactic

/-!
# Messages to several servers

Several functions send one message after the other, each to another peer. The message may not be allocated,
and `rpc_send` may fail; where the transport keeps a list of requests for each peer, a request whose send
failed may still be in it.
-/

namespace DataSpaces.Dart

/-- What happens to one message: there is no memory for it, or `rpc_send` returns `err`. A send that fails
after its request was added to the list of the peer leaves the request `queued`. -/
inductive SendResult where
  | noMsg
  | result (err : Int) (queued : Bool)
deriving DecidableEq, Repr

/-- `rpc_send` has returned no error. -/
def SendResult.Succeeded (r : SendResult) : Prop := ∃ err queued, r = .result err queued ∧ 0 ≤ err

/-- The sends up to number `k` have succeeded. -/
def SentBefore (sends : Nat → SendResult) (k : Nat) : Prop := ∀ i < k, (sends i).Succeeded

@[simp] theorem succeeded_noMsg : ¬ SendResult.noMsg.Succeeded := by
  rintro ⟨_, _, h, -⟩
  cases h

@[simp] theorem succeeded_result {err : Int} {queued : Bool} :
    (SendResult.result err queued).Succeeded ↔ 0 ≤ err := by
  constructor
  · rintro ⟨_, _, h, hle⟩
    cases h
    exact hle
  · exact fun hle => ⟨err, queued, rfl, hle⟩

section

variable {sends : Nat → SendResult} {k : Nat}

theorem sentBefore_zero : SentBefore sends 0 := fun _ hi => (Nat.not_lt_zero _ hi).elim

theorem sentBefore_succ (h0 : (sends 0).Succeeded) (h : SentBefore (fun i => sends (i + 1)) k) :
    SentBefore sends (k + 1) := by
  intro i hi
  cases i with
  | zero => exact h0
  | succ i => exact h i (Nat.lt_of_succ_lt_succ hi)

/-- There is one send at which a loop stops. -/
theorem SentBefore.eq_of_stop {k' : Nat} (h : SentBefore sends k) (hstop : ¬ (sends k).Succeeded)
    (h' : SentBefore sends k') (hstop' : ¬ (sends k').Succeeded) : k' = k := by
  rcases Nat.lt_trichotomy k' k with hlt | heq | hgt
  · exact (hstop' (h k' hlt)).elim
  · exact heq
  · exact (hstop (h' k hgt)).elim

end

end DataSpaces.Dart
