import Mathlib.Data.Nat.Bitwise
import DataSpaces.Lib.Gossip

/-!
# The barrier of the InfiniBand transport

`rpc_barrier` goes through `log2_ceil(app_num_peers)` rounds. In round `r` a process notifies the one
`2 ^ r` ranks after it and waits for the one `2 ^ r` ranks before it. Notifications carry the number of the
barrier modulo 256, and `bar_tab` holds the last one from every process.

`step` is one step of one process, or the arrival of one notification. The numbers modulo 256 are simulated
by the unbounded ones of `Lib.Gossip` (`Rel.step`): a waiting process only ever looks at one of three
consecutive numbers, so nothing is confused. `rpc_barrier_correct` is what follows for all runs.

Ranks are natural numbers; for up to `2 ^ 30` processes the sums of `rpc_barrier` stay in an `int`.
-/

namespace DataSpaces.Dart.Ib.Barrier

open Lib Function

/-! ## The source -/

/-- The first loop of `log2_ceil`. -/
def seekBit (n : Nat) : Nat → Nat → Nat
  | 0, i => i
  | fuel + 1, i => if i ≠ 0 ∧ i &&& n = 0 then seekBit n fuel (i >>> 1) else i

/-- The second loop of `log2_ceil`. -/
def countShifts : Nat → Nat → Int → Int
  | 0, _, k => k
  | fuel + 1, i, k => if i ≠ 0 then countShifts fuel (i >>> 1) (k + 1) else k

/-- `log2_ceil`, where `2 ^ top` is the highest bit of an `unsigned int`. -/
def log2Ceil (top n : Nat) : Int :=
  let i := seekBit n (top + 1) (2 ^ top)
  let i := if i ≠ n then (i <<< 1) % 2 ^ (top + 1) else i
  countShifts (top + 1) i (-1)

/-- The fields of `struct hdr_sys` that a barrier uses. -/
structure HdrSys (n : Nat) where
  sysPad1 : Nat
  sysId : Fin n
deriving DecidableEq, Repr

/-- What a process keeps for its barriers. `calls` and `returns` count its calls of `rpc_barrier`; the
source does not keep them. -/
structure RpcServer (n : Nat) where
  barNum : Nat
  barTab : Fin n → Nat
  pc : Gossip.Pc
  calls : Nat
  returns : Nat

structure Sys (n : Nat) where
  server : Fin n → RpcServer n
  /-- notifications under way between two processes, oldest first -/
  conn : Fin n → Fin n → List (HdrSys n)

variable {n : Nat}

def start : Sys n where
  server := fun _ => ⟨0, fun _ => 0, .idle, 0, 0⟩
  conn := fun _ _ => []

def next [NeZero n] (round : Nat) (myrank : Fin n) : Fin n := Fin.ofNat n (myrank + 1 <<< round)

def prev [NeZero n] (round : Nat) (myrank : Fin n) : Fin n := Fin.ofNat n (n + myrank - 1 <<< round)

/-- The loop of `rpc_barrier` with `r` rounds done: the next round, or the end. -/
def RpcServer.atRound (top : Nat) (rpcS : RpcServer n) (r : Nat) : RpcServer n :=
  if (r : Int) < log2Ceil top n then { rpcS with pc := .sending r }
  else { rpcS with pc := .idle, returns := rpcS.returns + 1 }

/-- `rpc_barrier` up to its first round. -/
def rpcBarrier (top : Nat) (rpcS : RpcServer n) : RpcServer n :=
  RpcServer.atRound top { rpcS with barNum := (rpcS.barNum + 1) &&& 0xFF, calls := rpcS.calls + 1 } 0

/-- `sys_bar_send`; `sys_pad1` has 16 bits. -/
def sysBarSend (sys : Sys n) (myrank peer : Fin n) : Fin n → Fin n → List (HdrSys n) :=
  update sys.conn myrank (update (sys.conn myrank) peer
    (sys.conn myrank peer ++ [⟨(sys.server myrank).barNum % 2 ^ 16, myrank⟩]))

def sysBarArrive (rpcS : RpcServer n) (hs : HdrSys n) : RpcServer n :=
  { rpcS with barTab := update rpcS.barTab hs.sysId hs.sysPad1 }

/-- The condition that a process waits for in a round. -/
def RpcServer.arrived [NeZero n] (rpcS : RpcServer n) (myrank : Fin n) (round : Nat) : Prop :=
  rpcS.barTab (prev round myrank) = rpcS.barNum ∨
    rpcS.barTab (prev round myrank) = (rpcS.barNum + 1) &&& 0xFF

instance [NeZero n] (rpcS : RpcServer n) (myrank : Fin n) (round : Nat) :
    Decidable (rpcS.arrived myrank round) := inferInstanceAs (Decidable (_ ∨ _))

inductive Act (n : Nat) where
  | call (i : Fin n)
  | send (i : Fin n)
  /-- `sys_process` takes a notification of `p` at `q` -/
  | arrive (p q : Fin n)
  | test (i : Fin n)

def Sys.setServer (sys : Sys n) (i : Fin n) (rpcS : RpcServer n) : Sys n :=
  { sys with server := update sys.server i rpcS }

def step [NeZero n] (top : Nat) (sys : Sys n) : Act n → Option (Sys n)
  | .call i =>
    if (sys.server i).pc = .idle then some (sys.setServer i (rpcBarrier top (sys.server i))) else none
  | .send i =>
    match (sys.server i).pc with
    | .sending r =>
      some ({ sys with conn := sysBarSend sys i (next r i) }.setServer i
        { sys.server i with pc := .waiting r })
    | _ => none
  | .arrive p q =>
    match sys.conn p q with
    | hs :: rest =>
      some ({ sys with conn := update sys.conn p (update (sys.conn p) q rest) }.setServer q
        (sysBarArrive (sys.server q) hs))
    | [] => none
  | .test i =>
    match (sys.server i).pc with
    | .waiting r =>
      if (sys.server i).arrived i r then some (sys.setServer i ((sys.server i).atRound top (r + 1))) else none
    | _ => none

/-! ## The number of rounds -/

theorem seekBit_eq {n : Nat} (hn : 0 < n) (e : Nat) : ∀ fuel, e < fuel → n < 2 ^ (e + 1) →
    ∃ l, seekBit n fuel (2 ^ e) = 2 ^ l ∧ 2 ^ l ≤ n ∧ n < 2 ^ (l + 1) := by
  induction e with
  | zero =>
    intro fuel hfuel hlt
    obtain ⟨fuel, rfl⟩ : ∃ m, fuel = m + 1 := ⟨fuel - 1, by omega⟩
    have hone : n = 1 := by
      rw [pow_one] at hlt
      omega
    subst hone
    exact ⟨0, by simp [seekBit], le_rfl, by decide⟩
  | succ e ih =>
    intro fuel hfuel hlt
    obtain ⟨fuel, rfl⟩ : ∃ m, fuel = m + 1 := ⟨fuel - 1, by omega⟩
    rcases Nat.lt_or_ge n (2 ^ (e + 1)) with hsmall | hbig
    · -- the bit is not set, the search goes on with the one below
      have hand : 2 ^ (e + 1) &&& n = 0 := by
        rw [Nat.two_pow_and, Nat.testBit_lt_two_pow hsmall]
        rfl
      have hshift : 2 ^ (e + 1) >>> 1 = 2 ^ e := by
        rw [Nat.shiftRight_one, pow_succ, Nat.mul_div_cancel _ (by decide)]
      rw [seekBit, if_pos ⟨(Nat.two_pow_pos _).ne', hand⟩, hshift]
      exact ih fuel (by omega) hsmall
    · have hbit : n.testBit (e + 1) = true := by
        rw [Nat.testBit_eq_decide_div_mod_eq, decide_eq_true_eq]
        have hdiv : n / 2 ^ (e + 1) = 1 := by
          rw [Nat.div_eq_iff (Nat.two_pow_pos _)]
          rw [pow_succ] at hlt
          omega
        rw [hdiv]
      have hand : 2 ^ (e + 1) &&& n ≠ 0 := by
        rw [Nat.two_pow_and, hbit]
        simp
      refine ⟨e + 1, ?_, hbig, hlt⟩
      rw [seekBit, if_neg fun h => hand h.2]

theorem countShifts_two_pow (l : Nat) : ∀ fuel, l < fuel → ∀ k, countShifts fuel (2 ^ l) k = k + (l + 1) := by
  induction l with
  | zero =>
    intro fuel hfuel k
    obtain ⟨fuel, rfl⟩ : ∃ m, fuel = m + 1 := ⟨fuel - 1, by omega⟩
    cases fuel <;> simp [countShifts]
  | succ l ih =>
    intro fuel hfuel k
    obtain ⟨fuel, rfl⟩ : ∃ m, fuel = m + 1 := ⟨fuel - 1, by omega⟩
    have hshift : 2 ^ (l + 1) >>> 1 = 2 ^ l := by
      rw [Nat.shiftRight_one, pow_succ, Nat.mul_div_cancel _ (by decide)]
    rw [countShifts, if_pos (Nat.two_pow_pos _).ne', hshift, ih fuel (by omega)]
    push_cast
    omega

/-- `log2_ceil` is the least number of rounds that reaches all processes. -/
theorem log2Ceil_spec {top n : Nat} (hn : 0 < n) (htop : n < 2 ^ top) :
    ∃ np : Nat, log2Ceil top n = np ∧ n ≤ 2 ^ np ∧ ∀ r < np, 2 ^ r < n := by
  obtain ⟨l, hseek, hle, hlt⟩ := seekBit_eq hn top (top + 1) (Nat.lt_succ_self _)
    (htop.trans (Nat.pow_lt_pow_right (by decide) (Nat.lt_succ_self _)))
  have hl : l < top := (Nat.pow_lt_pow_iff_right (by decide)).1 (hle.trans_lt htop)
  by_cases heq : 2 ^ l = n
  · refine ⟨l, ?_, heq.ge, fun r hr => heq ▸ Nat.pow_lt_pow_right (by decide) hr⟩
    rw [log2Ceil, hseek]
    simp only [heq, ne_eq, not_true_eq_false, if_false]
    rw [← heq, countShifts_two_pow l _ (by omega)]
    omega
  · refine ⟨l + 1, ?_, hlt.le, fun r hr => ?_⟩
    · have hshift : (2 ^ l <<< 1) % 2 ^ (top + 1) = 2 ^ (l + 1) := by
        rw [Nat.shiftLeft_eq, ← pow_add, Nat.mod_eq_of_lt (Nat.pow_lt_pow_right (by decide) (by omega))]
      rw [log2Ceil, hseek]
      simp only [heq, ne_eq, not_false_eq_true, if_true, hshift]
      rw [countShifts_two_pow (l + 1) _ (by omega)]
      push_cast
      omega
    · have hpow : 2 ^ r ≤ 2 ^ l := Nat.pow_le_pow_right (by decide) (by omega)
      omega

/-! ## The pattern of ranks -/

section

variable [NeZero n]

variable (round : Nat) (i : Fin n)

theorem next_val : (next round i : Nat) = (i + 2 ^ round) % n := by
  rw [next, Nat.one_shiftLeft]
  rfl

theorem prev_val : (prev round i : Nat) = (n + i - 2 ^ round) % n := by
  rw [prev, Nat.one_shiftLeft]
  rfl

theorem prev_next {round : Nat} (h : 2 ^ round < n) (i : Fin n) : prev round (next round i) = i := by
  apply Fin.ext
  rw [prev_val, next_val]
  have hi := i.isLt
  rcases Nat.lt_or_ge (i + 2 ^ round) n with hlt | hge
  · rw [Nat.mod_eq_of_lt hlt]
    have hsum : n + (i + 2 ^ round) - 2 ^ round = i + n := by omega
    rw [hsum, Nat.add_mod_right, Nat.mod_eq_of_lt hi]
  · have hwrap : (i + 2 ^ round) % n = i + 2 ^ round - n := by
      rw [Nat.mod_eq_sub_mod hge, Nat.mod_eq_of_lt (by omega)]
    have hsum : n + (i + 2 ^ round - n) - 2 ^ round = i := by omega
    rw [hwrap, hsum, Nat.mod_eq_of_lt hi]

theorem next_prev {round : Nat} (h : 2 ^ round < n) (i : Fin n) : next round (prev round i) = i := by
  apply Fin.ext
  rw [next_val, prev_val, Nat.mod_add_mod]
  have hsum : n + i - 2 ^ round + 2 ^ round = i + n := by omega
  rw [hsum, Nat.add_mod_right, Nat.mod_eq_of_lt i.isLt]

/-- Different rounds lead to different processes. -/
theorem round_eq_of_next_eq {r r' : Nat} (hr : 2 ^ r < n) (hr' : 2 ^ r' < n) {i : Fin n}
    (h : next r i = next r' i) : r = r' := by
  have hval := congrArg Fin.val h
  rw [next_val, next_val] at hval
  have hmod : 2 ^ r ≡ 2 ^ r' [MOD n] := Nat.ModEq.add_left_cancel' (i : Nat) hval
  rw [Nat.ModEq, Nat.mod_eq_of_lt hr, Nat.mod_eq_of_lt hr'] at hmod
  exact Nat.pow_right_injective (le_refl 2) hmod

/-- After `r` rounds a process has heard of the `2 ^ r` ranks up to its own. -/
theorem heard_of_add_mod {r : Nat} (hr : ∀ r' < r, 2 ^ r' < n) : ∀ (i j : Fin n) (d : Nat), d < 2 ^ r →
    (j + d) % n = i → Gossip.Heard prev r i j := by
  induction r with
  | zero =>
    intro i j d hd hji
    have hzero : d = 0 := by omega
    rw [hzero, Nat.add_zero, Nat.mod_eq_of_lt j.isLt] at hji
    exact Fin.ext hji
  | succ r ih =>
    intro i j d hd hji
    have ih := ih fun r' hr' => hr r' (by omega)
    rcases Nat.lt_or_ge d (2 ^ r) with hlt | hge
    · exact Or.inl (ih i j d hlt hji)
    · -- the second half of the distances goes through the process waited for in round `r`
      refine Or.inr (ih (prev r i) j (d - 2 ^ r) (by rw [pow_succ] at hd; omega) ?_)
      have hpow := hr r (Nat.lt_succ_self r)
      have hi : i = next r (Fin.ofNat n (j + (d - 2 ^ r))) := by
        apply Fin.ext
        rw [next_val, Fin.val_ofNat, Nat.mod_add_mod, ← hji]
        congr 1
        omega
      rw [hi, prev_next hpow]
      rfl

theorem heard_all {np : Nat} (hcover : n ≤ 2 ^ np) (hnp : ∀ r < np, 2 ^ r < n) (i j : Fin n) :
    Gossip.Heard prev np i j := by
  have hi := i.isLt
  have hj := j.isLt
  apply heard_of_add_mod hnp i j ((n + i - j) % n) ((Nat.mod_lt _ (by omega)).trans_le hcover)
  rw [Nat.add_mod_mod]
  have hsum : j + (n + i - j) = (i : Nat) + n := by omega
  rw [hsum, Nat.add_mod_right, Nat.mod_eq_of_lt hi]

/-- The rounds of `rpc_barrier`. -/
def ranks {np : Nat} (hcover : n ≤ 2 ^ np) (hnp : ∀ r < np, 2 ^ r < n) : Gossip.Pattern (Fin n) where
  rounds := np
  next := next
  prev := prev
  prev_next r hr i := prev_next (hnp r hr) i
  next_prev r hr i := next_prev (hnp r hr) i
  covers := heard_all hcover hnp

end

/-! ## Numbers modulo 256 -/

theorem and_mask (m : Nat) : m &&& 0xFF = m % 256 := Nat.and_two_pow_sub_one_eq_mod m 8

/-- One entry of a table with two indices. -/
theorem update_update_of_ne {ι κ β : Type*} [DecidableEq ι] [DecidableEq κ] (f : ι → κ → β) {p p' : ι}
    {q q' : κ} (b : β) (h : ¬ (p' = p ∧ q' = q)) : update f p (update (f p) q b) p' q' = f p' q' := by
  by_cases hp : p' = p
  · subst hp
    rw [update_self, update_of_ne fun hq => h ⟨rfl, hq⟩]
  · rw [update_of_ne hp]

section Simulation

variable [NeZero n] {top np : Nat} (hnp : log2Ceil top n = np) (hcover : n ≤ 2 ^ np)
  (hlt : ∀ r < np, 2 ^ r < n)

/-- What a process keeps, with its numbers modulo 256, and the party it stands for. -/
structure ServerRel (np : Nat) (a : Gossip.State (Fin n)) (i : Fin n) (rpcS : RpcServer n) : Prop where
  pc : rpcS.pc = a.pc i
  barNum : rpcS.barNum = a.count i % 256
  calls : rpcS.calls = a.count i
  returns : rpcS.returns = a.returned i
  barTab : ∀ r < np, rpcS.barTab (prev r i) = a.tab i r % 256

structure Rel (np : Nat) (sys : Sys n) (a : Gossip.State (Fin n)) : Prop where
  server : ∀ i, ServerRel np a i (sys.server i)
  conn : ∀ i, ∀ r < np, sys.conn (prev r i) i = (a.wire i r).map fun m => ⟨m % 256, prev r i⟩
  apart : ∀ p q, (∀ r < np, next r p ≠ q) → sys.conn p q = []

theorem rel_start (np : Nat) : Rel np (start : Sys n) Gossip.start where
  server _ := ⟨rfl, rfl, rfl, rfl, fun _ _ => rfl⟩
  conn _ _ _ := rfl
  apart _ _ _ := rfl

variable {sys sys' : Sys n} {a a' : Gossip.State (Fin n)} {i : Fin n} {rpcS : RpcServer n} {r : Nat}

/-- Process `i` moves, and all others are left as they are. -/
theorem Rel.setServer (h : Rel np sys a) (a' : Gossip.State (Fin n))
    (hi : ServerRel np a' i rpcS)
    (hother : ∀ j, j ≠ i → a'.count j = a.count j ∧ a'.pc j = a.pc j ∧ a'.tab j = a.tab j) (j : Fin n) :
    ServerRel np a' j ((sys.setServer i rpcS).server j) := by
  by_cases hj : j = i
  · subst hj
    simpa [Sys.setServer] using hi
  · obtain ⟨hcount, hpc, htab⟩ := hother j hj
    have hserver := h.server j
    simp only [Sys.setServer, update_of_ne hj]
    refine ⟨by rw [hpc, hserver.pc], by rw [hcount, hserver.barNum], by rw [hcount, hserver.calls], ?_, ?_⟩
    · rw [hserver.returns, Gossip.State.returned, Gossip.State.returned, hcount, hpc]
    · intro r hr
      rw [hserver.barTab r hr, htab]

include hnp in
theorem atRound_eq (rpcS : RpcServer n) (r : Nat) :
    rpcS.atRound top r = { rpcS with
      pc := (ranks hcover hlt).after r, returns := if r < np then rpcS.returns else rpcS.returns + 1 } := by
  have hiff : ((r : Int) < log2Ceil top n) ↔ r < np := by
    rw [hnp]
    exact Int.ofNat_lt
  unfold RpcServer.atRound Gossip.Pattern.after
  by_cases hr : r < np
  · simp [hiff, hr, ranks]
  · simp [hiff, hr, ranks]

include hnp in
theorem Rel.call (h : Rel np sys a) (hpc : a.pc i = .idle) :
    Rel np (sys.setServer i (rpcBarrier top (sys.server i))) (a.call (ranks hcover hlt) i) := by
  have hi := h.server i
  refine ⟨h.setServer _ ?_ fun j hj => ?_, h.conn, h.apart⟩
  · rw [rpcBarrier, atRound_eq hnp hcover hlt]
    refine ⟨?_, ?_, ?_, ?_, hi.barTab⟩
    · simp [Gossip.State.call]
    · simp only [Gossip.State.call, update_self, and_mask, hi.barNum]
      omega
    · simp [Gossip.State.call, hi.calls]
    · have hret := hi.returns
      simp only [Gossip.State.returned, hpc, if_true] at hret
      by_cases hzero : 0 < np
      · simp [Gossip.State.returned, Gossip.State.call, Gossip.Pattern.after, ranks, hzero, hret]
      · simp [Gossip.State.returned, Gossip.State.call, Gossip.Pattern.after, ranks, hzero, hret]
  · simp [Gossip.State.call, hj]

include hlt in
theorem Rel.send (h : Rel np sys a) (hpc : a.pc i = .sending r) (hr : r < np) :
    Rel np ({ sys with conn := sysBarSend sys i (next r i) }.setServer i { sys.server i with pc := .waiting r })
      (a.send (ranks hcover hlt) i r) := by
  have hi := h.server i
  have hmsg : (sys.server i).barNum % 2 ^ 16 = a.count i % 256 := by
    rw [hi.barNum]
    omega
  refine ⟨h.setServer (a.send (ranks hcover hlt) i r) ?_ fun j hj => ?_, fun j r' hr' => ?_,
    fun p q hpq => ?_⟩
  · refine ⟨?_, hi.barNum, hi.calls, ?_, hi.barTab⟩
    · simp [Gossip.State.send]
    · have hret := hi.returns
      simpa [Gossip.State.returned, Gossip.State.send, hpc] using hret
  · simp [Gossip.State.send, hj]
  · have hconn := h.conn j r' hr'
    by_cases hnew : j = next r i ∧ r' = r
    · obtain ⟨rfl, rfl⟩ := hnew
      rw [prev_next (hlt r' hr')] at hconn ⊢
      simp only [Sys.setServer, sysBarSend, update_self, hmsg, hconn]
      simp [Gossip.State.send, ranks]
    · -- no other entry is for these two processes
      have hpair : ¬ (prev r' j = i ∧ j = next r i) := by
        rintro ⟨hp, hj⟩
        apply hnew
        refine ⟨hj, round_eq_of_next_eq (hlt r' hr') (hlt r hr) (i := i) ?_⟩
        rw [← hj, ← hp, next_prev (hlt r' hr')]
      simp only [Sys.setServer, sysBarSend, update_update_of_ne _ _ hpair, hconn]
      simp [Gossip.State.send, ranks, Gossip.set2_of_ne _ _ hnew]
  · have hpair : ¬ (p = i ∧ q = next r i) := by
      rintro ⟨rfl, rfl⟩
      exact hpq r hr rfl
    simpa only [Sys.setServer, sysBarSend, update_update_of_ne _ _ hpair] using h.apart p q hpq

include hlt in
/-- A notification that arrives is one of a round, and its number is the next in the table. -/
theorem Rel.exists_round (h : Rel np sys a) {p q : Fin n} {hs : HdrSys n} {rest : List (HdrSys n)}
    (hconn : sys.conn p q = hs :: rest) : ∃ r < np, p = prev r q ∧ ∃ m ms, a.wire q r = m :: ms ∧
      hs = ⟨m % 256, prev r q⟩ ∧ rest = ms.map fun m => ⟨m % 256, prev r q⟩ := by
  have hround : ∃ r < np, next r p = q := by
    by_contra hnone
    have hempty := h.apart p q fun r hr heq => hnone ⟨r, hr, heq⟩
    rw [hconn] at hempty
    cases hempty
  obtain ⟨r, hr, hnext⟩ := hround
  have hp : p = prev r q := by rw [← hnext, prev_next (hlt r hr)]
  have hwire := h.conn q r hr
  rw [← hp, hconn] at hwire
  cases hms : a.wire q r with
  | nil =>
    rw [hms] at hwire
    cases hwire
  | cons m ms =>
    rw [hms, List.map_cons, List.cons.injEq] at hwire
    refine ⟨r, hr, hp, m, ms, hms, ?_, ?_⟩
    · rw [hwire.1, hp]
    · rw [hwire.2, hp]

include hlt in
theorem Rel.arrive (h : Rel np sys a) {q : Fin n} {m : Nat} {ms : List Nat} (hr : r < np) :
    Rel np ({ sys with conn := update sys.conn (prev r q) (update (sys.conn (prev r q)) q
        (ms.map fun m => ⟨m % 256, prev r q⟩)) }.setServer q
        (sysBarArrive (sys.server q) ⟨m % 256, prev r q⟩))
      (a.deliver q r m ms) := by
  have hq := h.server q
  have hround : ∀ r' < np, prev r' q = prev r q → r' = r := by
    intro r' hr' heq
    apply round_eq_of_next_eq (hlt r' hr') (hlt r hr) (i := prev r q)
    rw [← heq, next_prev (hlt r' hr'), heq, next_prev (hlt r hr)]
  refine ⟨h.setServer (a.deliver q r m ms) ?_ fun j hj => ?_, fun j r' hr' => ?_, fun p q' hpq => ?_⟩
  · refine ⟨hq.pc, hq.barNum, hq.calls, hq.returns, fun r' hr' => ?_⟩
    by_cases hrr : r' = r
    · subst hrr
      simp [sysBarArrive]
    · have hne : prev r' q ≠ prev r q := fun heq => hrr (hround r' hr' heq)
      have hset : ¬ (q = q ∧ r' = r) := fun hcon => hrr hcon.2
      simpa [sysBarArrive, hne, Gossip.set2_of_ne _ _ hset] using hq.barTab r' hr'
  · refine ⟨rfl, rfl, funext fun r' => ?_⟩
    exact Gossip.set2_of_ne _ _ fun hcon => hj hcon.1
  · have hconn := h.conn j r' hr'
    by_cases hnew : j = q ∧ r' = r
    · obtain ⟨rfl, rfl⟩ := hnew
      simp [Sys.setServer]
    · have hpair : ¬ (prev r' j = prev r q ∧ j = q) := by
        rintro ⟨hp, rfl⟩
        exact hnew ⟨rfl, hround r' hr' hp⟩
      simp only [Sys.setServer, update_update_of_ne _ _ hpair, hconn, Gossip.State.deliver_wire,
        Gossip.set2_of_ne _ _ hnew]
  · have hpair : ¬ (p = prev r q ∧ q' = q) := by
      rintro ⟨rfl, rfl⟩
      exact hpq r hr (next_prev (hlt r hr) q')
    simpa only [Sys.setServer, update_update_of_ne _ _ hpair] using h.apart p q' hpq

/-- The test of `rpc_barrier` decides the one on unbounded numbers: the number looked at is among three
consecutive ones. -/
theorem ServerRel.arrived_iff (h : ServerRel np a i rpcS)
    (hr : r < np) (hwindow : a.count i ≤ a.tab i r + 1 ∧ a.tab i r ≤ a.count i + 1) :
    rpcS.arrived i r ↔ a.tab i r = a.count i ∨ a.tab i r = a.count i + 1 := by
  rw [RpcServer.arrived, h.barTab r hr, h.barNum, and_mask]
  omega

include hnp in
theorem Rel.pass (h : Rel np sys a) (hpc : a.pc i = .waiting r) (hpos : 0 < a.count i) :
    Rel np (sys.setServer i ((sys.server i).atRound top (r + 1))) (a.pass (ranks hcover hlt) i r) := by
  have hi := h.server i
  refine ⟨h.setServer _ ?_ fun j hj => ?_, h.conn, h.apart⟩
  · rw [atRound_eq hnp hcover hlt]
    refine ⟨?_, hi.barNum, hi.calls, ?_, hi.barTab⟩
    · simp [Gossip.State.pass]
    · have hret := hi.returns
      simp only [Gossip.State.returned, hpc, reduceCtorEq, if_false] at hret
      by_cases hmore : r + 1 < np
      · simp [Gossip.State.returned, Gossip.State.pass, Gossip.Pattern.after, ranks, hmore, hret]
      · simp [Gossip.State.returned, Gossip.State.pass, Gossip.Pattern.after, ranks, hmore, hret]
        omega
  · simp [Gossip.State.pass, hj]

include hnp in
/-- Every step is one of the barrier with unbounded numbers. -/
theorem Rel.step (h : Rel np sys a) (hinv : Gossip.Inv (ranks hcover hlt) a) {act : Act n}
    (hstep : Barrier.step top sys act = some sys') :
    ∃ b a', Gossip.step (ranks hcover hlt) a b = some a' ∧ Rel np sys' a' := by
  cases act with
  | call i =>
    simp only [Barrier.step, (h.server i).pc] at hstep
    split at hstep
    next hpc =>
      cases hstep
      exact ⟨.call i, _, if_pos hpc, h.call hnp hcover hlt hpc⟩
    · cases hstep
  | send i =>
    simp only [Barrier.step, (h.server i).pc] at hstep
    split at hstep
    next r hpc =>
      cases hstep
      exact ⟨.send i, a.send (ranks hcover hlt) i r, by simp only [Gossip.step, hpc],
        h.send hcover hlt hpc (hinv.sending_lt hpc)⟩
    · cases hstep
  | arrive p q =>
    simp only [Barrier.step] at hstep
    split at hstep
    next hs rest hconn =>
      cases hstep
      obtain ⟨r, hr, rfl, m, ms, hwire, rfl, rfl⟩ := h.exists_round hlt hconn
      exact ⟨.deliver q r, a.deliver q r m ms, by simp only [Gossip.step, hwire]; exact if_pos hr,
        h.arrive hlt hr⟩
    · cases hstep
  | test i =>
    simp only [Barrier.step, (h.server i).pc] at hstep
    split at hstep
    next r hpc =>
      split at hstep
      next harrived =>
        cases hstep
        have htab := ((h.server i).arrived_iff (hinv.waiting_lt hpc) (hinv.tab_window hpc)).1 harrived
        exact ⟨.test i, a.pass (ranks hcover hlt) i r, by simp only [Gossip.step, hpc, if_pos htab],
          h.pass hnp hcover hlt hpc (hinv.inside i (by simp [hpc])).2⟩
      · cases hstep
    · cases hstep

end Simulation

/-! ## Barriers over whole runs -/

section

variable [NeZero n]

/-- The steps of a process in `rpc_barrier`. It takes notifications while it waits; others may be taken at
any time, by the event loop. -/
def Inside (sys : Sys n) : Act n → Prop
  | .call _ => False
  | .send _ => True
  | .arrive _ q => ∃ r, (sys.server q).pc = .waiting r
  | .test _ => True

/-- Time does not stand still for processes that are in `rpc_barrier` and can go on. -/
def GoesOn (top : Nat) (ρ : Nat → Sys n) : Prop :=
  ∀ t, (∃ act sys', Inside (ρ t) act ∧ step top (ρ t) act = some sys') →
    ∃ t' ≥ t, ∃ act, step top (ρ t') act = some (ρ (t' + 1))

variable {top np : Nat} {sys : Sys n} {i : Fin n}

/-- If all have entered the barrier in which a process is, some process in it can go on. -/
theorem Rel.exists_inside {a : Gossip.State (Fin n)} (hcover : n ≤ 2 ^ np)
    (hlt : ∀ r < np, 2 ^ r < n) (h : Rel np sys a) (hinv : Gossip.Inv (ranks hcover hlt) a)
    (hi : a.pc i ≠ .idle) (hall : ∀ j, a.count i ≤ a.count j) :
    ∃ act sys', Inside sys act ∧ Barrier.step top sys act = some sys' := by
  obtain ⟨b, a', hinside, hstep⟩ := hinv.exists_step hi hall
  cases b with
  | call j => exact hinside.elim
  | send j =>
    simp only [Gossip.step] at hstep
    split at hstep
    next r hpc => exact ⟨.send j, _, trivial, by simp only [Barrier.step, (h.server j).pc, hpc]; rfl⟩
    · cases hstep
  | deliver j r =>
    simp only [Gossip.step] at hstep
    split at hstep
    next m ms hwire =>
      split at hstep
      next hr =>
        have hconn := h.conn j r hr
        rw [hwire, List.map_cons] at hconn
        refine ⟨.arrive (prev r j) j, _, ?_, by simp only [Barrier.step, hconn]; rfl⟩
        obtain ⟨r', hpc⟩ : ∃ r', a.pc j = .waiting r' := hinside
        exact ⟨r', (h.server j).pc.trans hpc⟩
      · cases hstep
    · cases hstep
  | test j =>
    simp only [Gossip.step] at hstep
    split at hstep
    next r hpc =>
      split at hstep
      next htab =>
        have harrived := ((h.server j).arrived_iff (hinv.waiting_lt hpc) (hinv.tab_window hpc)).2 htab
        exact ⟨.test j, _, trivial, by simp only [Barrier.step, (h.server j).pc, hpc, if_pos harrived]; rfl⟩
      · cases hstep
    · cases hstep

/-- A run is one of the barrier with unbounded numbers. -/
theorem exists_gossip_run (hnp : log2Ceil top n = np) (hcover : n ≤ 2 ^ np)
    (hlt : ∀ r < np, 2 ^ r < n) {acts : List (Act n)} (hrun : runSteps (step top) start acts = some sys) :
    ∃ acts' a, runSteps (Gossip.step (ranks hcover hlt)) Gossip.start acts' = some a ∧
      acts'.length = acts.length ∧ Rel np sys a ∧ Gossip.Inv (ranks hcover hlt) a := by
  apply exists_runSteps_of_simulation (R := fun sys a => Rel np sys a ∧ Gossip.Inv (ranks hcover hlt) a)
    ?_ ⟨rel_start np, Gossip.inv_start _⟩ hrun
  intro sys a act sys' hrel hstep
  obtain ⟨b, a', hb, hrel'⟩ := hrel.1.step hnp hcover hlt hrel.2 hstep
  exact ⟨b, a', hb, hrel', hrel.2.step hb⟩

omit [NeZero n] in
theorem calls_update {server : Fin n → RpcServer n} {rpcS : RpcServer n}
    (h : (server i).calls ≤ rpcS.calls) (j : Fin n) : (server j).calls ≤ (update server i rpcS j).calls := by
  by_cases hj : j = i
  · subst hj
    simpa using h
  · simp [hj]

omit [NeZero n] in
theorem calls_atRound (top : Nat) (rpcS : RpcServer n) (r : Nat) : (rpcS.atRound top r).calls = rpcS.calls := by
  unfold RpcServer.atRound
  split <;> rfl

theorem calls_le_of_step {sys' : Sys n} {act : Act n} (h : step top sys act = some sys')
    (j : Fin n) : (sys.server j).calls ≤ (sys'.server j).calls := by
  cases act with
  | call i =>
    simp only [step] at h
    split at h
    · cases h
      apply calls_update
      rw [rpcBarrier, calls_atRound]
      exact Nat.le_succ _
    · cases h
  | send | arrive =>
    simp only [step] at h
    split at h
    · cases h
      apply calls_update
      exact le_rfl
    · cases h
  | test i =>
    simp only [step] at h
    split at h
    · split at h
      · cases h
        apply calls_update
        rw [calls_atRound]
      · cases h
    · cases h

/-- In every run of any number of processes, whatever number of barriers they call: nobody returns from a
barrier before all have entered it, and once all have entered barrier `k` everybody returns from it. The
number of processes is an `int`. -/
theorem rpc_barrier_correct {top : Nat} (htop : n < 2 ^ top) : (∀ sys : Sys n, Reaches (step top) start sys →
      ∀ i j, (sys.server i).returns ≤ (sys.server j).calls) ∧
    ∀ ρ : Nat → Sys n, Behaviour (step top) start ρ → GoesOn top ρ →
      ∀ t k, (∀ j, k ≤ ((ρ t).server j).calls) → ∀ i, ∃ t' ≥ t, k ≤ ((ρ t').server i).returns := by
  obtain ⟨np, hnp, hcover, hlt⟩ := log2Ceil_spec (Nat.pos_of_ne_zero (NeZero.ne n)) htop
  constructor
  · rintro sys ⟨acts, hrun⟩ i j
    obtain ⟨-, a, -, -, hrel, hinv⟩ := exists_gossip_run hnp hcover hlt hrun
    rw [(hrel.server i).returns, (hrel.server j).calls]
    exact hinv.returned_le_count i j
  · intro ρ hρ hgoes t k hall i
    apply hρ.eventually (fun sys => k ≤ (sys.server i).returns) (Gossip.stepBound (ranks hcover hlt) k)
    · intro acts sys hrun hnot
      obtain ⟨acts', a, hrun', hlen, hrel, -⟩ := exists_gossip_run hnp hcover hlt hrun
      rw [(hrel.server i).returns] at hnot
      rw [← hlen]
      exact Gossip.length_le_of_returned_lt hrun' (Nat.lt_of_not_le hnot)
    · intro t' ht' hnot
      obtain ⟨acts, hrun⟩ := hρ.exists_runSteps t'
      obtain ⟨-, a, -, -, hrel, hinv⟩ := exists_gossip_run hnp hcover hlt hrun
      have hcalls : ∀ j, k ≤ a.count j := by
        intro j
        rw [← (hrel.server j).calls]
        apply (hall j).trans
        exact hρ.mono (f := fun sys => (sys.server j).calls) (fun _ _ _ h => calls_le_of_step h j) ht'
      -- the process is still in its barrier `k`, which all have entered
      have hreturned : a.returned i < k := by
        rw [← (hrel.server i).returns]
        exact Nat.lt_of_not_le hnot
      have hi := hcalls i
      unfold Gossip.State.returned at hreturned
      have hpc : a.pc i ≠ .idle := by
        intro hidle
        rw [if_pos hidle] at hreturned
        omega
      rw [if_neg hpc] at hreturned
      apply hgoes t'
      apply hrel.exists_inside hcover hlt hinv hpc
      intro j
      have := hcalls j
      omega

/-- Three processes with an `int` of 32 bits, after their first barrier of two rounds. -/
theorem rpc_barrier_correct_three :
    (∃ sys : Sys 3, Reaches (step 31) start sys ∧ ∀ i, (sys.server i).returns = 1) ∧
    (∀ sys : Sys 3, Reaches (step 31) start sys → ∀ i j, (sys.server i).returns ≤ (sys.server j).calls) ∧
    ∀ ρ : Nat → Sys 3, Behaviour (step 31) start ρ → GoesOn 31 ρ →
      ∀ t k, (∀ j, k ≤ ((ρ t).server j).calls) → ∀ i, ∃ t' ≥ t, k ≤ ((ρ t').server i).returns := by
  refine ⟨⟨_, ⟨[.call 0, .call 1, .call 2, .send 0, .send 1, .send 2, .arrive 0 1, .arrive 1 2, .arrive 2 0,
    .test 0, .test 1, .test 2, .send 0, .send 1, .send 2, .arrive 0 2, .arrive 1 0, .arrive 2 1,
    .test 0, .test 1, .test 2], rfl⟩, ?_⟩, rpc_barrier_correct (by decide)⟩
  decide

end

end DataSpaces.Dart.Ib.Barrier
