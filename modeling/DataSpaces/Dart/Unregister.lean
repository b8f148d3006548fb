import Mathlib.Data.Int.CardIntervalMod
import DataSpaces.Lib.Runs

/-!
# Shutdown of the TCP servers

Every client sends one message when it leaves, to the server `id % num_sp` (`dc_unregister` in
`dc_base_tcp.c`). A server counts its own clients and the batches that the other servers forward; when
its own clients have all left, it forwards their number to the others. It stops when it has counted all
clients (`rpc_handler_cn_unregister` in `ds_base_tcp.c`). Messages are delivered in any order.

The argument is an account for every server: what it has counted, what is on the way to it, its own
clients that have not left, and the clients of the servers that have not forwarded yet are together all
clients, at any time.
-/

namespace DataSpaces.Dart

open Lib Function Finset

/-! ## The source -/

/-- The fields of `struct dart_server` that the shutdown uses, with the static counter of the handler. -/
structure DartServer where
  id : Nat
  sizeSp : Nat
  sizeCp : Nat
  numCharge : Int
  numChargeCp : Int
  numCnUnreg : Int
  fStop : Bool

/-- The counters at the end of `ds_alloc`. -/
def dsAlloc (numSp numCp id : Nat) : DartServer :=
  let numChargeCp := ((numCp : Int) - 1 - id + numSp).tdiv numSp
  { id := id, sizeSp := numSp, sizeCp := numCp, numCharge := numChargeCp, numChargeCp := numChargeCp,
    numCnUnreg := 0, fStop := false }

/-- A message `cn_unregister` under way. The receiver takes the sender from the connection. -/
structure UnregMsg where
  dest : Nat
  sender : Nat
  numCp : Int
  deriving DecidableEq

/-- The message of a leaving client. -/
def dcUnregister (numSp id : Nat) : UnregMsg := ⟨id % numSp, id, 1⟩

/-- The number of its clients goes to all other servers. -/
def forwardBatch (ds : DartServer) : List UnregMsg :=
  ((List.range ds.sizeSp).filter fun i => i ≠ ds.id).map fun i => ⟨i, ds.id, ds.numChargeCp⟩

/-- The server handles a message; the second part is what it sends. -/
def rpcHandlerCnUnregister (ds : DartServer) (sender : Nat) (numCp : Int) : DartServer × List UnregMsg :=
  if ds.fStop then (ds, [])
  else
    let numCnUnreg := ds.numCnUnreg + numCp
    let ds := { ds with numCnUnreg := numCnUnreg, fStop := decide (numCnUnreg = ds.sizeCp) }
    -- A message of a client lowers the charge, a batch of another server does not.
    if sender ≥ ds.sizeSp then
      let ds := { ds with numCharge := ds.numCharge - 1 }
      if ds.numCharge = 0 then (ds, forwardBatch ds) else (ds, [])
    else (ds, [])

/-! ## The system -/

/-- The servers, the clients that have left (client `k` has the id `num_sp + k`) and the messages under
way. -/
structure Shutdown where
  server : Nat → DartServer
  gone : Finset Nat
  inFlight : List UnregMsg

def Shutdown.start (numSp numCp : Nat) : Shutdown := ⟨dsAlloc numSp numCp, ∅, []⟩

inductive ShutdownStep where
  /-- client `k` leaves -/
  | unregister (k : Nat)
  /-- a message arrives -/
  | deliver (m : UnregMsg)

def Shutdown.step (numSp numCp : Nat) (s : Shutdown) : ShutdownStep → Option Shutdown
  | .unregister k =>
    if k < numCp ∧ k ∉ s.gone then
      some { s with
        gone := insert k s.gone
        inFlight := dcUnregister numSp (numSp + k) :: s.inFlight }
    else none
  | .deliver m =>
    if m ∈ s.inFlight then
      let handled := rpcHandlerCnUnregister (s.server m.dest) m.sender m.numCp
      some { s with
        server := update s.server m.dest handled.1
        inFlight := handled.2 ++ s.inFlight.erase m }
    else none

/-! ## Quotas -/

/-- The clients that report to server `i`. -/
def ownClients (numSp numCp i : Nat) : Finset Nat :=
  (range numCp).filter fun k => (numSp + k) % numSp = i

variable {numSp : Nat} {l : List UnregMsg}

theorem mem_ownClients {numCp i k : Nat} :
    k ∈ ownClients numSp numCp i ↔ k < numCp ∧ (numSp + k) % numSp = i := by
  simp [ownClients]

/-- The formula of `ds_alloc` counts the clients of a server. -/
theorem numChargeCp_dsAlloc {numCp i : Nat} (hi : i < numSp) :
    (dsAlloc numSp numCp i).numChargeCp = (ownClients numSp numCp i).card := by
  have hpos : 0 < numSp := Nat.zero_lt_of_lt hi
  have hcount : (ownClients numSp numCp i).card = numCp / numSp + if i < numCp % numSp then 1 else 0 := by
    have hcard := Nat.count_modEq_card numCp hpos i
    rw [Nat.count_eq_card_filter_range, Nat.mod_eq_of_lt hi] at hcard
    rw [← hcard, ownClients]
    congr 1
    apply filter_congr
    intro k _
    rw [Nat.add_mod_left, Nat.ModEq, Nat.mod_eq_of_lt hi]
  have hnum : (numCp : Int) - 1 - i + numSp = (numCp + (numSp - 1 - i) : Nat) := by omega
  have hdiv : (numCp + (numSp - 1 - i)) / numSp =
      numCp / numSp + (numCp % numSp + (numSp - 1 - i)) / numSp := by
    nth_rewrite 1 [← Nat.div_add_mod numCp numSp]
    rw [Nat.add_assoc, Nat.mul_add_div hpos]
  -- One more client for the servers below the remainder.
  have hrest : (numCp % numSp + (numSp - 1 - i)) / numSp = if i < numCp % numSp then 1 else 0 := by
    have hlt := Nat.mod_lt numCp hpos
    split
    · next hbelow => exact Nat.div_eq_of_lt_le (by omega) (by omega)
    · next habove => exact Nat.div_eq_of_lt (by omega)
  rw [hcount, dsAlloc]
  dsimp only
  rw [hnum, Int.tdiv_eq_ediv_of_nonneg (Int.natCast_nonneg _), ← Int.natCast_div, hdiv, hrest]

/-- A client that leaves was one of the clients of its server. -/
theorem card_sdiff_insert (numSp : Nat) {numCp k : Nat} {gone : Finset Nat} (hk : k < numCp) (hgone : k ∉ gone)
    (i : Nat) : ((ownClients numSp numCp i \ gone).card : Int) =
      (ownClients numSp numCp i \ insert k gone).card + if (numSp + k) % numSp = i then 1 else 0 := by
  rw [sdiff_insert]
  split
  · next hown =>
    have hmem : k ∈ ownClients numSp numCp i \ gone := mem_sdiff.2 ⟨mem_ownClients.2 ⟨hk, hown⟩, hgone⟩
    exact_mod_cast (card_erase_add_one hmem).symm
  · next hown =>
    rw [erase_eq_of_notMem, add_zero]
    exact fun hmem => hown (mem_ownClients.1 (mem_sdiff.1 hmem).1).2

theorem sum_card_ownClients (hpos : 0 < numSp) (numCp : Nat) :
    ∑ i ∈ range numSp, (ownClients numSp numCp i).card = numCp := by
  have hfibers := card_eq_sum_card_fiberwise (s := range numCp) (t := range numSp)
    (f := fun k => (numSp + k) % numSp) fun k _ => mem_coe.2 (mem_range.2 (Nat.mod_lt _ hpos))
  rw [card_range] at hfibers
  exact hfibers.symm

/-! ## The account of a server -/

/-- A message of a client counts once. -/
def report (numSp : Nat) (m : UnregMsg) : Int := if numSp ≤ m.sender then 1 else 0

/-- The sum of `w` over the messages under way to server `i`: of what they will add to its count, or of the
messages of clients. -/
def sumTo (w : UnregMsg → Int) (l : List UnregMsg) (i : Nat) : Int :=
  (l.map fun m => if m.dest = i then w m else 0).sum

/-- The clients of the other servers that have not forwarded their number. -/
def unforwarded (numSp numCp : Nat) (server : Nat → DartServer) (i : Nat) : Int :=
  ∑ j ∈ range numSp,
    if j ≠ i ∧ (server j).numCharge ≠ 0 then ((ownClients numSp numCp j).card : Int) else 0

theorem sumTo_append (w : UnregMsg → Int) (l l' : List UnregMsg) (i : Nat) :
    sumTo w (l ++ l') i = sumTo w l i + sumTo w l' i := by
  simp [sumTo]

theorem sumTo_erase (w : UnregMsg → Int) {m : UnregMsg} (hm : m ∈ l) (i : Nat) :
    sumTo w l i = (if m.dest = i then w m else 0) + sumTo w (l.erase m) i := (List.sum_map_erase _ hm).symm

theorem sumTo_nonneg {w : UnregMsg → Int} (hw : ∀ m ∈ l, 0 ≤ w m) (i : Nat) : 0 ≤ sumTo w l i := by
  apply List.sum_nonneg
  intro x hx
  obtain ⟨m, hm, rfl⟩ := List.mem_map.1 hx
  split
  · exact hw m hm
  · exact le_rfl

theorem report_nonneg (numSp : Nat) (m : UnregMsg) : 0 ≤ report numSp m := by
  rw [report]
  split <;> decide

theorem unforwarded_nonneg (numSp numCp : Nat) (server : Nat → DartServer) (i : Nat) :
    0 ≤ unforwarded numSp numCp server i := by
  apply sum_nonneg
  intro j _
  split
  · exact Int.natCast_nonneg _
  · exact le_rfl

/-- Only the part of one server changes with it. -/
theorem unforwarded_update {j : Nat} (hj : j < numSp) (numCp : Nat) (server : Nat → DartServer)
    (ds : DartServer) (i : Nat) : unforwarded numSp numCp (update server j ds) i +
        (if j ≠ i ∧ (server j).numCharge ≠ 0 then ((ownClients numSp numCp j).card : Int) else 0) =
      unforwarded numSp numCp server i +
        if j ≠ i ∧ ds.numCharge ≠ 0 then ((ownClients numSp numCp j).card : Int) else 0 := by
  have hmem := mem_range.2 hj
  have hothers : ∀ x ∈ (range numSp).erase j, update server j ds x = server x :=
    fun x hx => update_of_ne (ne_of_mem_erase hx) _ _
  rw [unforwarded, unforwarded, ← add_sum_erase _ _ hmem, ← add_sum_erase _ _ hmem,
    update_self, sum_congr rfl fun x hx => by rw [hothers x hx]]
  ring

theorem sumTo_numCp_forwardBatch {ds : DartServer} {i : Nat} (hi : i < ds.sizeSp) :
    sumTo UnregMsg.numCp (forwardBatch ds) i = if ds.id ≠ i then ds.numChargeCp else 0 := by
  have hsum : sumTo UnregMsg.numCp (forwardBatch ds) i =
      (((List.range ds.sizeSp).filter fun k => k ≠ ds.id).map fun k =>
        if k = i then ds.numChargeCp else 0).sum := by
    rw [sumTo, forwardBatch, List.map_map]
    rfl
  have hnd : ((List.range ds.sizeSp).filter fun k => k ≠ ds.id).Nodup := List.nodup_range.filter _
  rw [hsum, List.sum_map_ite_eq]
  by_cases hself : ds.id = i
  · rw [if_neg (not_not.2 hself), List.count_eq_zero_of_not_mem (by simp [hself])]
    simp
  · rw [if_pos hself, List.count_eq_one_of_mem hnd (by simp [hi, Ne.symm hself])]
    simp

theorem sumTo_report_forwardBatch (ds : DartServer) (hid : ds.id < ds.sizeSp) (i : Nat) :
    sumTo (report ds.sizeSp) (forwardBatch ds) i = 0 := by
  apply List.sum_eq_zero
  intro x hx
  obtain ⟨m, hm, rfl⟩ := List.mem_map.1 hx
  obtain ⟨k, -, rfl⟩ := List.mem_map.1 hm
  simp [report, hid]

/-! ## Invariant -/

/-- What a server that has not stopped does about a message. -/
theorem rpcHandlerCnUnregister_eq {ds : DartServer} (hstop : ds.fStop = false) (sender : Nat) (numCp : Int) :
    rpcHandlerCnUnregister ds sender numCp =
      ({ ds with
          numCnUnreg := ds.numCnUnreg + numCp
          fStop := decide (ds.numCnUnreg + numCp = ds.sizeCp)
          numCharge := if ds.sizeSp ≤ sender then ds.numCharge - 1 else ds.numCharge },
        if ds.sizeSp ≤ sender ∧ ds.numCharge - 1 = 0 then forwardBatch ds else []) := by
  rw [rpcHandlerCnUnregister, hstop]
  by_cases hclient : ds.sizeSp ≤ sender
  · by_cases hlast : ds.numCharge - 1 = 0
    · simp [hclient, hlast, forwardBatch]
    · simp [hclient, hlast]
  · simp [hclient]

/-- The constants of server `i`; it has stopped if it has counted all clients. -/
structure ServerInv (numSp numCp i : Nat) (ds : DartServer) : Prop where
  id_eq : ds.id = i
  sizeSp_eq : ds.sizeSp = numSp
  sizeCp_eq : ds.sizeCp = numCp
  quota : ds.numChargeCp = (ownClients numSp numCp i).card
  stop : ds.fStop = true ↔ ds.numCnUnreg = numCp

/-- A message for a server, which has a client if it comes from one. -/
structure UnregMsg.Ok (numSp numCp : Nat) (m : UnregMsg) : Prop where
  dest_lt : m.dest < numSp
  numCp_pos : 0 < m.numCp
  own_pos : numSp ≤ m.sender → 0 < (ownClients numSp numCp m.dest).card

structure ShutdownInv (numSp numCp : Nat) (s : Shutdown) : Prop where
  server : ∀ i < numSp, ServerInv numSp numCp i (s.server i)
  -- A server is in charge of its clients until their messages have arrived.
  charge : ∀ i < numSp, (s.server i).numCharge =
    (ownClients numSp numCp i \ s.gone).card + sumTo (report numSp) s.inFlight i
  account : ∀ i < numSp, (s.server i).numCnUnreg + sumTo UnregMsg.numCp s.inFlight i +
    (ownClients numSp numCp i \ s.gone).card + unforwarded numSp numCp s.server i = numCp
  messages : ∀ m ∈ s.inFlight, m.Ok numSp numCp

section

variable {numSp numCp : Nat}

theorem shutdownInv_start (hsp : 0 < numSp) (hcp : 0 < numCp) :
    ShutdownInv numSp numCp (.start numSp numCp) where
  server := by
    refine fun i hi => ⟨rfl, rfl, rfl, numChargeCp_dsAlloc hi, ?_⟩
    constructor
    · intro h
      cases h
    · intro h
      exact absurd (Int.natCast_inj.1 h) hcp.ne
  charge := by
    intro i hi
    rw [Shutdown.start, sdiff_empty]
    exact (numChargeCp_dsAlloc hi).trans (add_zero _).symm
  account := by
    intro i hi
    -- A server without clients has nothing to forward, and counts as nothing here too.
    have hunforwarded : unforwarded numSp numCp (dsAlloc numSp numCp) i =
        ∑ j ∈ (range numSp).erase i, ((ownClients numSp numCp j).card : Int) := by
      rw [unforwarded, ← add_sum_erase _ _ (mem_range.2 hi), if_neg (fun h => h.1 rfl), zero_add]
      apply sum_congr rfl
      intro j hj
      have hcharge : (dsAlloc numSp numCp j).numCharge = (ownClients numSp numCp j).card :=
        numChargeCp_dsAlloc (mem_range.1 (mem_of_mem_erase hj))
      rw [hcharge, ite_eq_left_iff]
      intro hzero
      by_contra hne
      exact hzero ⟨ne_of_mem_erase hj, fun h => hne h.symm⟩
    rw [Shutdown.start, sdiff_empty, hunforwarded]
    -- Every client has exactly one server.
    calc (0 : Int) + 0 + (ownClients numSp numCp i).card +
          ∑ j ∈ (range numSp).erase i, ((ownClients numSp numCp j).card : Int)
        = ∑ j ∈ range numSp, ((ownClients numSp numCp j).card : Int) := by
          rw [← add_sum_erase _ _ (mem_range.2 hi), zero_add, zero_add]
      _ = numCp := by exact_mod_cast sum_card_ownClients hsp numCp
  messages := fun m hm => absurd hm List.not_mem_nil

variable {s : Shutdown} (h : ShutdownInv numSp numCp s)

include h

variable {k i : Nat}

/-- A client leaves: it moves from the clients of its server to the messages under way. -/
theorem ShutdownInv.unregister (hsp : 0 < numSp) (hk : k < numCp) (hgone : k ∉ s.gone) :
    ShutdownInv numSp numCp
      { s with gone := insert k s.gone, inFlight := dcUnregister numSp (numSp + k) :: s.inFlight } where
  server := h.server
  -- A client leaves its server's account and its message enters it.
  charge := by
    intro i hi
    have hmoved := card_sdiff_insert numSp hk hgone i
    have hcharge := h.charge i hi
    have hreports : sumTo (report numSp) (dcUnregister numSp (numSp + k) :: s.inFlight) i =
        (if (numSp + k) % numSp = i then 1 else 0) + sumTo (report numSp) s.inFlight i := by
      simp [sumTo, report, dcUnregister]
    dsimp only
    rw [hreports]
    omega
  account := by
    intro i hi
    have hmoved := card_sdiff_insert numSp hk hgone i
    have haccount := h.account i hi
    have hcredit : sumTo UnregMsg.numCp (dcUnregister numSp (numSp + k) :: s.inFlight) i =
        (if (numSp + k) % numSp = i then 1 else 0) + sumTo UnregMsg.numCp s.inFlight i := by
      simp [sumTo, dcUnregister]
    dsimp only
    rw [hcredit]
    omega
  messages := by
    intro m hm
    rcases List.mem_cons.1 hm with rfl | hm
    · have hown : k ∈ ownClients numSp numCp ((numSp + k) % numSp) := mem_ownClients.2 ⟨hk, rfl⟩
      exact ⟨Nat.mod_lt _ hsp, one_pos, fun _ => card_pos.2 ⟨k, hown⟩⟩
    · exact h.messages m hm

variable {m : UnregMsg}

/-- A server with a message under way to it has not stopped. -/
theorem ShutdownInv.not_stopped (hm : m ∈ s.inFlight) : (s.server m.dest).fStop = false := by
  obtain ⟨hdest, hpos, -⟩ := h.messages m hm
  rw [← Bool.not_eq_true, (h.server m.dest hdest).stop]
  intro hall
  have haccount := h.account m.dest hdest
  have hcredit := sumTo_erase UnregMsg.numCp hm m.dest
  have hrest : 0 ≤ sumTo UnregMsg.numCp (s.inFlight.erase m) m.dest :=
    sumTo_nonneg (fun m' hm' => (h.messages m' (List.mem_of_mem_erase hm')).numCp_pos.le) m.dest
  have hunforwarded := unforwarded_nonneg numSp numCp s.server m.dest
  rw [if_pos rfl] at hcredit
  omega

/-- A message of a client is one that its server is in charge of. -/
theorem ShutdownInv.charge_pos (hm : m ∈ s.inFlight) (hclient : numSp ≤ m.sender) :
    0 < (s.server m.dest).numCharge := by
  have hcharge := h.charge m.dest (h.messages m hm).dest_lt
  have hreports := sumTo_erase (report numSp) hm m.dest
  have hrest := sumTo_nonneg (l := (s.inFlight.erase m)) (fun m _ => report_nonneg numSp m) m.dest
  rw [if_pos rfl, report, if_pos hclient] at hreports
  omega

/-- What the account needs to know about a handled message. -/
structure Handled (numSp numCp : Nat) (m : UnregMsg) (ds ds' : DartServer) (sent : List UnregMsg) :
    Prop where
  server : ServerInv numSp numCp m.dest ds'
  charge : ds'.numCharge = if numSp ≤ m.sender then ds.numCharge - 1 else ds.numCharge
  count : ds'.numCnUnreg = ds.numCnUnreg + m.numCp
  -- The batch is forwarded with the last message that the server is in charge of.
  credit : ∀ i < numSp, sumTo UnregMsg.numCp sent i =
    if (numSp ≤ m.sender ∧ ds.numCharge - 1 = 0) ∧ m.dest ≠ i then
      ((ownClients numSp numCp m.dest).card : Int) else 0
  reports : ∀ i, sumTo (report numSp) sent i = 0
  messages : ∀ m' ∈ sent, m'.Ok numSp numCp

theorem ShutdownInv.handled (hm : m ∈ s.inFlight) : Handled numSp numCp m (s.server m.dest)
      (rpcHandlerCnUnregister (s.server m.dest) m.sender m.numCp).1
      (rpcHandlerCnUnregister (s.server m.dest) m.sender m.numCp).2 := by
  obtain ⟨hdest, hnum, hown⟩ := h.messages m hm
  obtain ⟨hid, hsizeSp, hsizeCp, hquota, -⟩ := h.server m.dest hdest
  rw [rpcHandlerCnUnregister_eq (h.not_stopped hm)]
  refine ⟨⟨hid, hsizeSp, hsizeCp, hquota, ?_⟩, by rw [hsizeSp], rfl, fun i hi => ?_, fun i => ?_,
    fun m' hm' => ?_⟩
  · rw [hsizeCp]
    exact decide_eq_true_iff
  · -- The batch goes out with the last client of the server, and it is worth all of them.
    dsimp only
    rw [hsizeSp]
    by_cases hlast : numSp ≤ m.sender ∧ (s.server m.dest).numCharge - 1 = 0
    · rw [if_pos hlast, sumTo_numCp_forwardBatch (hsizeSp.symm ▸ hi), hid, hquota]
      simp only [hlast, and_self, true_and]
    · rw [if_neg hlast, if_neg fun hyes => hlast hyes.1]
      rfl
  · dsimp only
    split
    · have hreports := sumTo_report_forwardBatch (s.server m.dest) (by rw [hid, hsizeSp]; exact hdest) i
      rw [hsizeSp] at hreports
      exact hreports
    · rfl
  · -- A batch comes from a server, so it is no report of a client.
    dsimp only at hm'
    split at hm'
    · next hlast =>
      obtain ⟨k, hk, rfl⟩ := List.mem_map.1 hm'
      refine ⟨hsizeSp ▸ List.mem_range.1 (List.mem_filter.1 hk).1, ?_, fun hclient => ?_⟩
      · dsimp only
        rw [hquota]
        exact Int.natCast_pos.2 (hown (hsizeSp ▸ hlast.1))
      · dsimp only at hclient
        omega
    · exact absurd hm' List.not_mem_nil

/-- A message is counted, and the last one of the own clients moves them from the servers that have not
forwarded to the messages under way. -/
theorem ShutdownInv.deliver (hm : m ∈ s.inFlight) {ds' : DartServer} {sent : List UnregMsg}
    (hd : Handled numSp numCp m (s.server m.dest) ds' sent) :
    ShutdownInv numSp numCp
      { s with
        server := update s.server m.dest ds'
        inFlight := sent ++ s.inFlight.erase m } where
  server := by
    intro i hi
    by_cases hmi : i = m.dest
    · subst hmi
      dsimp only
      rw [update_self]
      exact hd.server
    · dsimp only
      rw [update_of_ne hmi]
      exact h.server i hi
  -- Only a message of a client lowers the charge.
  charge := by
    intro i hi
    have hcharge := h.charge i hi
    have hreports := sumTo_erase (report numSp) hm i
    dsimp only
    rw [sumTo_append, hd.reports, zero_add]
    by_cases hmi : i = m.dest
    · subst hmi
      rw [update_self, hd.charge]
      rw [if_pos rfl, report] at hreports
      by_cases hclient : numSp ≤ m.sender
      · rw [if_pos hclient] at hreports ⊢
        omega
      · rw [if_neg hclient] at hreports ⊢
        omega
    · rw [if_neg (Ne.symm hmi)] at hreports
      rw [update_of_ne hmi]
      omega
  -- What a message was worth is counted by its receiver; the last client of a server turns all of
  -- them into the credit of its batch.
  account := by
    intro i hi
    have haccount := h.account i hi
    have hcredit := sumTo_erase UnregMsg.numCp hm i
    have hupdate := unforwarded_update (h.messages m hm).dest_lt numCp s.server ds' i
    dsimp only
    rw [sumTo_append, hd.credit i hi]
    by_cases hmi : i = m.dest
    · subst hmi
      rw [update_self, hd.count]
      simp only [ne_eq, not_true_eq_false, false_and, and_false, if_false, if_true] at hupdate hcredit ⊢
      omega
    · have hmi' : m.dest ≠ i := Ne.symm hmi
      rw [update_of_ne hmi]
      rw [if_neg hmi'] at hcredit
      rw [hd.charge] at hupdate
      by_cases hclient : numSp ≤ m.sender
      · have hpos := h.charge_pos hm hclient
        simp only [hclient, hmi', ne_eq, not_false_eq_true, true_and, and_true, if_true,
          hpos.ne'] at hupdate ⊢
        by_cases hlast : (s.server m.dest).numCharge - 1 = 0
        · simp only [hlast, not_true_eq_false, if_false, if_true] at hupdate ⊢
          omega
        · simp only [hlast, not_false_eq_true, if_false, if_true] at hupdate ⊢
          omega
      · simp only [hclient, false_and, if_false] at hupdate ⊢
        omega
  messages := by
    intro m' hm'
    rcases List.mem_append.1 hm' with hnew | hold
    · exact hd.messages m' hnew
    · exact h.messages m' (List.mem_of_mem_erase hold)

theorem ShutdownInv.step (hsp : 0 < numSp) {a : ShutdownStep} {s' : Shutdown}
    (hstep : s.step numSp numCp a = some s') : ShutdownInv numSp numCp s' := by
  cases a with
  | unregister k =>
    obtain ⟨⟨hk, hgone⟩, hs'⟩ := Option.ite_none_right_eq_some.1 hstep
    rw [← Option.some.inj hs']
    exact h.unregister hsp hk hgone
  | deliver m =>
    obtain ⟨hm, hs'⟩ := Option.ite_none_right_eq_some.1 hstep
    rw [← Option.some.inj hs']
    exact h.deliver hm (h.handled hm)

theorem ShutdownInv.gone_of_stop (hi : i < numSp) (hstop : (s.server i).fStop = true)
    (hk : k < numCp) : k ∈ s.gone := by
  have hall := (h.server i hi).stop.1 hstop
  have haccount := h.account i hi
  have hcredit : 0 ≤ sumTo UnregMsg.numCp s.inFlight i :=
    sumTo_nonneg (fun m hm => (h.messages m hm).numCp_pos.le) i
  have hunforwarded := unforwarded_nonneg numSp numCp s.server i
  -- The client reports to server `j`, which has none left, or has forwarded.
  have hj : (numSp + k) % numSp < numSp := Nat.mod_lt _ (Nat.zero_lt_of_lt hi)
  have hown : k ∈ ownClients numSp numCp ((numSp + k) % numSp) := mem_ownClients.2 ⟨hk, rfl⟩
  generalize (numSp + k) % numSp = j at hj hown
  have hnone : (ownClients numSp numCp j \ s.gone).card = 0 := by
    by_cases hij : j = i
    · rw [hij]
      omega
    · have hterm : (if j ≠ i ∧ (s.server j).numCharge ≠ 0 then ((ownClients numSp numCp j).card : Int)
          else 0) ≤ unforwarded numSp numCp s.server i :=
        single_le_sum (f := fun j => if j ≠ i ∧ (s.server j).numCharge ≠ 0 then
          ((ownClients numSp numCp j).card : Int) else 0)
          (fun x _ => by split <;> omega) (mem_range.2 hj)
      have hcharge := h.charge j hj
      have hreports := sumTo_nonneg (l := s.inFlight) (fun m _ => report_nonneg numSp m) j
      have hpos : 0 < (ownClients numSp numCp j).card := card_pos.2 ⟨k, hown⟩
      by_cases hzero : (s.server j).numCharge = 0
      · omega
      · rw [if_pos ⟨hij, hzero⟩] at hterm
        omega
  by_contra hk'
  exact notMem_empty k (card_eq_zero.1 hnone ▸ mem_sdiff.2 ⟨hown, hk'⟩)

theorem ShutdownInv.stop_of_quiet (hgone : ∀ k < numCp, k ∈ s.gone) (hquiet : s.inFlight = [])
    (hi : i < numSp) : (s.server i).fStop = true := by
  have hnone : ∀ j, (ownClients numSp numCp j \ s.gone).card = 0 := by
    intro j
    rw [card_eq_zero, sdiff_eq_empty_iff_subset]
    exact fun k hk => hgone k (mem_ownClients.1 hk).1
  have hforwarded : unforwarded numSp numCp s.server i = 0 := by
    apply sum_eq_zero
    intro j hj
    apply if_neg
    rintro ⟨-, hcharge⟩
    apply hcharge
    rw [h.charge j (mem_range.1 hj), hnone, hquiet]
    rfl
  have haccount := h.account i hi
  rw [hnone, hforwarded, hquiet] at haccount
  rw [(h.server i hi).stop]
  simpa [sumTo] using haccount

end

/-- For any number of servers and clients and any order of delivery: no server stops before all clients
have left, and when they have left and no message is under way, every server has stopped. -/
theorem shutdown_stops_exactly (numSp numCp : Nat) (hsp : 1 ≤ numSp) (hcp : 1 ≤ numCp) (s : Shutdown)
    (hs : Reaches (Shutdown.step numSp numCp) (.start numSp numCp) s) :
    (∀ i < numSp, (s.server i).fStop = true → ∀ k < numCp, k ∈ s.gone) ∧
      ((∀ k < numCp, k ∈ s.gone) → s.inFlight = [] → ∀ i < numSp, (s.server i).fStop = true) := by
  have h : ShutdownInv numSp numCp s :=
    hs.invariant (shutdownInv_start hsp hcp) fun s a s' h hstep => h.step hsp hstep
  exact ⟨fun i hi hstop k hk => h.gone_of_stop hi hstop hk,
    fun hgone hquiet i hi => h.stop_of_quiet hgone hquiet hi⟩

/-- Two servers and three clients; server 0 is in charge of the first and the last one. -/
def shutdownOfThree : List ShutdownStep :=
  [.unregister 0, .deliver ⟨0, 2, 1⟩, .unregister 1, .deliver ⟨1, 3, 1⟩, .unregister 2,
    .deliver ⟨0, 4, 1⟩, .deliver ⟨0, 1, 1⟩, .deliver ⟨1, 0, 2⟩]

theorem shutdown_stops_exactly_three :
    ∃ s, Reaches (Shutdown.step 2 3) (.start 2 3) s ∧ (∀ k < 3, k ∈ s.gone) ∧ s.inFlight = [] ∧
      ∀ i < 2, (s.server i).fStop = true := by
  obtain ⟨s, hrun, hgone, hquiet⟩ : ∃ s, runSteps (Shutdown.step 2 3) (.start 2 3) shutdownOfThree = some s ∧
      (∀ k < 3, k ∈ s.gone) ∧ s.inFlight = [] := ⟨_, rfl, by decide, by decide⟩
  exact ⟨s, ⟨_, hrun⟩, hgone, hquiet,
    (shutdown_stops_exactly 2 3 (by decide) (by decide) s ⟨_, hrun⟩).2 hgone hquiet⟩

end DataSpaces.Dart
