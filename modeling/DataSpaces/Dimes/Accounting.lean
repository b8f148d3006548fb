import DataSpaces.Dimes.Fetch
import DataSpaces.Dimes.PutFailure

/-!
# The RDMA counter of a DIMES client

A client allocates RDMA memory for the objects it puts and for the parts it fetches. `clientStep` has all the
calls that allocate, free or count it: puts and gets with all their failures, the synchronisations that free
groups, checkpoints, the start of a new process, restarts and updates of the servers.

Puts, gets and frees keep the counter equal to the live allocations, whatever fails (`ClientInv.step`). Two
calls do not. A restart registers the memory of its objects and does not count it, and an update of the
servers counts the objects of the storage, also those that were counted when they were put or by an earlier
update. So the counter is right all along a sequence of calls if and only if every restart registers nothing
and every update counts nothing (`accounting_iff`). A third call, which the tests use, resets the counter
without looking at what could not be freed.
-/

namespace DataSpaces.Dimes.Rdma

open Lib Store List

/-! ## The source -/

/-- The fields of `struct dimes_memory_obj` that the accounting reads: the type and size of its
`rdma_handle`, and the size in its `shmem_desc`. -/
structure StoredObj where
  memType : DartMemoryType
  size : Nat
  shmemSize : Nat
deriving DecidableEq, Repr

/-- The state of a client. The objects of the storage come with the names of their groups. `leaked` are the
sizes of RDMA allocations that nothing refers to any more, `checkpoint` is what the last checkpoint wrote,
and `fetch` is the get that is going on. -/
structure Client where
  options : RdmaOptions
  enableShmemBuffer : Bool
  storage : List (String × StoredObj)
  leaked : List Nat
  checkpoint : List (String × StoredObj)
  fetch : Option (List Piece × Fetch)

def dimesClientAlloc (o : RdmaOptions) : Client := ⟨o.setUsage 0, false, [], [], [], none⟩

/-- Free the memory of an object without looking at the result. -/
def releaseObj (obj : StoredObj) (freed : Bool) (s : RdmaOptions × List Nat) : RdmaOptions × List Nat :=
  match dimesMemoryFree s.1 obj.size obj.memType freed with
  | some o => (o, s.2)
  | none => (s.1, s.2 ++ [obj.size])

/-- The loop of `storage_free_group`, with the results of the frees that are left. -/
def storageFreeGroup : List StoredObj → (Nat → Bool) → RdmaOptions × List Nat → RdmaOptions × List Nat
  | [], _, s => s
  | obj :: rest, freed, s => storageFreeGroup rest (fun i => freed (i + 1)) (releaseObj obj (freed 0) s)

/-- The loop of `dimes_client_shmem_restart_storage`: memory of type `shmem_rdma` is registered, objects that
were not in shared memory are dropped. The handle gets the size of the `shmem_desc`. -/
def restartStorage : List (String × StoredObj) → (Nat → Bool) → List (String × StoredObj)
  | [], _ => []
  | (name, obj) :: rest, registered =>
    let later := restartStorage rest fun i => registered (i + 1)
    match obj.memType with
    | .shmemRdma => if registered 0 then (name, { obj with size := obj.shmemSize }) :: later else later
    | .shmemNonRdma => (name, { obj with size := obj.shmemSize }) :: later
    | .nonRdma | .rdma => later

/-- The loop of `dimes_client_shmem_update_server_state`: an object is counted once its messages are sent,
and the first failure ends the loop. The objects come in the order of the groups and of their lists. -/
def updateServerState : List StoredObj → (Nat → Bool) → RdmaOptions → RdmaOptions
  | [], _, o => o
  | obj :: rest, sent, o =>
    if obj.memType = .shmemNonRdma then updateServerState rest (fun i => sent (i + 1)) o
    else if sent 0 then
      updateServerState rest (fun i => sent (i + 1)) (o.setUsage (o.rdmaBufferUsage + obj.shmemSize))
    else o

/-- The memory type of a put. -/
def putType (enableShmemBuffer : Bool) : DartMemoryType := if enableShmemBuffer then .shmemRdma else .rdma

/-- The accounting of `dimes_client_put`. Without a shared memory object the size in the `shmem_desc` is
whatever `malloc` left there. -/
def dimesClientPut (s : Client) (groupName : String) (size : Nat) (dhtNodes : List Nat)
    (e : Failing.PutEvents) (shmemFound : Bool) (garbage : Nat) : Client :=
  let obj : StoredObj := ⟨putType s.enableShmemBuffer, size,
    if s.enableShmemBuffer && shmemFound then size else garbage⟩
  match dimesMemoryAlloc s.options size obj.memType e.obtained with
  | none => s
  | some o =>
    let r := Failing.dimesObjPut dhtNodes e
    if r.err < 0 then
      let freed := releaseObj obj e.freed (o, s.leaked)
      { s with options := freed.1, leaked := freed.2 }
    else if r.stored then { s with options := o, storage := s.storage ++ [(groupName, obj)] }
    else
      -- The put is reported as done, and nothing refers to the object.
      { s with options := o, leaked := s.leaked ++ [size] }

/-- The objects of the groups that are freed and those of the other ones. -/
def Client.freeGroups (s : Client) (inGroup : String → Bool) (freed : Nat → Bool) : Client :=
  let objs := (s.storage.filter fun entry => inGroup entry.1).map Prod.snd
  let left := storageFreeGroup objs freed (s.options, s.leaked)
  { s with options := left.1, leaked := left.2, storage := s.storage.filter fun entry => !inGroup entry.1 }

/-- `opened` says that the restart buffers were found. -/
def Client.restart (s : Client) (opened : Bool) (registered : Nat → Bool) : Client :=
  let restored := if opened then restartStorage s.checkpoint registered else []
  { s with enableShmemBuffer := true, storage := s.storage ++ restored }

def Client.updateServers (s : Client) (order : List StoredObj) (sent : Nat → Bool) : Client :=
  { s with options := updateServerState order sent s.options }

/-- `dimes_client_shmem_clear_testing`. -/
def Client.clearTesting (s : Client) (freed : Nat → Bool) : Client :=
  let s := s.freeGroups (fun _ => true) freed
  { s with options := s.options.setUsage 0 }

/-- The calls of a client, with what its surroundings decide. A get is one call of `dimes_fetch_data`,
statement by statement. -/
inductive ClientCall where
  | get (pieces : List Piece)
  | fetch (e : FetchEvent)
  | getDone
  | shmemInit
  | put (groupName : String) (size : Nat) (dhtNodes : List Nat) (e : Failing.PutEvents) (shmemFound : Bool)
      (garbage : Nat)
  | putLocal (groupName : String) (size : Nat) (obtained shmemFound : Bool)
  | syncGroup (groupName : String) (freed : Nat → Bool)
  | syncAll (freed : Nat → Bool)
  | checkpoint (written : Bool)
  | newProcess
  | restart (opened : Bool) (registered : Nat → Bool)
  /-- `order` is the order of the objects in the groups and their lists, which the storage does not keep here -/
  | updateServerState (order : List StoredObj) (sent : Nat → Bool)
  | clearTesting (freed : Nat → Bool)

/-- The calls that are made while no get is going on. -/
def localStep (s : Client) : ClientCall → Option Client
  | .get pieces => some { s with fetch := some (pieces, startFetch s.options pieces) }
  | .fetch _ | .getDone => none
  | .shmemInit => some { s with enableShmemBuffer := true }
  | .put groupName size dhtNodes e shmemFound garbage =>
    some (dimesClientPut s groupName size dhtNodes e shmemFound garbage)
  | .putLocal groupName size obtained shmemFound =>
    -- The memory is not RDMA memory, so the counter is not involved.
    if s.enableShmemBuffer && obtained && shmemFound then
      some { s with storage := s.storage ++ [(groupName, ⟨.shmemNonRdma, size, size⟩)] }
    else some s
  | .syncGroup groupName freed => some (s.freeGroups (fun name => name = groupName) freed)
  | .syncAll freed => some (s.freeGroups (fun _ => true) freed)
  | .checkpoint written => some (if written then { s with checkpoint := s.storage } else s)
  | .newProcess =>
    -- The memory of the old process is gone, and so are its registrations.
    some { dimesClientAlloc s.options with checkpoint := s.checkpoint }
  | .restart opened registered => some (s.restart opened registered)
  | .updateServerState order sent =>
    if order.Perm (s.storage.map Prod.snd) then some (s.updateServers order sent) else none
  | .clearTesting freed => some (s.clearTesting freed)

def clientStep (s : Client) (call : ClientCall) : Option Client :=
  match s.fetch with
  | none => localStep s call
  | some (pieces, f) =>
    match call with
    | .fetch e =>
      (fetchStep pieces f e).map fun f' => { s with options := f'.options, fetch := some (pieces, f') }
    | .getDone =>
      match f.pc with
      | .returned _ => some { s with leaked := s.leaked ++ f.leaked, fetch := none }
      | _ => none
    | _ => none

/-! ## The statement -/

def StoredObj.rdmaSize (obj : StoredObj) : Nat := if obj.memType.useRdmaMemory then obj.size else 0

/-- The RDMA memory of objects. -/
def rdmaSizes (objs : List StoredObj) : Nat := (objs.map StoredObj.rdmaSize).sum

/-- The RDMA memory outside of a get. -/
def Client.atRest (s : Client) : Nat := rdmaSizes (s.storage.map Prod.snd) + s.leaked.sum

/-- The RDMA memory of the get that is going on. -/
def Client.fetching (s : Client) : Nat :=
  match s.fetch with
  | none => 0
  | some (pieces, f) => f.held pieces

/-- The sum of the sizes of the live RDMA allocations. -/
def Client.live (s : Client) : Nat := s.atRest + s.fetching

/-- The counter is the sum of the sizes of the live allocations, and an allocation is refused exactly when it
does not fit beside them. -/
structure Accounts (s : Client) : Prop where
  usage_eq : s.options.rdmaBufferUsage = s.live
  refused_iff : ∀ size type, type.useRdmaMemory = true →
    (dimesMemoryAlloc s.options size type true = none ↔ s.options.rdmaBufferSize < s.live + size)

/-- The sizes that an update of the servers counts. -/
def counted : List StoredObj → (Nat → Bool) → Nat
  | [], _ => 0
  | obj :: rest, sent =>
    if obj.memType = .shmemNonRdma then counted rest fun i => sent (i + 1)
    else if sent 0 then obj.shmemSize + counted rest fun i => sent (i + 1)
    else 0

/-- The call allocates what it counts: a restart registers nothing, an update of the servers counts nothing,
and what the counter is reset over is freed. -/
def Exact (s : Client) : ClientCall → Prop
  | .restart opened registered =>
    opened = true → rdmaSizes ((restartStorage s.checkpoint registered).map Prod.snd) = 0
  | .updateServerState order sent => counted order sent % 2 ^ 64 = 0
  | .clearTesting freed => (s.freeGroups (fun _ => true) freed).leaked.sum = 0
  | _ => True

/-! ## Objects and the counter -/

theorem rdmaSizes_append (l l' : List StoredObj) : rdmaSizes (l ++ l') = rdmaSizes l + rdmaSizes l' := by
  rw [rdmaSizes, map_append, sum_append]
  rfl

@[simp] theorem rdmaSizes_nil : rdmaSizes [] = 0 := rfl

@[simp] theorem rdmaSizes_cons (obj : StoredObj) (l : List StoredObj) :
    rdmaSizes (obj :: l) = obj.rdmaSize + rdmaSizes l := by
  rw [rdmaSizes, map_cons, sum_cons]
  rfl

/-- A group and the other ones together have the memory of the storage. -/
theorem rdmaSizes_filter (inGroup : String → Bool) (storage : List (String × StoredObj)) :
    rdmaSizes ((storage.filter fun entry => !inGroup entry.1).map Prod.snd) +
      rdmaSizes ((storage.filter fun entry => inGroup entry.1).map Prod.snd) =
      rdmaSizes (storage.map Prod.snd) := by
  induction storage with
  | nil => rfl
  | cons entry storage ih =>
    rw [map_cons, rdmaSizes_cons, ← ih]
    cases h : inGroup entry.1 with
    | true =>
      rw [filter_cons_of_neg (by simp [h]), filter_cons_of_pos (by simp [h]), map_cons, rdmaSizes_cons]
      omega
    | false =>
      rw [filter_cons_of_pos (by simp [h]), filter_cons_of_neg (by simp [h]), map_cons, rdmaSizes_cons]
      omega

theorem RdmaOptions.setUsage_self (o : RdmaOptions) : o.setUsage o.rdmaBufferUsage = o := by
  obtain ⟨size, usage, max, hsize, husage⟩ := o
  simp only [setUsage, Nat.mod_eq_of_lt husage]

/-- What is added to the counter is added modulo `2 ^ 64`. -/
theorem RdmaOptions.setUsage_setUsage (o : RdmaOptions) (m n : Nat) :
    (o.setUsage m).setUsage ((o.setUsage m).rdmaBufferUsage + n) = o.setUsage (m + n) := by
  simp only [setUsage, Nat.mod_add_mod]

section Counter

variable {o₀ o o' : RdmaOptions} {held size : Nat} {flag : Bool}

theorem dimesMemoryAlloc_rdma {type : DartMemoryType} (h : type.useRdmaMemory = true) :
    dimesMemoryAlloc o size type flag = dimesMemoryAlloc o size .rdma flag := by
  unfold dimesMemoryAlloc
  rw [h]
  rfl

variable {obj : StoredObj}

theorem releaseObj_rdma (h : obj.memType.useRdmaMemory = true) (s : RdmaOptions × List Nat) :
    releaseObj obj flag s = releaseBuffer obj.size flag s := by
  unfold releaseObj releaseBuffer dimesMemoryFree
  rw [h]
  rfl

theorem releaseObj_other (h : obj.memType.useRdmaMemory = false) (s : RdmaOptions × List Nat) :
    releaseObj obj flag s = s := by
  unfold releaseObj dimesMemoryFree
  rw [h]
  rfl

variable {s : RdmaOptions × List Nat}

/-- Freeing an object or losing it: the counter follows. -/
theorem Counts.releaseObj (flag : Bool) (h : Counts o₀ s.1 0 (held + obj.rdmaSize + s.2.sum)) :
    Counts o₀ (Rdma.releaseObj obj flag s).1 0 (held + (Rdma.releaseObj obj flag s).2.sum) := by
  unfold StoredObj.rdmaSize at h
  cases huse : obj.memType.useRdmaMemory with
  | true =>
    rw [huse, if_pos rfl] at h
    rw [releaseObj_rdma huse]
    exact h.releaseBuffer flag
  | false =>
    rw [huse, if_neg Bool.false_ne_true, Nat.add_zero] at h
    rw [releaseObj_other huse]
    exact h

variable (objs : List StoredObj) (sent : Nat → Bool)

theorem Counts.storageFreeGroup (freed : Nat → Bool)
    (h : Counts o₀ s.1 0 (held + rdmaSizes objs + s.2.sum)) :
    Counts o₀ (Rdma.storageFreeGroup objs freed s).1 0 (held + (Rdma.storageFreeGroup objs freed s).2.sum) := by
  induction objs generalizing freed s with
  | nil => exact h
  | cons obj rest ih =>
    refine ih (fun i => freed (i + 1)) (Counts.releaseObj (freed 0) ?_)
    rw [rdmaSizes_cons] at h
    convert h using 1
    omega

/-- What an update adds to the counter. -/
theorem updateServerState_eq (o : RdmaOptions) :
    updateServerState objs sent o = o.setUsage (o.rdmaBufferUsage + counted objs sent) := by
  induction objs generalizing sent o with
  | nil => rw [updateServerState, counted, Nat.add_zero, o.setUsage_self]
  | cons obj rest ih =>
    rw [updateServerState, counted]
    split
    · exact ih _ o
    · split
      · rw [ih, o.setUsage_setUsage, Nat.add_assoc]
      · rw [Nat.add_zero, o.setUsage_self]

end Counter

/-! ## Steps -/

/-- Between gets the counter has the memory at rest, and during a get also what the get holds. -/
def ClientInv (o₀ : RdmaOptions) (s : Client) : Prop :=
  match s.fetch with
  | none => Counts o₀ s.options 0 s.atRest
  | some (pieces, f) => f.options = s.options ∧ ∃ o, Counts o₀ o 0 s.atRest ∧ FetchInv o pieces f

section

variable {o₀ : RdmaOptions} {s s' : Client}

theorem clientInv_none (h : s.fetch = none) : ClientInv o₀ s ↔ Counts o₀ s.options 0 s.atRest := by
  rw [ClientInv, h]

variable {pieces : List Piece} {f : Fetch}

theorem clientInv_some (h : s.fetch = some (pieces, f)) : ClientInv o₀ s ↔
    f.options = s.options ∧ ∃ o, Counts o₀ o 0 s.atRest ∧ FetchInv o pieces f := by
  rw [ClientInv, h]

/-- Whatever a get does, the counter is the sum. -/
theorem ClientInv.counts (h : ClientInv o₀ s) : Counts o₀ s.options 0 s.live := by
  unfold Client.live Client.fetching
  cases hfetch : s.fetch with
  | none => exact (clientInv_none hfetch).1 h
  | some get =>
    obtain ⟨pieces, f⟩ := get
    obtain ⟨hoptions, o, hcounts, hinv⟩ := (clientInv_some hfetch).1 h
    rw [← hoptions]
    exact hcounts.trans hinv.accounted

theorem ClientInv.accounts (h : ClientInv o₀ s) : Accounts s := by
  have hcounts := h.counts
  have husage := hcounts.usage_eq
  have hle := hcounts.held_le
  refine ⟨husage.trans (Nat.zero_add _), fun size type huse => ?_⟩
  rw [dimesMemoryAlloc_rdma huse, Option.eq_none_iff_forall_ne_some, hcounts.size_eq]
  constructor
  · intro hrefused
    by_contra hfits
    exact hrefused _ (hcounts.alloc_iff.2 ⟨⟨by omega, rfl⟩, rfl⟩)
  · intro hlt o' halloc
    have := (hcounts.alloc_iff.1 halloc).1.1
    omega

theorem clientInv_dimesClientAlloc (o : RdmaOptions) : ClientInv o (dimesClientAlloc o) :=
  ⟨rfl, rfl, Nat.zero_mod _, Nat.zero_le _⟩

theorem useRdmaMemory_putType (enableShmemBuffer : Bool) :
    (putType enableShmemBuffer).useRdmaMemory = true := by
  cases enableShmemBuffer <;> rfl

/-- A put keeps the counter, whether it stores its object, frees it or loses it. -/
theorem Counts.dimesClientPut (h : Counts o₀ s.options 0 s.atRest) (groupName : String) (size : Nat)
    (dhtNodes : List Nat) (e : Failing.PutEvents) (shmemFound : Bool) (garbage : Nat) :
    Counts o₀ (Rdma.dimesClientPut s groupName size dhtNodes e shmemFound garbage).options 0
      (Rdma.dimesClientPut s groupName size dhtNodes e shmemFound garbage).atRest := by
  unfold Rdma.dimesClientPut
  dsimp only
  have huse := useRdmaMemory_putType s.enableShmemBuffer
  generalize putType s.enableShmemBuffer = type at huse ⊢
  generalize (if (s.enableShmemBuffer && shmemFound) = true then size else garbage) = shmemSize
  have hsize : StoredObj.rdmaSize ⟨type, size, shmemSize⟩ = size := if_pos huse
  cases halloc : dimesMemoryAlloc s.options size type e.obtained with
  | none => exact h
  | some o =>
    rw [dimesMemoryAlloc_rdma huse] at halloc
    have hcounts := h.alloc halloc
    unfold Client.atRest at hcounts
    dsimp only
    split
    · refine Counts.releaseObj (s := (o, s.leaked)) e.freed ?_
      rw [hsize]
      convert hcounts using 1
      show rdmaSizes (s.storage.map Prod.snd) + size + s.leaked.sum = _
      omega
    · split
      · unfold Client.atRest
        dsimp only
        rw [map_append, rdmaSizes_append, map_singleton, rdmaSizes_cons, hsize, rdmaSizes_nil]
        convert hcounts using 1
        omega
      · unfold Client.atRest
        dsimp only
        rw [sum_append, sum_singleton, ← Nat.add_assoc]
        exact hcounts

theorem Counts.freeGroups (h : Counts o₀ s.options 0 s.atRest) (inGroup : String → Bool)
    (freed : Nat → Bool) :
    Counts o₀ (s.freeGroups inGroup freed).options 0 (s.freeGroups inGroup freed).atRest := by
  refine Counts.storageFreeGroup (s := (s.options, s.leaked)) _ freed ?_
  show Counts o₀ s.options 0 (rdmaSizes ((s.storage.filter fun entry => !inGroup entry.1).map Prod.snd) + _ + _)
  rw [rdmaSizes_filter]
  exact h

/-- What a call between gets does to the counter: it is right after an exact one and wrong after another. -/
structure Recounts (o₀ : RdmaOptions) (s : Client) (call : ClientCall) (s' : Client) : Prop where
  right : Exact s call → Counts o₀ s'.options 0 s'.atRest
  wrong : ¬ Exact s call → s'.options.rdmaBufferUsage ≠ s'.atRest

variable {call : ClientCall}

theorem Recounts.of_exact (hexact : Exact s call) (h : Counts o₀ s'.options 0 s'.atRest) :
    Recounts o₀ s call s' := ⟨fun _ => h, fun hnot => (hnot hexact).elim⟩

theorem recounts_restart (h : Counts o₀ s.options 0 s.atRest) (opened : Bool) (registered : Nat → Bool) :
    Recounts o₀ s (.restart opened registered) (s.restart opened registered) := by
  cases opened with
  | false =>
    have hrest : (s.restart false registered).atRest = s.atRest := by
      unfold Client.restart Client.atRest
      simp
    refine .of_exact (fun hopened => by cases hopened) ?_
    rw [hrest]
    exact h
  | true =>
    have hrest : (s.restart true registered).atRest =
        s.atRest + rdmaSizes ((restartStorage s.checkpoint registered).map Prod.snd) := by
      unfold Client.restart Client.atRest
      dsimp only
      rw [if_pos rfl, map_append, rdmaSizes_append]
      omega
    have husage := h.usage_eq
    refine ⟨fun hexact => ?_, fun hnot heq => ?_⟩
    · rw [hrest, hexact rfl]
      exact h
    · have heq' : s.options.rdmaBufferUsage = (s.restart true registered).atRest := heq
      refine hnot fun _ => ?_
      omega

theorem recounts_updateServers (h : Counts o₀ s.options 0 s.atRest) (order : List StoredObj)
    (sent : Nat → Bool) : Recounts o₀ s (.updateServerState order sent) (s.updateServers order sent) := by
  have hafter : (s.updateServers order sent).options =
      s.options.setUsage (s.options.rdmaBufferUsage + counted order sent) := updateServerState_eq _ _ _
  have hlt := s.options.usage_lt
  have husage := h.usage_eq
  refine ⟨fun hexact => ?_, fun hnot heq => hnot ?_⟩
  · have hexact' : counted order sent % 2 ^ 64 = 0 := hexact
    show Counts o₀ (s.updateServers order sent).options 0 s.atRest
    rw [hafter]
    exact h.setUsage (by omega) h.held_le
  · show counted order sent % 2 ^ 64 = 0
    rw [hafter] at heq
    have heq' : (s.options.rdmaBufferUsage + counted order sent) % 2 ^ 64 = s.atRest := heq
    omega

theorem recounts_clearTesting (h : Counts o₀ s.options 0 s.atRest) (freed : Nat → Bool) :
    Recounts o₀ s (.clearTesting freed) (s.clearTesting freed) := by
  have hrest : (s.clearTesting freed).atRest = (s.freeGroups (fun _ => true) freed).leaked.sum := by
    unfold Client.clearTesting Client.atRest Client.freeGroups
    simp
  have husage : (s.clearTesting freed).options.rdmaBufferUsage = 0 := Nat.zero_mod _
  refine ⟨fun hexact => ?_, fun hnot heq => hnot ?_⟩
  · rw [hrest, hexact]
    exact (h.freeGroups _ freed).setUsage (Nat.zero_mod _) (Nat.zero_le _)
  · exact hrest.symm.trans (heq.symm.trans husage)

/-- The calls between gets, other than a get. -/
theorem recounts_localStep (h : Counts o₀ s.options 0 s.atRest) (hcall : ∀ pieces, call ≠ .get pieces)
    (hstep : localStep s call = some s') : Recounts o₀ s call s' := by
  cases call with
  | get pieces => exact (hcall pieces rfl).elim
  | fetch e => cases hstep
  | getDone => cases hstep
  | shmemInit =>
    cases hstep
    exact .of_exact trivial h
  | put groupName size dhtNodes e shmemFound garbage =>
    cases hstep
    exact .of_exact trivial (h.dimesClientPut groupName size dhtNodes e shmemFound garbage)
  | putLocal groupName size obtained shmemFound =>
    refine .of_exact trivial ?_
    rw [localStep] at hstep
    split at hstep
    · cases hstep
      unfold Client.atRest
      dsimp only
      rw [map_append, rdmaSizes_append]
      exact h
    · cases hstep
      exact h
  | syncGroup _ freed | syncAll freed =>
    cases hstep
    exact .of_exact trivial (h.freeGroups _ freed)
  | checkpoint written =>
    cases hstep
    cases written <;> exact .of_exact trivial h
  | newProcess =>
    cases hstep
    exact .of_exact trivial (h.setUsage (Nat.zero_mod _) (Nat.zero_le _))
  | restart opened registered =>
    cases hstep
    exact recounts_restart h opened registered
  | updateServerState order sent =>
    rw [localStep, Option.ite_none_right_eq_some] at hstep
    cases hstep.2
    exact recounts_updateServers h order sent
  | clearTesting freed =>
    cases hstep
    exact recounts_clearTesting h freed

theorem fetch_dimesClientPut (s : Client) (groupName : String) (size : Nat) (dhtNodes : List Nat)
    (e : Failing.PutEvents) (shmemFound : Bool) (garbage : Nat) :
    (dimesClientPut s groupName size dhtNodes e shmemFound garbage).fetch = s.fetch := by
  unfold dimesClientPut
  dsimp only
  split
  · rfl
  · split
    · rfl
    · split <;> rfl

/-- Only a get begins a get. -/
theorem fetch_localStep (hfetch : s.fetch = none) (hcall : ∀ pieces, call ≠ .get pieces)
    (hstep : localStep s call = some s') : s'.fetch = none := by
  cases call with
  | get pieces => exact (hcall pieces rfl).elim
  | put groupName size dhtNodes e shmemFound garbage =>
    cases hstep
    rw [fetch_dimesClientPut, hfetch]
  | putLocal groupName size obtained shmemFound =>
    rw [localStep] at hstep
    split at hstep <;> cases hstep <;> exact hfetch
  | checkpoint written =>
    cases hstep
    cases written <;> exact hfetch
  | updateServerState order sent =>
    rw [localStep, Option.ite_none_right_eq_some] at hstep
    cases hstep.2
    exact hfetch
  | _ => cases hstep <;> first | exact hfetch | rfl

/-- A get that has returned holds nothing but what it has lost. -/
theorem held_of_returned {o : RdmaOptions} {ok : Bool}
    (h : FetchInv o pieces f) (hpc : f.pc = .returned ok) : f.held pieces = f.leaked.sum := by
  have hposted : f.tab.posted = [] := by
    have hat := h.atPc
    rw [hpc] at hat
    cases ok with
    | true => exact hat.1.posted_eq
    | false => exact hat.1
  rw [Fetch.held, hposted, sizes_nil, Nat.zero_add]

/-- The step lemma: after an exact call the counter is right, after another one it is not. -/
theorem ClientInv.step (h : ClientInv o₀ s) (hstep : clientStep s call = some s') :
    (Exact s call → ClientInv o₀ s') ∧ (¬ Exact s call → ¬ Accounts s') := by
  cases hfetch : s.fetch with
  | none =>
    have hcounts := (clientInv_none hfetch).1 h
    have hlocal : localStep s call = some s' := by
      rw [clientStep, hfetch] at hstep
      exact hstep
    by_cases hcall : ∀ pieces, call ≠ .get pieces
    · have hrecounts := recounts_localStep hcounts hcall hlocal
      have hfetch' := fetch_localStep hfetch hcall hlocal
      refine ⟨fun hexact => (clientInv_none hfetch').2 (hrecounts.right hexact), fun hnot haccounts => ?_⟩
      have husage := haccounts.usage_eq
      rw [Client.live, Client.fetching, hfetch'] at husage
      exact hrecounts.wrong hnot husage
    · obtain ⟨pieces, hget⟩ := not_forall.1 hcall
      obtain rfl := not_not.1 hget
      cases hlocal
      exact ⟨fun _ => (clientInv_some rfl).2 ⟨rfl, s.options, hcounts, FetchInv.start _ _⟩,
        fun hnot => (hnot trivial).elim⟩
  | some get =>
    obtain ⟨pieces, f⟩ := get
    obtain ⟨hoptions, o, hcounts, hinv⟩ := (clientInv_some hfetch).1 h
    rw [clientStep, hfetch] at hstep
    cases call with
    | fetch e =>
      obtain ⟨f', hf', rfl⟩ := Option.map_eq_some_iff.1 hstep
      exact ⟨fun _ => (clientInv_some rfl).2 ⟨rfl, o, hcounts, hinv.step (fetchStep_trans hf')⟩,
        fun hnot => (hnot trivial).elim⟩
    | getDone =>
      refine ⟨fun _ => ?_, fun hnot => (hnot trivial).elim⟩
      dsimp only at hstep
      split at hstep
      · next ok hpc =>
        cases hstep
        have hlive := h.counts
        rw [Client.live, Client.fetching, hfetch] at hlive
        refine (clientInv_none rfl).2 ?_
        convert hlive using 1
        unfold Client.atRest
        dsimp only
        rw [held_of_returned hinv hpc, sum_append, Nat.add_assoc]
      · cases hstep
    | _ => cases hstep

end

/-! ## The result -/

/-- Along every sequence of calls of a client: the counter is the sum of the live RDMA allocations in all
states, and allocations are refused exactly when they do not fit, if and only if the sequence is one of calls
that allocate what they count. -/
theorem accounting_iff (o : RdmaOptions) (calls : List ClientCall) :
    (∀ before s, before <+: calls → runSteps clientStep (dimesClientAlloc o) before = some s → Accounts s) ↔
      ∀ before call s s', before ++ [call] <+: calls →
        runSteps clientStep (dimesClientAlloc o) before = some s → clientStep s call = some s' →
        Exact s call :=
  forall_prefix_iff (clientInv_dimesClientAlloc o) (fun _ h => h.accounts) (fun _ _ _ h hstep => h.step hstep)
    calls

/-! ## A restart -/

theorem hundred_lt : 100 < 2 ^ 64 := by decide

theorem none_lt : 0 < 2 ^ 64 := by decide

/-- A hundred bytes of RDMA memory. -/
def hundredBytes : RdmaOptions := ⟨100, 0, 5, hundred_lt, none_lt⟩

/-- A put of ten bytes in shared memory. -/
def tenBytes : ClientCall := .put "default" 10 [0] ⟨true, fun _ => .result 0 false, 0, true⟩ true 0

/-- After a checkpoint and a restart ten bytes are live and none is counted, so 95 more are accepted. After a
put and an update ten bytes are live and twenty are counted, so 85 more are refused. -/
theorem restart_uncounted : (∃ s, runSteps clientStep (dimesClientAlloc hundredBytes)
        [.shmemInit, tenBytes, .checkpoint true, .newProcess, .restart true fun _ => true] = some s ∧
      s.options.rdmaBufferUsage = 0 ∧ s.live = 10 ∧
      (dimesMemoryAlloc s.options 95 .shmemRdma true).isSome = true ∧ ¬ Accounts s) ∧
    ∃ s, runSteps clientStep (dimesClientAlloc hundredBytes)
        [.shmemInit, tenBytes, .updateServerState [⟨.shmemRdma, 10, 10⟩] fun _ => true] = some s ∧
      s.options.rdmaBufferUsage = 20 ∧ s.live = 10 ∧
      (dimesMemoryAlloc s.options 85 .shmemRdma true).isNone = true ∧ ¬ Accounts s := by
  refine ⟨⟨_, rfl, by decide, by decide, by decide, fun h => absurd h.usage_eq (by decide)⟩,
    ⟨_, rfl, by decide, by decide, by decide, fun h => absurd h.usage_eq (by decide)⟩⟩

end DataSpaces.Dimes.Rdma
