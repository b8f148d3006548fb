import DataSpaces.Dimes.Storage
import DataSpaces.Lib.Window

/-!
# RDMA memory of a DIMES client

`dimes_memory_alloc` counts the RDMA memory of a client and refuses what would exceed the configured size;
`dimes_memory_free` counts it back. `dimes_fetch_data` fetches the parts of a query in two loops. The first
one keeps up to `max_num_concurrent_rdma_read_op` reads of contiguous parts outstanding, each with a receive
buffer of its own; the second one handles the other parts one after the other. `fetchStep` has every point
at which either loop can fail.

`FetchTrans` lists what a step can do. On all paths the counter follows the buffers (`Accounted.step`), also
on those that leave a buffer behind.
-/

namespace DataSpaces.Dimes.Rdma

open Lib Store List Option

/-! ## The source -/

/-- The fields of `struct dimes_client_option` that the fetch and the accounting read. -/
structure RdmaOptions where
  rdmaBufferSize : Nat
  rdmaBufferUsage : Nat
  maxNumConcurrentRdmaReadOp : Int
  /-- both are of type `size_t` -/
  size_lt : rdmaBufferSize < 2 ^ 64
  usage_lt : rdmaBufferUsage < 2 ^ 64

/-- Set the counter, modulo `2 ^ 64`. -/
def RdmaOptions.setUsage (o : RdmaOptions) (usage : Nat) : RdmaOptions :=
  { o with rdmaBufferUsage := usage % 2 ^ 64, usage_lt := Nat.mod_lt _ (by decide) }

def getAvailableRdmaBufferSize (o : RdmaOptions) : Nat :=
  if o.rdmaBufferUsage > o.rdmaBufferSize then 0 else o.rdmaBufferSize - o.rdmaBufferUsage

/-- `none` is an error. `obtained` says that memory was found and, for RDMA memory, registered; what is
left behind when the registration fails is not RDMA memory. The RDMA buffer is not pre-allocated: nothing
sets `enable_pre_allocated_rdma_buffer`. -/
def dimesMemoryAlloc (o : RdmaOptions) (size : Nat) (type : DartMemoryType) (obtained : Bool) :
    Option RdmaOptions :=
  if type.useRdmaMemory = true ∧ getAvailableRdmaBufferSize o < size then none
  else if obtained = false then none
  else if type.useRdmaMemory = true then some (o.setUsage (o.rdmaBufferUsage + size))
  else some o

/-- `none` is the error of a failed deregistration, after which nothing has been freed. -/
def dimesMemoryFree (o : RdmaOptions) (size : Nat) (type : DartMemoryType) (deregistered : Bool) :
    Option RdmaOptions :=
  if type.useRdmaMemory = true then
    if deregistered then some (o.setUsage (o.rdmaBufferUsage + (2 ^ 64 - size % 2 ^ 64))) else none
  else some o

/-- How `dimes_fetch_data` gets a part. -/
inductive PieceKind where
  /-- in shared memory of the node -/
  | sameNode
  /-- in the storage of the client itself -/
  | myself
  /-- at another client, in one block -/
  | contiguous
  /-- at another client, in several rows -/
  | subArray
deriving DecidableEq, Repr

/-- An entry of the fetch list: the size of its part and where it is. -/
structure Piece where
  size : Nat
  kind : PieceKind
deriving DecidableEq, Repr

def pieceSize (pieces : List Piece) (i : Nat) : Nat :=
  match pieces[i]? with
  | some p => p.size
  | none => 0

def isContiguous (pieces : List Piece) (i : Nat) : Bool :=
  match pieces[i]? with
  | some p => p.kind == .contiguous
  | none => false

/-- The entries of the fetch list that go to `fetch_tab`. -/
def fetchTab (pieces : List Piece) : List Nat := (range pieces.length).filter (isContiguous pieces)

/-- Where the function is. -/
inductive FetchPc where
  /-- at the head of the loop that posts reads -/
  | table
  /-- in the second loop, with these entries left -/
  | others (rest : List Nat)
  | returned (ok : Bool)
deriving DecidableEq, Repr

/-- The state of `dimes_fetch_data`. `fetch_ready`, `fetch_posted` and `fetch_done` are the parts of the
window; `later` are the entries that the second loop has handled. `leaked` are the sizes of receive buffers
that are neither freed nor referred to any more. -/
structure Fetch where
  options : RdmaOptions
  tab : Window Nat
  later : List Nat
  leaked : List Nat
  pc : FetchPc

/-- The first pass over the fetch list. -/
def startFetch (o : RdmaOptions) (pieces : List Piece) : Fetch where
  options := o
  tab := Window.start (fetchTab pieces)
  later := []
  leaked := []
  pc := if pieces.any fun p => decide (p.kind ≠ .sameNode ∧ getAvailableRdmaBufferSize o < p.size) then
      .returned false
    else .table

/-- Free a receive buffer without looking at the result. -/
def releaseBuffer (size : Nat) (deregistered : Bool) (s : RdmaOptions × List Nat) : RdmaOptions × List Nat :=
  match dimesMemoryFree s.1 size .rdma deregistered with
  | some o => (o, s.2)
  | none => (s.1, s.2 ++ [size])

/-- `err_out_free`: the buffers of the posted reads are freed. -/
def errOutFree (pieces : List Piece) (deregistered : Nat → Bool) (s : Fetch) : Fetch :=
  let freed := s.tab.posted.foldl (fun m i => releaseBuffer (pieceSize pieces i) (deregistered i) m)
    (s.options, s.leaked)
  { s with options := freed.1, leaked := freed.2, tab := { s.tab with posted := [] }, pc := .returned false }

/-- The result of a pass over the posted reads: those that are done, and those that are still posted. -/
structure PassResult where
  options : RdmaOptions
  done : List Nat
  posted : List Nat
  failed : Bool

/-- One pass of the loop of `all_fetch_done` over the posted reads. -/
def passLoop (pieces : List Piece) (completed deregistered : Nat → Bool) :
    List Nat → RdmaOptions → PassResult
  | [], o => ⟨o, [], [], false⟩
  | i :: rest, o =>
    if completed i then
      match dimesMemoryFree o (pieceSize pieces i) .rdma (deregistered i) with
      | none => ⟨o, [], i :: rest, true⟩
      | some o =>
        let r := passLoop pieces completed deregistered rest o
        { r with done := i :: r.done }
    else
      let r := passLoop pieces completed deregistered rest o
      { r with posted := i :: r.posted }

/-- Entry `i` of the table is posted, with the counter of `o`. -/
def Fetch.post (s : Fetch) (i : Nat) (rest : List Nat) (o : RdmaOptions) : Fetch :=
  { s with options := o, tab := ⟨rest, s.tab.posted ++ [i], s.tab.finished⟩ }

def Fetch.afterPass (s : Fetch) (r : PassResult) : Fetch :=
  { s with options := r.options, tab := ⟨s.tab.waiting, r.posted, s.tab.finished ++ r.done⟩ }

/-- What the surroundings of the client decide at a point of `dimes_fetch_data`. -/
inductive FetchEvent where
  /-- `get_next_fetch` and `dart_rdma_perform_reads` -/
  | issue (obtained performed : Bool) (exitFreed : Nat → Bool)
  /-- a pass of `all_fetch_done` in which reads are completed -/
  | pass (processed : Bool) (completed deregistered exitFreed : Nat → Bool)
  /-- the table is done -/
  | loopDone
  /-- an entry of the second loop -/
  | next (found obtained performed deregistered : Bool)

/-- The next statement of `dimes_fetch_data`; `none` if it does not follow. -/
def fetchStep (pieces : List Piece) (s : Fetch) : FetchEvent → Option Fetch
  | .issue obtained performed exitFreed =>
    match s.pc, s.tab.waiting with
    | .table, i :: rest =>
      if s.options.maxNumConcurrentRdmaReadOp ≤ s.tab.posted.length then none
      else
        match dimesMemoryAlloc s.options (pieceSize pieces i) .rdma obtained with
        | none => some (errOutFree pieces exitFreed s)
        | some o =>
          if performed then some (s.post i rest o) else some (errOutFree pieces exitFreed (s.post i rest o))
    | _, _ => none
  | .pass processed completed deregistered exitFreed =>
    if s.pc = .table ∧ s.tab.Saturated s.options.maxNumConcurrentRdmaReadOp.toNat then
      match s.tab.posted with
      | [] =>
        -- Nothing is posted: the outer loop goes round again, or it is done.
        if s.tab.waiting = [] then none else some s
      | i :: posted =>
        if processed = false then some (errOutFree pieces exitFreed s)
        else if (i :: posted).any completed then
          let r := passLoop pieces completed deregistered (i :: posted) s.options
          if r.failed then some (errOutFree pieces exitFreed (s.afterPass r)) else some (s.afterPass r)
        else none
    else none
  | .loopDone =>
    if s.pc = .table ∧ s.tab.waiting = [] ∧ s.tab.posted = [] then
      some { s with pc := .others (range pieces.length) }
    else none
  | .next found obtained performed deregistered =>
    match s.pc with
    | .others [] => some { s with pc := .returned true }
    | .others (i :: rest) =>
      match pieces[i]? with
      | none => none
      | some p =>
        match p.kind with
        | .contiguous => some { s with pc := .others rest }
        | .sameNode | .myself =>
          -- The part is copied to a buffer that is not RDMA memory.
          if found then some { s with later := s.later ++ [i], pc := .others rest }
          else some { s with pc := .returned false }
        | .subArray =>
          match dimesMemoryAlloc s.options p.size .rdma obtained with
          | none => some { s with pc := .returned false }
          | some o =>
            if performed then
              let freed := releaseBuffer p.size deregistered (o, s.leaked)
              some { s with
                options := freed.1, leaked := freed.2, later := s.later ++ [i], pc := .others rest }
            else
              -- `err_out` does not free the buffer.
              some { s with options := o, leaked := s.leaked ++ [p.size], pc := .returned false }
    | _ => none

/-! ## The counter -/

theorem getAvailableRdmaBufferSize_eq (o : RdmaOptions) :
    getAvailableRdmaBufferSize o = o.rdmaBufferSize - o.rdmaBufferUsage := by
  rw [getAvailableRdmaBufferSize]
  split
  · next h => omega
  · rfl

/-- The options have the configured values of `o₀`. The counter has `held` bytes on top of `other` ones, and
they were allocated within the limit. -/
structure Counts (o₀ o : RdmaOptions) (other held : Nat) : Prop where
  size_eq : o.rdmaBufferSize = o₀.rdmaBufferSize
  max_eq : o.maxNumConcurrentRdmaReadOp = o₀.maxNumConcurrentRdmaReadOp
  usage_eq : o.rdmaBufferUsage = other + held
  held_le : held ≤ o₀.rdmaBufferSize - other

namespace Counts

variable {o₀ o o' : RdmaOptions} {other held size : Nat} {flag : Bool}

theorem zero (o : RdmaOptions) : Counts o o o.rdmaBufferUsage 0 := ⟨rfl, rfl, rfl, Nat.zero_le _⟩

theorem setUsage (h : Counts o₀ o other held) {n held' : Nat} (husage : n % 2 ^ 64 = other + held')
    (hle : held' ≤ o₀.rdmaBufferSize - other) : Counts o₀ (o.setUsage n) other held' :=
  ⟨h.size_eq, h.max_eq, husage, hle⟩

/-- Bytes may be counted to the other ones. -/
theorem assoc {a b : Nat} (h : Counts o₀ o other (a + b)) : Counts o₀ o (other + a) b :=
  ⟨h.size_eq, h.max_eq, by rw [h.usage_eq, Nat.add_assoc], by have := h.held_le; omega⟩

theorem unassoc {a b : Nat} (h : Counts o₀ o (other + a) b) (hfit : a ≤ o₀.rdmaBufferSize - other) :
    Counts o₀ o other (a + b) :=
  ⟨h.size_eq, h.max_eq, by rw [h.usage_eq, Nat.add_assoc], by have := h.held_le; omega⟩

/-- The bytes of a part that began with the options `o`, on top of those that `o` counts. -/
theorem trans {a b : Nat} (h : Counts o₀ o 0 a) (h' : Counts o o' o.rdmaBufferUsage b) :
    Counts o₀ o' 0 (a + b) := by
  have husage := h.usage_eq
  have husage' := h'.usage_eq
  have hle := h.held_le
  have hle' := h'.held_le
  have hsize := h.size_eq
  exact ⟨h'.size_eq.trans hsize, h'.max_eq.trans h.max_eq, by omega, by omega⟩

/-- An RDMA allocation succeeds only if it fits. -/
theorem alloc_iff (h : Counts o₀ o other held) : dimesMemoryAlloc o size .rdma flag = some o' ↔
    (held + size ≤ o₀.rdmaBufferSize - other ∧ flag = true) ∧
      o' = o.setUsage (o.rdmaBufferUsage + size) := by
  have huse : DartMemoryType.rdma.useRdmaMemory = true := rfl
  have hle := h.held_le
  have husage := h.usage_eq
  rw [dimesMemoryAlloc, getAvailableRdmaBufferSize_eq, huse, h.size_eq]
  simp only [true_and, if_true, ite_none_left_eq_some, some.injEq, Bool.not_eq_false, not_lt,
    eq_comm (a := o'), and_assoc]
  refine and_congr_left fun _ => ?_
  omega

theorem alloc (h : Counts o₀ o other held) (halloc : dimesMemoryAlloc o size .rdma flag = some o') :
    Counts o₀ o' other (held + size) := by
  obtain ⟨⟨hfit, -⟩, rfl⟩ := h.alloc_iff.1 halloc
  have hle := h.held_le
  have hlt := o₀.size_lt
  have hult := o.usage_lt
  have husage := h.usage_eq
  exact h.setUsage (by omega) hfit

theorem free_iff : dimesMemoryFree o size .rdma flag = some o' ↔
    flag = true ∧ o' = o.setUsage (o.rdmaBufferUsage + (2 ^ 64 - size % 2 ^ 64)) := by
  have huse : DartMemoryType.rdma.useRdmaMemory = true := rfl
  rw [dimesMemoryFree, huse]
  simp only [if_true, ite_none_right_eq_some, some.injEq, eq_comm (a := o')]

theorem free (h : Counts o₀ o other (held + size)) (hfree : dimesMemoryFree o size .rdma flag = some o') :
    Counts o₀ o' other held := by
  obtain ⟨-, rfl⟩ := free_iff.1 hfree
  have hle := h.held_le
  have hlt := o₀.size_lt
  have hult := o.usage_lt
  have husage := h.usage_eq
  exact h.setUsage (by omega) (by omega)

/-- Whether a release frees a buffer or not, the counter follows. -/
theorem releaseBuffer (flag : Bool) {leaked : List Nat} (h : Counts o₀ o other (held + size + leaked.sum)) :
    let freed := Rdma.releaseBuffer size flag (o, leaked)
    Counts o₀ freed.1 other (held + freed.2.sum) := by
  intro freed
  have hcases : freed = Rdma.releaseBuffer size flag (o, leaked) := rfl
  rw [Rdma.releaseBuffer] at hcases
  cases hfree : dimesMemoryFree o size .rdma flag with
  | none =>
    simp only [hfree] at hcases
    rw [hcases, sum_append, sum_singleton]
    convert h using 1
    omega
  | some o' =>
    simp only [hfree] at hcases
    rw [hcases]
    refine free ?_ hfree
    convert h using 1
    show held + leaked.sum + size = _
    omega

end Counts

/-- The receive buffers of posted reads. -/
def sizes (pieces : List Piece) (l : List Nat) : Nat := (l.map (pieceSize pieces)).sum

@[simp] theorem sizes_nil (pieces : List Piece) : sizes pieces [] = 0 := rfl

@[simp] theorem sizes_cons (pieces : List Piece) (i : Nat) (l : List Nat) :
    sizes pieces (i :: l) = pieceSize pieces i + sizes pieces l := by
  rw [sizes, map_cons, sum_cons]
  rfl

theorem sizes_append (pieces : List Piece) (l l' : List Nat) :
    sizes pieces (l ++ l') = sizes pieces l + sizes pieces l' := by
  rw [sizes, map_append, sum_append]
  rfl

/-- The RDMA memory that a fetch has allocated and not freed. -/
def Fetch.held (pieces : List Piece) (s : Fetch) : Nat := sizes pieces s.tab.posted + s.leaked.sum

/-- The counter of a fetch that began with the options `o`. -/
def Accounted (o : RdmaOptions) (pieces : List Piece) (s : Fetch) : Prop :=
  Counts o s.options o.rdmaBufferUsage (s.held pieces)

theorem accounted_startFetch (o : RdmaOptions) (pieces : List Piece) :
    Accounted o pieces (startFetch o pieces) := Counts.zero o

variable {pieces : List Piece}

theorem foldl_releaseBuffer {o : RdmaOptions} {other : Nat} (freed : Nat → Bool) (l : List Nat)
    (m : RdmaOptions × List Nat) (h : Counts o m.1 other (sizes pieces l + m.2.sum)) :
    let m' := l.foldl (fun m i => releaseBuffer (pieceSize pieces i) (freed i) m) m
    Counts o m'.1 other m'.2.sum := by
  induction l generalizing m with
  | nil =>
    rw [sizes_nil, Nat.zero_add] at h
    exact h
  | cons i l ih =>
    have hhead : Counts o m.1 other (sizes pieces l + pieceSize pieces i + m.2.sum) := by
      rw [sizes_cons] at h
      convert h using 1
      omega
    exact ih _ (hhead.releaseBuffer (freed i))

/-- The error exit of the first loop. -/
theorem Accounted.errOutFree {o : RdmaOptions} {s : Fetch} (h : Accounted o pieces s) (freed : Nat → Bool) :
    Accounted o pieces (errOutFree pieces freed s) := by
  rw [Accounted, Fetch.held]
  show Counts o _ _ (0 + _)
  rw [Nat.zero_add]
  exact foldl_releaseBuffer freed s.tab.posted (s.options, s.leaked) h

/-- A pass frees the buffers of the reads that are done. -/
theorem passLoop_counts {o₀ : RdmaOptions} (completed freed : Nat → Bool) (l : List Nat) (o : RdmaOptions)
    (other : Nat) (h : Counts o₀ o other (sizes pieces l)) : let r := passLoop pieces completed freed l o
    Counts o₀ r.options other (sizes pieces r.posted) := by
  induction l generalizing o other with
  | nil => exact h
  | cons i l ih =>
    rw [sizes_cons] at h
    rw [passLoop]
    split
    · cases hfree : dimesMemoryFree o (pieceSize pieces i) .rdma (freed i) with
      | none =>
        dsimp only
        rw [sizes_cons]
        exact h
      | some o' =>
        rw [Nat.add_comm] at h
        exact ih o' other (h.free hfree)
    · dsimp only
      rw [sizes_cons]
      exact (ih o (other + pieceSize pieces i) h.assoc).unassoc ((Nat.le_add_right _ _).trans h.held_le)

/-! ## Steps of a fetch -/

/-- What a step of a fetch can do. -/
inductive FetchTrans (pieces : List Piece) (s : Fetch) : Fetch → Prop where
  | posted {i : Nat} {rest : List Nat} {obtained : Bool} {o : RdmaOptions} (hpc : s.pc = .table)
      (hwaiting : s.tab.waiting = i :: rest)
      (hlen : s.tab.posted.length < s.options.maxNumConcurrentRdmaReadOp.toNat)
      (halloc : dimesMemoryAlloc s.options (pieceSize pieces i) .rdma obtained = some o) :
      FetchTrans pieces s (s.post i rest o)
  /-- an error exit before the state has changed -/
  | gaveUp (freed : Nat → Bool) (hpc : s.pc = .table) : FetchTrans pieces s (errOutFree pieces freed s)
  | notPerformed {i : Nat} {rest : List Nat} {obtained : Bool} {o : RdmaOptions} (freed : Nat → Bool)
      (hpc : s.pc = .table) (hwaiting : s.tab.waiting = i :: rest)
      (halloc : dimesMemoryAlloc s.options (pieceSize pieces i) .rdma obtained = some o) :
      FetchTrans pieces s (errOutFree pieces freed (s.post i rest o))
  /-- the outer loop goes round without anything posted -/
  | idle (hpc : s.pc = .table) : FetchTrans pieces s s
  | passed {completed freed : Nat → Bool} (hpc : s.pc = .table)
      (hsat : s.tab.Saturated s.options.maxNumConcurrentRdmaReadOp.toNat)
      (hany : ∃ i ∈ s.tab.posted, completed i = true)
      (hok : (passLoop pieces completed freed s.tab.posted s.options).failed = false) :
      FetchTrans pieces s (s.afterPass (passLoop pieces completed freed s.tab.posted s.options))
  | notFreed {completed freed : Nat → Bool} (exitFreed : Nat → Bool) (hpc : s.pc = .table) :
      FetchTrans pieces s (errOutFree pieces exitFreed
        (s.afterPass (passLoop pieces completed freed s.tab.posted s.options)))
  | loopDone (hpc : s.pc = .table) (hwaiting : s.tab.waiting = []) (hposted : s.tab.posted = []) :
      FetchTrans pieces s { s with pc := .others (range pieces.length) }
  | allDone (hpc : s.pc = .others []) : FetchTrans pieces s { s with pc := .returned true }
  | skipped {i : Nat} {rest : List Nat} (hpc : s.pc = .others (i :: rest))
      (hkind : isContiguous pieces i = true) : FetchTrans pieces s { s with pc := .others rest }
  | copied {i : Nat} {rest : List Nat} (hpc : s.pc = .others (i :: rest))
      (hkind : isContiguous pieces i = false) :
      FetchTrans pieces s { s with later := s.later ++ [i], pc := .others rest }
  | read {i : Nat} {rest : List Nat} {size : Nat} {obtained : Bool} {o : RdmaOptions} (freed : Bool)
      (hpc : s.pc = .others (i :: rest)) (hkind : isContiguous pieces i = false)
      (halloc : dimesMemoryAlloc s.options size .rdma obtained = some o) :
      FetchTrans pieces s { s with
        options := (releaseBuffer size freed (o, s.leaked)).1
        leaked := (releaseBuffer size freed (o, s.leaked)).2
        later := s.later ++ [i], pc := .others rest }
  | lost {rest : List Nat} (hpc : s.pc = .others rest) : FetchTrans pieces s { s with pc := .returned false }
  | leaked {rest : List Nat} {size : Nat} {obtained : Bool} {o : RdmaOptions} (hpc : s.pc = .others rest)
      (halloc : dimesMemoryAlloc s.options size .rdma obtained = some o) :
      FetchTrans pieces s { s with options := o, leaked := s.leaked ++ [size], pc := .returned false }

theorem isContiguous_of_getElem? {i : Nat} {p : Piece} (h : pieces[i]? = some p) :
    isContiguous pieces i = (p.kind == .contiguous) := by
  rw [isContiguous, h]

theorem fetchStep_trans {s s' : Fetch} {e : FetchEvent} (h : fetchStep pieces s e = some s') :
    FetchTrans pieces s s' := by
  cases e with
  | issue obtained performed freed =>
    simp only [fetchStep] at h
    split at h
    · next i rest hpc hwaiting =>
      rw [ite_none_left_eq_some] at h
      obtain ⟨hmax, h⟩ := h
      have hlen : s.tab.posted.length < s.options.maxNumConcurrentRdmaReadOp.toNat := by omega
      cases halloc : dimesMemoryAlloc s.options (pieceSize pieces i) .rdma obtained with
      | none =>
        simp only [halloc, some.injEq] at h
        exact h ▸ .gaveUp freed hpc
      | some o =>
        simp only [halloc] at h
        split at h
        · exact some.inj h ▸ .posted hpc hwaiting hlen halloc
        · exact some.inj h ▸ .notPerformed freed hpc hwaiting halloc
    · cases h
  | pass processed completed freed exitFreed =>
    simp only [fetchStep, ite_none_right_eq_some] at h
    obtain ⟨⟨hpc, hsat⟩, h⟩ := h
    split at h
    · rw [ite_none_left_eq_some] at h
      exact some.inj h.2 ▸ .idle hpc
    · next i rest hposted =>
      split at h
      · exact some.inj h ▸ .gaveUp exitFreed hpc
      · rw [← hposted, ite_none_right_eq_some] at h
        obtain ⟨hany, h⟩ := h
        split at h
        · exact some.inj h ▸ .notFreed exitFreed hpc
        · next hok =>
          exact some.inj h ▸ .passed hpc hsat (List.any_eq_true.1 hany) (Bool.eq_false_iff.2 hok)
  | loopDone =>
    simp only [fetchStep, ite_none_right_eq_some, some.injEq] at h
    obtain ⟨⟨hpc, hwaiting, hposted⟩, rfl⟩ := h
    exact .loopDone hpc hwaiting hposted
  | next found obtained performed freed =>
    simp only [fetchStep] at h
    split at h
    · next hpc => exact some.inj h ▸ .allDone hpc
    · next i rest hpc =>
      split at h
      · cases h
      · next p hp =>
        have hkind := isContiguous_of_getElem? hp
        cases hk : p.kind with
        | contiguous =>
          simp only [hk, some.injEq] at h
          exact h ▸ .skipped hpc (by rw [hkind, hk]; rfl)
        | sameNode | myself =>
          simp only [hk] at h
          split at h
          · exact some.inj h ▸ .copied hpc (by rw [hkind, hk]; rfl)
          · exact some.inj h ▸ .lost hpc
        | subArray =>
          simp only [hk] at h
          cases halloc : dimesMemoryAlloc s.options p.size .rdma obtained with
          | none =>
            simp only [halloc, some.injEq] at h
            exact h ▸ .lost hpc
          | some o =>
            simp only [halloc] at h
            split at h
            · exact some.inj h ▸ .read freed hpc (by rw [hkind, hk]; rfl) halloc
            · exact some.inj h ▸ .leaked hpc halloc
    · cases h

/-! ## The counter along a fetch -/

section

variable {pieces : List Piece} {o₀ : RdmaOptions} {s s' : Fetch} (h : Accounted o₀ pieces s)

include h

theorem Accounted.post {i : Nat} {rest : List Nat} {obtained : Bool} {o : RdmaOptions}
    (halloc : dimesMemoryAlloc s.options (pieceSize pieces i) .rdma obtained = some o) :
    Accounted o₀ pieces (s.post i rest o) := by
  have hcounts := Counts.alloc h halloc
  rw [Accounted, Fetch.held]
  show Counts o₀ o _ (sizes pieces (s.tab.posted ++ [i]) + s.leaked.sum)
  rw [sizes_append, sizes_cons, sizes_nil]
  convert hcounts using 1
  rw [Fetch.held]
  omega

theorem Accounted.afterPass (completed freed : Nat → Bool) :
    Accounted o₀ pieces (s.afterPass (passLoop pieces completed freed s.tab.posted s.options)) := by
  rw [Accounted, Fetch.held, Nat.add_comm] at h
  have hcounts := passLoop_counts completed freed s.tab.posted s.options _ h.assoc
  have hboth := hcounts.unassoc ((Nat.le_add_right _ _).trans h.held_le)
  rw [Nat.add_comm] at hboth
  exact hboth

theorem Accounted.step (hstep : FetchTrans pieces s s') : Accounted o₀ pieces s' := by
  cases hstep with
  | posted _ _ _ halloc => exact h.post halloc
  | gaveUp freed _ => exact h.errOutFree freed
  | notPerformed freed _ _ halloc => exact (h.post halloc).errOutFree freed
  | idle _ => exact h
  | passed _ _ _ _ => exact h.afterPass _ _
  | notFreed exitFreed _ => exact (h.afterPass _ _).errOutFree exitFreed
  | loopDone _ _ _ => exact h
  | allDone _ => exact h
  | skipped _ _ => exact h
  | copied _ _ => exact h
  | lost _ => exact h
  | @read i rest size obtained o freed _ _ halloc =>
    have hcounts := Counts.alloc h halloc
    have hshape : Counts o₀ o o₀.rdmaBufferUsage (sizes pieces s.tab.posted + size + s.leaked.sum) := by
      convert hcounts using 1
      rw [Fetch.held]
      omega
    exact hshape.releaseBuffer freed
  | @leaked rest size obtained o _ halloc =>
    have hcounts := Counts.alloc h halloc
    rw [Accounted, Fetch.held]
    show Counts o₀ o _ (sizes pieces s.tab.posted + (s.leaked ++ [size]).sum)
    rw [sum_append, sum_singleton, ← Nat.add_assoc]
    exact hcounts

end

end DataSpaces.Dimes.Rdma
