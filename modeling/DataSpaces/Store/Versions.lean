import DataSpaces.Lib.Runs
import DataSpaces.Lib.Scan
import DataSpaces.Store.Retention

/-!
# Looking up versions

Three look-ups go through all lists of a table. `ls_find_next` looks for the object of a name with the next
version, `ls_find_latest` for the one with the last version, and `dht_find_versions` collects the versions
that match a query.

In every reachable store an object is in the list at its version modulo the size (`Binned`). From that:
* `lsFindNext_next`: the first one is right. It starts at the list of the next possible version, so the
  versions that make it return early occur in increasing order, and the scan of `Lib.Scan` applies;
* `lsFindLatest_right_iff`: the second one is never right. It reads one list beyond the table, and it reads
  the version of the null pointer `od_next` at the first object that is newer;
* `dhtFindVersions_exact_iff`: the third one reports one version for each list, so it is right exactly when
  no list holds two versions that match and the versions fit the header of the reply.
-/

namespace DataSpaces.Store

open Lib Geometry List Function Option

/-! ## The source -/

/-- Same name. -/
def objDescByNameOnlyIntersect (odsc1 odsc2 : ObjDescriptor) : Bool := decide (odsc1.name = odsc2.name)

/-- `ls_remove` of the object at a position of a list. -/
def lsRemove (ls : SsStorage) (index pos : Nat) : SsStorage :=
  { ls with
    numObj := ls.numObj - 1
    objHash := update ls.objHash index ((ls.objHash index).eraseIdx pos) }

/-- The test of `ls_find_next` and `ls_find_latest` for a newer object of the name. Versions are unsigned,
so that `-1` is before all versions. -/
def newerThan (odsc : ObjDescriptor) (od : ObjData) : Bool :=
  objDescByNameOnlyIntersect odsc od.objDesc && decide (odsc.version + 1 ≤ od.objDesc.version)

/-- `INT_MAX`, as it is compared with a version. -/
def intMax : UInt32 := 0x7FFFFFFF

/-- The variables `od_next` and `next_ver`. -/
structure NextScan where
  odNext : Option ObjData
  nextVer : UInt32

/-- The inner loop of `ls_find_next`; a `return` is an `Except.error`. -/
def lsFindNextIn (ls : SsStorage) (odsc : ObjDescriptor) : List ObjData → NextScan → Except ObjData NextScan
  | [], st => .ok st
  | od :: list, st =>
    if newerThan odsc od = true ∧ od.objDesc.version < st.nextVer then
      if od.objDesc.version ≤ odsc.version + UInt32.ofNat ls.sizeHash then .error od
      else lsFindNextIn ls odsc list ⟨some od, od.objDesc.version⟩
    else lsFindNextIn ls odsc list st

/-- The list for a version with an offset, in unsigned arithmetic. -/
def offsetBin (ls : SsStorage) (odsc : ObjDescriptor) (offset : Nat) : List ObjData :=
  ls.objHash (ls.index (odsc.version + UInt32.ofNat offset))

/-- The outer loop of `ls_find_next`. -/
def lsFindNextFrom (ls : SsStorage) (odsc : ObjDescriptor) : List Nat → NextScan → Option ObjData
  | [], st => st.odNext
  | offset :: offsets, st =>
    match lsFindNextIn ls odsc (offsetBin ls odsc offset) st with
    | .error od => some od
    | .ok st' => lsFindNextFrom ls odsc offsets st'

def lsFindNext (ls : SsStorage) (odsc : ObjDescriptor) : Option ObjData :=
  lsFindNextFrom ls odsc (range' 1 ls.sizeHash) ⟨none, intMax⟩

/-- What `ls_find_latest` may read that is not there: the version of `od_next` while it is a null pointer, or
a list behind the table. -/
inductive Fault where
  | nullPointer
  | outsideTable
deriving DecidableEq, Repr

/-- The inner loop of `ls_find_latest`. The version of `od_next` is read before `od_next` is tested. -/
def lsFindLatestIn (odsc : ObjDescriptor) : List ObjData → Option ObjData → Except Fault (Option ObjData)
  | [], odNext => .ok odNext
  | od :: list, odNext =>
    if newerThan odsc od = true then
      match odNext with
      | none => .error .nullPointer
      | some next =>
        lsFindLatestIn odsc list (if next.objDesc.version < od.objDesc.version then some od else some next)
    else lsFindLatestIn odsc list odNext

/-- The outer loop of `ls_find_latest`. -/
def lsFindLatestFrom (ls : SsStorage) (odsc : ObjDescriptor) :
    List Nat → Option ObjData → Except Fault (Option ObjData)
  | [], odNext => .ok odNext
  | index :: rest, odNext =>
    if index < ls.sizeHash then
      match lsFindLatestIn odsc (ls.objHash index) odNext with
      | .error fault => .error fault
      | .ok odNext' => lsFindLatestFrom ls odsc rest odNext'
    else .error .outsideTable

/-- `ls_find_latest`; the loop runs up to and including `size_hash`. -/
def lsFindLatest (ls : SsStorage) (odsc : ObjDescriptor) : Except Fault (Option ObjData) :=
  lsFindLatestFrom ls odsc (range (ls.sizeHash + 1)) none

/-- The query of `dsgrpc_obj_get_latest_meta`. -/
def latestMetaQuery (fName : String) (currentVersion : UInt32) : ObjDescriptor :=
  ⟨"VARMETA@" ++ fName, .columnMajor, 0, currentVersion, ⟨1, fun _ => 0, fun _ => 0⟩, 1⟩

/-- The two numbers that `dsgrpc_obj_get_latest_meta` replies. -/
def dsgrpcObjGetLatestMeta (ls : SsStorage) (fName : String) (currentVersion : UInt32) :
    Except Fault (Int32 × Int32) :=
  (lsFindLatest ls (latestMetaQuery fName currentVersion)).map fun
    | none => (-3, -3)
    | some fromObj =>
      (Int32.ofNat ((fromObj.objDesc.bb.ub 0 + 1) % 2 ^ 64), fromObj.objDesc.version.toInt32)

/-! ## Reachable stores -/

inductive LsCall where
  | add (od : ObjData)
  | remove (index pos : Nat)

/-- Insertions of any objects and removals of stored ones. -/
def lsStep (ls : SsStorage) : LsCall → Option SsStorage
  | .add od => some (lsAddObj ls od)
  | .remove index pos => if pos < (ls.objHash index).length then some (lsRemove ls index pos) else none

/-- The object is in the store. -/
def SsStorage.Stores (ls : SsStorage) (od : ObjData) : Prop := ∃ i, od ∈ ls.objHash i

/-- Every object is in the list of its version. -/
structure Binned (m : Nat) (ls : SsStorage) : Prop where
  sizeHash : ls.sizeHash = m
  index : ∀ i, ∀ od ∈ ls.objHash i, od.objDesc.version.toNat % m = i

theorem binned_of_reaches {m : Nat} {ls : SsStorage} (h : Reaches lsStep (lsAlloc m) ls) : Binned m ls := by
  refine h.invariant ⟨rfl, fun i od hod => absurd hod not_mem_nil⟩ fun ls call ls' hinv hstep => ?_
  cases call with
  | add od =>
    rw [lsStep, some.injEq] at hstep
    subst hstep
    refine ⟨by rw [lsAddObj_sizeHash, hinv.sizeHash], fun i e he => ?_⟩
    rcases mem_lsAddObj he with ⟨rfl, rfl⟩ | he
    · rw [SsStorage.index, hinv.sizeHash]
    · exact hinv.index i e he
  | remove index pos =>
    simp only [lsStep, ite_none_right_eq_some, some.injEq] at hstep
    obtain ⟨-, rfl⟩ := hstep
    refine ⟨hinv.sizeHash, fun i e he => hinv.index i e ?_⟩
    simp only [lsRemove, update_apply] at he
    split at he
    · next hi => exact hi ▸ mem_of_mem_eraseIdx he
    · exact he

/-! ## The next version -/

/-- The queried version as a number; `-1` is the start value. -/
def queriedVersion (odsc : ObjDescriptor) : Int :=
  if odsc.version = versionUnset then -1 else odsc.version.toNat

/-- A stored object of the name with a version after the queried one. -/
def SsStorage.Newer (ls : SsStorage) (odsc : ObjDescriptor) (od : ObjData) : Prop :=
  ls.Stores od ∧ od.objDesc.name = odsc.name ∧ queriedVersion odsc < od.objDesc.version.toNat

theorem newerThan_iff {odsc : ObjDescriptor} {od : ObjData} : newerThan odsc od = true ↔
      od.objDesc.name = odsc.name ∧ queriedVersion odsc < od.objDesc.version.toNat := by
  have hver : odsc.version + 1 ≤ od.objDesc.version ↔ queriedVersion odsc < od.objDesc.version.toNat := by
    have hlt := od.objDesc.version.toNat_lt
    have hlt' := odsc.version.toNat_lt
    rw [UInt32.le_iff_toNat_le, UInt32.toNat_add, queriedVersion]
    split
    · next hunset =>
      rw [hunset]
      simp [versionUnset]
      omega
    · next hset =>
      have hne : odsc.version.toNat ≠ 4294967295 := fun h => hset (UInt32.toNat_inj.1 h)
      simp
      omega
  rw [newerThan, Bool.and_eq_true, decide_eq_true_eq, objDescByNameOnlyIntersect, decide_eq_true_eq, hver,
    eq_comm]

section Next

variable {ls : SsStorage} {odsc : ObjDescriptor}

/-- The last version that makes `ls_find_next` return early. -/
def nextLimit (ls : SsStorage) (odsc : ObjDescriptor) : Nat := (odsc.version + UInt32.ofNat ls.sizeHash).toNat

/-- The inner loop is a scan for the least version. -/
theorem lsFindNextIn_eq (list : List ObjData) (st : NextScan) :
    (lsFindNextIn ls odsc list st).map (fun st => (st.odNext, st.nextVer.toNat)) =
      scanLeast (newerThan odsc) (fun od => od.objDesc.version.toNat) (nextLimit ls odsc) list
        (st.odNext, st.nextVer.toNat) := by
  induction list generalizing st with
  | nil => rfl
  | cons od list ih =>
    have htest : newerThan odsc od = true ∧ od.objDesc.version < st.nextVer ↔
        newerThan odsc od = true ∧ od.objDesc.version.toNat < st.nextVer.toNat := by
      rw [UInt32.lt_iff_toNat_lt]
    have hreturn : od.objDesc.version ≤ odsc.version + UInt32.ofNat ls.sizeHash ↔
        od.objDesc.version.toNat ≤ nextLimit ls odsc := UInt32.le_iff_toNat_le
    rw [lsFindNextIn, scanLeast]
    by_cases htake : newerThan odsc od = true ∧ od.objDesc.version < st.nextVer
    · rw [if_pos htake, if_pos (htest.1 htake)]
      by_cases hlimit : od.objDesc.version ≤ odsc.version + UInt32.ofNat ls.sizeHash
      · rw [if_pos hlimit, if_pos (hreturn.1 hlimit)]
        rfl
      · rw [if_neg hlimit, if_neg (mt hreturn.2 hlimit)]
        exact ih _
    · rw [if_neg htake, if_neg (mt htest.2 htake)]
      exact ih _

/-- The two loops together are one scan of all lists, one after the other. -/
theorem lsFindNextFrom_eq (offsets : List Nat) (st : NextScan) : lsFindNextFrom ls odsc offsets st =
      scanResult (scanLeast (newerThan odsc) (fun od => od.objDesc.version.toNat) (nextLimit ls odsc)
        (offsets.flatMap (offsetBin ls odsc)) (st.odNext, st.nextVer.toNat)) := by
  induction offsets generalizing st with
  | nil => rfl
  | cons offset offsets ih =>
    rw [lsFindNextFrom, flatMap_cons, scanLeast_append, ← lsFindNextIn_eq]
    cases lsFindNextIn ls odsc (offsetBin ls odsc offset) st with
    | error od => rfl
    | ok st' => exact ih st'

variable {m : Nat}

/-- The smallest version that is asked for. -/
def nextStart (odsc : ObjDescriptor) : Nat := (odsc.version + 1).toNat

/-- For these queries sums of the queried version and an offset do not wrap around, except that
they start again at `0` for the start value. -/
theorem toNat_version_add (hq : odsc.version.toNat < 2 ^ 31 - 1 - m ∨ odsc.version = versionUnset)
    (hm : m < 2 ^ 31) {offset : Nat} (hpos : 1 ≤ offset) (hle : offset ≤ m) :
    (odsc.version + UInt32.ofNat offset).toNat = nextStart odsc + (offset - 1) := by
  have hver : odsc.version.toNat < 2 ^ 31 - 1 - m ∨ odsc.version.toNat = 4294967295 :=
    hq.imp_right fun h => by rw [h]; rfl
  rw [nextStart, UInt32.toNat_add, UInt32.toNat_add, UInt32.toNat_ofNat', UInt32.toNat_one]
  omega

variable {od : ObjData}

theorem newerThan_iff_nextStart :
    newerThan odsc od = true ↔ od.objDesc.name = odsc.name ∧ nextStart odsc ≤ od.objDesc.version.toNat := by
  rw [newerThan, Bool.and_eq_true, decide_eq_true_eq, objDescByNameOnlyIntersect, decide_eq_true_eq,
    UInt32.le_iff_toNat_le, nextStart, eq_comm]

/-- In one window of `m` versions the list determines the version. -/
theorem version_eq_of_mem_offsetBin (hb : Binned m ls)
    (hq : odsc.version.toNat < 2 ^ 31 - 1 - m ∨ odsc.version = versionUnset) (hm : m < 2 ^ 31) {offset : Nat}
    (hpos : 1 ≤ offset) (hle : offset ≤ m) (hod : od ∈ offsetBin ls odsc offset)
    (hnewer : newerThan odsc od = true) (hlimit : od.objDesc.version.toNat ≤ nextLimit ls odsc) :
    od.objDesc.version.toNat = nextStart odsc + (offset - 1) := by
  have hbin := hb.index _ od hod
  rw [SsStorage.index, hb.sizeHash, toNat_version_add hq hm hpos hle] at hbin
  rw [nextLimit, hb.sizeHash, toNat_version_add hq hm (by omega) (Nat.le_refl m)] at hlimit
  have hstart := (newerThan_iff_nextStart.1 hnewer).2
  refine Nat.ModEq.eq_of_abs_lt hbin ?_
  rw [abs_lt]
  omega

theorem mem_flatMap_offsetBin (hb : Binned m ls) (hpos : 1 ≤ m) (hm : m < 2 ^ 31)
    (hq : odsc.version.toNat < 2 ^ 31 - 1 - m ∨ odsc.version = versionUnset) :
    od ∈ (range' 1 m).flatMap (offsetBin ls odsc) ↔ ls.Stores od := by
  rw [mem_flatMap]
  constructor
  · rintro ⟨offset, -, hod⟩
    exact ⟨_, hod⟩
  · rintro ⟨i, hod⟩
    have hi := hb.index i od hod
    -- The offset that leads to the list of the object.
    let k := (od.objDesc.version.toNat + (m - nextStart odsc % m)) % m
    have hk : k < m := Nat.mod_lt _ hpos
    have hlist : (nextStart odsc + k) % m = i := by
      have hdiv := Nat.div_add_mod (nextStart odsc) m
      have hlt := Nat.mod_lt (nextStart odsc) hpos
      have hsum : nextStart odsc + (od.objDesc.version.toNat + (m - nextStart odsc % m)) =
          od.objDesc.version.toNat + m * (nextStart odsc / m + 1) := by
        rw [Nat.mul_succ]
        omega
      rw [Nat.add_mod_mod, hsum, Nat.add_mul_mod_self_left, hi]
    refine ⟨k + 1, mem_range'_1.2 ⟨by omega, by omega⟩, ?_⟩
    rw [offsetBin, SsStorage.index, hb.sizeHash, toNat_version_add hq hm (by omega) (by omega),
      Nat.add_sub_cancel, hlist]
    exact hod

/-- Versions up to the limit occur in increasing order: one list after the other has the next one. -/
theorem pairwise_flatMap_offsetBin (hb : Binned m ls) (hm : m < 2 ^ 31)
    (hq : odsc.version.toNat < 2 ^ 31 - 1 - m ∨ odsc.version = versionUnset) :
    ((range' 1 m).flatMap (offsetBin ls odsc)).Pairwise fun x y =>
      newerThan odsc x = true → newerThan odsc y = true →
        x.objDesc.version.toNat ≤ nextLimit ls odsc → y.objDesc.version.toNat ≤ nextLimit ls odsc →
          x.objDesc.version.toNat ≤ y.objDesc.version.toNat := by
  have hversion : ∀ offset ∈ range' 1 m, ∀ od ∈ offsetBin ls odsc offset, newerThan odsc od = true →
      od.objDesc.version.toNat ≤ nextLimit ls odsc →
        od.objDesc.version.toNat = nextStart odsc + (offset - 1) := by
    intro offset hoffset od hod
    rw [mem_range'_1] at hoffset
    exact version_eq_of_mem_offsetBin hb hq hm hoffset.1 (by omega) hod
  rw [pairwise_flatMap]
  constructor
  · intro offset hoffset
    refine pairwise_of_forall_mem_list fun x hx y hy hnx hny hlx hly => ?_
    rw [hversion offset hoffset x hx hnx hlx, hversion offset hoffset y hy hny hly]
  · refine (Pairwise.and_mem.1 pairwise_lt_range').imp ?_
    rintro offset offset' ⟨hoffset, hoffset', hlt⟩ x hx y hy hnx hny hlx hly
    rw [hversion offset hoffset x hx hnx hlx, hversion offset' hoffset' y hy hny hly]
    omega

end Next

/-- `ls_find_next` returns the object of the name with the smallest version after the queried one, and a null
pointer exactly when there is none. -/
theorem lsFindNext_next (m : Nat) (hpos : 1 ≤ m) (hm : m < 2 ^ 31) (ls : SsStorage)
    (h : Reaches lsStep (lsAlloc m) ls)
    (hstored : ∀ od, ls.Stores od → od.objDesc.version.toNat < 2 ^ 31 - 1) (odsc : ObjDescriptor)
    (hq : odsc.version.toNat < 2 ^ 31 - 1 - m ∨ odsc.version = versionUnset) :
    IsBest (ls.Newer odsc) (fun od od' => od.objDesc.version.toNat ≤ od'.objDesc.version.toNat)
      (lsFindNext ls odsc) := by
  have hb := binned_of_reaches h
  rw [lsFindNext, lsFindNextFrom_eq, hb.sizeHash]
  have htop : ∀ od ∈ (range' 1 m).flatMap (offsetBin ls odsc), newerThan odsc od = true →
      od.objDesc.version.toNat < intMax.toNat := by
    intro od hod _
    exact hstored od ((mem_flatMap_offsetBin hb hpos hm hq).1 hod)
  refine (scanLeast_isBest htop (pairwise_flatMap_offsetBin hb hm hq)).congr fun od => ?_
  rw [mem_flatMap_offsetBin hb hpos hm hq, newerThan_iff, SsStorage.Newer]

/-- Versions 1 and 5 in a table of three lists. -/
def twoVersions : SsStorage := lsAddObj (lsAddObj (lsAlloc 3) (lineObj 1)) (lineObj 5)

theorem twoVersions_reached : Reaches lsStep (lsAlloc 3) twoVersions :=
  ⟨[.add (lineObj 1), .add (lineObj 5)], rfl⟩

theorem twoVersions_stores {od : ObjData} (h : twoVersions.Stores od) : od = lineObj 5 ∨ od = lineObj 1 := by
  obtain ⟨i, hod⟩ := h
  rcases mem_lsAddObj hod with ⟨rfl, -⟩ | hod
  · exact Or.inl rfl
  · rcases mem_lsAddObj hod with ⟨rfl, -⟩ | hod
    · exact Or.inr rfl
    · exact absurd hod not_mem_nil

theorem lsFindNext_next_two : (lsFindNext twoVersions (lineObj 1).objDesc).map (·.objDesc.version) = some 5 ∧
      IsBest (twoVersions.Newer (lineObj 1).objDesc)
        (fun od od' => od.objDesc.version.toNat ≤ od'.objDesc.version.toNat)
        (lsFindNext twoVersions (lineObj 1).objDesc) := by
  refine ⟨by decide, lsFindNext_next 3 (by decide) (by decide) twoVersions twoVersions_reached ?_ _
    (Or.inl (by decide))⟩
  intro od hod
  rcases twoVersions_stores hod with rfl | rfl
  · decide
  · decide

/-! ## The latest version -/

section

variable {ls : SsStorage} {odsc : ObjDescriptor}

/-- As long as nothing was found, the first newer object is fatal. -/
theorem lsFindLatestIn_none (odsc : ObjDescriptor) (list : List ObjData) :
    lsFindLatestIn odsc list none = if list.any (newerThan odsc) then .error .nullPointer else .ok none := by
  induction list with
  | nil => rfl
  | cons od list ih =>
    rw [lsFindLatestIn, any_cons]
    by_cases hnewer : newerThan odsc od = true
    · rw [if_pos hnewer, hnewer, Bool.true_or, if_pos rfl]
    · rw [if_neg hnewer, ih, Bool.eq_false_iff.2 hnewer, Bool.false_or]

/-- A loop over lists of the table that goes on behind it ends at a newer object, or behind the table. -/
theorem lsFindLatestFrom_none (indices : List Nat) (hindices : ∀ i ∈ indices, i < ls.sizeHash) :
    (lsFindLatestFrom ls odsc (indices ++ [ls.sizeHash]) none = .error .outsideTable ∧
        ∀ i ∈ indices, ∀ od ∈ ls.objHash i, newerThan odsc od = false) ∨
      (lsFindLatestFrom ls odsc (indices ++ [ls.sizeHash]) none = .error .nullPointer ∧
        ∃ i ∈ indices, ∃ od ∈ ls.objHash i, newerThan odsc od = true) := by
  induction indices with
  | nil => exact Or.inl ⟨if_neg (Nat.lt_irrefl _), fun i hi => absurd hi not_mem_nil⟩
  | cons index indices ih =>
    rw [cons_append, lsFindLatestFrom, if_pos (hindices index mem_cons_self), lsFindLatestIn_none]
    by_cases hany : (ls.objHash index).any (newerThan odsc) = true
    · rw [if_pos hany]
      obtain ⟨od, hod, hnewer⟩ := List.any_eq_true.1 hany
      exact Or.inr ⟨rfl, index, mem_cons_self, od, hod, hnewer⟩
    · rw [if_neg hany]
      rw [Bool.not_eq_true, List.any_eq_false] at hany
      rcases ih fun i hi => hindices i (mem_cons_of_mem _ hi) with ⟨hrun, hnone⟩ | ⟨hfault, i, hi, hex⟩
      · exact Or.inl ⟨hrun, forall_mem_cons.2 ⟨fun od hod => Bool.eq_false_iff.2 (hany od hod), hnone⟩⟩
      · exact Or.inr ⟨hfault, i, mem_cons_of_mem _ hi, hex⟩

end

/-- What `ls_find_latest` promises: it reads nothing that is not there, and it returns the object of the name
with the largest version, if that is after the queried one. -/
def LatestRight (ls : SsStorage) (odsc : ObjDescriptor) (run : Except Fault (Option ObjData)) : Prop :=
  ∃ res, run = .ok res ∧
    IsBest (ls.Newer odsc) (fun od od' => od'.objDesc.version.toNat ≤ od.objDesc.version.toNat) res

/-- `ls_find_latest` is never right, and the metadata request never gets an answer: the first newer object is
compared with the version of a null pointer, and if there is none the loop leaves the table. -/
theorem lsFindLatest_right_iff (m : Nat) (hpos : 1 ≤ m) (ls : SsStorage)
    (h : Reaches lsStep (lsAlloc m) ls) :
    (∀ odsc, ¬ LatestRight ls odsc (lsFindLatest ls odsc)) ∧
    (∀ odsc, (lsFindLatest ls odsc = .error .nullPointer ↔ ∃ od, ls.Newer odsc od) ∧
      (lsFindLatest ls odsc = .error .outsideTable ↔ ¬ ∃ od, ls.Newer odsc od)) ∧
    (∀ fName currentVersion reply, dsgrpcObjGetLatestMeta ls fName currentVersion ≠ .ok reply) := by
  have hb := binned_of_reaches h
  have hcases : ∀ odsc, (lsFindLatest ls odsc = .error .outsideTable ∧ ¬ ∃ od, ls.Newer odsc od) ∨
      (lsFindLatest ls odsc = .error .nullPointer ∧ ∃ od, ls.Newer odsc od) := by
    intro odsc
    rw [lsFindLatest, range_succ]
    refine (lsFindLatestFrom_none _ fun i => mem_range.1).imp (And.imp_right fun hnone => ?_)
      (And.imp_right fun hex => ?_)
    · rintro ⟨od, ⟨i, hod⟩, hnewer⟩
      -- The list of a stored object is one of the table.
      have hi : i < ls.sizeHash := by
        rw [← hb.index i od hod, hb.sizeHash]
        exact Nat.mod_lt _ hpos
      exact Bool.false_ne_true ((hnone i (mem_range.2 hi) od hod).symm.trans (newerThan_iff.2 hnewer))
    · obtain ⟨i, -, od, hod, hnewer⟩ := hex
      exact ⟨od, ⟨i, hod⟩, newerThan_iff.1 hnewer⟩
  refine ⟨fun odsc hright => ?_, fun odsc => ?_, fun fName currentVersion reply hreply => ?_⟩
  · obtain ⟨res, hres, -⟩ := hright
    rcases hcases odsc with ⟨hrun, -⟩ | ⟨hrun, -⟩
    · cases hrun.symm.trans hres
    · cases hrun.symm.trans hres
  · rcases hcases odsc with ⟨hrun, hnewer⟩ | ⟨hrun, hnewer⟩
    · exact ⟨iff_of_false (by rw [hrun]; simp) hnewer, iff_of_true hrun hnewer⟩
    · exact ⟨iff_of_true hrun hnewer, iff_of_false (by rw [hrun]; simp) (not_not.2 hnewer)⟩
  · rw [dsgrpcObjGetLatestMeta] at hreply
    rcases hcases (latestMetaQuery fName currentVersion) with ⟨hrun, -⟩ | ⟨hrun, -⟩
    · rw [hrun] at hreply
      cases hreply
    · rw [hrun] at hreply
      cases hreply

theorem lsFindLatest_right_iff_two :
    ¬ LatestRight twoVersions (lineObj 7).objDesc (lsFindLatest twoVersions (lineObj 7).objDesc) :=
  (lsFindLatest_right_iff 3 (by decide) twoVersions twoVersions_reached).1 (lineObj 7).objDesc

/-- With versions 1 and 5 stored, the latest version after 1 is looked up through a null pointer; after 7
there is none, and the look-up reads the fourth list of a table of three. -/
theorem lsFindLatest_faults :
    lsFindLatest twoVersions (lineObj 1).objDesc = .error .nullPointer ∧
      lsFindLatest twoVersions (lineObj 7).objDesc = .error .outsideTable ∧
      ¬ LatestRight twoVersions (lineObj 1).objDesc (lsFindLatest twoVersions (lineObj 1).objDesc) := by
  refine ⟨rfl, rfl, ?_⟩
  rintro ⟨res, hres, -⟩
  cases hres

/-! ## The versions of a not-found reply -/

/-- The number of versions from `u.v.versions` to the end of `struct hdr_obj_get`: the object descriptor
(344 bytes with boxes of up to ten dimensions) and the global dimension (84 bytes) that follow `num_vers`.
Up to the end of the union there is room for 86. -/
def hdrVersionsRoom : Nat := (344 + 84) / 4

/-- A stored descriptor with the name of the query whose box passes the intersection test. -/
def OdscTable.Matches (de : OdscTable) (q o : ObjDescriptor) : Prop :=
  (∃ i, o ∈ de.odscHash i) ∧ objDescByNameIntersect o q = true

/-- The versions are those of the matching descriptors, each once, and there is room for them. -/
structure VersionsExact (de : OdscTable) (q : ObjDescriptor) (room : Nat) (vers : List UInt32) : Prop where
  nodup : vers.Nodup
  mem_iff : ∀ v, v ∈ vers ↔ ∃ o, de.Matches q o ∧ o.version = v
  fits : vers.length ≤ room

section Available

variable {m : Nat} {ds : List ObjDescriptor} {q : ObjDescriptor}

theorem dhtRun_index (m : Nat) (ds : List ObjDescriptor) {i : Nat} {o : ObjDescriptor}
    (ho : o ∈ (dhtRun m ds).odscHash i) : o.version.toNat % m = i := by
  rw [dhtRun_odscHash, binRun_apply] at ho
  have hmem := mem_of_mem_foldl_place (fun _ _ _ => mem_dhtPlace) ho
  simpa using (mem_filter.1 hmem).2

theorem mem_dhtFindVersions {de : OdscTable} {v : UInt32} : v ∈ dhtFindVersions de q ↔ ∃ i < de.odscSize, ∃ o,
      ((de.odscHash i).find? fun odscl => objDescByNameIntersect odscl q) = some o ∧ o.version = v := by
  simp only [dhtFindVersions, mem_filterMap, mem_range, map_eq_some_iff]

/-- The versions come from different lists, so they are different. -/
theorem nodup_dhtFindVersions : (dhtFindVersions (dhtRun m ds) q).Nodup := by
  refine Nodup.filterMap ?_ nodup_range
  intro i j v hi hj
  obtain ⟨o, ho, rfl⟩ := map_eq_some_iff.1 hi
  obtain ⟨o', ho', hver⟩ := map_eq_some_iff.1 hj
  rw [← dhtRun_index m ds (mem_of_find?_eq_some ho), ← dhtRun_index m ds (mem_of_find?_eq_some ho'), hver]

/-- One version for each list with a match. -/
theorem length_dhtFindVersions (de : OdscTable) (q : ObjDescriptor) :
    (dhtFindVersions de q).length = (range de.odscSize).countP fun i =>
      (de.odscHash i).any fun o => objDescByNameIntersect o q := by
  rw [dhtFindVersions, length_filterMap_eq_countP]
  refine countP_congr fun i _ => ?_
  rw [isSome_map, find?_isSome, List.any_eq_true]

theorem find?_of_matches (hm : 0 < m) {o : ObjDescriptor} (ho : (dhtRun m ds).Matches q o) :
    ∃ i < m, o ∈ (dhtRun m ds).odscHash i ∧ ∃ o',
      (((dhtRun m ds).odscHash i).find? fun odscl => objDescByNameIntersect odscl q) = some o' := by
  obtain ⟨⟨i, hi⟩, hmatch⟩ := ho
  refine ⟨i, dhtRun_index m ds hi ▸ Nat.mod_lt _ hm, hi, ?_⟩
  rw [← isSome_iff_exists, find?_isSome]
  exact ⟨o, hi, hmatch⟩

end Available

/-- The reported versions are exact and fit exactly when matching descriptors of one list have one version
and not too many lists have a match. The reply has room for `hdrVersionsRoom` versions. -/
theorem dhtFindVersions_exact_iff (m : Nat) (hm : 0 < m) (ds : List ObjDescriptor) (q : ObjDescriptor)
    (room : Nat) : VersionsExact (dhtRun m ds) q room (dhtFindVersions (dhtRun m ds) q) ↔
      (∀ o o', (dhtRun m ds).Matches q o → (dhtRun m ds).Matches q o' →
        o.version.toNat % m = o'.version.toNat % m → o.version = o'.version) ∧ ((range m).countP fun i =>
        ((dhtRun m ds).odscHash i).any fun o => objDescByNameIntersect o q) ≤ room := by
  have hlen := length_dhtFindVersions (dhtRun m ds) q
  rw [dhtRun_odscSize] at hlen
  rw [← hlen]
  constructor
  · intro hexact
    refine ⟨fun o o' ho ho' hbin => ?_, hexact.fits⟩
    -- Both versions are reported, from one list, which reports one version.
    obtain ⟨i, -, p, hp, hpv⟩ := mem_dhtFindVersions.1 ((hexact.mem_iff o.version).2 ⟨o, ho, rfl⟩)
    obtain ⟨j, -, p', hp', hpv'⟩ := mem_dhtFindVersions.1 ((hexact.mem_iff o'.version).2 ⟨o', ho', rfl⟩)
    have hij : i = j := by
      rw [← dhtRun_index m ds (mem_of_find?_eq_some hp),
        ← dhtRun_index m ds (mem_of_find?_eq_some hp'), hpv, hpv', hbin]
    subst hij
    rw [hp, some.injEq] at hp'
    rw [← hpv, ← hpv', hp']
  · rintro ⟨hone, hfits⟩
    refine ⟨nodup_dhtFindVersions, fun v => ?_, hfits⟩
    rw [mem_dhtFindVersions]
    constructor
    · rintro ⟨i, -, o, ho, rfl⟩
      exact ⟨o, ⟨⟨i, mem_of_find?_eq_some ho⟩, by simpa using find?_some ho⟩, rfl⟩
    · rintro ⟨o, ho, rfl⟩
      obtain ⟨i, hi, hoi, o', ho'⟩ := find?_of_matches hm ho
      refine ⟨i, by rwa [dhtRun_odscSize], o', ho', ?_⟩
      have hmem' := mem_of_find?_eq_some ho'
      refine hone o' o ⟨⟨i, hmem'⟩, by simpa using find?_some ho'⟩ ho ?_
      rw [dhtRun_index m ds hmem', dhtRun_index m ds hoi]

/-- A version over a segment of a line. -/
def segmentDesc (v : UInt32) (lo hi : Nat) : ObjDescriptor :=
  ⟨"temperature", .rowMajor, 0, v, ⟨1, fun _ => lo, fun _ => hi⟩, 8⟩

theorem dhtFindVersions_exact_two :
    VersionsExact (dhtRun 2 [segmentDesc 1 0 4, segmentDesc 2 5 9]) (segmentDesc 3 0 9) hdrVersionsRoom
        (dhtFindVersions (dhtRun 2 [segmentDesc 1 0 4, segmentDesc 2 5 9]) (segmentDesc 3 0 9)) ↔
      (∀ o o', (dhtRun 2 [segmentDesc 1 0 4, segmentDesc 2 5 9]).Matches (segmentDesc 3 0 9) o →
        (dhtRun 2 [segmentDesc 1 0 4, segmentDesc 2 5 9]).Matches (segmentDesc 3 0 9) o' →
        o.version.toNat % 2 = o'.version.toNat % 2 → o.version = o'.version) ∧
      ((range 2).countP fun i => ((dhtRun 2 [segmentDesc 1 0 4, segmentDesc 2 5 9]).odscHash i).any
        fun o => objDescByNameIntersect o (segmentDesc 3 0 9)) ≤ hdrVersionsRoom :=
  dhtFindVersions_exact_iff 2 (by decide) _ _ hdrVersionsRoom

/-- Versions 1 and 3 of one name share the list of a table of two; they cover different segments, so neither
displaces the other. A query over both segments is told of version 3 only. -/
theorem dhtFindVersions_misses :
    dhtFindVersions (dhtRun 2 [segmentDesc 1 0 4, segmentDesc 3 5 9]) (segmentDesc 2 0 9) = [3] ∧
      ¬ VersionsExact (dhtRun 2 [segmentDesc 1 0 4, segmentDesc 3 5 9]) (segmentDesc 2 0 9) hdrVersionsRoom
        (dhtFindVersions (dhtRun 2 [segmentDesc 1 0 4, segmentDesc 3 5 9]) (segmentDesc 2 0 9)) := by
  have hvers : dhtFindVersions (dhtRun 2 [segmentDesc 1 0 4, segmentDesc 3 5 9]) (segmentDesc 2 0 9) =
      [3] := by
    decide
  refine ⟨hvers, fun hexact => ?_⟩
  have hone : (1 : UInt32) ∈ dhtFindVersions (dhtRun 2 [segmentDesc 1 0 4, segmentDesc 3 5 9])
      (segmentDesc 2 0 9) :=
    (hexact.mem_iff 1).2 ⟨segmentDesc 1 0 4, ⟨⟨1, mem_cons_of_mem _ mem_cons_self⟩, by decide⟩, rfl⟩
  rw [hvers] at hone
  exact absurd hone (by decide)

end DataSpaces.Store
