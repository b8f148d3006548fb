import DataSpaces.Client.Descriptors

/-!
# The versions that a failed query reports

A not-found answer of a server lists the versions that are available. The client collects them in a table
of 64 numbers without repetition (`versionsAdd`), and `dcg_get_versions` copies the table for the caller.

The table is the union of the answers, in the order of their first occurrence (`mem_versionsTable`,
`nodup_versionsTable`), but nothing stops it at 64. The copy is of `num_vers` bytes where it should be of
`num_vers` numbers. `dcgGetVersions_right_iff` says what is left: the caller gets the union in three cases,
no version at all, one version below 256, and two versions of which the first is below 65536 and the
second is 0.
-/

namespace DataSpaces.Client

open Lib Store List

/-! ## The source -/

/-- The loop body of `versions_add`: a version that is not in the table is appended. -/
def versionsAddOne (versions : List UInt32) (v : UInt32) : List UInt32 :=
  if v ∈ versions then versions else versions ++ [v]

def versionsAdd (versions vers : List UInt32) : List UInt32 := vers.foldl versionsAddOne versions

/-- What an answer does to the table. -/
def versionsReceive (versions : List UInt32) : DescReply → List UInt32
  | .notFound vers => versionsAdd versions vers
  | .found _ => versions

/-- The table after the answers to a query; `versions_reset` empties it before. The length is `num_vers`. -/
def versionsTable (replies : List DescReply) : List UInt32 := replies.foldl versionsReceive []

/-- A byte of an array of 32-bit numbers, the least significant byte first. -/
def byteOf (ints : List UInt32) (p : Nat) : Nat := (ints.getD (p / 4) 0).toNat / 256 ^ (p % 4) % 256

/-- The number at an index of an array that is given by its bytes. -/
def intAt (bytes : Nat → Nat) (k : Nat) : UInt32 :=
  UInt32.ofNat (bytes (4 * k) + 256 * bytes (4 * k + 1) + 256 ^ 2 * bytes (4 * k + 2) +
    256 ^ 3 * bytes (4 * k + 3))

/-- `dcg_get_versions`: an array of 64 numbers, cleared before `num_vers` bytes are copied to it, and
`num_vers`. -/
def dcgGetVersions (versions : List UInt32) : List UInt32 × Nat :=
  let numVers := versions.length
  ((range 64).map (intAt fun p => if p < numVers then byteOf versions p else 0), numVers)

/-! ## What is promised -/

/-- The versions of an answer. -/
def DescReply.versions : DescReply → List UInt32
  | .notFound vers => vers
  | .found _ => []

/-- All versions that were reported, in the order of their arrival. -/
def reported (replies : List DescReply) : List UInt32 := replies.flatMap DescReply.versions

/-- What the caller reads: as many numbers of the array as the count says. -/
def returned (versions : List UInt32) : List UInt32 :=
  (dcgGetVersions versions).1.take (dcgGetVersions versions).2

/-- The table stays within its 64 entries while the versions arrive, and the caller gets the union without
repetition. -/
structure VersionSetRight (replies : List DescReply) : Prop where
  bounded : ∀ arrived, arrived <+: reported replies → (versionsAdd [] arrived).length ≤ 64
  count : (returned (versionsTable replies)).length = (dcgGetVersions (versionsTable replies)).2
  nodup : (returned (versionsTable replies)).Nodup
  mem_iff : ∀ v, v ∈ returned (versionsTable replies) ↔ v ∈ reported replies

/-! ## The table -/

variable (vers : List UInt32)

/-- The table is built like a list of new items, with the last one at the end. -/
theorem versionsAdd_nil :
    versionsAdd [] vers = (vers.foldl (addNew fun v w => v == w) []).reverse := by
  induction vers using reverseRecOn with
  | nil => rfl
  | append_singleton vers v ih =>
    unfold versionsAdd at ih ⊢
    rw [foldl_append, ih, foldl_append]
    simp only [foldl_cons, foldl_nil, versionsAddOne, addNew, mem_reverse]
    by_cases h : v ∈ vers.foldl (addNew fun v w => v == w) []
    · simp [h]
    · simp [h]

theorem versionsTable_eq (replies : List DescReply) :
    versionsTable replies = versionsAdd [] (reported replies) := by
  induction replies using reverseRecOn with
  | nil => rfl
  | append_singleton replies r ih =>
    unfold versionsTable reported at ih ⊢
    rw [foldl_append, ih, flatMap_append]
    cases r with
    | notFound vers => simp [versionsReceive, versionsAdd, DescReply.versions]
    | found odTab => simp [versionsReceive, versionsAdd, DescReply.versions]

theorem nodup_versionsAdd : (versionsAdd [] vers).Nodup := by
  have h : ((vers.foldl (addNew fun v w => v == w) []).map id).Nodup :=
    nodup_foldl_addNew (fun v w => beq_iff_eq) vers
  rw [map_id] at h
  rw [versionsAdd_nil]
  exact nodup_reverse.2 h

theorem mem_versionsAdd (v : UInt32) : v ∈ versionsAdd [] vers ↔ v ∈ vers := by
  rw [versionsAdd_nil, mem_reverse]
  constructor
  · exact mem_of_mem_foldl_addNew
  · intro hv
    obtain ⟨w, hw, hwv⟩ : ∃ w ∈ vers.foldl (addNew fun v w => v == w) [], id w = id v :=
      exists_mem_foldl_addNew (fun v w => beq_iff_eq) hv
    cases hwv
    exact hw

/-- The table only grows, so it is within its bound at all times if it is at the end. -/
theorem length_versionsAdd_le {arrived vers : List UInt32} (h : arrived <+: vers) :
    (versionsAdd [] arrived).length ≤ (versionsAdd [] vers).length := by
  refine ((nodup_versionsAdd arrived).subperm fun v hv => ?_).length_le
  rw [mem_versionsAdd] at hv ⊢
  exact h.subset hv

theorem nodup_versionsTable (replies : List DescReply) : (versionsTable replies).Nodup := by
  rw [versionsTable_eq]
  exact nodup_versionsAdd _

theorem mem_versionsTable (replies : List DescReply) (v : UInt32) :
    v ∈ versionsTable replies ↔ v ∈ reported replies := by
  rw [versionsTable_eq]
  exact mem_versionsAdd _ v

/-! ## The copy -/

variable {versions : List UInt32} {k : Nat} {v : UInt32}

theorem returned_eq (h : versions.length ≤ 64) : returned versions = (range versions.length).map
      (intAt fun p => if p < versions.length then byteOf versions p else 0) := by
  rw [returned, dcgGetVersions, ← map_take, take_range, min_eq_left h]

/-- A number none of whose bytes were copied is 0. -/
theorem intAt_eq_zero {n : Nat} (f : Nat → Nat) (h : n ≤ 4 * k) :
    intAt (fun p => if p < n then f p else 0) k = 0 := by
  have hzero : ∀ i, (if 4 * k + i < n then f (4 * k + i) else 0) = 0 := fun i => if_neg (by omega)
  have h0 := hzero 0
  rw [Nat.add_zero] at h0
  simp only [intAt, h0, hzero]
  rfl

theorem returned_singleton (v : UInt32) : returned [v] = [UInt32.ofNat (v.toNat % 256)] := by
  rw [returned_eq (by simp)]
  simp [intAt, byteOf]

theorem returned_pair (v w : UInt32) : returned [v, w] = [UInt32.ofNat (v.toNat % 65536), 0] := by
  rw [returned_eq (by simp)]
  -- The two bytes that are copied are the lower half of the first number.
  have hlow : v.toNat % 256 + 256 * (v.toNat / 256 % 256) = v.toNat % 65536 := by omega
  have hfirst : intAt (fun p => if p < 2 then byteOf [v, w] p else 0) 0 = UInt32.ofNat (v.toNat % 65536) := by
    simp [intAt, byteOf, hlow]
  have hsecond : intAt (fun p => if p < 2 then byteOf [v, w] p else 0) 1 = 0 := intAt_eq_zero _ (by omega)
  change [_, _] = _
  rw [← hfirst, ← hsecond]
  rfl

/-- Of three numbers or more the last two are not copied at all. -/
theorem not_nodup_returned (h : versions.length ≤ 64) (h3 : 3 ≤ versions.length) :
    ¬ (returned versions).Nodup := by
  intro hnodup
  rw [returned_eq h] at hnodup
  have heq := inj_on_of_nodup_map hnodup (mem_range.2 (show versions.length - 2 < versions.length by omega))
    (mem_range.2 (show versions.length - 1 < versions.length by omega))
    ((intAt_eq_zero _ (by omega)).trans (intAt_eq_zero _ (by omega)).symm)
  omega

theorem ofNat_mod_eq_iff (hk : 0 < k) (v : UInt32) : UInt32.ofNat (v.toNat % k) = v ↔ v.toNat < k := by
  have hlt : v.toNat % k < 2 ^ 32 := (Nat.mod_le _ _).trans_lt v.toNat_lt
  rw [← UInt32.toNat_inj, UInt32.toNat_ofNat_of_lt' hlt]
  constructor
  · intro h
    rw [← h]
    exact Nat.mod_lt _ hk
  · exact Nat.mod_eq_of_lt

/-! ## What the caller gets -/

variable {replies : List DescReply}

theorem VersionSetRight.of_returned_eq (hlen : (versionsTable replies).length ≤ 64)
    (h : returned (versionsTable replies) = versionsTable replies) : VersionSetRight replies where
  bounded arrived harrived := by
    rw [versionsTable_eq] at hlen
    exact (length_versionsAdd_le harrived).trans hlen
  count := by rw [h]; rfl
  nodup := by rw [h]; exact nodup_versionsTable replies
  mem_iff v := by rw [h]; exact mem_versionsTable replies v

theorem VersionSetRight.length_le (h : VersionSetRight replies) : (versionsTable replies).length ≤ 64 := by
  rw [versionsTable_eq]
  exact h.bounded _ (prefix_refl _)

theorem VersionSetRight.mem_returned (h : VersionSetRight replies)
    (hv : v ∈ versionsTable replies) : v ∈ returned (versionsTable replies) :=
  (h.mem_iff v).2 ((mem_versionsTable replies v).1 hv)

/-- Of two versions the second one has to be the 0 that the copy leaves in its place. -/
theorem of_mem_returned_pair {w : UInt32} (hne : v ≠ w) (hv : v ∈ returned [v, w])
    (hw : w ∈ returned [v, w]) : v.toNat < 65536 ∧ w = 0 := by
  rw [returned_pair, mem_pair] at hv hw
  rcases hv with hv | rfl
  · refine ⟨(ofNat_mod_eq_iff (by decide) v).1 hv.symm, hw.resolve_left fun h => hne ?_⟩
    rw [hv, h]
  · refine absurd ?_ hne
    rcases hw with rfl | rfl
    · rfl
    · rfl

/-- The caller gets the versions that were reported if and only if there are none, or there is one, below
256, or there are two, the first below 65536 and the second 0. -/
theorem dcgGetVersions_right_iff (replies : List DescReply) : VersionSetRight replies ↔
      versionsTable replies = [] ∨ (∃ v, v.toNat < 256 ∧ versionsTable replies = [v]) ∨
      ∃ v, v.toNat < 65536 ∧ v ≠ 0 ∧ versionsTable replies = [v, 0] := by
  constructor
  · intro h
    have hlen := h.length_le
    have hnodup := nodup_versionsTable replies
    have hmem : ∀ v ∈ versionsTable replies, v ∈ returned (versionsTable replies) :=
      fun v hv => h.mem_returned hv
    have hright := h.nodup
    -- The cases are the lengths of the table, of which only the first three can be right.
    generalize versionsTable replies = table at hlen hnodup hmem hright ⊢
    rcases table with _ | ⟨v, _ | ⟨w, _ | ⟨u, table⟩⟩⟩
    · exact Or.inl rfl
    · have hv := hmem v mem_cons_self
      rw [returned_singleton, mem_singleton] at hv
      exact Or.inr (Or.inl ⟨v, (ofNat_mod_eq_iff (by decide) v).1 hv.symm, rfl⟩)
    · have hne : v ≠ w := fun hvw => (nodup_cons.1 hnodup).1 (mem_singleton.2 hvw)
      obtain ⟨hv, rfl⟩ := of_mem_returned_pair hne (hmem v (by simp)) (hmem w (by simp))
      exact Or.inr (Or.inr ⟨v, hv, hne, rfl⟩)
    · exact absurd hright (not_nodup_returned hlen (by simp))
  · rintro (h | ⟨v, hv, h⟩ | ⟨v, hv, -, h⟩)
    · exact .of_returned_eq (by rw [h]; decide) (by rw [h]; rfl)
    · refine .of_returned_eq (by rw [h]; simp) ?_
      rw [h, returned_singleton, (ofNat_mod_eq_iff (by decide) v).2 hv]
    · refine .of_returned_eq (by rw [h]; simp) ?_
      rw [h, returned_pair, (ofNat_mod_eq_iff (by decide) v).2 hv]

/-- One server reports version 300, and the caller gets version 44; two servers report the versions 1, 2
and 3, and the caller gets 1, 0 and 0. -/
theorem dcgGetVersions_truncates :
    (¬ VersionSetRight [.notFound [300]] ∧ returned (versionsTable [.notFound [300]]) = [44]) ∧
    ¬ VersionSetRight [.notFound [1, 2], .notFound [2, 3]] ∧
    returned (versionsTable [.notFound [1, 2], .notFound [2, 3]]) = [1, 0, 0] := by
  refine ⟨⟨fun h => ?_, by decide⟩, fun h => ?_, by decide⟩
  · exact absurd ((h.mem_iff 300).2 (by decide)) (by decide)
  · exact absurd h.nodup (by decide)

end DataSpaces.Client
