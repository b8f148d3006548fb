import Mathlib.Data.List.Basic
import Mathlib.Data.List.Perm.Basic
import Mathlib.Tactic

/-!
# Lists that keep the latest item

A list of items in which a new item displaces the first one that it matches. There are two policies:
`upsert` overwrites the match in place, `evictCons` unlinks the match and puts the new item in front.
They hold the same items (`upsert_perm`), in a different order.

If the test agrees with equality of a key, both policies implement a finite map. `KeepsLatest key h l`
says that the list holds, for every key of the history `h`, exactly the most recent item with that key;
`KeepsLatest.upsert` and `KeepsLatest.evictCons` are the step lemmas, `keepsLatest_foldl` is the run
lemma. `binRun` distributes items over an array of such lists; each list is a run of its own
(`binRun_apply`).

`addNew` is the opposite policy: an item that matches one already in the list is dropped, so the list
keeps the first item of each key, the most recent key in front.
-/

namespace DataSpaces.Lib

open List Function

variable {α κ : Type*}

/-- Overwrite the first item that passes the test. -/
def overwriteFirst (p : α → Bool) (x : α) : List α → List α
  | [] => []
  | y :: l => if p y then x :: l else y :: overwriteFirst p x l

/-- Overwrite the first item that passes the test, or put the new item in front. -/
def upsert (p : α → Bool) (x : α) (l : List α) : List α :=
  if l.any p then overwriteFirst p x l else x :: l

/-- Unlink the first item that passes the test and put the new item in front. -/
def evictCons (p : α → Bool) (x : α) (l : List α) : List α := x :: l.eraseP p

variable {p : α → Bool} {l : List α} {x y : α} {β : Type*} {f : α → β}

theorem overwriteFirst_perm (x : α) (h : l.any p = true) : (overwriteFirst p x l).Perm (evictCons p x l) := by
  induction l with
  | nil => cases h
  | cons y l ih =>
    rw [overwriteFirst, evictCons]
    by_cases hy : p y = true
    · rw [if_pos hy, eraseP_cons_of_pos hy]
    · rw [any_cons, Bool.eq_false_iff.2 hy, Bool.false_or] at h
      rw [if_neg hy, eraseP_cons_of_neg hy]
      exact ((ih h).cons y).trans (Perm.swap x y _)

/-- The two policies hold the same items. -/
theorem upsert_perm (p : α → Bool) (x : α) (l : List α) : (upsert p x l).Perm (evictCons p x l) := by
  unfold upsert
  by_cases h : l.any p = true
  · rw [if_pos h]
    exact overwriteFirst_perm x h
  · rw [if_neg h, evictCons, eraseP_of_forall_not]
    intro y hy hpy
    exact h (any_eq_true.2 ⟨y, hy, hpy⟩)

theorem mem_upsert : y ∈ upsert p x l ↔ y = x ∨ y ∈ l.eraseP p := by
  rw [(upsert_perm p x l).mem_iff, evictCons, mem_cons]

/-- An item is put in front of one of several lists. -/
theorem mem_update_cons {ι : Type*} [DecidableEq ι] {f : ι → List α} {n i : ι} :
    y ∈ update f n (x :: f n) i ↔ (y = x ∧ i = n) ∨ y ∈ f i := by
  by_cases hi : i = n
  · subst hi
    simp
  · simp [hi]

/-- An item is still there after the first match was unlinked, unless it was that match. -/
theorem mem_eraseP_or_find? (hy : y ∈ l) : y ∈ l.eraseP p ∨ l.find? p = some y := by
  induction l with
  | nil => cases hy
  | cons z l ih =>
    by_cases hz : p z = true
    · rw [eraseP_cons_of_pos hz, find?_cons_of_pos hz]
      rcases mem_cons.1 hy with rfl | hy
      · exact Or.inr rfl
      · exact Or.inl hy
    · rw [eraseP_cons_of_neg hz, find?_cons_of_neg hz]
      rcases mem_cons.1 hy with rfl | hy
      · exact Or.inl mem_cons_self
      · exact (ih hy).imp_left (mem_cons_of_mem _)

/-- Unlinking the first match takes just that item away. -/
theorem perm_cons_eraseP_of_find? (h : l.find? p = some y) : l.Perm (y :: l.eraseP p) := by
  induction l with
  | nil => cases h
  | cons z l ih =>
    by_cases hz : p z = true
    · rw [find?_cons_of_pos hz, Option.some.injEq] at h
      rw [eraseP_cons_of_pos hz, h]
    · rw [find?_cons_of_neg hz] at h
      rw [eraseP_cons_of_neg hz]
      exact ((ih h).cons z).trans (Perm.swap y z _)

/-- In a sorted list the first match is a least one. -/
theorem rel_of_find?_of_pairwise {r : α → α → Prop} (hrefl : ∀ x, r x x) (hl : l.Pairwise r)
    (h : l.find? p = some x) (hy : y ∈ l) (hp : p y = true) : r x y := by
  induction l with
  | nil => cases hy
  | cons z l ih =>
    obtain ⟨hz, hl⟩ := pairwise_cons.1 hl
    by_cases hpz : p z = true
    · rw [find?_cons_of_pos hpz, Option.some.injEq] at h
      subst h
      rcases mem_cons.1 hy with rfl | hy
      · exact hrefl y
      · exact hz y hy
    · rw [find?_cons_of_neg hpz] at h
      rcases mem_cons.1 hy with rfl | hy
      · exact absurd hp hpz
      · exact ih hl h hy

theorem eraseP_congr {q : α → Bool} (h : ∀ y ∈ l, p y = q y) : l.eraseP p = l.eraseP q := by
  induction l with
  | nil => rfl
  | cons z l ih =>
    rw [eraseP_cons, eraseP_cons, h z mem_cons_self, ih fun y hy => h y (mem_cons_of_mem _ hy)]

/-- Unlinking an item commutes with a map that takes no other item to the same value. -/
theorem map_erase_of_forall [DecidableEq α] [DecidableEq β] {a : α} (h : ∀ y ∈ l, f y = f a → y = a) :
    (l.map f).erase (f a) = (l.erase a).map f := by
  rw [erase_eq_eraseP, erase_eq_eraseP, eraseP_map]
  congr 1
  apply eraseP_congr
  intro y hy
  rw [comp_apply, Bool.eq_iff_iff, beq_iff_eq, beq_iff_eq]
  exact ⟨fun hf => (h y hy hf.symm).symm, fun ha => congrArg f ha⟩

/-- Unlinking the first match leaves an item with a property exactly when, if the match has it, another
item has it too. -/
theorem exists_mem_eraseP_iff {Q : α → Prop} (h : ∃ y ∈ l, Q y) :
    (∃ y ∈ l.eraseP p, Q y) ↔ ∀ z, l.find? p = some z → Q z → ∃ y ∈ l.eraseP p, Q y := by
  refine ⟨fun hy _ _ _ => hy, fun hz => ?_⟩
  obtain ⟨y, hy, hQ⟩ := h
  rcases mem_eraseP_or_find? (p := p) hy with hkept | hfound
  · exact ⟨y, hkept, hQ⟩
  · exact hz y hfound hQ

theorem find?_eq_some_of_unique {z : α} (hz : z ∈ l) (hp : p z = true) (huniq : ∀ y ∈ l, p y = true → y = z) :
    l.find? p = some z := by
  cases hf : l.find? p with
  | none => exact absurd hp (find?_eq_none.1 hf z hz)
  | some y => rw [huniq y (mem_of_find?_eq_some hf) (find?_some hf)]

/-- What a test that agrees with the key of the new item unlinks. -/
theorem mem_eraseP_iff_of_nodup {key : α → κ} (hl : (l.map key).Nodup)
    (hp : ∀ y ∈ l, p y = true ↔ key y = key x) (y : α) : y ∈ l.eraseP p ↔ y ∈ l ∧ key y ≠ key x := by
  induction l with
  | nil => simp
  | cons z l ih =>
    rw [map_cons, nodup_cons] at hl
    have hpz := hp z mem_cons_self
    by_cases hz : p z = true
    · -- The other items have other keys than the unlinked one.
      rw [eraseP_cons_of_pos hz, mem_cons]
      constructor
      · intro hy
        refine ⟨Or.inr hy, fun hk => hl.1 ?_⟩
        rw [hpz.1 hz, ← hk]
        exact mem_map_of_mem hy
      · rintro ⟨rfl | hy, hk⟩
        · exact absurd (hpz.1 hz) hk
        · exact hy
    · rw [eraseP_cons_of_neg hz, mem_cons, mem_cons, ih hl.2 fun w hw => hp w (mem_cons_of_mem _ hw)]
      constructor
      · rintro (rfl | ⟨hy, hk⟩)
        · exact ⟨Or.inl rfl, fun hk => hz (hpz.2 hk)⟩
        · exact ⟨Or.inr hy, hk⟩
      · rintro ⟨rfl | hy, hk⟩
        · exact Or.inl rfl
        · exact Or.inr ⟨hy, hk⟩

/-! ## The most recent item of a key -/

section

variable [DecidableEq κ] (key : α → κ)

/-- The most recent item of a history with a given key; histories grow at their end. -/
def latest (k : κ) (h : List α) : Option α := h.reverse.find? fun x => key x = k

theorem latest_append_singleton (k : κ) (h : List α) (x : α) :
    latest key k (h ++ [x]) = if key x = k then some x else latest key k h := by
  unfold latest
  rw [reverse_append, reverse_singleton, singleton_append, find?_cons]
  by_cases hx : key x = k <;> simp [hx]

theorem latest_append (k : κ) (h h' : List α) :
    latest key k (h ++ h') = (latest key k h').or (latest key k h) := by
  unfold latest
  rw [reverse_append, find?_append]

variable {key} {k : κ} {h : List α}

theorem mem_of_latest {x : α} (hx : latest key k h = some x) : x ∈ h :=
  mem_reverse.1 (mem_of_find?_eq_some hx)

theorem latest_map {β : Type*} (f : β → α) (k : κ) (h : List β) :
    latest key k (h.map f) = (latest (fun x => key (f x)) k h).map f := by
  unfold latest
  rw [← map_reverse, find?_map]
  rfl

/-- The most recent item of a key stays the most recent one when items are dropped that fail a test
which it passes. -/
theorem latest_filter_of_latest {q : α → Bool} {x : α} (hx : latest key k h = some x) (hq : q x = true) :
    latest key k (h.filter q) = some x := by
  induction h using reverseRecOn with
  | nil => cases hx
  | append_singleton h y ih =>
    rw [latest_append_singleton] at hx
    rw [filter_append]
    by_cases hy : key y = k
    · rw [if_pos hy, Option.some.injEq] at hx
      subst hx
      rw [filter_cons_of_pos hq, filter_nil, latest_append_singleton, if_pos hy]
    · rw [if_neg hy] at hx
      by_cases hqy : q y = true
      · rw [filter_cons_of_pos hqy, filter_nil, latest_append_singleton, if_neg hy]
        exact ih hx
      · rw [filter_cons_of_neg hqy, filter_nil, append_nil]
        exact ih hx

/-- In an increasing history the most recent item of a key is the largest one. -/
theorem latest_eq_some_iff_of_pairwise {β : Type*} [LinearOrder β] {f : α → β}
    (hinc : h.Pairwise fun x y => f x < f y) {y : α} :
    latest key k h = some y ↔ y ∈ h ∧ key y = k ∧ ∀ z ∈ h, key z = k → f z ≤ f y := by
  induction h using reverseRecOn with
  | nil => simp [latest]
  | append_singleton h x ih =>
    rw [pairwise_append] at hinc
    have hlt : ∀ z ∈ h, f z < f x := fun z hz => hinc.2.2 z hz x (mem_singleton_self x)
    rw [latest_append_singleton]
    -- The last item of the key is also its greatest, since the values increase.
    by_cases hx : key x = k
    · rw [if_pos hx, Option.some.injEq]
      constructor
      · rintro rfl
        refine ⟨mem_append_right _ (mem_singleton_self _), hx, fun z hz _ => ?_⟩
        rcases mem_append.1 hz with hz | hz
        · exact (hlt z hz).le
        · exact (mem_singleton.1 hz) ▸ le_rfl
      · rintro ⟨hy, -, hmax⟩
        rcases mem_append.1 hy with hy | hy
        · have hle := hmax x (mem_append_right _ (mem_singleton_self _)) hx
          exact absurd (hlt y hy) (not_lt.2 hle)
        · exact (mem_singleton.1 hy).symm
    · rw [if_neg hx, ih hinc.1]
      constructor
      · rintro ⟨hy, hk, hmax⟩
        refine ⟨mem_append_left _ hy, hk, fun z hz hzk => ?_⟩
        rcases mem_append.1 hz with hz | hz
        · exact hmax z hz hzk
        · exact absurd (mem_singleton.1 hz ▸ hzk) hx
      · rintro ⟨hy, hk, hmax⟩
        rcases mem_append.1 hy with hy | hy
        · exact ⟨hy, hk, fun z hz hzk => hmax z (mem_append_left _ hz) hzk⟩
        · exact absurd (mem_singleton.1 hy ▸ hk) hx

/-- Items that fail a test which the items of the key pass can be dropped from the history. -/
theorem latest_filter {q : α → Bool} (hq : ∀ x ∈ h, key x = k → q x = true) :
    latest key k (h.filter q) = latest key k h := by
  unfold latest
  rw [← filter_reverse, find?_filter]
  refine find?_congr fun x hx => ?_
  by_cases hk : key x = k
  · simp [hk, hq x (mem_reverse.1 hx) hk]
  · simp [hk]

end

/-! ## Lists that keep the latest item of each key -/

/-- The list holds exactly the most recent item of every key of the history. -/
structure KeepsLatest [DecidableEq κ] (key : α → κ) (h l : List α) : Prop where
  nodup : (l.map key).Nodup
  mem_iff : ∀ y, y ∈ l ↔ latest key (key y) h = some y

namespace KeepsLatest

variable [DecidableEq κ] {key : α → κ} {h l l' : List α}

theorem nil : KeepsLatest key [] ([] : List α) where
  nodup := nodup_nil
  mem_iff := fun y => by simp [latest]

variable (hl : KeepsLatest key h l)

include hl

theorem perm (hp : l.Perm l') : KeepsLatest key h l' where
  nodup := (hp.map key).nodup_iff.1 hl.nodup
  mem_iff := fun y => by rw [← hp.mem_iff, hl.mem_iff]

theorem mem_history {y : α} (hy : y ∈ l) : y ∈ h := mem_of_latest ((hl.mem_iff y).1 hy)

theorem evictCons {p : α → Bool} {x : α} (hp : ∀ y ∈ l, p y = true ↔ key y = key x) :
    KeepsLatest key (h ++ [x]) (Lib.evictCons p x l) where
  nodup := by
    rw [Lib.evictCons, map_cons, nodup_cons]
    refine ⟨fun hx => ?_, hl.nodup.sublist ((eraseP_sublist).map key)⟩
    obtain ⟨y, hy, hk⟩ := mem_map.1 hx
    exact ((mem_eraseP_iff_of_nodup hl.nodup hp y).1 hy).2 hk
  mem_iff := by
    intro y
    rw [Lib.evictCons, mem_cons, mem_eraseP_iff_of_nodup hl.nodup hp, latest_append_singleton]
    by_cases hk : key x = key y
    · rw [if_pos hk, Option.some.injEq]
      exact ⟨fun hy => hy.elim Eq.symm fun hy => absurd hk.symm hy.2, fun hy => Or.inl hy.symm⟩
    · rw [if_neg hk, hl.mem_iff]
      refine ⟨fun hy => hy.elim (fun heq => absurd (heq ▸ rfl) hk) And.left, fun hy => ?_⟩
      exact Or.inr ⟨hy, fun h => hk h.symm⟩

theorem upsert {p : α → Bool} {x : α} (hp : ∀ y ∈ l, p y = true ↔ key y = key x) :
    KeepsLatest key (h ++ [x]) (Lib.upsert p x l) :=
  (hl.evictCons hp).perm (upsert_perm p x l).symm

end KeepsLatest

/-! ## Lists that keep the first item of each key -/

/-- Put an item in front unless an equivalent one is in the list. -/
def addNew (eqv : α → α → Bool) (l : List α) (x : α) : List α :=
  if l.any fun y => eqv y x then l else x :: l

section AddNew

variable {eqv : α → α → Bool} {key : α → κ}

theorem addNew_cases (heqv : ∀ x y, eqv x y = true ↔ key x = key y) (l : List α) (x : α) :
    ((∃ y ∈ l, key y = key x) ∧ addNew eqv l x = l) ∨
      ((∀ y ∈ l, key y ≠ key x) ∧ addNew eqv l x = x :: l) := by
  unfold addNew
  by_cases h : (l.any fun y => eqv y x) = true
  · obtain ⟨y, hy, hyx⟩ := any_eq_true.1 h
    exact Or.inl ⟨⟨y, hy, (heqv y x).1 hyx⟩, if_pos h⟩
  · refine Or.inr ⟨fun y hy hk => h ?_, if_neg h⟩
    exact any_eq_true.2 ⟨y, hy, (heqv y x).2 hk⟩

theorem nodup_foldl_addNew (heqv : ∀ x y, eqv x y = true ↔ key x = key y) (xs : List α) :
    ((xs.foldl (addNew eqv) []).map key).Nodup := by
  induction xs using reverseRecOn with
  | nil => exact nodup_nil
  | append_singleton xs x ih =>
    rw [foldl_append, foldl_cons, foldl_nil]
    rcases addNew_cases heqv (xs.foldl (addNew eqv) []) x with ⟨-, heq⟩ | ⟨hnew, heq⟩
    · rw [heq]
      exact ih
    · rw [heq, map_cons, nodup_cons]
      refine ⟨fun hx => ?_, ih⟩
      obtain ⟨y, hy, hk⟩ := mem_map.1 hx
      exact hnew y hy hk

/-- Read from its end, the list finds what the history finds, for a test that depends on the key. -/
theorem find?_reverse_foldl_addNew (heqv : ∀ x y, eqv x y = true ↔ key x = key y) {q : α → Bool}
    (hq : ∀ x y, key x = key y → q x = q y) (xs : List α) :
    (xs.foldl (addNew eqv) []).reverse.find? q = xs.find? q := by
  induction xs using reverseRecOn with
  | nil => rfl
  | append_singleton xs x ih =>
    rw [foldl_append, foldl_cons, foldl_nil, find?_append, ← ih]
    rcases addNew_cases heqv (xs.foldl (addNew eqv) []) x with ⟨⟨y, hy, hk⟩, heq⟩ | ⟨-, heq⟩
    · rw [heq]
      -- If the dropped item passes the test, so does the one that it is equivalent to.
      cases hf : (xs.foldl (addNew eqv) []).reverse.find? q with
      | some z => rfl
      | none =>
        have hqy := find?_eq_none.1 hf y (mem_reverse.2 hy)
        rw [hq y x hk] at hqy
        rw [Option.none_or, find?_cons_of_neg hqy]
        rfl
    · rw [heq, reverse_cons, find?_append]

theorem mem_of_mem_foldl_addNew {xs : List α} {y : α} (hy : y ∈ xs.foldl (addNew eqv) []) : y ∈ xs := by
  induction xs using reverseRecOn with
  | nil => exact hy
  | append_singleton xs x ih =>
    rw [foldl_append, foldl_cons, foldl_nil, addNew] at hy
    split at hy
    · exact mem_append_left _ (ih hy)
    · rcases mem_cons.1 hy with rfl | hy
      · exact mem_append_right _ (mem_singleton_self _)
      · exact mem_append_left _ (ih hy)

theorem exists_mem_foldl_addNew (heqv : ∀ x y, eqv x y = true ↔ key x = key y) {xs : List α} {x : α}
    (hx : x ∈ xs) : ∃ y ∈ xs.foldl (addNew eqv) [], key y = key x := by
  induction xs using reverseRecOn with
  | nil => cases hx
  | append_singleton xs z ih =>
    rw [foldl_append, foldl_cons, foldl_nil]
    have hkept : x ∈ xs → ∃ y ∈ addNew eqv (xs.foldl (addNew eqv) []) z, key y = key x := by
      intro hx
      obtain ⟨y, hy, hk⟩ := ih hx
      refine ⟨y, ?_, hk⟩
      rcases addNew_cases heqv (xs.foldl (addNew eqv) []) z with ⟨-, heq⟩ | ⟨-, heq⟩
      · rw [heq]
        exact hy
      · rw [heq]
        exact mem_cons_of_mem _ hy
    rcases mem_append.1 hx with hx | hx
    · exact hkept hx
    · rw [mem_singleton] at hx
      subst hx
      rcases addNew_cases heqv (xs.foldl (addNew eqv) []) x with ⟨⟨y, hy, hk⟩, heq⟩ | ⟨-, heq⟩
      · exact ⟨y, by rw [heq]; exact hy, hk⟩
      · exact ⟨x, by rw [heq]; exact mem_cons_self, rfl⟩

end AddNew

/-! ## Runs -/

section

variable {place : α → List α → List α} {xs : List α} {y : α}

/-- A run only holds what was placed. -/
theorem mem_of_mem_foldl_place (hsub : ∀ x l y, y ∈ place x l → y = x ∨ y ∈ l)
    (hy : y ∈ xs.foldl (fun l x => place x l) []) : y ∈ xs := by
  induction xs using reverseRecOn with
  | nil => exact hy
  | append_singleton xs x ih =>
    rw [foldl_append, foldl_cons, foldl_nil] at hy
    rcases hsub x _ y hy with rfl | hy
    · exact mem_append_right _ (mem_singleton_self _)
    · exact mem_append_left _ (ih hy)

/-- An array of lists: every item is placed in the list at its index. -/
def binRun (idx : α → Nat) (place : α → List α → List α) (xs : List α) : Nat → List α :=
  xs.foldl (fun t x => update t (idx x) (place x (t (idx x)))) fun _ => []

theorem binRun_append_singleton (idx : α → Nat) (xs : List α) (x : α) :
    binRun idx place (xs ++ [x]) = update (binRun idx place xs) (idx x)
      (place x (binRun idx place xs (idx x))) := by
  rw [binRun, foldl_append]
  rfl

/-- Each list of the array is the run over its own items. -/
theorem binRun_apply (idx : α → Nat) (xs : List α) (i : Nat) :
    binRun idx place xs i = (xs.filter fun x => idx x = i).foldl (fun l x => place x l) [] := by
  induction xs using reverseRecOn with
  | nil => rfl
  | append_singleton xs x ih =>
    rw [binRun_append_singleton, filter_append, foldl_append, ← ih, update_apply]
    by_cases hi : idx x = i
    · rw [if_pos hi.symm, filter_cons_of_pos (by simpa using hi)]
      subst hi
      rfl
    · rw [if_neg fun h => hi h.symm, filter_cons_of_neg (by simpa using hi)]
      rfl

theorem mem_of_mem_binRun (hsub : ∀ x l y, y ∈ place x l → y = x ∨ y ∈ l) {idx : α → Nat} {i : Nat}
    (hy : y ∈ binRun idx place xs i) : y ∈ xs := by
  rw [binRun_apply] at hy
  exact mem_of_mem_filter (mem_of_mem_foldl_place hsub hy)

variable [DecidableEq κ] {key : α → κ}

/-- If every placement keeps the latest items, a run does. -/
theorem keepsLatest_foldl (hplace : ∀ x ∈ xs, ∀ h l, (∀ y ∈ l, y ∈ xs) → KeepsLatest key h l →
      KeepsLatest key (h ++ [x]) (place x l)) : KeepsLatest key xs (xs.foldl (fun l x => place x l) []) := by
  induction xs using reverseRecOn with
  | nil => exact KeepsLatest.nil
  | append_singleton xs x ih =>
    rw [foldl_append, foldl_cons, foldl_nil]
    have hrun := ih fun z hz h l hl => hplace z (mem_append_left _ hz) h l
      fun y hy => mem_append_left _ (hl y hy)
    exact hplace x (mem_append_right _ (mem_singleton_self x)) xs _
      (fun y hy => mem_append_left _ (hrun.mem_history hy)) hrun

/-- If every placement keeps the new item and the items of other keys, a run ends with the latest item
of each key in the list, possibly among older ones. -/
theorem latest_mem_foldl (hself : ∀ x l, x ∈ place x l)
    (hother : ∀ x ∈ xs, ∀ l, (∀ y ∈ l, y ∈ xs) → ∀ y ∈ l, key y ≠ key x → y ∈ place x l)
    (hsub : ∀ x l y, y ∈ place x l → y = x ∨ y ∈ l) (hy : latest key (key y) xs = some y) :
    y ∈ xs.foldl (fun l x => place x l) [] := by
  induction xs using reverseRecOn with
  | nil => simp [latest] at hy
  | append_singleton xs x ih =>
    rw [foldl_append, foldl_cons, foldl_nil]
    rw [latest_append_singleton] at hy
    by_cases hk : key x = key y
    · rw [if_pos hk, Option.some.injEq] at hy
      exact hy ▸ hself x _
    · rw [if_neg hk] at hy
      refine hother x (mem_append_right _ (mem_singleton_self x)) _
        (fun z hz => mem_append_left _ (mem_of_mem_foldl_place hsub hz)) y (ih ?_ hy) fun h => hk h.symm
      intro z hz l hl w hw hne
      exact hother z (mem_append_left _ hz) l (fun v hv => mem_append_left _ (hl v hv)) w hw hne

end

/-! ## Replacing items -/

/-- Replacing an item by one with the same image does not change the images. -/
theorem map_set_eq {i : Nat} {a : α} (h : (l.map f)[i]? = some (f a)) : (l.set i a).map f = l.map f := by
  rw [map_set]
  obtain ⟨hi, heq⟩ := List.getElem?_eq_some_iff.1 h
  rw [← heq, set_getElem_self]

theorem map_modify_eq {g : α → α} (hg : ∀ a, f (g a) = f a) (l : List α) (i : Nat) :
    (l.modify i g).map f = l.map f := by
  apply ext_getElem?
  intro j
  rw [getElem?_map, getElem?_map, getElem?_modify]
  cases l[j]? with
  | none => rfl
  | some a =>
    by_cases hij : i = j
    · simp [hij, hg]
    · simp [hij]

end DataSpaces.Lib
