import Mathlib.Data.List.Nodup
import Mathlib.Tactic

/-!
# Lists of paired blocks

A list is built from groups: each group contributes the images of its items under one function, and then
their images under another one. A loop that only knows a block length `b` takes the places `i` with
`b ≤ i % (b * 2)` for second images, and the place `b` before for the first image of the same item.

`secondHalves_paired` says that this is right if all groups have `b` items. `length_eq_of_pairs` is the
converse, for items that occur only once: if every place that is taken for a second image has its item `b`
places before, and every item is found at such a place, then every group that has items has `b` of them.

`fresh` keeps the items of a list whose key has not occurred before, and `freshGroups` does so group by
group; their items occur only once.
-/

namespace DataSpaces.Lib

open List

variable {α β : Type*}

/-- For each group the first images, and then the second ones. -/
def paired (first second : α → β) (groups : List (List α)) : List β :=
  groups.flatMap fun g => g.map first ++ g.map second

/-- What a loop with block length `b` takes for second images; `i` is the place of the head. -/
def secondHalves (b : Nat) : Nat → List β → List β
  | _, [] => []
  | i, x :: l => if b ≤ i % (b * 2) then x :: secondHalves b (i + 1) l else secondHalves b (i + 1) l

section

variable {b : Nat} {i : Nat} {l : List β}

theorem mem_secondHalves {x : β} : x ∈ secondHalves b i l ↔ ∃ j, l[j]? = some x ∧ b ≤ (i + j) % (b * 2) := by
  induction l generalizing i with
  | nil => simp [secondHalves]
  | cons y l ih =>
    have hrest : (∃ j, (y :: l)[j]? = some x ∧ b ≤ (i + j) % (b * 2)) ↔
        (y = x ∧ b ≤ i % (b * 2)) ∨ x ∈ secondHalves b (i + 1) l := by
      rw [ih]
      constructor
      · rintro ⟨j, hj, hb⟩
        cases j with
        | zero => exact Or.inl ⟨Option.some.inj hj, hb⟩
        | succ j => exact Or.inr ⟨j, hj, by rwa [Nat.add_right_comm, Nat.add_assoc]⟩
      · rintro (⟨rfl, hb⟩ | ⟨j, hj, hb⟩)
        · exact ⟨0, rfl, hb⟩
        · exact ⟨j + 1, hj, by rwa [Nat.add_right_comm, Nat.add_assoc] at hb⟩
    rw [hrest, secondHalves]
    split
    · next hb => simp [hb, eq_comm]
    · next hb => simp [hb]

theorem secondHalves_append (i : Nat) (l l' : List β) :
    secondHalves b i (l ++ l') = secondHalves b i l ++ secondHalves b (i + l.length) l' := by
  induction l generalizing i with
  | nil => rfl
  | cons x l ih =>
    have hrest : secondHalves b (i + 1) (l ++ l') =
        secondHalves b (i + 1) l ++ secondHalves b (i + (l.length + 1)) l' := by
      rw [ih, Nat.add_right_comm, Nat.add_assoc]
    rw [cons_append, secondHalves, secondHalves, hrest, length_cons]
    split <;> rfl

/-- Blocks repeat. -/
theorem secondHalves_add (i : Nat) (l : List β) : secondHalves b (i + b * 2) l = secondHalves b i l := by
  induction l generalizing i with
  | nil => rfl
  | cons x l ih => rw [secondHalves, secondHalves, Nat.add_mod_right, Nat.add_right_comm, ih]

theorem secondHalves_of_lt (h : i + l.length ≤ b) : secondHalves b i l = [] := by
  rw [eq_nil_iff_forall_not_mem]
  intro x hx
  obtain ⟨j, hj, hb⟩ := mem_secondHalves.1 hx
  have hlt := (List.getElem?_eq_some_iff.1 hj).1
  rw [Nat.mod_eq_of_lt (by omega)] at hb
  omega

theorem secondHalves_of_le (hi : b ≤ i) (h : i + l.length ≤ b * 2) : secondHalves b i l = l := by
  induction l generalizing i with
  | nil => rfl
  | cons x l ih =>
    rw [length_cons] at h
    rw [secondHalves, Nat.mod_eq_of_lt (by omega), if_pos hi, ih (by omega) (by omega)]

end

section Groups

variable {first second : α → β} {groups : List (List α)} {b : Nat}

theorem length_paired (first second : α → β) (groups : List (List α)) :
    (paired first second groups).length = 2 * groups.flatten.length := by
  induction groups with
  | nil => rfl
  | cons g groups ih =>
    rw [paired, flatMap_cons, ← paired, length_append, ih, flatten_cons, length_append,
      length_append, length_map, length_map]
    omega

variable {γ : Type*} {i : Nat} {a : α} {g : List α}

theorem map_paired (f : β → γ) (first second : α → β) (groups : List (List α)) :
    (paired first second groups).map f = paired (f ∘ first) (f ∘ second) groups := by
  simp only [paired, map_flatMap, map_append, map_map]

theorem paired_map (h : γ → α) (groups : List (List γ)) :
    paired first second (groups.map (List.map h)) = paired (first ∘ h) (second ∘ h) groups := by
  simp only [paired, flatMap_map, map_map]

/-- With groups of `b` items the loop takes the second images. -/
theorem secondHalves_paired (h : ∀ g ∈ groups, g.length = b) :
    secondHalves b 0 (paired first second groups) = groups.flatten.map second := by
  induction groups with
  | nil => rfl
  | cons g groups ih =>
    have hg := h g mem_cons_self
    rw [paired, flatMap_cons, ← paired, secondHalves_append, secondHalves_append,
      secondHalves_of_lt (by rw [length_map]; omega),
      secondHalves_of_le (by rw [length_map]; omega) (by rw [length_map, length_map]; omega),
      nil_append, length_append, length_map, length_map,
      show 0 + (g.length + g.length) = 0 + b * 2 by omega, secondHalves_add,
      ih fun g' hg' => h g' (mem_cons_of_mem g hg'), flatten_cons, map_append]

/-- And the first image of the same item is `b` places before. -/
theorem getElem?_paired_sub (h : ∀ g ∈ groups, g.length = b) (hi : b ≤ i % (b * 2)) {y : β}
    (hy : (paired first second groups)[i]? = some y) :
    ∃ a ∈ groups.flatten, y = second a ∧ (paired first second groups)[i - b]? = some (first a) := by
  induction groups generalizing i with
  | nil => cases hy
  | cons g groups ih =>
    have hg := h g mem_cons_self
    have hlen : (g.map first ++ g.map second).length = b * 2 := by
      rw [length_append, length_map, length_map]
      omega
    rw [paired, flatMap_cons, ← paired] at hy ⊢
    rcases Nat.lt_or_ge i (b * 2) with hlt | hge
    · rw [Nat.mod_eq_of_lt hlt] at hi
      rw [getElem?_append_left (by omega), getElem?_append_right (by rw [length_map]; omega),
        length_map, hg, getElem?_map] at hy
      obtain ⟨a, ha, rfl⟩ := Option.map_eq_some_iff.1 hy
      refine ⟨a, mem_append_left _ (mem_of_getElem? ha), rfl, ?_⟩
      rw [getElem?_append_left (by omega), getElem?_append_left (by rw [length_map]; omega),
        getElem?_map, ha, Option.map_some]
    · have hmod : (i - b * 2) % (b * 2) = i % (b * 2) := by
        rw [← Nat.add_mod_right, Nat.sub_add_cancel hge]
      rw [getElem?_append_right (by omega), hlen] at hy
      obtain ⟨a, ha, hya, hfirst⟩ := ih (fun g' hg' => h g' (mem_cons_of_mem g hg')) (hmod ▸ hi) hy
      have hle : b ≤ i - b * 2 := hi.trans (hmod ▸ Nat.mod_le _ _)
      refine ⟨a, mem_append_right _ ha, hya, ?_⟩
      rw [getElem?_append_right (by omega), hlen, Nat.sub_right_comm]
      exact hfirst

/-- The two places of an item are as far apart as its group is long. -/
theorem exists_group_of_getElem? (hnd : groups.flatten.Nodup) {j : Nat} (hji : j < i)
    (hi : (paired id id groups)[i]? = some a) (hj : (paired id id groups)[j]? = some a) :
    ∃ g ∈ groups, a ∈ g ∧ i = j + g.length := by
  induction groups generalizing i j with
  | nil => cases hi
  | cons g groups ih =>
    rw [flatten_cons] at hnd
    obtain ⟨hg, hgroups, hdisj⟩ := List.nodup_append.1 hnd
    rw [paired, flatMap_cons, ← paired, map_id] at hi hj
    have hmem : ∀ k, (g ++ g).length ≤ k → ((g ++ g) ++ paired id id groups)[k]? = some a →
        a ∈ groups.flatten := by
      intro k hk hka
      rw [getElem?_append_right hk] at hka
      obtain ⟨g', hg', ha⟩ := mem_flatMap.1 (mem_of_getElem? hka)
      rw [map_id, mem_append, or_self] at ha
      exact mem_flatten.2 ⟨g', hg', ha⟩
    have hmemg : ∀ k, k < (g ++ g).length → ((g ++ g) ++ paired id id groups)[k]? = some a → a ∈ g := by
      intro k hk hka
      rw [getElem?_append_left hk] at hka
      exact (or_self_iff.1 (mem_append.1 (mem_of_getElem? hka)))
    rcases Nat.lt_or_ge i (g ++ g).length with hlt | hge
    · -- Both places are in this group, in different halves.
      have hag := hmemg i hlt hi
      refine ⟨g, mem_cons_self, hag, ?_⟩
      rw [getElem?_append_left (by omega)] at hi hj
      rw [length_append] at hlt
      rcases Nat.lt_or_ge j g.length with hj1 | hj2
      · rw [getElem?_append_left hj1] at hj
        rcases Nat.lt_or_ge i g.length with hi1 | hi2
        · rw [getElem?_append_left hi1] at hi
          exact absurd ((getElem?_inj hj1 hg).1 (hj.trans hi.symm)) hji.ne
        · rw [getElem?_append_right hi2] at hi
          have hsame := (getElem?_inj hj1 hg).1 (hj.trans hi.symm)
          omega
      · rw [getElem?_append_right (by omega)] at hi hj
        have hsame := (getElem?_inj (i := j - g.length) (by omega) hg).1 (hj.trans hi.symm)
        omega
    · rcases Nat.lt_or_ge j (g ++ g).length with hlt' | hge'
      · exact absurd rfl (hdisj a (hmemg j hlt' hj) a (hmem i hge hi))
      · rw [getElem?_append_right hge] at hi
        rw [getElem?_append_right hge'] at hj
        obtain ⟨g', hg', ha, hdist⟩ := ih hgroups (by omega) hi hj
        exact ⟨g', mem_cons_of_mem g hg', ha, by omega⟩

/-- Two groups with a common item are the same group. -/
theorem eq_of_mem_of_nodup_flatten (hnd : groups.flatten.Nodup) {g' : List α} (hg : g ∈ groups)
    (hg' : g' ∈ groups) (ha : a ∈ g) (ha' : a ∈ g') : g = g' := by
  by_contra hne
  have hsymm : Std.Symm (List.Disjoint (α := α)) := ⟨fun _ _ h => h.symm⟩
  exact (nodup_flatten.1 hnd).2.forall hg hg' hne ha ha'

/-- If the loop finds every item at a place with the same item `b` places before, every group that has
items has `b` of them. -/
theorem length_eq_of_pairs (hnd : groups.flatten.Nodup) (hb : 0 < b)
    (hfind : ∀ a ∈ groups.flatten, ∃ i, b ≤ i ∧ (paired id id groups)[i]? = some a ∧
      (paired id id groups)[i - b]? = some a) (hg : g ∈ groups) (hne : g ≠ []) : g.length = b := by
  obtain ⟨a, ha⟩ := exists_mem_of_ne_nil g hne
  obtain ⟨i, hbi, hi, hbefore⟩ := hfind a (mem_flatten.2 ⟨g, hg, ha⟩)
  obtain ⟨g', hg', ha', hdist⟩ := exists_group_of_getElem? hnd (Nat.sub_lt_of_pos_le hb hbi) hi hbefore
  rw [eq_of_mem_of_nodup_flatten hnd hg hg' ha ha']
  omega

/-- Groups of at most `b` items that have `b` each on average. -/
theorem length_eq_of_mul_le (hle : ∀ g ∈ groups, g.length ≤ b)
    (hsum : groups.length * b ≤ groups.flatten.length) : ∀ g ∈ groups, g.length = b := by
  have hupper : ∀ gs : List (List α), (∀ g ∈ gs, g.length ≤ b) → gs.flatten.length ≤ gs.length * b := by
    intro gs hgs
    have hle := sum_le_card_nsmul (gs.map List.length) b (by simpa using hgs)
    rwa [length_map, smul_eq_mul, ← length_flatten] at hle
  induction groups with
  | nil => exact fun g hg => absurd hg not_mem_nil
  | cons g₀ groups ih =>
    have hg₀ := hle g₀ mem_cons_self
    have htail : ∀ g ∈ groups, g.length ≤ b := fun g hg => hle g (mem_cons_of_mem g₀ hg)
    have hrest := hupper groups htail
    rw [flatten_cons, length_append, length_cons, Nat.succ_mul] at hsum
    intro g hg
    rcases mem_cons.1 hg with rfl | hmem
    · omega
    · exact ih htail (by omega) g hmem

theorem length_flatten_of_eq (h : ∀ g ∈ groups, g.length = b) :
    groups.flatten.length = groups.length * b := by
  rw [length_flatten, sum_eq_card_nsmul _ b (by simpa using h), length_map, smul_eq_mul]

end Groups

/-! ## First occurrences -/

section

variable {κ : Type*} [DecidableEq κ] (key : α → κ)

/-- The items whose key is not in `seen` and has not occurred before. -/
def fresh : List κ → List α → List α
  | _, [] => []
  | seen, a :: l => if key a ∈ seen then fresh seen l else a :: fresh (key a :: seen) l

/-- For each item whether it is fresh. -/
def freshFlags : List κ → List α → List Bool
  | _, [] => []
  | seen, a :: l =>
    if key a ∈ seen then false :: freshFlags seen l else true :: freshFlags (key a :: seen) l

/-- The fresh items of each group. -/
def freshGroups : List κ → List (List α) → List (List α)
  | _, [] => []
  | seen, g :: groups => fresh key seen g :: freshGroups (seen ++ g.map key) groups

variable {key} {seen seen' : List κ} {l : List α}

theorem fresh_congr (h : ∀ k, k ∈ seen ↔ k ∈ seen') : fresh key seen l = fresh key seen' l := by
  induction l generalizing seen seen' with
  | nil => rfl
  | cons a l ih =>
    have hcons : ∀ k, k ∈ key a :: seen ↔ k ∈ key a :: seen' := fun k => by
      rw [mem_cons, mem_cons, h k]
    simp only [fresh, h (key a), ih h, ih hcons]

/-- The keys of fresh items. -/
theorem mem_map_fresh {k : κ} : k ∈ (fresh key seen l).map key ↔ k ∈ l.map key ∧ k ∉ seen := by
  induction l generalizing seen with
  | nil => simp [fresh]
  | cons a l ih =>
    rw [fresh]
    split
    · next hseen =>
      rw [ih, map_cons, mem_cons]
      refine ⟨fun h => ⟨Or.inr h.1, h.2⟩, fun h => ⟨h.1.resolve_left ?_, h.2⟩⟩
      rintro rfl
      exact h.2 hseen
    · next hnew =>
      rw [map_cons, mem_cons, ih, map_cons, mem_cons, mem_cons, not_or]
      by_cases hk : k = key a
      · simp [hk, hnew]
      · simp [hk]

theorem nodup_map_fresh (seen : List κ) (l : List α) : ((fresh key seen l).map key).Nodup := by
  induction l generalizing seen with
  | nil => exact nodup_nil
  | cons a l ih =>
    rw [fresh]
    split
    · exact ih seen
    · rw [map_cons, nodup_cons]
      refine ⟨fun hmem => ?_, ih _⟩
      exact (mem_map_fresh.1 hmem).2 mem_cons_self

theorem fresh_sublist (seen : List κ) (l : List α) : (fresh key seen l).Sublist l := by
  induction l generalizing seen with
  | nil => exact Sublist.refl []
  | cons a l ih =>
    rw [fresh]
    split
    · exact (ih seen).cons a
    · exact (ih _).cons_cons a

theorem fresh_append (seen : List κ) (l l' : List α) :
    fresh key seen (l ++ l') = fresh key seen l ++ fresh key (seen ++ l.map key) l' := by
  induction l generalizing seen with
  | nil =>
    rw [nil_append, map_nil, append_nil]
    rfl
  | cons a l ih =>
    rw [cons_append, fresh, fresh]
    split
    · next hseen =>
      rw [ih]
      refine congrArg _ (fresh_congr fun k => ?_)
      rw [mem_append, mem_append, map_cons, mem_cons]
      refine ⟨fun h => h.imp_right Or.inr, fun h => h.elim Or.inl fun h => h.elim (fun hk => ?_) Or.inr⟩
      exact Or.inl (hk ▸ hseen)
    · rw [ih, cons_append]
      refine congrArg _ (congrArg _ (fresh_congr fun k => ?_))
      simp only [mem_append, map_cons, mem_cons]
      tauto

theorem flatten_freshGroups (seen : List κ) (groups : List (List α)) :
    (freshGroups key seen groups).flatten = fresh key seen groups.flatten := by
  induction groups generalizing seen with
  | nil => rfl
  | cons g groups ih => rw [freshGroups, flatten_cons, flatten_cons, fresh_append, ih]

theorem length_freshGroups (seen : List κ) (groups : List (List α)) :
    (freshGroups key seen groups).length = groups.length := by
  induction groups generalizing seen with
  | nil => rfl
  | cons g groups ih => rw [freshGroups, length_cons, length_cons, ih]

theorem fresh_eq_self_iff : fresh key [] l = l ↔ (l.map key).Nodup := by
  constructor
  · intro h
    rw [← h]
    exact nodup_map_fresh [] l
  · intro h
    -- Every key occurs among the fresh items, and none of them occurs twice in the list.
    have hperm : ((fresh key [] l).map key).Perm (l.map key) := by
      rw [perm_ext_iff_of_nodup (nodup_map_fresh [] l) h]
      intro k
      rw [mem_map_fresh]
      simp
    apply (fresh_sublist [] l).eq_of_length
    rw [← length_map (f := key), hperm.length_eq, length_map]

end

end DataSpaces.Lib
