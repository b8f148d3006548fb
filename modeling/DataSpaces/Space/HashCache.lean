import Mathlib.Data.List.Forall2
import DataSpaces.Space.Hash

/-!
# The hash cache

`ssd_hash` looks a box up in `sfc_hash_list` before it computes anything. The list is a static variable
of `ss_data.c`: one list for all shared spaces of the process, keyed by the box alone. A result is
appended on every miss, and an empty cached result counts as a miss.

A run is a sequence of calls on any family of spaces. What the cache holds for a box is the result of
the first call with an equal box (`CacheInv`). So every call of a run returns what it would return
without the cache exactly when, at each call, the first earlier call with an equal box was on the same
space or had an empty result (`cache_transparent_iff`).
-/

namespace DataSpaces.Space

open Lib Geometry List Option

universe u

variable {ι : Type u}

/-- A pointer into the entry table of one of the spaces of the process. -/
abbrev EntryPtr (ι : Type u) := ι × Nat

/-- `struct sfc_hash_cache`; `sh_nodes` is the length of the table. -/
structure SfcHashCache (ι : Type u) where
  shBb : Bbox
  shDeTab : List (EntryPtr ι)

/-- A call of `ssd_hash` on one of the spaces. -/
structure HashCall (ι : Type u) where
  space : ι
  box : Bbox

def shAdd (bb : Bbox) (deTab : List (EntryPtr ι)) (cache : List (SfcHashCache ι)) :
    List (SfcHashCache ι) := cache ++ [⟨bb, deTab⟩]

def shFind (bb : Bbox) (cache : List (SfcHashCache ι)) : Option (List (EntryPtr ι)) :=
  (cache.find? fun shc => bboxEquals bb shc.shBb).map SfcHashCache.shDeTab

variable (P : Platform) (spaces : ι → Sspace)

/-- The call without the cache: pointers to entries of the space it is made on. -/
def freshCall (c : HashCall ι) : Option (List (EntryPtr ι)) :=
  (ssdHashFresh P (spaces c.space) c.box).map fun l => l.map fun k => (c.space, k)

/-- `ssd_hash`, with the state of the cache; `none` when it does not return. -/
def ssdHash (cache : List (SfcHashCache ι)) (c : HashCall ι) :
    Option (List (EntryPtr ι) × List (SfcHashCache ι)) :=
  match shFind c.box cache with
  | some (p :: ps) => some (p :: ps, cache)
  | _ => (freshCall P spaces c).map fun deTab => (deTab, shAdd c.box deTab cache)

/-- The results of a sequence of calls that all return. -/
def runCalls : List (SfcHashCache ι) → List (HashCall ι) → Option (List (List (EntryPtr ι)))
  | _, [] => some []
  | cache, c :: calls =>
    match ssdHash P spaces cache c with
    | none => none
    | some (deTab, cache) => (runCalls cache calls).map fun results => deTab :: results

/-! ## Equal boxes hash alike -/

section

variable {P}
variable {b b' : Bbox} (h : bboxEquals b b' = true)

include h

theorem bboxInclude_congr (c : Bbox) : bboxInclude b c = bboxInclude b' c := by
  obtain ⟨hd, hc⟩ := bboxEquals_iff.1 h
  rw [Bool.eq_iff_iff, bboxInclude_iff, bboxInclude_iff, ← hd]
  refine forall₂_congr fun i hi => ?_
  rw [(hc i hi).1, (hc i hi).2]

theorem bboxDoesIntersect_congr (c : Bbox) : bboxDoesIntersect b c = bboxDoesIntersect b' c := by
  obtain ⟨hd, hc⟩ := bboxEquals_iff.1 h
  rw [Bool.eq_iff_iff, bboxDoesIntersect_iff, bboxDoesIntersect_iff, ← hd]
  refine forall₂_congr fun i hi => ?_
  rw [(hc i hi).1, (hc i hi).2]

theorem bboxToIntv2Loop_congr (bpd fuel : Nat) : ∀ (ring : GroupRing Bbox) (iTab : List Intv),
    bboxToIntv2Loop P b bpd fuel ring iTab = bboxToIntv2Loop P b' bpd fuel ring iTab := by
  have hd := (bboxEquals_iff.1 h).1
  induction fuel with
  | zero =>
    intro ring iTab
    rfl
  | succ fuel ih =>
    intro ring iTab
    simp only [bboxToIntv2Loop, bboxInclude_congr h, bboxDoesIntersect_congr h, ih, hd]

theorem ssdHashFresh_congr (ss : Sspace) : ssdHashFresh P ss b = ssdHashFresh P ss b' := by
  have hd := (bboxEquals_iff.1 h).1
  simp only [ssdHashFresh, ssdHashV1Fresh, ssdHashV2Fresh, bboxToIntv2, bboxToIntv2Loop_congr h,
    bboxDoesIntersect_congr h, hd]

theorem bboxEquals_congr (c : Bbox) : bboxEquals b c = bboxEquals b' c := by
  obtain ⟨hd, hc⟩ := bboxEquals_iff.1 h
  rw [Bool.eq_iff_iff, bboxEquals_iff, bboxEquals_iff, ← hd]
  refine and_congr_right fun _ => forall₂_congr fun i hi => ?_
  rw [(hc i hi).1, (hc i hi).2]

end

variable {P spaces}

/-! ## What the cache holds -/

/-- The first of the past calls whose box equals the given one. -/
def firstCall (past : List (HashCall ι)) (bb : Bbox) : Option (HashCall ι) :=
  past.find? fun d => bboxEquals bb d.box

/-- For every box the cache answers with the result of the first past call with an equal box; that call
computed its result, so it returned without the cache. -/
structure CacheInv (P : Platform) (spaces : ι → Sspace) (past : List (HashCall ι))
    (cache : List (SfcHashCache ι)) : Prop where
  find_eq : ∀ bb, shFind bb cache = (firstCall past bb).bind (freshCall P spaces)
  returned : ∀ bb d, firstCall past bb = some d → ∃ l, freshCall P spaces d = some l

theorem cacheInv_nil : CacheInv P spaces [] [] := ⟨fun _ => rfl, fun _ _ h => by cases h⟩

variable {past : List (HashCall ι)} {d c : HashCall ι}

theorem bboxEquals_of_firstCall {bb : Bbox} (h : firstCall past bb = some d) :
    bboxEquals bb d.box = true := by
  rw [firstCall] at h
  simpa using find?_some h

theorem firstCall_congr {bb bb' : Bbox} (h : bboxEquals bb bb' = true) (past : List (HashCall ι)) :
    firstCall past bb = firstCall past bb' := by
  rw [firstCall, firstCall]
  congr 1
  funext e
  exact bboxEquals_congr h e.box

theorem firstCall_append (past : List (HashCall ι)) (c : HashCall ι) (bb : Bbox) :
    firstCall (past ++ [c]) bb = (firstCall past bb).or (if bboxEquals bb c.box then some c else none) := by
  rw [firstCall, find?_append]
  cases hc : bboxEquals bb c.box <;> simp [firstCall, hc]

theorem shFind_shAdd (bb bb' : Bbox) (deTab : List (EntryPtr ι)) (cache : List (SfcHashCache ι)) :
    shFind bb (shAdd bb' deTab cache) =
      (shFind bb cache).or (if bboxEquals bb bb' then some deTab else none) := by
  rw [shFind, shAdd, find?_append]
  cases hf : cache.find? fun shc => bboxEquals bb shc.shBb with
  | some shc => simp [shFind, hf]
  | none => cases hb : bboxEquals bb bb' <;> simp [shFind, hf, hb]

theorem freshCall_congr (hs : d.space = c.space) (hb : bboxEquals c.box d.box = true) :
    freshCall P spaces d = freshCall P spaces c := by
  rw [freshCall, freshCall, hs, ssdHashFresh_congr hb]

/-- A call whose box was used before is not the first with that box. -/
theorem firstCall_append_of_some (h : firstCall past c.box = some d) (bb : Bbox) :
    firstCall (past ++ [c]) bb = firstCall past bb := by
  rw [firstCall_append]
  cases hbb : bboxEquals bb c.box with
  | false => simp
  | true => simp [firstCall_congr hbb, h]

/-- What a call returns: the cached result of the first call with an equal box when that is not empty,
and the result computed for the call otherwise. Either way the invariant holds with the call added to
the past. -/
theorem cacheInv_step {cache : List (SfcHashCache ι)} (hinv : CacheInv P spaces past cache)
    {deTab : List (EntryPtr ι)} {cache' : List (SfcHashCache ι)}
    (hcall : ssdHash P spaces cache c = some (deTab, cache')) : CacheInv P spaces (past ++ [c]) cache' ∧
      ((∃ d p ps, firstCall past c.box = some d ∧ freshCall P spaces d = some (p :: ps) ∧ deTab = p :: ps) ∨
      ((∀ d, firstCall past c.box = some d → freshCall P spaces d = some []) ∧
        freshCall P spaces c = some deTab)) := by
  have hfind := hinv.find_eq c.box
  cases hfirst : firstCall past c.box with
  -- The box was asked for before. What the first call stored decides, unless it stored nothing.
  | some d =>
    have hpast := firstCall_append_of_some hfirst
    obtain ⟨l, hl⟩ := hinv.returned _ d hfirst
    rw [hfirst, bind_some, hl] at hfind
    have hret : ∀ bb e, firstCall (past ++ [c]) bb = some e → ∃ l, freshCall P spaces e = some l :=
      fun bb e he => hinv.returned bb e (by rw [← hpast]; exact he)
    cases l with
    | cons p ps =>
      rw [ssdHash, hfind] at hcall
      obtain ⟨rfl, rfl⟩ := Prod.mk.inj (some.inj hcall)
      exact ⟨⟨fun bb => by rw [hpast]; exact hinv.find_eq bb, hret⟩, Or.inl ⟨d, p, ps, rfl, hl, rfl⟩⟩
    -- An empty list does not count as found: the call computes afresh and stores once more.
    | nil =>
      rw [ssdHash, hfind] at hcall
      obtain ⟨deTab', hfresh, heq⟩ := map_eq_some_iff.1 hcall
      obtain ⟨rfl, rfl⟩ := Prod.mk.inj heq
      refine ⟨⟨fun bb => ?_, hret⟩, Or.inr ⟨fun e he => by rw [← some.inj he]; exact hl, hfresh⟩⟩
      rw [hpast, shFind_shAdd, hinv.find_eq bb]
      cases hbb : bboxEquals bb c.box with
      | false => simp
      | true => simp [firstCall_congr hbb, hfirst, hl]
  | none =>
    rw [hfirst, bind_none] at hfind
    rw [ssdHash, hfind] at hcall
    obtain ⟨deTab', hfresh, heq⟩ := map_eq_some_iff.1 hcall
    obtain ⟨rfl, rfl⟩ := Prod.mk.inj heq
    refine ⟨⟨fun bb => ?_, fun bb e he => ?_⟩, Or.inr ⟨fun e he => (some_ne_none e he.symm).elim, hfresh⟩⟩
    · rw [firstCall_append, shFind_shAdd, hinv.find_eq bb]
      cases hbb : bboxEquals bb c.box with
      | false => simp
      | true => simp [firstCall_congr hbb, hfirst, hfresh]
    · rw [firstCall_append] at he
      cases hbb : bboxEquals bb c.box with
      | false => exact hinv.returned bb e (by simpa [hbb] using he)
      | true =>
        rw [firstCall_congr hbb, hfirst, hbb] at he
        simp only [none_or, if_true, some.injEq] at he
        exact ⟨_, he ▸ hfresh⟩

/-! ## Transparency -/

/-- Every result is the set of entries that the call selects without the cache. -/
def Transparent (P : Platform) (spaces : ι → Sspace) (calls : List (HashCall ι))
    (results : List (List (EntryPtr ι))) : Prop :=
  List.Forall₂ (fun c deTab => ∃ l, freshCall P spaces c = some l ∧ ∀ p, p ∈ deTab ↔ p ∈ l)
    calls results

/-- At every call, the first earlier call with an equal box was made on the same space, or selected no
entry. -/
def FirstUseSound (P : Platform) (spaces : ι → Sspace) :
    List (HashCall ι) → List (HashCall ι) → Prop
  | _, [] => True
  | past, c :: calls =>
    (∀ d, firstCall past c.box = some d → d.space = c.space ∨ freshCall P spaces d = some []) ∧
      FirstUseSound P spaces (past ++ [c]) calls

theorem space_of_mem_freshCall {l : List (EntryPtr ι)} (h : freshCall P spaces c = some l) {p : EntryPtr ι}
    (hp : p ∈ l) : p.1 = c.space := by
  obtain ⟨l', -, rfl⟩ := map_eq_some_iff.1 h
  obtain ⟨k, -, rfl⟩ := List.mem_map.1 hp
  rfl

/-- The induction is on the remaining calls, with the invariant of the cache for the past ones. -/
theorem transparent_iff_from : ∀ (calls : List (HashCall ι)) (past : List (HashCall ι))
    (cache : List (SfcHashCache ι)) (results : List (List (EntryPtr ι))),
    CacheInv P spaces past cache → runCalls P spaces cache calls = some results →
    (Transparent P spaces calls results ↔ FirstUseSound P spaces past calls) := by
  intro calls
  induction calls with
  | nil =>
    intro past cache results _ hrun
    rw [runCalls, some.injEq] at hrun
    subst hrun
    exact ⟨fun _ => trivial, fun _ => List.Forall₂.nil⟩
  | cons c calls ih =>
    intro past cache results hinv hrun
    rw [runCalls] at hrun
    cases hcall : ssdHash P spaces cache c with
    | none =>
      rw [hcall] at hrun
      cases hrun
    | some st =>
      obtain ⟨deTab, cache'⟩ := st
      rw [hcall] at hrun
      obtain ⟨rest, hrest, rfl⟩ := map_eq_some_iff.1 hrun
      obtain ⟨hinv', hcase⟩ := cacheInv_step hinv hcall
      have hih := ih (past ++ [c]) cache' rest hinv' hrest
      have hhead : (∃ l, freshCall P spaces c = some l ∧ ∀ p, p ∈ deTab ↔ p ∈ l) ↔
          ∀ d, firstCall past c.box = some d →
            d.space = c.space ∨ freshCall P spaces d = some [] := by
        rcases hcase with ⟨d, p, ps, hfirst, hfresh, rfl⟩ | ⟨hempty, hfresh⟩
        · constructor
          · -- The first cached pointer belongs to the space of the first call.
            rintro ⟨l, hl, hmem⟩ d' hd'
            rw [hfirst, some.injEq] at hd'
            subst hd'
            left
            rw [← space_of_mem_freshCall hfresh mem_cons_self]
            exact space_of_mem_freshCall hl ((hmem p).1 mem_cons_self)
          · intro hsound
            rcases hsound d hfirst with hs | hnil
            · have heq : freshCall P spaces d = freshCall P spaces c :=
                freshCall_congr hs (bboxEquals_of_firstCall hfirst)
              exact ⟨p :: ps, by rw [← heq]; exact hfresh, fun _ => Iff.rfl⟩
            · rw [hfresh] at hnil
              cases hnil
        · exact ⟨fun _ d hd => Or.inr (hempty d hd), fun _ => ⟨deTab, hfresh, fun _ => Iff.rfl⟩⟩
      rw [Transparent, forall₂_cons, FirstUseSound, hhead]
      exact and_congr_right fun _ => hih

/-- In every run of calls on any family of spaces, the cache is invisible if and only if the first use
of each box is sound. -/
theorem cache_transparent_iff (P : Platform) (spaces : ι → Sspace) (calls : List (HashCall ι))
    (results : List (List (EntryPtr ι))) (hrun : runCalls P spaces [] calls = some results) :
    Transparent P spaces calls results ↔ FirstUseSound P spaces [] calls :=
  transparent_iff_from calls [] [] results cacheInv_nil hrun

/-! ## Two spaces -/

/-- A process with two spaces over two entries: a line of four cells and a line of eight cells. -/
def twoSpaces (large : Bool) : Sspace :=
  let cells := if large then 8 else 4
  (ssdAllocV2 referencePlatform ⟨1, fun _ => 0, fun _ => cells - 1⟩ 2 1).toOption.getD
    ⟨0, 0, ⟨0, fun _ => 0, fun _ => 0⟩, [], 0, .v2⟩

/-- The cells `2` and `3`. -/
def pairBox : Bbox := ⟨1, fun _ => 2, fun _ => 3⟩

theorem twoSpaces_allocated (large : Bool) :
    ssdAllocV2 referencePlatform ⟨1, fun _ => 0, fun _ => (if large then 8 else 4) - 1⟩ 2 1 =
      .ok (twoSpaces large) := by
  have hwf : (⟨1, fun _ => 0, fun _ => (if large then 8 else 4) - 1⟩ : Bbox).Wf := fun _ _ => Nat.zero_le _
  obtain ⟨ss, hok, -⟩ := ssdAllocV2_spec (P := referencePlatform) (Nat.one_pos) hwf
    (fun i _ => by cases large <;> simp) (Nat.succ_pos 1) (by omega : 2 < 2 ^ 31) 1
  rw [twoSpaces, hok]
  rfl

/-- Two calls on one space. -/
theorem cache_transparent_iff_one_space :
    runCalls referencePlatform twoSpaces [] [⟨false, pairBox⟩, ⟨false, pairBox⟩] =
        some [[(false, 1)], [(false, 1)]] ∧
      (Transparent referencePlatform twoSpaces [⟨false, pairBox⟩, ⟨false, pairBox⟩]
        [[(false, 1)], [(false, 1)]] ↔
      FirstUseSound referencePlatform twoSpaces [] [⟨false, pairBox⟩, ⟨false, pairBox⟩]) :=
  ⟨by decide, cache_transparent_iff referencePlatform twoSpaces _ _ (by decide)⟩

/-- The same box hashed on the small and then on the large space: the second call returns an entry of
the small space, where without the cache it would return the first entry of the large one. -/
theorem cache_not_transparent_two_spaces : (∀ large : Bool, ssdAllocV2 referencePlatform
      ⟨1, fun _ => 0, fun _ => (if large then 8 else 4) - 1⟩ 2 1 = .ok (twoSpaces large)) ∧
    runCalls referencePlatform twoSpaces [] [⟨false, pairBox⟩, ⟨true, pairBox⟩] =
      some [[(false, 1)], [(false, 1)]] ∧
    freshCall referencePlatform twoSpaces ⟨true, pairBox⟩ = some [(true, 0)] ∧
    ¬ Transparent referencePlatform twoSpaces [⟨false, pairBox⟩, ⟨true, pairBox⟩]
      [[(false, 1)], [(false, 1)]] := by
  have hfresh : freshCall referencePlatform twoSpaces ⟨true, pairBox⟩ = some [(true, 0)] := by decide
  refine ⟨twoSpaces_allocated, by decide, hfresh, fun htrans => ?_⟩
  rw [Transparent, forall₂_cons, forall₂_cons] at htrans
  obtain ⟨-, ⟨l, hl, hmem⟩, -⟩ := htrans
  rw [hfresh, some.injEq] at hl
  have hbad := (hmem (false, 1)).1 mem_cons_self
  rw [← hl] at hbad
  exact absurd hbad (by decide)

end DataSpaces.Space
