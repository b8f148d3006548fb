import DataSpaces.Space.Hash

/-!
# Looking up shared spaces

An object may have global dimensions of its own. The servers and the DIMES clients keep one shared space
for each: the default space of the configuration, and a list of spaces that are allocated when their
dimensions are first asked for (`lookup_sspace` and `lookup_sspace_dimes`).

`global_dimension_equal` compares the sizes of as many dimensions as its first argument has. The search of
the list compares the numbers of dimensions before it, the test for the default space does not, so a
request that agrees with the default on a prefix is given the default space. These are the only wrong
answers: along every sequence of lookups, on both sides, the spaces are the right ones exactly when no
request is taken for the default one (`lookups_right_iff`).
-/

namespace DataSpaces.Space

open Lib Geometry List

/-! ## The source -/

/-- `struct global_dimension`; the array of sizes goes on after the first `ndim`. -/
structure GlobalDimension where
  ndim : Nat
  sizes : Coord

def globalDimensionEqual (gdim1 gdim2 : GlobalDimension) : Bool :=
  (range gdim1.ndim).all fun i => decide (gdim1.sizes i = gdim2.sizes i)

/-- The domain box that is filled in for global dimensions. -/
def gdimDomain (gdim : GlobalDimension) : Bbox where
  numDims := gdim.ndim
  lb := fun _ => 0
  ub := fun i => if i < gdim.ndim then (gdim.sizes i + 2 ^ 64 - 1) % 2 ^ 64 else 0

/-- `struct sspace_list_entry`; `ssd` is a position in the table of allocated spaces. -/
structure SspaceListEntry where
  gdim : GlobalDimension
  ssd : Nat

/-- What a server and a DIMES client keep of shared spaces. The spaces are listed in the order of their
allocation, so a pointer to a space is its position. -/
structure SpaceTable where
  defaultGdim : GlobalDimension
  ssd : Nat
  sspaceList : List SspaceListEntry
  spaces : List Sspace

/-- The default space is allocated and the list is empty. -/
def initSspaceWith (alloc : Bbox → Except Fault Sspace) (defaultGdim : GlobalDimension) :
    Except Fault SpaceTable :=
  match alloc (gdimDomain defaultGdim) with
  | .error e => .error e
  | .ok ss => .ok { defaultGdim := defaultGdim, ssd := 0, sspaceList := [], spaces := [ss] }

/-- Find the space for global dimensions, or allocate it. -/
def lookupSspaceWith (alloc : Bbox → Except Fault Sspace) (t : SpaceTable) (gd : GlobalDimension) :
    Nat × SpaceTable :=
  if globalDimensionEqual gd t.defaultGdim then (t.ssd, t)
  else
    match t.sspaceList.find? fun e => gd.ndim == e.gdim.ndim && globalDimensionEqual gd e.gdim with
    | some e => (e.ssd, t)
    | none =>
      match alloc (gdimDomain gd) with
      -- When the allocation fails, the default space stands in.
      | .error _ => (t.ssd, t)
      | .ok ss =>
        (t.spaces.length,
          { t with
            sspaceList := ⟨gd, t.spaces.length⟩ :: t.sspaceList
            spaces := t.spaces ++ [ss] })

section Sides

variable (P : Platform) (sizeSp maxVersions : Nat) (hashVersion : HashVersion)

/-- `init_sspace` of a server. -/
def initSspace : GlobalDimension → Except Fault SpaceTable :=
  initSspaceWith fun domain => ssdAlloc P domain sizeSp maxVersions hashVersion

def lookupSspace : SpaceTable → GlobalDimension → Nat × SpaceTable :=
  lookupSspaceWith fun domain => ssdAlloc P domain sizeSp maxVersions hashVersion

/-- `init_sspace_dimes` of a client, which keeps one version. -/
def initSspaceDimes : GlobalDimension → Except Fault SpaceTable :=
  initSspaceWith fun domain => ssdAlloc P domain sizeSp 1 hashVersion

def lookupSspaceDimes : SpaceTable → GlobalDimension → Nat × SpaceTable :=
  lookupSspaceWith fun domain => ssdAlloc P domain sizeSp 1 hashVersion

end Sides

/-- A sequence of lookups: every request with the space that it was given, and the table after them. -/
def lookups (lookup : SpaceTable → GlobalDimension → Nat × SpaceTable) (t : SpaceTable) :
    List GlobalDimension → List (GlobalDimension × Nat) × SpaceTable :=
  List.foldl (fun s gd => (s.1 ++ [(gd, (lookup s.2 gd).1)], (lookup s.2 gd).2)) ([], t)

/-! ## What is asked of it -/

/-- Equal requests. -/
def SameGdim (g h : GlobalDimension) : Prop := g.ndim = h.ndim ∧ ∀ i < g.ndim, g.sizes i = h.sizes i

/-- Every request was given a space with its dimensions, and two requests one space exactly when they are
equal. -/
structure RightSpaces (calls : List (GlobalDimension × Nat)) (t : SpaceTable) : Prop where
  domain : ∀ c ∈ calls, ∃ ss, t.spaces[c.2]? = some ss ∧ ss.bbGlbDomain.numDims = c.1.ndim ∧
    ∀ i < c.1.ndim, ss.bbGlbDomain.lb i = 0 ∧ ss.bbGlbDomain.ub i = (c.1.sizes i + 2 ^ 64 - 1) % 2 ^ 64
  same_iff : ∀ c ∈ calls, ∀ c' ∈ calls, c.2 = c'.2 ↔ SameGdim c.1 c'.1

/-- Two spaces divide their domain among the servers in the same way. -/
structure SamePartition (P : Platform) (ss ss' : Sspace) : Prop where
  domain_eq : ss.bbGlbDomain = ss'.bbGlbDomain
  owns_iff : ∀ k x, ss.OwnsCell P k x ↔ ss'.OwnsCell P k x
  hash_eq : ∀ bb, ssdHashFresh P ss bb = ssdHashFresh P ss' bb

/-- Two sides that were given equal requests use spaces with the same partition for them. -/
def Agree (P : Platform) (s s' : List (GlobalDimension × Nat) × SpaceTable) : Prop :=
  ∀ c ∈ s.1, ∀ c' ∈ s'.1, SameGdim c.1 c'.1 →
    ∃ ss ss', s.2.spaces[c.2]? = some ss ∧ s'.2.spaces[c'.2]? = some ss' ∧ SamePartition P ss ss'

/-- The request agrees with the default on as many dimensions as it has, but it has another number of
them. -/
def TakenForDefault (defaultGdim g : GlobalDimension) : Prop :=
  globalDimensionEqual g defaultGdim = true ∧ g.ndim ≠ defaultGdim.ndim

/-! ## Equal requests -/

variable {g h : GlobalDimension}

theorem globalDimensionEqual_iff : globalDimensionEqual g h = true ↔ ∀ i < g.ndim, g.sizes i = h.sizes i := by
  simp [globalDimensionEqual]

theorem SameGdim.refl (g : GlobalDimension) : SameGdim g g := ⟨rfl, fun _ _ => rfl⟩

theorem SameGdim.symm (hs : SameGdim g h) : SameGdim h g :=
  ⟨hs.1.symm, fun i hi => (hs.2 i (by rw [hs.1]; exact hi)).symm⟩

theorem SameGdim.trans {k : GlobalDimension} (h1 : SameGdim g h) (h2 : SameGdim h k) : SameGdim g k :=
  ⟨h1.1.trans h2.1, fun i hi => (h1.2 i hi).trans (h2.2 i (by rw [← h1.1]; exact hi))⟩

theorem SameGdim.domain_eq (hs : SameGdim g h) : gdimDomain g = gdimDomain h := by
  have hub : (gdimDomain g).ub = (gdimDomain h).ub := by
    funext i
    by_cases hi : i < g.ndim
    · simp only [gdimDomain, ← hs.1, if_pos hi, hs.2 i hi]
    · simp only [gdimDomain, ← hs.1, if_neg hi]
  exact Bbox.mk.injEq .. ▸ ⟨hs.1, rfl, hub⟩

theorem SameGdim.globalDimensionEqual {d : GlobalDimension} (hs : SameGdim g h)
    (heq : globalDimensionEqual h d = true) : globalDimensionEqual g d = true := by
  rw [globalDimensionEqual_iff] at heq ⊢
  intro i hi
  rw [hs.2 i hi]
  exact heq i (by rw [← hs.1]; exact hi)

/-- The test of the search in the list. -/
theorem matches_iff : (g.ndim == h.ndim && globalDimensionEqual g h) = true ↔ SameGdim g h := by
  rw [Bool.and_eq_true, beq_iff_eq, globalDimensionEqual_iff]
  rfl

/-! ## The table along a sequence of lookups -/

section

variable {alloc : Bbox → Except Fault Sspace} {g0 : GlobalDimension}

/-- The space that an allocation for the dimensions would give is at a position of the table. -/
def Holds (alloc : Bbox → Except Fault Sspace) (t : SpaceTable) (g : GlobalDimension) (ptr : Nat) : Prop :=
  ∃ ss, t.spaces[ptr]? = some ss ∧ alloc (gdimDomain g) = .ok ss

/-- The table after the lookups `calls`. -/
structure TableInv (alloc : Bbox → Except Fault Sspace) (g0 : GlobalDimension)
    (calls : List (GlobalDimension × Nat)) (t : SpaceTable) : Prop where
  default_eq : t.defaultGdim = g0
  ssd_eq : t.ssd = 0
  holds_default : Holds alloc t g0 0
  holds_entry : ∀ e ∈ t.sspaceList, Holds alloc t e.gdim e.ssd
  entry_ne : ∀ e ∈ t.sspaceList, e.ssd ≠ 0
  entry_iff : ∀ e ∈ t.sspaceList, ∀ e' ∈ t.sspaceList, e.ssd = e'.ssd ↔ SameGdim e.gdim e'.gdim
  call : ∀ c ∈ calls, (globalDimensionEqual c.1 g0 = true ∧ c.2 = 0) ∨
    (globalDimensionEqual c.1 g0 = false ∧ ∃ e ∈ t.sspaceList, SameGdim c.1 e.gdim ∧ c.2 = e.ssd)

variable {t : SpaceTable} {calls : List (GlobalDimension × Nat)}

theorem tableInv_init (h : initSspaceWith alloc g0 = .ok t) : TableInv alloc g0 [] t := by
  unfold initSspaceWith at h
  split at h
  · cases h
  · next ss hss =>
    obtain rfl := Except.ok.inj h
    refine ⟨rfl, rfl, ⟨ss, rfl, hss⟩, ?_, ?_, ?_, ?_⟩
    all_goals intro e he; cases he

variable {ss : Sspace} {ptr : Nat}

/-- A lookup answers with the default space, with an entry of the list, or with a new entry. -/
theorem lookupSspaceWith_cases (t : SpaceTable) {gd : GlobalDimension}
    (halloc : alloc (gdimDomain gd) = .ok ss) :
    (globalDimensionEqual gd t.defaultGdim = true ∧ lookupSspaceWith alloc t gd = (t.ssd, t)) ∨
    (globalDimensionEqual gd t.defaultGdim = false ∧ ∃ e ∈ t.sspaceList, SameGdim gd e.gdim ∧
      lookupSspaceWith alloc t gd = (e.ssd, t)) ∨
    (globalDimensionEqual gd t.defaultGdim = false ∧ (∀ e ∈ t.sspaceList, ¬ SameGdim gd e.gdim) ∧
      lookupSspaceWith alloc t gd = (t.spaces.length,
        { t with
          sspaceList := ⟨gd, t.spaces.length⟩ :: t.sspaceList
          spaces := t.spaces ++ [ss] })) := by
  unfold lookupSspaceWith
  cases hdef : globalDimensionEqual gd t.defaultGdim with
  | true => exact Or.inl ⟨rfl, rfl⟩
  | false =>
    right
    simp only [Bool.false_eq_true, if_false, halloc]
    split
    · next e he =>
      left
      have hmatch := find?_some he
      exact ⟨trivial, e, mem_of_find?_eq_some he, matches_iff.1 hmatch, rfl⟩
    · next hnone =>
      right
      refine ⟨trivial, fun e he hsame => ?_, rfl⟩
      exact find?_eq_none.1 hnone e he (matches_iff.2 hsame)

/-- A position that is in use stays so when a space is added. -/
theorem Holds.append {g : GlobalDimension} (h : Holds alloc t g ptr) (l : List SspaceListEntry)
    (ss : Sspace) : Holds alloc { t with sspaceList := l, spaces := t.spaces ++ [ss] } g ptr := by
  obtain ⟨ss', hget, hss'⟩ := h
  refine ⟨ss', ?_, hss'⟩
  show (t.spaces ++ [ss])[ptr]? = some ss'
  rw [getElem?_append_left (List.getElem?_eq_some_iff.1 hget).1, hget]

theorem Holds.lt {g : GlobalDimension} (h : Holds alloc t g ptr) : ptr < t.spaces.length := by
  obtain ⟨ss, hget, -⟩ := h
  exact (List.getElem?_eq_some_iff.1 hget).1

/-- One lookup keeps the table in order. -/
theorem TableInv.step (h : TableInv alloc g0 calls t) (gd : GlobalDimension)
    (halloc : alloc (gdimDomain gd) = .ok ss) :
    TableInv alloc g0 (calls ++ [(gd, (lookupSspaceWith alloc t gd).1)]) (lookupSspaceWith alloc t gd).2 := by
  have hcalls : ∀ {l : List SspaceListEntry} {ptr : Nat}, t.sspaceList ⊆ l →
      ((globalDimensionEqual gd g0 = true ∧ ptr = 0) ∨
        (globalDimensionEqual gd g0 = false ∧ ∃ e ∈ l, SameGdim gd e.gdim ∧ ptr = e.ssd)) →
      ∀ c ∈ calls ++ [(gd, ptr)], (globalDimensionEqual c.1 g0 = true ∧ c.2 = 0) ∨
        (globalDimensionEqual c.1 g0 = false ∧ ∃ e ∈ l, SameGdim c.1 e.gdim ∧ c.2 = e.ssd) := by
    intro l ptr hsub hnew c hc
    rcases mem_append.1 hc with hc | hc
    · rcases h.call c hc with hdef | ⟨hne, e, he, hsame, heq⟩
      · exact Or.inl hdef
      · exact Or.inr ⟨hne, e, hsub he, hsame, heq⟩
    · rw [mem_singleton.1 hc]
      exact hnew
  obtain ⟨hdef, hres⟩ | ⟨hdef, e, he, hsame, hres⟩ | ⟨hdef, hnew, hres⟩ := lookupSspaceWith_cases t halloc
  · rw [h.default_eq] at hdef
    rw [hres]
    exact ⟨h.default_eq, h.ssd_eq, h.holds_default, h.holds_entry, h.entry_ne, h.entry_iff,
      hcalls (Subset.refl _) (Or.inl ⟨hdef, h.ssd_eq⟩)⟩
  · rw [h.default_eq] at hdef
    rw [hres]
    exact ⟨h.default_eq, h.ssd_eq, h.holds_default, h.holds_entry, h.entry_ne, h.entry_iff,
      hcalls (Subset.refl _) (Or.inr ⟨hdef, e, he, hsame, rfl⟩)⟩
  · rw [h.default_eq] at hdef
    rw [hres]
    have hpos : t.spaces.length ≠ 0 := by
      have := h.holds_default.lt
      omega
    have hfresh : ∀ e ∈ t.sspaceList, e.ssd ≠ t.spaces.length := fun e he => (h.holds_entry e he).lt.ne
    refine ⟨h.default_eq, h.ssd_eq, h.holds_default.append _ ss, ?_, ?_, ?_,
      hcalls (subset_cons_self _ _) (Or.inr ⟨hdef, _, mem_cons_self, SameGdim.refl gd, rfl⟩)⟩
    · intro e he
      rcases mem_cons.1 he with rfl | he
      · refine ⟨ss, ?_, halloc⟩
        show (t.spaces ++ [ss])[t.spaces.length]? = some ss
        simp
      · exact (h.holds_entry e he).append _ ss
    · intro e he
      rcases mem_cons.1 he with rfl | he
      · exact hpos
      · exact h.entry_ne e he
    -- The new entry has a position of its own, and no older entry has its dimensions.
    · intro e he e' he'
      rcases mem_cons.1 he with rfl | he <;> rcases mem_cons.1 he' with rfl | he'
      · exact ⟨fun _ => SameGdim.refl gd, fun _ => rfl⟩
      · exact ⟨fun heq => absurd heq.symm (hfresh e' he'), fun hs => absurd hs (hnew e' he')⟩
      · exact ⟨fun heq => absurd heq (hfresh e he), fun hs => absurd hs.symm (hnew e he)⟩
      · exact h.entry_iff e he e' he'

variable (lookup : SpaceTable → GlobalDimension → Nat × SpaceTable)

theorem lookups_append (t : SpaceTable)
    (gs : List GlobalDimension) (gd : GlobalDimension) : lookups lookup t (gs ++ [gd]) =
      ((lookups lookup t gs).1 ++ [(gd, (lookup (lookups lookup t gs).2 gd).1)],
        (lookup (lookups lookup t gs).2 gd).2) := by
  rw [lookups, foldl_append]
  rfl

theorem map_fst_lookups (t : SpaceTable)
    (gs : List GlobalDimension) : (lookups lookup t gs).1.map Prod.fst = gs := by
  induction gs using reverseRecOn with
  | nil => rfl
  | append_singleton gs gd ih => simp [lookups_append, ih]

/-- The table is in order after any sequence of lookups. -/
theorem tableInv_lookups (hinit : initSspaceWith alloc g0 = .ok t) (gs : List GlobalDimension)
    (halloc : ∀ g ∈ gs, ∃ ss, alloc (gdimDomain g) = .ok ss) :
    TableInv alloc g0 (lookups (lookupSspaceWith alloc) t gs).1
      (lookups (lookupSspaceWith alloc) t gs).2 := by
  induction gs using reverseRecOn with
  | nil => exact tableInv_init hinit
  | append_singleton gs gd ih =>
    obtain ⟨ss, hss⟩ := halloc gd (mem_append_right _ (mem_singleton_self gd))
    rw [lookups_append]
    exact (ih fun g hg => halloc g (mem_append_left _ hg)).step gd hss

/-- When no request was taken for the default one, every request was given a space for its own
dimensions. -/
theorem TableInv.holds_call (h : TableInv alloc g0 calls t) (hnot : ∀ c ∈ calls, ¬ TakenForDefault g0 c.1)
    {c : GlobalDimension × Nat} (hc : c ∈ calls) : Holds alloc t c.1 c.2 := by
  rcases h.call c hc with ⟨heq, hzero⟩ | ⟨-, e, he, hsame, hptr⟩
  · have hsame : SameGdim c.1 g0 := by
      refine ⟨?_, globalDimensionEqual_iff.1 heq⟩
      by_contra hne
      exact hnot c hc ⟨heq, hne⟩
    obtain ⟨ss, hget, hss⟩ := h.holds_default
    exact ⟨ss, by rw [hzero, hget], by rw [hsame.domain_eq, hss]⟩
  · obtain ⟨ss, hget, hss⟩ := h.holds_entry e he
    exact ⟨ss, by rw [hptr, hget], by rw [hsame.domain_eq, hss]⟩

theorem TableInv.right_iff (hdom : ∀ D ss, alloc D = .ok ss → ss.bbGlbDomain = D)
    (h : TableInv alloc g0 calls t) : RightSpaces calls t ↔ ∀ c ∈ calls, ¬ TakenForDefault g0 c.1 := by
  constructor
  · -- A request that is taken for the default one is given a space with other dimensions.
    rintro hright c hc ⟨heq, hne⟩
    obtain ⟨ss, hget, hdims, -⟩ := hright.domain c hc
    rcases h.call c hc with ⟨-, hzero⟩ | ⟨hfalse, -⟩
    · obtain ⟨ss0, hget0, hss0⟩ := h.holds_default
      rw [hzero, hget0, Option.some.injEq] at hget
      rw [← hget, hdom _ _ hss0] at hdims
      exact hne hdims.symm
    · rw [heq] at hfalse
      cases hfalse
  · intro hnot
    refine ⟨fun c hc => ?_, fun c hc c' hc' => ?_⟩
    · obtain ⟨ss, hget, hss⟩ := h.holds_call hnot hc
      refine ⟨ss, hget, ?_, fun i hi => ?_⟩
      · rw [hdom _ _ hss, gdimDomain]
      · rw [hdom _ _ hss]
        exact ⟨rfl, if_pos hi⟩
    · rcases h.call c hc with ⟨heq, hzero⟩ | ⟨hne, e, he, hsame, hptr⟩ <;>
        rcases h.call c' hc' with ⟨heq', hzero'⟩ | ⟨hne', e', he', hsame', hptr'⟩
      · -- Both requests have the dimensions of the default.
        rw [hzero, hzero']
        refine ⟨fun _ => ?_, fun _ => rfl⟩
        have hdim : c.1.ndim = g0.ndim := by
          by_contra hcon
          exact hnot c hc ⟨heq, hcon⟩
        have hdim' : c'.1.ndim = g0.ndim := by
          by_contra hcon
          exact hnot c' hc' ⟨heq', hcon⟩
        have hs : SameGdim c.1 g0 := ⟨hdim, globalDimensionEqual_iff.1 heq⟩
        have hs' : SameGdim c'.1 g0 := ⟨hdim', globalDimensionEqual_iff.1 heq'⟩
        exact hs.trans hs'.symm
      · rw [hzero, hptr']
        refine ⟨fun hcon => absurd hcon.symm (h.entry_ne e' he'), fun hs => ?_⟩
        rw [hs.symm.globalDimensionEqual heq] at hne'
        cases hne'
      · rw [hptr, hzero']
        refine ⟨fun hcon => absurd hcon (h.entry_ne e he), fun hs => ?_⟩
        rw [hs.globalDimensionEqual heq'] at hne
        cases hne
      · rw [hptr, hptr', h.entry_iff e he e' he']
        constructor
        · exact fun hs => (hsame.trans hs).trans hsame'.symm
        · exact fun hs => (hsame.symm.trans hs).trans hsame'

end

/-! ## The partition does not depend on the number of versions -/

section

variable {P : Platform}

/-- The entry with descriptor tables for another number of versions. -/
def DhtEntry.withOdscSize (odscSize : Nat) (e : DhtEntry) : DhtEntry := { e with odscSize := odscSize }

def Sspace.withOdscSize (odscSize : Nat) (ss : Sspace) : Sspace :=
  { ss with entTab := ss.entTab.map (DhtEntry.withOdscSize odscSize) }

theorem constructLoop_odscSize (sn odscSize odscSize' : Nat) (ranks : List Nat) (tab : List Intv) :
    constructLoop P sn odscSize' ranks tab =
      (constructLoop P sn odscSize ranks tab).map (List.map (DhtEntry.withOdscSize odscSize')) := by
  induction ranks generalizing tab with
  | nil => rfl
  | cons rank ranks ih =>
    rw [constructLoop, constructLoop]
    cases quotaLoop (tab.length + 2) sn tab [] with
    | error e => rfl
    | ok taken =>
      simp only [ih taken.2]
      split
      · rfl
      · cases constructLoop P sn odscSize ranks taken.2 <;> rfl

variable (ss : Sspace) (odscSize : Nat)

theorem dealLoop_odscSize (q : List Bbox) (i : Nat) (entTab : List DhtEntry) :
    dealLoop i q (entTab.map (DhtEntry.withOdscSize odscSize)) =
      (dealLoop i q entTab).map (List.map (DhtEntry.withOdscSize odscSize)) := by
  induction q generalizing i entTab with
  | nil => rfl
  | cons bb q ih =>
    rw [dealLoop, dealLoop, length_map, getElem?_map]
    cases entTab[i % entTab.length]? with
    | none => rfl
    | some e =>
      simp only [Option.map_some, DhtEntry.withOdscSize]
      split
      · rw [← ih, map_set]
        rfl
      · rfl

/-- With another number of versions the same space is allocated, apart from the descriptor tables. -/
theorem ssdAlloc_withOdscSize (bbDomain : Bbox) (numNodes maxVersions maxVersions' : Nat)
    (hashVersion : HashVersion) : ssdAlloc P bbDomain numNodes maxVersions' hashVersion =
      (ssdAlloc P bbDomain numNodes maxVersions hashVersion).map (Sspace.withOdscSize maxVersions') := by
  cases hashVersion with
  | v1 =>
    simp only [ssdAlloc, ssdAllocV1, dhtConstructHash]
    cases bboxToIntv P bbDomain (virtualDim bbDomain) with
    | none => rfl
    | some iTab =>
      simp only [constructLoop_odscSize _ maxVersions maxVersions']
      cases constructLoop P (bboxVolume bbDomain / numNodes) maxVersions (range numNodes) iTab <;> rfl
  | v2 =>
    simp only [ssdAlloc, ssdAllocV2]
    split
    · rfl
    · next q1 q2 _ =>
      -- The empty entries of the two runs differ in the size of their descriptor tables.
      have hempty : ∀ n, (range numNodes).map (emptyEntry n maxVersions') =
          ((range numNodes).map (emptyEntry n maxVersions)).map
            (DhtEntry.withOdscSize maxVersions') := by
        intro n
        rw [map_map]
        rfl
      rw [hempty, dealLoop_odscSize]
      cases dealLoop 0 (if q1.isEmpty = true then q2 else q1) _ <;> rfl

theorem collectEntries_withOdscSize (test : DhtEntry → Bool)
    (htest : ∀ e, test (e.withOdscSize odscSize) = test e) :
    collectEntries (ss.withOdscSize odscSize) test = collectEntries ss test := by
  simp only [collectEntries, Sspace.withOdscSize, length_map, getElem?_map]
  congr 1
  funext k
  cases ss.entTab[k]? with
  | none => rfl
  | some e => exact htest e

theorem samePartition_withOdscSize :
    SamePartition P ss (ss.withOdscSize odscSize) where
  domain_eq := rfl
  owns_iff := by
    intro k x
    simp only [Sspace.OwnsCell, Sspace.OwnsIndex, Sspace.withOdscSize, getElem?_map, Option.map_eq_some_iff]
    cases ss.hashVersion <;> simp [DhtEntry.withOdscSize]
  hash_eq := by
    intro bb
    have hmaxDim : (ss.withOdscSize odscSize).maxDim = ss.maxDim := rfl
    have hversion : (ss.withOdscSize odscSize).hashVersion = ss.hashVersion := rfl
    rw [ssdHashFresh, ssdHashFresh, hversion]
    cases ss.hashVersion with
    | v1 =>
      simp only [ssdHashV1Fresh, hmaxDim]
      congr 1
      funext iTab
      exact (collectEntries_withOdscSize ss odscSize _ fun _ => rfl).symm
    | v2 => exact congrArg some (collectEntries_withOdscSize ss odscSize _ fun _ => rfl).symm

theorem ssdAlloc_bbGlbDomain {numNodes maxVersions : Nat} {hashVersion : HashVersion} (D : Bbox)
    (ss : Sspace) (h : ssdAlloc P D numNodes maxVersions hashVersion = .ok ss) : ss.bbGlbDomain = D := by
  cases hashVersion with
  | v1 =>
    simp only [ssdAlloc, ssdAllocV1] at h
    split at h
    · cases h
    · obtain rfl := Except.ok.inj h
      rfl
  | v2 =>
    simp only [ssdAlloc, ssdAllocV2] at h
    split at h
    · cases h
    · split at h
      · cases h
      · obtain rfl := Except.ok.inj h
        rfl

end

/-! ## Both sides -/

section

variable {P : Platform} {sizeSp maxVersions : Nat} {hashVersion : HashVersion}

theorem forall_mem_lookups_iff (lookup : SpaceTable → GlobalDimension → Nat × SpaceTable) (t : SpaceTable)
    (gs : List GlobalDimension) (p : GlobalDimension → Prop) :
    (∀ c ∈ (lookups lookup t gs).1, p c.1) ↔ ∀ g ∈ gs, p g := by
  rw [← forall_mem_map (f := Prod.fst) (P := p), map_fst_lookups]

/-- Along every sequence of lookups on a server and every sequence of lookups on a client, whatever their
defaults, the spaces are right and the two sides agree exactly when no request is taken for the default
one. -/
theorem lookups_right_iff {g0 g0' : GlobalDimension} (gs hs : List GlobalDimension) {t t' : SpaceTable}
    (hinit : initSspace P sizeSp maxVersions hashVersion g0 = .ok t)
    (hinit' : initSspaceDimes P sizeSp hashVersion g0' = .ok t')
    (halloc : ∀ g ∈ gs, ∃ ss, ssdAlloc P (gdimDomain g) sizeSp maxVersions hashVersion = .ok ss)
    (halloc' : ∀ g ∈ hs, ∃ ss, ssdAlloc P (gdimDomain g) sizeSp 1 hashVersion = .ok ss) :
    let server := lookups (lookupSspace P sizeSp maxVersions hashVersion) t gs
    let client := lookups (lookupSspaceDimes P sizeSp hashVersion) t' hs
    (RightSpaces server.1 server.2 ∧ RightSpaces client.1 client.2 ∧ Agree P server client) ↔
      (∀ g ∈ gs, ¬ TakenForDefault g0 g) ∧ ∀ h ∈ hs, ¬ TakenForDefault g0' h := by
  have hserver := tableInv_lookups hinit gs halloc
  have hclient := tableInv_lookups hinit' hs halloc'
  dsimp only
  rw [← forall_mem_lookups_iff (lookupSspace P sizeSp maxVersions hashVersion) t gs,
    ← forall_mem_lookups_iff (lookupSspaceDimes P sizeSp hashVersion) t' hs]
  constructor
  · rintro ⟨hright, hright', -⟩
    exact ⟨(hserver.right_iff ssdAlloc_bbGlbDomain).1 hright,
      (hclient.right_iff ssdAlloc_bbGlbDomain).1 hright'⟩
  · rintro ⟨hnot, hnot'⟩
    refine ⟨(hserver.right_iff ssdAlloc_bbGlbDomain).2 hnot,
      (hclient.right_iff ssdAlloc_bbGlbDomain).2 hnot', ?_⟩
    -- Both sides allocate for the same domain, with different numbers of versions.
    intro c hc c' hc' hsame
    obtain ⟨ss, hget, hss⟩ := hserver.holds_call hnot hc
    obtain ⟨ss', hget', hss'⟩ := hclient.holds_call hnot' hc'
    refine ⟨ss, ss', hget, hget', ?_⟩
    beta_reduce at hss hss'
    rw [← hsame.domain_eq, ssdAlloc_withOdscSize _ _ maxVersions, hss] at hss'
    obtain rfl := Except.ok.inj hss'
    exact samePartition_withOdscSize ss 1

/-- A line of eight cells is the default, and lines of four and of eight cells are asked for. -/
theorem lookups_right_lines : ∃ t t',
    initSspace referencePlatform 2 3 .v1 ⟨1, fun _ => 8⟩ = .ok t ∧
    initSspaceDimes referencePlatform 2 .v1 ⟨1, fun _ => 8⟩ = .ok t' ∧
    let server := lookups (lookupSspace referencePlatform 2 3 .v1) t [⟨1, fun _ => 4⟩, ⟨1, fun _ => 8⟩]
    let client := lookups (lookupSspaceDimes referencePlatform 2 .v1) t' [⟨1, fun _ => 4⟩]
    RightSpaces server.1 server.2 ∧ RightSpaces client.1 client.2 ∧ Agree referencePlatform server client := by
  obtain ⟨t, ht⟩ : ∃ t, initSspace referencePlatform 2 3 .v1 ⟨1, fun _ => 8⟩ = .ok t := ⟨_, rfl⟩
  obtain ⟨t', ht'⟩ : ∃ t', initSspaceDimes referencePlatform 2 .v1 ⟨1, fun _ => 8⟩ = .ok t' := ⟨_, rfl⟩
  refine ⟨t, t', ht, ht', (lookups_right_iff _ _ ht ht' ?_ ?_).2 ⟨?_, ?_⟩⟩
  · simp only [forall_mem_cons]
    exact ⟨⟨_, rfl⟩, ⟨_, rfl⟩, by simp⟩
  · simp only [forall_mem_cons]
    exact ⟨⟨_, rfl⟩, by simp⟩
  · simp [TakenForDefault]
  · simp [TakenForDefault]

/-- With a default of `8` by `4` cells, a request for a line of `8` cells is given the default space. -/
theorem not_right_line_in_plane : ∃ t,
    initSspace referencePlatform 2 3 .v2 ⟨2, fun i => if i = 0 then 8 else 4⟩ = .ok t ∧
    ¬ RightSpaces (lookups (lookupSspace referencePlatform 2 3 .v2) t [⟨1, fun _ => 8⟩]).1
      (lookups (lookupSspace referencePlatform 2 3 .v2) t [⟨1, fun _ => 8⟩]).2 := by
  obtain ⟨t, ht⟩ : ∃ t, initSspace referencePlatform 2 3 .v2 ⟨2, fun i => if i = 0 then 8 else 4⟩ =
    .ok t := ⟨_, rfl⟩
  obtain ⟨ss, hss⟩ : ∃ ss, ssdAlloc referencePlatform (gdimDomain ⟨1, fun _ => 8⟩) 2 3 .v2 = .ok ss :=
    ⟨_, rfl⟩
  refine ⟨t, ht, fun hright => ?_⟩
  have hinv := tableInv_lookups ht [⟨1, fun _ => 8⟩] (by simpa using ⟨ss, hss⟩)
  have hnot := (hinv.right_iff ssdAlloc_bbGlbDomain).1 hright
  have htaken : TakenForDefault ⟨2, fun i => if i = 0 then 8 else 4⟩ ⟨1, fun _ => 8⟩ :=
    ⟨by decide, by decide⟩
  exact hnot (⟨1, fun _ => 8⟩, _) (mem_singleton_self _) htaken

end

end DataSpaces.Space
