import Mathlib.Data.List.Basic
import Mathlib.Tactic

/-!
# Texts with separated fields

`joinFields` writes every field with the separator in front of it. If no field has the separator, the
fields can be read from the end of a text, whatever stands before them: `append_joinFields_inj` compares
two such texts. The shorter list of fields is the end of the longer one, and the rest of the longer one is
part of what stands before.

Numbers are written in decimal (`natDigits`, `intDigits`). `interleave` lists two functions in turn.
-/

namespace DataSpaces.Lib

open List Function

section

variable {α : Type*} {sep : α} {x y f g : List α} {fs gs : List (List α)}

/-- Each field with the separator in front of it. -/
def joinFields (sep : α) (fields : List (List α)) : List α := fields.flatMap fun f => sep :: f

@[simp] theorem joinFields_nil : joinFields sep [] = [] := rfl

@[simp] theorem joinFields_cons : joinFields sep (f :: fs) = sep :: f ++ joinFields sep fs := rfl

theorem joinFields_append : joinFields sep (fs ++ gs) = joinFields sep fs ++ joinFields sep gs :=
  flatMap_append

/-- A field takes at least two characters. -/
theorem two_mul_length_le_joinFields (h : ∀ f ∈ fs, f ≠ []) : 2 * fs.length ≤ (joinFields sep fs).length := by
  induction fs with
  | nil => exact le_rfl
  | cons f fs ih =>
    have hf := length_pos_of_ne_nil (h f mem_cons_self)
    have hrest := ih fun g hg => h g (mem_cons_of_mem _ hg)
    rw [joinFields_cons, length_append, length_cons, length_cons]
    omega

/-- The last field starts after the last separator. -/
theorem append_sep_inj (hf : sep ∉ f) (hg : sep ∉ g) (h : x ++ sep :: f = y ++ sep :: g) : x = y ∧ f = g := by
  induction x generalizing y with
  | nil =>
    cases y with
    | nil => exact ⟨rfl, (cons.inj h).2⟩
    | cons b y =>
      refine absurd ?_ hf
      rw [(cons.inj h).2]
      exact mem_append_right _ mem_cons_self
  | cons a x ih =>
    cases y with
    | nil =>
      refine absurd ?_ hg
      rw [← (cons.inj h).2]
      exact mem_append_right _ mem_cons_self
    | cons b y =>
      obtain ⟨rfl, hrest⟩ := cons.inj h
      obtain ⟨rfl, heq⟩ := ih hrest
      exact ⟨rfl, heq⟩

/-- Two texts that end in the same number of fields. -/
theorem append_joinFields_inj_of_length (hfs : ∀ f ∈ fs, sep ∉ f) (hgs : ∀ g ∈ gs, sep ∉ g)
    (hlen : fs.length = gs.length) (h : x ++ joinFields sep fs = y ++ joinFields sep gs) :
    x = y ∧ fs = gs := by
  -- The induction is over the fields from the end, which is where they can be read.
  induction fs using reverseRecOn generalizing gs with
  | nil =>
    obtain rfl := length_eq_zero_iff.1 hlen.symm
    exact ⟨append_cancel_right h, rfl⟩
  | append_singleton fs f ih =>
    rcases eq_nil_or_concat' gs with rfl | ⟨gs, g, rfl⟩
    · simp at hlen
    · have hlast : ∀ z, joinFields sep [z] = sep :: z := fun z => append_nil _
      rw [joinFields_append, joinFields_append, hlast, hlast, ← append_assoc, ← append_assoc] at h
      obtain ⟨hrest, rfl⟩ := append_sep_inj (hfs f (by simp)) (hgs g (by simp)) h
      obtain ⟨rfl, rfl⟩ := ih (fun f hf => hfs f (mem_append_left _ hf))
        (fun g hg => hgs g (mem_append_left _ hg)) (by simpa using hlen) hrest
      exact ⟨rfl, rfl⟩

/-- Two texts that end in fields: what the second one has more of them is in front in the first one. -/
theorem append_joinFields_inj (hfs : ∀ f ∈ fs, sep ∉ f) (hgs : ∀ g ∈ gs, sep ∉ g)
    (hlen : fs.length ≤ gs.length) (h : x ++ joinFields sep fs = y ++ joinFields sep gs) :
    ∃ more, gs = more ++ fs ∧ x = y ++ joinFields sep more := by
  refine ⟨gs.take (gs.length - fs.length), ?_⟩
  have hsplit := take_append_drop (gs.length - fs.length) gs
  rw [← hsplit, joinFields_append, ← append_assoc] at h
  obtain ⟨hx, hfields⟩ := append_joinFields_inj_of_length hfs
    (fun g hg => hgs g (mem_of_mem_drop hg)) (by rw [length_drop]; omega) h
  exact ⟨hsplit.symm.trans (congrArg _ hfields.symm), hx⟩

end

/-! ## Numbers -/

def natDigits (n : Nat) : List Char := Nat.toDigits 10 n

/-- A negative number has a sign in front. -/
def intDigits : Int → List Char
  | .ofNat n => natDigits n
  | .negSucc n => '-' :: natDigits (n + 1)

theorem natDigits_ne_nil (n : Nat) : natDigits n ≠ [] := Nat.toDigits_ne_nil

theorem isDigit_of_mem_natDigits {n : Nat} {c : Char} (h : c ∈ natDigits n) : c.isDigit = true :=
  Nat.isDigit_of_mem_toDigits (by decide) (by decide) h

theorem natDigits_injective : Injective natDigits := by
  intro m n h
  have hparse := congrArg (fun ds => Nat.ofDigitChars 10 ds 0) h
  unfold natDigits at hparse
  simpa using hparse

theorem not_mem_natDigits {c : Char} (hc : c.isDigit = false) (n : Nat) : c ∉ natDigits n := by
  intro h
  rw [isDigit_of_mem_natDigits h] at hc
  cases hc

theorem intDigits_ne_nil (z : Int) : intDigits z ≠ [] := by
  cases z with
  | ofNat n => exact natDigits_ne_nil n
  | negSucc n => exact cons_ne_nil _ _

theorem not_mem_intDigits {c : Char} (hc : c.isDigit = false) (hsign : c ≠ '-') (z : Int) :
    c ∉ intDigits z := by
  cases z with
  | ofNat n => exact not_mem_natDigits hc n
  | negSucc n =>
    rw [intDigits, mem_cons]
    rintro (h | h)
    · exact hsign h
    · exact not_mem_natDigits hc _ h

theorem intDigits_injective : Injective intDigits := by
  have hsign : ∀ m n, natDigits m ≠ '-' :: natDigits n := fun m n h =>
    not_mem_natDigits (by decide) m (h ▸ mem_cons_self : '-' ∈ natDigits m)
  intro y z h
  cases y with
  | ofNat m =>
    cases z with
    | ofNat n => exact congrArg _ (natDigits_injective h)
    | negSucc n => exact absurd h (hsign m (n + 1))
  | negSucc m =>
    cases z with
    | ofNat n => exact absurd h.symm (hsign n (m + 1))
    | negSucc n =>
      have hmn := natDigits_injective (cons.inj h).2
      rw [Nat.succ.inj hmn]

/-! ## Two functions in turn -/

section

variable {α : Type*}

/-- `f 0, g 0, f 1, g 1, …`, `n` values of each. -/
def interleave (n : Nat) (f g : Nat → α) : List α := (range n).flatMap fun i => [f i, g i]

variable (n : Nat) (f g : Nat → α)

theorem interleave_succ :
    interleave (n + 1) f g = interleave n f g ++ [f n, g n] := by
  unfold interleave
  rw [range_succ, flatMap_append]
  rfl

@[simp] theorem length_interleave : (interleave n f g).length = 2 * n := by
  induction n with
  | zero => rfl
  | succ n ih =>
    rw [interleave_succ, length_append, ih]
    rfl

theorem mem_interleave {n : Nat} {f g : Nat → α} {z : α} :
    z ∈ interleave n f g ↔ ∃ i < n, z = f i ∨ z = g i := by
  unfold interleave
  simp

theorem interleave_inj {n n' : Nat} {f g f' g' : Nat → α} :
    interleave n f g = interleave n' f' g' ↔ n = n' ∧ ∀ i < n, f i = f' i ∧ g i = g' i := by
  constructor
  · intro h
    have hlen := congrArg List.length h
    rw [length_interleave, length_interleave] at hlen
    obtain rfl : n = n' := by omega
    refine ⟨rfl, ?_⟩
    clear hlen
    induction n with
    | zero => exact fun i hi => absurd hi (Nat.not_lt_zero i)
    | succ n ih =>
      rw [interleave_succ, interleave_succ] at h
      obtain ⟨hinit, hlast⟩ := append_inj h (by rw [length_interleave, length_interleave])
      intro i hi
      rcases Nat.lt_succ_iff_lt_or_eq.1 hi with hlt | rfl
      · exact ih hinit i hlt
      · simpa using hlast
  · rintro ⟨rfl, h⟩
    apply flatMap_congr
    intro i hi
    obtain ⟨hf, hg⟩ := h i (mem_range.1 hi)
    rw [hf, hg]

theorem interleave_succ_front :
    interleave (n + 1) f g = f 0 :: g 0 :: interleave n (fun i => f (i + 1)) fun i => g (i + 1) := by
  unfold interleave
  rw [range_succ_eq_map, flatMap_cons, flatMap_map]
  rfl

/-- Every list of even length is of this form. -/
theorem interleave_getD (l : List α) (n : Nat) (hlen : l.length = 2 * n) (d : α) :
    interleave n (fun i => l.getD (2 * i) d) (fun i => l.getD (2 * i + 1) d) = l := by
  induction n generalizing l with
  | zero => exact (length_eq_zero_iff.1 hlen).symm
  | succ n ih =>
    rcases l with _ | ⟨a, _ | ⟨b, l⟩⟩
    · simp at hlen
    · simp at hlen
      omega
    · have hrest : l.length = 2 * n := by
        simp only [length_cons] at hlen
        omega
      rw [interleave_succ_front]
      exact congrArg (fun rest => a :: b :: rest) (ih l hrest)

end

end DataSpaces.Lib
