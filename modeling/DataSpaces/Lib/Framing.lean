import Mathlib.Tactic

/-!
# Frames on a byte stream

A stream carries frames one after the other, and a reader only sees bytes. Here a byte is known by the frame
that it belongs to and by its place in the frame, so a block of bytes that was read can be compared with a
frame. A reader that takes as many bytes as the first frame has gets this frame (`take_streamOf_cons`); a block
that starts with bytes of another frame is none (`eq_of_take_streamOf`).
-/

namespace DataSpaces.Lib

section Framing

variable {φ : Type*} (size : φ → Nat)

/-- The bytes of a frame. -/
def bytesOf (f : φ) : List (φ × Nat) := (List.range (size f)).map fun i => (f, i)

/-- The bytes of the frames that were written one after the other. -/
def streamOf (fs : List φ) : List (φ × Nat) := fs.flatMap (bytesOf size)

@[simp] theorem length_bytesOf (f : φ) : (bytesOf size f).length = size f := by simp [bytesOf]

@[simp] theorem streamOf_nil : streamOf size ([] : List φ) = [] := rfl

@[simp] theorem streamOf_cons (f : φ) (fs : List φ) :
    streamOf size (f :: fs) = bytesOf size f ++ streamOf size fs := rfl

@[simp] theorem streamOf_append (fs gs : List φ) :
    streamOf size (fs ++ gs) = streamOf size fs ++ streamOf size gs :=
  List.flatMap_append

theorem take_streamOf_cons (f : φ) (fs : List φ) :
    (streamOf size (f :: fs)).take (size f) = bytesOf size f := by
  rw [streamOf_cons, List.take_left' (length_bytesOf size f)]

theorem drop_streamOf_cons (f : φ) (fs : List φ) :
    (streamOf size (f :: fs)).drop (size f) = streamOf size fs := by
  rw [streamOf_cons, List.drop_left' (length_bytesOf size f)]

variable {size} {f g : φ} {n : Nat}

theorem bytesOf_eq_nil (h : size f = 0) : bytesOf size f = [] := by simp [bytesOf, h]

theorem exists_bytesOf_eq_cons (h : 0 < size f) : ∃ bs, bytesOf size f = (f, 0) :: bs := by
  obtain ⟨n, hn⟩ := Nat.exists_eq_add_of_lt h
  rw [bytesOf, hn, Nat.zero_add, List.range_succ_eq_map]
  exact ⟨_, rfl⟩

/-- A block starts with the first byte of the first frame. -/
theorem exists_take_streamOf_eq_cons (fs : List φ) (hn : 0 < n) (hf : 0 < size f) :
    ∃ bs, (streamOf size (f :: fs)).take n = (f, 0) :: bs := by
  obtain ⟨bs, hbs⟩ := exists_bytesOf_eq_cons hf
  obtain ⟨m, rfl⟩ := Nat.exists_eq_succ_of_ne_zero hn.ne'
  rw [streamOf_cons, hbs]
  exact ⟨_, rfl⟩

/-- The bytes of a frame start with a byte of this frame. -/
theorem eq_of_bytesOf_eq_cons {i : Nat} {bs : List (φ × Nat)}
    (h : bytesOf size g = (f, i) :: bs) : g = f := by
  have hmem : (f, i) ∈ bytesOf size g := by
    rw [h]
    exact List.mem_cons_self
  obtain ⟨j, -, hj⟩ := List.mem_map.1 hmem
  exact congrArg Prod.fst hj

/-- A block that is a frame is the first frame. -/
theorem eq_of_take_streamOf {fs : List φ} (hn : 0 < n) (hf : 0 < size f)
    (h : (streamOf size (f :: fs)).take n = bytesOf size g) : g = f := by
  obtain ⟨bs, hbs⟩ := exists_take_streamOf_eq_cons fs hn hf
  exact eq_of_bytesOf_eq_cons (h.symm.trans hbs)

end Framing

end DataSpaces.Lib
