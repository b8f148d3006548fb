import DataSpaces.Geometry.Cube

/-!
# The vendored Hilbert curve

`hilbert_c2i` of `sfc.h`, with the logarithmic `bitTranspose` that the header selects. `bitmask_t` is a
64-bit and `halfmask_t` a 32-bit word.

The results of the development take the curve as a parameter with the assumptions of `CubeCurve`. In one
dimension the function returns the coordinate, and the assumptions hold for every number of bits
(`cubeCurve_hilbertC2i_one`); this is the curve on which the results are instantiated.
-/

namespace DataSpaces.Geometry

open Lib

namespace Hilbert

/-- Left shift of a `bitmask_t`. -/
def shl (w k : Nat) : Nat := (w <<< k) % 2 ^ 64

/-- `ones(T, k)`. -/
def ones (k : Nat) : Nat := 2 ^ k - 1

/-- One coordinate field of one round of `bitTranspose`; the state is `inCoords`, `coords` and
`utCoords`. -/
def transposeField (inB utB shiftAmt inMask utMask inFieldStarts : Nat) (st : Nat × Nat × Nat)
    (d : Nat) : Nat × Nat × Nat :=
  let field := st.1 &&& inMask
  -- An odd field has a middle bit, which goes to its final place at once.
  if inB % 2 = 1 then
    let coords := st.2.1 ||| shl (field &&& inFieldStarts) (2 * shiftAmt + d)
    let field := field ^^^ (field &&& inFieldStarts)
    let field := (field ||| shl field shiftAmt) &&& utMask
    (st.1 >>> inB, coords, st.2.2 ||| shl field (d * utB))
  else
    let field := (field ||| shl field shiftAmt) &&& utMask
    (st.1 >>> inB, st.2.1, st.2.2 ||| shl field (d * utB))

/-- The rounds of `bitTranspose`; each halves the field width `inB`. -/
def transposeRounds (nDims : Nat) : Nat → Nat → Nat → Nat → Nat → Nat → Nat
  | 0, _, _, _, inCoords, coords => coords ||| inCoords
  | fuel + 1, inB, inFieldEnds, inMask, inCoords, coords =>
    let utB := inB / 2
    if utB = 0 then coords ||| inCoords
    else
      let shiftAmt := (nDims - 1) * utB
      let utFieldEnds := inFieldEnds ||| shl inFieldEnds (shiftAmt + utB)
      let utMask := shl utFieldEnds utB - utFieldEnds
      let inFieldStarts := shl inFieldEnds (inB - 1)
      let st := (List.range nDims).foldl
        (transposeField inB utB shiftAmt inMask utMask inFieldStarts) (inCoords, coords, 0)
      transposeRounds nDims fuel utB utFieldEnds utMask st.2.2 st.2.1

def bitTranspose (nDims nBits inCoords : Nat) : Nat :=
  transposeRounds nDims nBits nBits 1 (ones nBits) inCoords 0

/-- `adjust_rotation`. -/
def adjustRotation (nDims rotation bits : Nat) : Nat :=
  let low := bits &&& (2 ^ 32 - bits) &&& (ones nDims >>> 1)
  let rotation := rotation + computeBits low + 1
  if rotation ≥ nDims then rotation - nDims else rotation

/-- `rotateRight`. -/
def rotateRight (arg nRots nDims : Nat) : Nat :=
  (arg >>> nRots ||| shl arg (nDims - nRots)) &&& ones nDims

/-- The main loop of `hilbert_c2i`: the `b` highest digits of `coords` that are left. -/
def digits (nDims coords : Nat) : Nat → Nat → Nat → Nat → Nat
  | 0, _, _, index => index
  | b + 1, rotation, flipBit, index =>
    let bits := coords >>> (b * nDims) &&& ones nDims
    let bits := rotateRight (flipBit ^^^ bits) rotation nDims
    digits nDims coords b (adjustRotation nDims rotation bits) (1 <<< rotation)
      (shl index nDims ||| bits)

/-- The closing loop `for (d = 1; d < nDimsBits; d *= 2) index ^= index >> d`. -/
def grayDecode (nDimsBits : Nat) : Nat → Nat → Nat → Nat
  | 0, _, index => index
  | fuel + 1, d, index =>
    if d < nDimsBits then grayDecode nDimsBits fuel (d * 2) (index ^^^ (index >>> d)) else index

/-- The coordinates packed in one word, last one highest. -/
def pack {nDims : Nat} (nBits : Nat) (coord : Fin nDims → Nat) : Nat :=
  (List.finRange nDims).foldr (fun d coords => shl coords nBits ||| coord d) 0

end Hilbert

open Hilbert in
/-- `hilbert_c2i`. -/
def hilbertC2i : (nDims nBits : Nat) → (Fin nDims → Nat) → Nat
  | 0, _, _ => 0
  | 1, _, coord => coord 0
  | nDims + 2, nBits, coord =>
    let n := nDims + 2
    let coords := pack nBits coord
    let index :=
      if nBits > 1 then
        let nthbits := ones (n * nBits) / ones n
        let coords := bitTranspose n nBits coords
        let coords := coords ^^^ (coords >>> n)
        digits n coords nBits 0 0 0 ^^^ (nthbits >>> 1)
      -- One bit for each dimension is a single digit.
      else coords
    grayDecode (n * nBits) 64 1 index

/-- The platform with the vendored curve: unwritten memory is zero and `realloc` to size zero returns a
null pointer, as the GNU C library does. -/
def referencePlatform : Platform where
  hilbertC2i := hilbertC2i
  rawIntv := ⟨0, 0⟩
  rawBbox := fun _ => ⟨0, fun _ => 0, fun _ => 0⟩
  rawDim := 0
  reallocZeroNull := true

theorem isCorner_const {k : Nat} {p : Fin 1 → Nat} :
    IsCorner k p p ∧ IsCorner k p (fun i => p i + 2 ^ k - 1) :=
  ⟨fun _ => Or.inl rfl, fun _ => Or.inr rfl⟩

/-- On a line the curve is the identity, which satisfies every assumption. -/
theorem cubeCurve_hilbertC2i_one (bits : Nat) : CubeCurve 1 bits (hilbertC2i 1 bits) where
  inj := by
    intro x y _ _ hxy
    funext i
    rw [Fin.fin_one_eq_zero i]
    exact hxy
  origin := rfl
  adjacent := by
    intro x y _ _ hxy
    refine ⟨0, Or.inl hxy, fun j hj => absurd (Fin.fin_one_eq_zero j) hj⟩
  -- In one dimension the curve is the identity, and a cube is an interval.
  cube := by
    intro k p _
    have hpos := Nat.two_pow_pos k
    refine ⟨p, fun i => p i + 2 ^ k - 1, isCorner_const.1, isCorner_const.2, fun m => ?_⟩
    constructor
    · rintro ⟨x, hx, rfl⟩
      have h0 := hx 0
      simp only [hilbertC2i]
      omega
    · intro hm
      simp only [hilbertC2i] at hm
      refine ⟨fun _ => m, fun i => ?_, rfl⟩
      rw [Fin.fin_one_eq_zero i]
      show p 0 ≤ m ∧ m < p 0 + 2 ^ k
      omega

end DataSpaces.Geometry
