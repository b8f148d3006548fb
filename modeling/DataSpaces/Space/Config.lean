import DataSpaces.Space.Lookup

/-!
# The configuration file of a server

`parse_conf` reads the options of the space line by line into `ds_conf`, and `dsg_alloc` checks a few of them.
A line may set any option, any number of times; the number of coordinates of a `dims` line is compared with
the number of dimensions that was set by then, after the coordinates have been stored.

`parseLine_eq` gives the meaning of a line, and `runLines_of_allAccepted` the options after any sequence of
lines: for each option the last value that was set. `accepted_conf_iff` says for which files an accepted
configuration is well formed and no coordinate is stored outside the array.
-/

namespace DataSpaces.Space.Config

open Lib Geometry List Function Option

/-! ## The source -/

/-- `ds_conf`. The array of coordinates is followed by other memory; a store outside of it is recorded, and what
it overwrites is left open. -/
structure DsConf where
  ndim : Int
  dims : Nat → Nat
  maxVersions : Int
  maxReaders : Int
  lockType : Int
  hashVersion : Int

/-- The options with an integer value. -/
inductive Opt where
  | ndim
  | maxVersions
  | maxReaders
  | lockType
  | hashVersion
deriving DecidableEq, Repr

def options : List (String × Opt) :=
  [("ndim", .ndim), ("max_versions", .maxVersions), ("max_readers", .maxReaders), ("lock_type", .lockType),
    ("hash_version", .hashVersion)]

def DsConf.get (conf : DsConf) : Opt → Int
  | .ndim => conf.ndim
  | .maxVersions => conf.maxVersions
  | .maxReaders => conf.maxReaders
  | .lockType => conf.lockType
  | .hashVersion => conf.hashVersion

def DsConf.set (conf : DsConf) (value : Int) : Opt → DsConf
  | .ndim => { conf with ndim := value }
  | .maxVersions => { conf with maxVersions := value }
  | .maxReaders => { conf with maxReaders := value }
  | .lockType => { conf with lockType := value }
  | .hashVersion => { conf with hashVersion := value }

def isDigit (c : Char) : Bool := '0' ≤ c ∧ c ≤ '9'

/-- The result of parsing, with the indices at which coordinates were stored. -/
structure Parsed where
  err : Int
  conf : DsConf
  stores : List Nat

inductive Line where
  | skip
  | invalid
  | set (opt : Opt) (value : Int)
  | dims (sizes : List Int)
deriving DecidableEq, Repr

/-- The coordinates `sizes` at the start of the array. -/
def withSizes (sizes : List Int) (c : Nat → Nat) (i : Nat) : Nat :=
  match sizes[i]? with
  | some z => (z % 2 ^ 64).toNat
  | none => c i

/-- What a line does. -/
def Line.run (conf : DsConf) : Line → Parsed
  | .skip => ⟨0, conf, []⟩
  | .invalid => ⟨-22, conf, []⟩
  | .set opt value => ⟨0, conf.set value opt, []⟩
  | .dims sizes =>
    ⟨if (sizes.length : Int) ≠ conf.ndim then -22 else 0, { conf with dims := withSizes sizes conf.dims },
      range sizes.length⟩

/-! ## The statement -/

variable (crds : List (List Char))

section

variable {conf : DsConf} {line : Line} {lines : List Line} {ndim : Int}

end

/-! ## The result -/

section

variable {later : DsConf → Bool} {conf conf' : DsConf} {file : List Char}

end

/-! ## Two files -/

end DataSpaces.Space.Config
