import Shorthand.Log
import Std.Data.HashMap

/-!
# Output pools

A pool is a block of bytes in which every output of a dictionary can be found. Outputs are placed by
decreasing length, so that one that is part of a longer one takes no bytes of its own.
-/

namespace Shorthand

/-- Bytes, and where in them the outputs stand. -/
structure Pool where
  data : Array UInt8 := #[]
  /-- The offset of each output placed. -/
  offsets : Std.HashMap String Nat := ∅
  /-- The number of bytes of the longest output placed. -/
  maxLength : Nat := 0

/-- Why outputs have no pool. -/
inductive PoolError where
  -- More bytes than offsets can reach.
  | overflow (size : Nat)
  -- An output has a character that is not a single byte.
  | nonAscii (output : String)
deriving DecidableEq, Repr

namespace Pool

/-- The largest number of bytes. -/
def maxSize : Nat := 65535

/-- Whether every character of a text is ASCII. -/
def isAscii (text : String) : Bool :=
  text.toList.all fun c => c.toNat < 128

/-- The bytes of an ASCII text. -/
def bytes (text : String) : List UInt8 :=
  text.toList.map Char.toUInt8

/-- Whether `block` stands in `data` at `offset`. -/
def occursAt (data : Array UInt8) : (block : List UInt8) → (offset : Nat) → Bool
  | [], _ => true
  | b :: block, offset =>
    if h : offset < data.size then data[offset] == b && occursAt data block (offset + 1)
    else false

/-- The first offset, from `offset` on, at which `block` stands in `data`. -/
def findFrom? (data : Array UInt8) (block : List UInt8) (offset : Nat) : Option Nat :=
  if occursAt data block offset then some offset
  else if offset < data.size then findFrom? data block (offset + 1)
  else none
termination_by data.size - offset

/-- The order in which outputs are placed: longer ones first, and equally long ones by their
characters. -/
def comesFirst (s t : String) : Bool :=
  t.utf8ByteSize < s.utf8ByteSize || (t.utf8ByteSize == s.utf8ByteSize && s ≤ t)

/-- The different outputs in the order in which they are placed. -/
def placementOrder (outputs : List String) : List String :=
  (outputs.mergeSort comesFirst).eraseReps

/-- Places an output. -/
def place (pool : Pool) (output : String) : LoggedExcept PoolError Pool := do
  unless isAscii output do throw (.nonAscii output)
  let maxLength := max pool.maxLength output.utf8ByteSize
  match findFrom? pool.data (bytes output) 0 with
  | some offset =>
    LoggedExcept.report (.outputFound output offset)
    return { pool with offsets := pool.offsets.insert output offset, maxLength }
  | none =>
    let offset := pool.data.size
    LoggedExcept.report (.outputAdded output offset)
    let data := pool.data ++ bytes output
    if maxSize < data.size then throw (.overflow data.size)
    return { data, offsets := pool.offsets.insert output offset, maxLength }

/-- The pool of some outputs. -/
def ofOutputs (outputs : List String) : LoggedExcept PoolError Pool :=
  (placementOrder outputs).foldlM place {}

/-- The offset at which an output stands, if it was placed. -/
def offset? (pool : Pool) (output : String) : Option Nat :=
  pool.offsets[output]?

end Pool

/-- The text of a pool error. -/
def PoolError.message : PoolError → String
  | .overflow size =>
    s!"completion pool grew to {size} bytes which exceeds the 16-bit limit, " ++
      "try reducing the dictionary"
  | .nonAscii output => s!"completion {Text.quote output} contains non-ASCII characters"

end Shorthand
