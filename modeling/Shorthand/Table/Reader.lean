import Shorthand.Edit
import Shorthand.Table.Basic
import Shorthand.Text.Hex

/-!
# Reading tables

The reader walks a table as the runtime does and lists the matches stored in it. It accepts no
promise about the words: links may lead into the middle of an entry or past the end. Because a link has
to lead forwards and a run ends beyond its start, the walk comes to an end on every table.
-/

namespace Shorthand

/-- A rule as stored in a table. -/
structure StoredMatch where
  /-- The keys that fire it. -/
  context : String
  edit : Edit
deriving DecidableEq, Repr

/-- Why a table cannot be read. Offsets count the words of the table. -/
inductive ReadError where
  -- A word is needed beyond the end.
  | unexpectedEnd (offset : Nat)
  -- The way to the entry at `offset` has a code without a character.
  | unknownCode (code : Code) (offset : Nat)
  -- Nothing follows where an entry has to go on.
  | emptyEntry (offset : Nat)
  -- The link at `offset` does not lead forwards.
  | backwardLink (offset target : Nat)
  -- The output of the entry at `offset` is not within the pool.
  | outputOutOfRange (offset : Nat)
deriving DecidableEq, Repr

/-- What a table is read with. -/
structure Reader where
  alphabet : Alphabet
  table : Table
  /-- The bytes of the outputs. -/
  pool : Array UInt8

namespace Reader

/-- The characters of a path, or the first code on it that has none. -/
def context (r : Reader) (path : List Code) : Except Code (List Char) :=
  path.mapM fun code =>
    match r.alphabet.char? code with
    | some c => .ok c
    | none => .error code

/-- The match in the entry at `offset`, from its match word and the offset of its output. The path
holds the codes that lead to the entry, the latest first. -/
def storedMatch (r : Reader) (offset : Nat) (word outputOffset : UInt16) (path : List Code) :
    Except ReadError StoredMatch :=
  let fields := MatchWord.ofWord word
  let first := outputOffset.toNat
  if first + fields.length ≤ r.pool.size then
    match r.context path with
    | .error code => .error (.unknownCode code offset)
    | .ok context =>
      let output := (r.pool.extract first (first + fields.length)).toList.map
        fun byte => Char.ofNat byte.toNat
      .ok ⟨String.ofList context, fields.backspaces, fields.outputFunc, String.ofList output⟩
  else .error (.outputOutOfRange offset)

/-- The codes of the run at `position`, pushed on `path`, and the offset of the word after the run,
which lies beyond `position`. -/
def chain (r : Reader) (position : Nat) (path : List Code) :
    Except ReadError (List Code × { next : Nat // position < next }) :=
  if h : position < r.table.size then
    if r.table[position] = 0 then .ok (path, ⟨position + 1, by omega⟩)
    else
      match r.chain (position + 1) (r.table[position] :: path) with
      | .error e => .error e
      | .ok (path, ⟨next, hn⟩) => .ok (path, ⟨next, by omega⟩)
  else .error (.unexpectedEnd position)
termination_by r.table.size - position

mutual

/-- The matches at and below the entry at `offset`, to which `path` leads. -/
def visit (r : Reader) (offset : Nat) (path : List Code) : Except ReadError (List StoredMatch) :=
  if h : offset < r.table.size then
    if Table.isMatch r.table[offset] then
      if h₁ : offset + 1 < r.table.size then
        match r.storedMatch offset r.table[offset] r.table[offset + 1] path with
        | .error e => .error e
        | .ok stored =>
          if Table.hasBranchFlag r.table[offset] then
            match r.visitShape offset (offset + 2) (by omega) path with
            | .error e => .error e
            | .ok below => .ok (stored :: below)
          else .ok [stored]
      else .error (.unexpectedEnd (offset + 1))
    else r.visitShape offset offset (by omega) path
  else .error (.unexpectedEnd offset)
termination_by (r.table.size - offset, r.table.size + 2)

/-- The matches below the entry at `offset`, whose shape starts at `position`. -/
def visitShape (r : Reader) (offset position : Nat) (offset_le : offset ≤ position)
    (path : List Code) : Except ReadError (List StoredMatch) :=
  if h : position < r.table.size then
    if r.table[position] = 0 then .error (.emptyEntry offset)
    else if Table.hasBranchFlag r.table[position] then
      r.visitLinks offset position offset_le path
    else
      match r.chain position path with
      | .error e => .error e
      | .ok (path, ⟨next, _⟩) => r.visit next path
  else .error (.unexpectedEnd position)
termination_by (r.table.size - offset, r.table.size + 1)

/-- The matches below the branches listed from `position` on in the entry at `offset`. -/
def visitLinks (r : Reader) (offset position : Nat) (offset_le : offset ≤ position)
    (path : List Code) : Except ReadError (List StoredMatch) :=
  if h : position < r.table.size then
    let code := Table.withoutBranchFlag r.table[position]
    if code = 0 then .ok []
    else if h₁ : position + 1 < r.table.size then
      let target := r.table[position + 1].toNat
      if target ≤ offset then .error (.backwardLink (position + 1) target)
      else
        match r.visit target (code :: path) with
        | .error e => .error e
        | .ok first =>
          match r.visitLinks offset (position + 2) (by omega) path with
          | .error e => .error e
          | .ok rest => .ok (first ++ rest)
    else .error (.unexpectedEnd (position + 1))
  else .error (.unexpectedEnd position)
termination_by (r.table.size - offset, r.table.size - position)

end

/-- The matches of a table, in its order. An empty table has none. -/
def decode (r : Reader) : Except ReadError (List StoredMatch) :=
  if r.table.isEmpty then .ok [] else r.visit 0 []

end Reader

/-- The text of a read error. -/
def ReadError.message : ReadError → String
  | .unexpectedEnd offset => s!"table ends unexpectedly at word {offset}"
  | .unknownCode code offset =>
    s!"unknown triecode {Text.Hex.literal 4 code.toNat} at word {offset}"
  | .emptyEntry offset => s!"entry at word {offset} is empty"
  | .backwardLink offset target => s!"link at word {offset} points backwards to {target}"
  | .outputOutOfRange offset =>
    s!"completion of entry at word {offset} lies outside of the completion pool"

end Shorthand
