import Shorthand.Edit
import Shorthand.Pool
import Shorthand.Table.Basic

/-!
# Laying out tables

`Trie.entries` lists the entries of a trie in the order in which they stand in the table, a node
before those below it and the lowest code first. Nodes on a run without branches and without items have
no entry of their own.

`Trie.encode` turns the entries into words. The entries that a branch leads to stand further on, so
the sizes come first: `Table.place` gives every entry its offset, and the links are written when all
of these are known.
-/

namespace Shorthand

/-- How an entry goes on after its match. -/
inductive Shape where
  | leaf
  -- The codes that lead to the next entry.
  | chain (codes : List Code)
  -- The codes of the branches, with the numbers of the nodes they lead to.
  | branch (edges : List (Code × Nat))
deriving DecidableEq, Repr

/-- An entry of a table. -/
structure Entry (α : Type) where
  node : Nat
  /-- What is found there. -/
  item : Option α
  shape : Shape
deriving Repr

/-- Why a trie has no table. -/
inductive LayoutError where
  -- An entry ends beyond the last word that offsets reach.
  | tableOverflow (offset : Nat)
  | missingOutput (output : String)
  -- An edit does not fit into the fields of a match word.
  | fieldOverflow (output : String)
  -- A branch leads to a node that has no entry.
  | unplacedEntry (node : Nat)
deriving DecidableEq, Repr

/-- The offsets at which entries start, by the numbers of their nodes. -/
abbrev Offsets := Std.HashMap Nat Nat

namespace Table

/-- The same words with the branch flag on the first. -/
def flagFirst : List UInt16 → List UInt16
  | [] => []
  | word :: words => withBranchFlag word :: words

end Table

namespace Shape

/-- The shape of a run that starts with `code` and goes on as `rest` says, or else ends. -/
def prepend (code : Code) : (rest : Shape) → Shape
  | chain codes => chain (code :: codes)
  | _ => chain [code]

/-- The number of words of a shape. -/
def size : Shape → Nat
  | leaf => 0
  | chain codes => codes.length + 1
  | branch edges => 2 * edges.length + 1

/-- The words of a branch: its code and the offset of the entry it leads to. -/
def link (offsets : Offsets) (edge : Code × Nat) : Except LayoutError (List UInt16) :=
  match offsets[edge.2]? with
  | none => .error (.unplacedEntry edge.2)
  | some offset => .ok [edge.1, UInt16.ofNat offset]

/-- The words of a shape. -/
def words (offsets : Offsets) : Shape → Except LayoutError (List UInt16)
  | leaf => .ok []
  | chain codes => .ok (codes ++ [0])
  | branch edges => do
    let links ← edges.mapM (link offsets)
    return Table.flagFirst links.flatten ++ [0]

end Shape

namespace Forest

variable {α : Type}

/-- The shape of the entry of a node with these trees below it. A run passes through nodes that have
no item and a single tree below. -/
def shape : Forest α → Shape
  | nil => .leaf
  | cons code index item children siblings =>
    if siblings.isEmpty then
      if item.isNone && children.isSingle then children.shape.prepend code else .chain [code]
    else .branch ((code, index) :: siblings.edges)

/-- The entries of these trees. If they are `branched` off, then each of them starts with an entry;
otherwise a run may pass through the root of a single tree. -/
def entries (branched : Bool) : Forest α → List (Entry α)
  | nil => []
  | cons _ index item children siblings =>
    if !branched && siblings.isEmpty && item.isNone && children.isSingle then
      children.entries false
    else
      ⟨index, item, children.shape⟩ :: (children.entries false ++ siblings.entries true)

end Forest

namespace Entry

/-- The number of words of an entry. -/
def size {α : Type} (entry : Entry α) : Nat :=
  (if entry.item.isSome then 2 else 0) + entry.shape.size

/-- The words that come before the shape of an entry. -/
def header (pool : Pool) (entry : Entry Edit) : Except LayoutError (List UInt16) :=
  match entry.item with
  | none => .ok []
  | some edit =>
    match pool.offset? edit.output with
    | none => .error (.missingOutput edit.output)
    | some offset =>
      let fields : MatchWord :=
        ⟨entry.shape != .leaf, edit.outputFunc, edit.backspaces, edit.output.utf8ByteSize⟩
      match fields.pack? with
      | none => .error (.fieldOverflow edit.output)
      | some word => .ok [word, UInt16.ofNat offset]

end Entry

namespace Table

/-- The offsets of entries that stand one after the other from `start` on, together with those
already known. -/
def place {α : Type} (known : Offsets) (start : Nat) : List (Entry α) → Except LayoutError Offsets
  | [] => .ok known
  | entry :: entries =>
    let stop := start + entry.size
    if maxSize < stop then .error (.tableOverflow stop)
    else place (known.insert entry.node start) stop entries

end Table

namespace Trie

/-- The entries of a trie in the order of the table. -/
def entries {α : Type} (t : Trie α) : List (Entry α) :=
  ⟨t.root.index, t.root.item, t.root.children.shape⟩ :: t.root.children.entries false

/-- The words of the table of a trie whose outputs are in the pool. -/
def words (t : Trie Edit) (pool : Pool) : Except LayoutError (List UInt16) := do
  let headers ← t.entries.mapM (Entry.header pool)
  let offsets ← Table.place ∅ 0 t.entries
  let shapes ← t.entries.mapM (·.shape.words offsets)
  return (List.zipWith (· ++ ·) headers shapes).flatten

/-- The table of a trie whose outputs are in the pool. -/
def encode (t : Trie Edit) (pool : Pool) : LoggedExcept LayoutError Table := do
  let words ← LoggedExcept.ofExcept (t.words pool)
  let table : Table := words.toArray
  LoggedExcept.report (.encoded t.size t.entries.length table.size)
  return table

end Trie

/-- The trie of a matcher with edits in place of the goals. -/
def Matcher.edits (m : Matcher) (edits : List Edit) : Trie Edit :=
  let edits := edits.toArray
  m.trie.map fun goal => edits.getD goal.index default

/-- The text of a layout error. -/
def LayoutError.message : LayoutError → String
  | .tableOverflow offset =>
    s!"the sequence table is too large, an entry at word {offset} exceeds the 64K word limit; " ++
      "try reducing the dictionary"
  | .missingOutput output =>
    s!"completion {Text.quote output} is not stored in the completion pool"
  | .fieldOverflow output => s!"completion {Text.quote output} does not fit into a match entry"
  | .unplacedEntry node => s!"trie node {node} is linked from a branch but has no table entry"

end Shorthand
