import Shorthand.Alphabet

/-!
# Tables

The runtime reads a trie from a table of 16-bit words. Each entry starts with two words if a rule ends
there: a *match word*, whose fields `MatchWord` lists, and the offset of the output in the pool. What
follows says where the walk goes on:

* nothing, if there is nothing below;
* the codes of a run without branches and a zero, and right after it the entry the run leads to;
* pairs of a code and the offset of an entry, the first code with the branch flag, and a zero.
-/

namespace Shorthand

/-- The words of a table. -/
abbrev Table := Array UInt16

namespace Table

/-- The largest number of words. -/
def maxSize : Nat := 65535

/-- The top bit of a word, which marks match words. -/
def matchFlag : Nat := 0x8000

/-- The bit below, which marks a match word with more words to follow and the start of a list of
branches. -/
def branchFlag : Nat := 0x4000

/-- Whether a word has the match flag. -/
def isMatch (word : UInt16) : Bool :=
  matchFlag ≤ word.toNat

/-- Whether a word has the branch flag. -/
def hasBranchFlag (word : UInt16) : Bool :=
  word.toNat / branchFlag % 2 == 1

/-- A code with the branch flag. -/
def withBranchFlag (code : Code) : UInt16 :=
  if hasBranchFlag code then code else UInt16.ofNat (code.toNat + branchFlag)

/-- A word without the branch flag. -/
def withoutBranchFlag (word : UInt16) : Code :=
  if hasBranchFlag word then UInt16.ofNat (word.toNat - branchFlag) else word

end Table

/-- The fields of a match word. Below the two flags it has three bits for the output function, four
for the deletions and seven for the length of the output. -/
structure MatchWord where
  hasMore : Bool
  /-- The number of the output function, or zero for none. -/
  outputFunc : Nat
  /-- The number of characters to delete. -/
  backspaces : Nat
  /-- The number of bytes of the output. -/
  length : Nat
deriving DecidableEq, Repr

namespace MatchWord

/-- Whether every field fits into its bits. -/
def Fits (m : MatchWord) : Prop :=
  m.outputFunc < 8 ∧ m.backspaces < 16 ∧ m.length < 128

instance (m : MatchWord) : Decidable m.Fits :=
  inferInstanceAs (Decidable (_ ∧ _ ∧ _))

/-- The number of a match word whose fields fit. -/
def toNat (m : MatchWord) : Nat :=
  Table.matchFlag + (if m.hasMore then Table.branchFlag else 0) + m.outputFunc * 2048 +
    m.backspaces * 128 + m.length

/-- The word of some fields, if they fit. -/
def pack? (m : MatchWord) : Option UInt16 :=
  if m.Fits then some (UInt16.ofNat m.toNat) else none

/-- The fields of a match word. -/
def ofWord (word : UInt16) : MatchWord where
  hasMore := Table.hasBranchFlag word
  outputFunc := word.toNat / 2048 % 8
  backspaces := word.toNat / 128 % 16
  length := word.toNat % 128

example : (⟨false, 1, 2, 2⟩ : MatchWord).pack? = some 0x8902 := by decide

end MatchWord

end Shorthand
