import Shorthand.Files

/-!
# File trees

A file tree is a state of the files: which places hold a file, with which bytes, and which are
directories. A place is the list of names that lead to it from the root.

`FileTree.walk` is how a path is followed. Every name is looked up in a directory, so a path through a
file leads nowhere, even if its next name is `.` or `..`. It is the directory that refuses a name that
is too long; a path that is too long as a whole, or that holds a NUL, is refused before any of it is
followed. A move concerns two places, and every other operation one; all other places stay as they are.
-/

namespace Shorthand

/-- What a place holds. -/
inductive FileTree.Item where
  | file (bytes : ByteArray)
  | directory

/-- A state of the files. -/
@[ext]
structure FileTree where
  /-- The place from which relative paths start. -/
  working : List String
  /-- What a place holds. -/
  get? (place : List String) : Option FileTree.Item
  get?_nil : get? [] = some .directory

namespace FileTree

/-- The tree that has a working directory and nothing else. -/
def ofWorking (working : List String) : FileTree where
  working := working
  get? place := if place.isPrefixOf working then some .directory else none
  get?_nil := rfl

/-- The tree in which a place holds something else, or nothing. The root stays a directory. -/
def setAt (t : FileTree) (place : List String) (item : Option Item) : FileTree where
  working := t.working
  get? other := if place ≠ [] ∧ other = place then item else t.get? other
  get?_nil := by
    rw [if_neg fun h => h.1 h.2.symm]
    exact t.get?_nil

/-! ## Following paths -/

/-- The place that a name leads to from a directory. -/
def follow (place : List String) (name : String) : List String :=
  if name = "" || name = "." then place
  else if name = ".." then place.dropLast
  else place ++ [name]

/-- Checks that a place holds a directory. -/
def enter (t : FileTree) (place : List String) : Except FileError Unit :=
  match t.get? place with
  | some .directory => .ok ()
  | some (.file _) => .error .notADirectory
  | none => .error .notFound

/-- Checks that a directory can hold a name. -/
def checkName (name : String) : Except FileError Unit :=
  if Path.maxNameLength < name.utf8ByteSize then .error .nameTooLong else .ok ()

/-- The place that names lead to from another one. It need not hold anything, but all places on the
way have to be directories. -/
def walk (t : FileTree) : (place : List String) → (names : List String) →
    Except FileError (List String)
  | place, [] => .ok place
  | place, name :: names => do
    t.enter place
    checkName name
    t.walk (follow place name) names

/-- Checks that a path can be followed at all. The empty path leads nowhere. -/
def checkPath (path : String) : Except FileError Unit :=
  if path.toList.contains '\x00' then .error .holdsNul
  else if path.isEmpty then .error .notFound
  else if Path.maxLength < path.utf8ByteSize then .error .nameTooLong
  else .ok ()

/-- The place at which a path starts. -/
def start (t : FileTree) (path : String) : List String :=
  if Path.isAbsolute path then [] else t.working

/-- The place that a path leads to. -/
def locate (t : FileTree) (path : String) : Except FileError (List String) := do
  checkPath path
  t.walk (t.start path) (Path.names path)

/-- What a path says about an entry that is to be made or replaced. -/
structure Entry where
  directory : List String
  /-- The name of the entry, or none if the path ends in no name that an entry can have. -/
  name : Option String
  /-- Whether a slash follows, so that only a directory can be meant. -/
  slash : Bool

/-- The entry that a path names. Its directory has to be there, but it is not asked yet whether it
can hold the name. -/
def entry (t : FileTree) (path : String) : Except FileError Entry := do
  checkPath path
  let names := Path.names path
  match names.reverse.dropWhile (·.isEmpty) with
  | [] => return ⟨[], none, true⟩
  | name :: before =>
    let directory ← t.walk (t.start path) before.reverse
    t.enter directory
    return ⟨directory, if name = "." || name = ".." then none else some name,
      names.getLast? = some ""⟩

/-- A path as seen from the root. -/
def absolute (t : FileTree) (path : String) : String :=
  Path.join ("/" ++ String.intercalate "/" t.working) path

/-! ## Operations -/

/-- The place that a path leads to, and the bytes of the file there. -/
def find (t : FileTree) (path : String) : Except FileError (List String × ByteArray) := do
  let place ← t.locate path
  match t.get? place with
  | none => throw .notFound
  | some .directory => throw .isADirectory
  | some (.file bytes) => return (place, bytes)

/-- The text at a path. -/
def read (t : FileTree) (path : String) : Except FileError String := do
  let (_, bytes) ← t.find path
  match String.fromUTF8? bytes with
  | some text => return text
  | none => throw .notText

/-- The tree with a file at a place that holds no directory. -/
def putAt (t : FileTree) (place : List String) (bytes : ByteArray) : Except FileError FileTree :=
  match t.get? place with
  | some .directory => .error .isADirectory
  | _ => .ok (t.setAt place (some (.file bytes)))

/-- Writes a file. -/
def write (t : FileTree) (path : String) (bytes : ByteArray) : Except FileError FileTree := do
  match ← t.entry path with
  | ⟨directory, some name, false⟩ =>
    checkName name
    t.putAt (directory ++ [name]) bytes
  | _ => throw .isADirectory

/-- Makes a directory. -/
def makeDirectory (t : FileTree) (path : String) : Except FileError FileTree := do
  match ← t.entry path with
  | ⟨directory, some name, _⟩ =>
    checkName name
    let place := directory ++ [name]
    if (t.get? place).isSome then throw .alreadyExists
    return t.setAt place (some .directory)
  | _ => throw .alreadyExists

/-- Makes an empty file where there is nothing. -/
def create (t : FileTree) (path : String) : Except FileError FileTree := do
  match ← t.entry path with
  | ⟨directory, some name, false⟩ =>
    checkName name
    let place := directory ++ [name]
    if (t.get? place).isSome then throw .alreadyExists
    return t.setAt place (some (.file .empty))
  | ⟨_, some _, true⟩ => throw .isADirectory
  | ⟨_, none, _⟩ => throw .alreadyExists

/-- Moves a file to a path. -/
def move (t : FileTree) (source path : String) : Except FileError FileTree := do
  let (place, bytes) ← t.find source
  match ← t.entry path with
  | ⟨_, none, _⟩ => throw .busy
  | ⟨directory, some name, slash⟩ =>
    checkName name
    if slash then throw .notADirectory
    (t.setAt place none).putAt (directory ++ [name]) bytes

/-- Removes a file. -/
def remove (t : FileTree) (path : String) : Except FileError FileTree := do
  let (place, _) ← t.find path
  return t.setAt place none

/-- Makes a change to the files unless it fails. -/
def change (f : FileTree → Except FileError FileTree) :
    StateM FileTree (Except FileError Unit) := do
  match f (← get) with
  | .error e => return .error e
  | .ok t =>
    set t
    return .ok ()

-- drafts are reached from the root, so the working directory counts towards the length of their paths
instance : Files (StateM FileTree) where
  read path := do return (← get).read path
  createDraft directory := do
    let make (path : String) := change (·.create path)
    Files.newDraft make ((← get).absolute directory) Files.draftNames 0
  writeDraft draft content := change (·.write draft content.toUTF8)
  settleDraft draft path := change (·.move draft path)
  discardDraft draft := do
    let _ ← change (·.remove draft)

/-! ## Small facts -/

theorem get?_setAt (t : FileTree) (place other : List String) (item : Option Item) :
    (t.setAt place item).get? other =
      if place ≠ [] ∧ other = place then item else t.get? other := rfl

theorem get?_setAt_self (t : FileTree) {place : List String} (item : Option Item)
    (h : place ≠ []) : (t.setAt place item).get? place = item :=
  if_pos ⟨h, rfl⟩

theorem get?_setAt_of_ne (t : FileTree) {place other : List String} (item : Option Item)
    (h : other ≠ place) : (t.setAt place item).get? other = t.get? other :=
  if_neg fun heq => h heq.2

/-- What a place was given last counts. -/
@[simp] theorem setAt_setAt (t : FileTree) (place : List String) (item item' : Option Item) :
    (t.setAt place item).setAt place item' = t.setAt place item' := by
  refine FileTree.ext rfl (funext fun other => ?_)
  simp only [get?_setAt]
  split <;> rfl

/-- Nothing happens if a place is given what it holds. -/
theorem setAt_get? (t : FileTree) (place : List String) : t.setAt place (t.get? place) = t := by
  refine FileTree.ext rfl (funext fun other => ?_)
  rw [get?_setAt]
  split
  next h => rw [h.2]
  next => rfl

end FileTree

end Shorthand
