import Shorthand.Alphabet

/-!
# Tries

A trie keeps items under paths of codes. `Forest` is a list of trees whose edges ascend by code;
`Node` is what an edge leads to, and a `Trie` is a root with the number of its nodes. Nodes are
numbered in the order in which insertions create them, from the root, which is number zero.
-/

namespace Shorthand

/-- Trees side by side. Each is reached by its own code. -/
inductive Forest (α : Type) where
  | nil
  -- A first tree, with the number and the item of its root and the trees below it, and the
  -- trees beside it.
  | cons (code : Code) (index : Nat) (item : Option α) (children siblings : Forest α)
deriving Repr

/-- A node of a trie. -/
structure Node (α : Type) where
  index : Nat
  /-- The item kept under the path that leads here. -/
  item : Option α
  children : Forest α
deriving Repr

/-- A trie. -/
structure Trie (α : Type) where
  /-- The node of the empty path. -/
  root : Node α := ⟨0, none, .nil⟩
  size : Nat := 1
deriving Repr

namespace Forest

variable {α β : Type}

/-- Whether there is no tree. -/
def isEmpty : Forest α → Bool
  | nil => true
  | cons .. => false

/-- Whether there is exactly one tree. -/
def isSingle : Forest α → Bool
  | cons _ _ _ _ nil => true
  | _ => false

/-- The root of the tree that is reached by a code. -/
def child? (code : Code) : Forest α → Option (Node α)
  | nil => none
  | cons c index item children siblings =>
    if code = c then some ⟨index, item, children⟩ else siblings.child? code

/-- The codes of the trees, with the numbers of their roots. -/
def edges : Forest α → List (Code × Nat)
  | nil => []
  | cons code index _ _ siblings => (code, index) :: siblings.edges

/-- All nodes, a node before those below it. -/
def nodes : Forest α → List (Node α)
  | nil => []
  | cons _ index item children siblings =>
    ⟨index, item, children⟩ :: (children.nodes ++ siblings.nodes)

/-- The items with their paths, a path before its extensions and in the order of the codes. -/
def toList : Forest α → List (List Code × α)
  | nil => []
  | cons code _ item children siblings =>
    (item.toList.map fun a => ([code], a)) ++
      (children.toList.map fun (path, a) => (code :: path, a)) ++ siblings.toList

/-- The same forest with a function applied to every item. -/
def map (f : α → β) : Forest α → Forest β
  | nil => nil
  | cons code index item children siblings =>
    cons code index (item.map f) (children.map f) (siblings.map f)

/-- A tree without branches that leads along `path` to the item `a`, in front of `siblings`. Its
nodes are numbered from `next`. -/
def grow (a : α) (next : Nat) : (path : List Code) → (siblings : Forest α) → Forest α
  | [], siblings => siblings
  | [code], siblings => cons code next (some a) nil siblings
  | code :: c :: path, siblings =>
    cons code next none (grow a (next + 1) (c :: path) nil) siblings

/-- Puts the item `a` under a path that is not empty. New nodes are numbered from `next`. -/
def insert (a : α) (next : Nat) : Forest α → List Code → Forest α
  | forest, [] => forest
  | nil, code :: path => grow a next (code :: path) nil
  | cons c index item children siblings, code :: path =>
    if code < c then grow a next (code :: path) (cons c index item children siblings)
    else if code = c then
      cons c index (if path.isEmpty then some a else item) (children.insert a next path) siblings
    else cons c index item children (siblings.insert a next (code :: path))

example : (cons 2 1 (some 'x') nil nil).insert 'y' 2 [1, 3] =
    cons 1 2 none (cons 3 3 (some 'y') nil nil) (cons 2 1 (some 'x') nil nil) := by cbv

end Forest

namespace Node

variable {α β : Type}

/-- The node that a path leads to. -/
def walk? (n : Node α) : List Code → Option (Node α)
  | [] => some n
  | code :: path => (n.children.child? code).bind (·.walk? path)

/-- The length of the longest beginning of a path that leads to a node. -/
def depth (n : Node α) : List Code → Nat
  | [] => 0
  | code :: path =>
    match n.children.child? code with
    | none => 0
    | some child => child.depth path + 1

/-- The code and number of the node below, if there is exactly one. -/
def onlyChild? (n : Node α) : Option (Code × Nat) :=
  match n.children.edges with
  | [edge] => some edge
  | _ => none

/-- The items with their paths, a path before its extensions and in the order of the codes. -/
def toList (n : Node α) : List (List Code × α) :=
  (n.item.toList.map fun a => ([], a)) ++ n.children.toList

/-- The same node with a function applied to every item at or below it. -/
def map (f : α → β) (n : Node α) : Node β :=
  ⟨n.index, n.item.map f, n.children.map f⟩

end Node

namespace Trie

variable {α β : Type}

instance : EmptyCollection (Trie α) := ⟨{}⟩

/-- The item kept under a path. -/
def get? (t : Trie α) (path : List Code) : Option α :=
  (t.root.walk? path).bind (·.item)

/-- Keeps the item `a` under a path. -/
def insert (t : Trie α) (path : List Code) (a : α) : Trie α :=
  { root :=
      { t.root with
        item := if path.isEmpty then some a else t.root.item
        children := t.root.children.insert a t.size path }
    size := t.size + (path.length - t.root.depth path) }

/-- All nodes, in the order of their numbers. -/
def nodes (t : Trie α) : List (Node α) :=
  (t.root :: t.root.children.nodes).mergeSort fun m n => m.index ≤ n.index

/-- The items with their paths, a path before its extensions and in the order of the codes. -/
def toList (t : Trie α) : List (List Code × α) := t.root.toList

/-- The same trie with a function applied to every item. -/
def map (f : α → β) (t : Trie α) : Trie β :=
  ⟨t.root.map f, t.size⟩

end Trie

end Shorthand
