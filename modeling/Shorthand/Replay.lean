import Shorthand.Edit

/-!
# Replays

What is on screen when the trigger of a rule is pressed? The keys before it may have fired other
rules, so they are replayed, one by one: at each key the longest rule that matches the screen fires,
or else the longest that matches the keys typed.

A replay needs the edits of the rules it meets, and these need replays of their own. `Inquiry` keeps
the two apart: it is a computation that may ask for the edit of a goal at any time. What answers the
questions is the matter of whoever runs it.
-/

namespace Shorthand

/-- A computation that may ask for the edits of goals. -/
inductive Inquiry (α : Type) where
  | answer (a : α)
  -- A question, and how to go on with the edit.
  | ask (goal : Goal) (next : Edit → Inquiry α)

namespace Inquiry

variable {α β : Type}

/-- First one computation, then another that depends on its result. -/
def bind (x : Inquiry α) (f : α → Inquiry β) : Inquiry β :=
  match x with
  | answer a => f a
  | ask goal next => ask goal fun edit => (next edit).bind f

instance : Monad Inquiry where
  pure := answer
  bind := bind

/-- Runs a computation whose questions `reply` answers. -/
def run {m : Type → Type} [Monad m] (reply : Goal → m Edit) : Inquiry α → m α
  | answer a => pure a
  | ask goal next => do
    let edit ← reply goal
    (next edit).run reply

@[simp] theorem pure_eq_answer (a : α) : (pure a : Inquiry α) = answer a := rfl

@[simp] theorem answer_bind (a : α) (f : α → Inquiry β) : answer a >>= f = f a := rfl

@[simp] theorem ask_bind (goal : Goal) (next : Edit → Inquiry α) (f : α → Inquiry β) :
    ask goal next >>= f = ask goal fun edit => next edit >>= f := rfl

end Inquiry

/-- The state of a replay. Both texts are kept backwards, the latest character first. -/
structure Screen where
  typed : List Char := []
  /-- The text on screen, where a space stands as a word break. -/
  shown : List Char := []
deriving DecidableEq, Repr

/-- The screen after a rule fired. Its trigger goes as well as the characters to delete. -/
def Screen.fire (screen : Screen) (wordbreak : Char) (edit : Edit) : Screen :=
  { screen with
    shown := (Edit.onScreen wordbreak edit.output.toList).reverse ++
      screen.shown.drop (edit.backspaces + 1) }

namespace Matcher

/-- Walks down from the trees `below` along `buffer`, asking for the edit of every goal on the way.
The last of them, or else `longest`, is the result. -/
def search (m : Matcher) (below : Forest Goal) (longest : Option Edit) :
    (buffer : List Char) → Inquiry (Option Edit)
  | [] => .answer longest
  | c :: buffer =>
    match (m.alphabet.code? c).bind below.child? with
    | none => .answer longest
    | some ⟨_, none, children⟩ => m.search children longest buffer
    | some ⟨_, some goal, children⟩ =>
      .ask goal fun edit => m.search children (some edit) buffer

/-- The edit of the longest rule whose context ends the buffer. The buffer is given backwards. -/
def longestMatch (m : Matcher) (buffer : List Char) : Inquiry (Option Edit) :=
  m.search m.trie.root.children none buffer

/-- The edit of the rule that fires on a screen, if any does. A match of the screen goes before a
match of the keys. -/
def firing (m : Matcher) (screen : Screen) : Inquiry (Option Edit) := do
  match ← m.longestMatch screen.shown with
  | some edit => return some edit
  | none => m.longestMatch screen.typed

/-- The screen after one more key. -/
def press (m : Matcher) (screen : Screen) (key : Char) : Inquiry Screen := do
  let screen : Screen := ⟨key :: screen.typed, key :: screen.shown⟩
  match ← m.firing screen with
  | some edit => return screen.fire m.alphabet.wordbreak edit
  | none => return screen

/-- The screen after some keys. -/
def replay (m : Matcher) (keys : List Char) : Inquiry Screen :=
  keys.foldlM m.press {}

/-- The text on screen when the trigger of a goal is pressed. -/
def screenBefore (m : Matcher) (goal : Goal) : Inquiry (List Char) := do
  let screen ← m.replay goal.context.toList.dropLast
  return screen.shown.reverse

end Matcher

end Shorthand
