import Shorthand.Text.Quoted

/-!
# Log records

What a compilation reports besides its result. A `Logged` computation collects the records in the
order in which they arise and cannot read them, so a result never depends on the log.
-/

namespace Shorthand

/-- How much a record matters, from the most severe. -/
inductive Level where
  -- Something in the input is ignored.
  | warn
  -- A summary of a finished step.
  | info
  -- A decision of a step.
  | debug
  -- A detail of a decision.
  | trace
deriving DecidableEq, Repr

/-- A record of the log. -/
inductive Record where
  -- The rule on this line repeats the context of an earlier one.
  | duplicateSequence (line : Nat) (context : String)
  | resolved (context screen : String) (backspaces : Nat) (output : String)
  -- The pool already held an output.
  | outputFound (output : String) (offset : Nat)
  | outputAdded (output : String) (offset : Nat)
  | encoded (nodes entries words : Nat)
  | compiled (rules words bytes : Nat)
deriving DecidableEq, Repr

namespace Level

/-- The rank of a level, the most severe first. -/
def rank : Level → Nat
  | warn => 0
  | info => 1
  | debug => 2
  | trace => 3

/-- The name of a level. -/
def name : Level → String
  | warn => "WARN"
  | info => "INFO"
  | debug => "DEBUG"
  | trace => "TRACE"

end Level

namespace Record

/-- The level of a record. -/
def level : Record → Level
  | duplicateSequence .. => .warn
  | resolved .. => .trace
  | outputFound .. | outputAdded .. => .debug
  | encoded .. | compiled .. => .info

/-- The text of a record. -/
def message : Record → String
  | duplicateSequence line context =>
    s!"line {line}: ignoring duplicate sequence {Text.quote context}"
  | resolved context screen backspaces output =>
    s!"resolved {Text.quote context}: screen {Text.quote screen}, {backspaces} backspaces, " ++
      s!"output {Text.quote output}"
  | outputFound output offset => s!"{Text.quote output} found at {offset}"
  | outputAdded output offset => s!"{Text.quote output} added at {offset}"
  | encoded nodes entries words =>
    s!"encoded {nodes} trie nodes into {entries} entries ({words} words)"
  | compiled rules words bytes =>
    s!"compiled {rules} rules into {words} table words and {bytes} completion bytes"

end Record

/-- A value with the records that arose on the way to it. -/
structure Logged (α : Type) where
  value : α
  /-- The records, the earliest first. -/
  log : List Record
deriving Repr

namespace Logged

variable {α β : Type}

instance : Monad Logged where
  pure a := ⟨a, []⟩
  bind x f := ⟨(f x.value).value, x.log ++ (f x.value).log⟩

/-- Adds a record. -/
def report (r : Record) : Logged Unit := ⟨(), [r]⟩

@[simp] theorem value_pure (a : α) : (pure a : Logged α).value = a := rfl

@[simp] theorem log_pure (a : α) : (pure a : Logged α).log = [] := rfl

@[simp] theorem value_bind (x : Logged α) (f : α → Logged β) :
    (x >>= f).value = (f x.value).value := rfl

@[simp] theorem log_bind (x : Logged α) (f : α → Logged β) :
    (x >>= f).log = x.log ++ (f x.value).log := rfl

end Logged

/-- A computation that may fail with an error of type `ε`. Its records survive the failure. -/
abbrev LoggedExcept (ε α : Type) := ExceptT ε Logged α

namespace LoggedExcept

variable {ε ε' α : Type}

/-- Adds a record. -/
def report (r : Record) : LoggedExcept ε Unit :=
  ExceptT.lift (Logged.report r)

/-- A result without records. -/
def ofExcept (x : Except ε α) : LoggedExcept ε α :=
  ExceptT.mk (pure x)

/-- The same computation with its error seen as another. -/
def mapError (f : ε → ε') (x : LoggedExcept ε α) : LoggedExcept ε' α :=
  ExceptT.adapt f x

/-- The value or error. -/
def result (x : LoggedExcept ε α) : Except ε α :=
  x.run.value

/-- The records, the earliest first. -/
def log (x : LoggedExcept ε α) : List Record :=
  x.run.log

end LoggedExcept

end Shorthand
