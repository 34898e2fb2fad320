import ContextFree.Production

/-!
# Notes

What a pass over a grammar has to say about its work, each note with a level of importance.
-/

namespace ContextFree

inductive Level where
  | warn
  | info
  | debug
  | trace
  deriving DecidableEq

def Level.label : Level → String
  | warn => "WARN"
  | info => "INFO"
  | debug => "DEBUG"
  | trace => "TRACE"

inductive Note where
  | nullable (names : List Name)
  | productive (names : List Name)
  | accessible (symbols : List Symbol)
  | unitClosure (A : Name) (closure : List Name)
  /-- The first production is replaced by, or gives rise to, the second one. -/
  | yields (p q : Production)
  /-- A new non-terminal stands for the terminal. -/
  | introduces (proxy a : Name)
  | drops (p : Production)
  | nonProductiveStart (start : Name)
  | undeclaredStart (start : Name)
  | step (number : Nat) (title : String)
  /-- The description of a grammar that a step has produced. -/
  | result (description : Text)
  deriving DecidableEq

namespace Note

def level : Note → Level
  | nullable _ => .debug
  | productive _ => .debug
  | accessible _ => .debug
  | unitClosure _ _ => .debug
  | yields _ _ => .trace
  | introduces _ _ => .trace
  | drops _ => .warn
  | nonProductiveStart _ => .warn
  | undeclaredStart _ => .warn
  | step _ _ => .info
  | result _ => .debug

def braced (names : List Name) : String :=
  let items := String.ofList (Text.commaList (names.map Name.chars))
  s!"\x7b{items}\x7d"

def message : Note → String
  | nullable names => "Nullable non-terminals: " ++ braced names
  | productive names => "Productive non-terminals: " ++ braced names
  | accessible symbols => "Accessible symbols: " ++ braced (symbols.map Symbol.name)
  | unitClosure A closure => s!"Unit closure of {A}: " ++ braced closure
  | yields p q => s!"{p} yields {q}"
  | introduces proxy a => s!"Introducing {proxy} → {a}"
  | drops p => s!"Dropping ε-production {p}"
  | nonProductiveStart start => s!"Start symbol {start} is non-productive, the language is empty"
  | undeclaredStart start =>
    s!"Start symbol {start} is not a non-terminal of the grammar, the language is empty"
  | step number title => s!"Step {number}: {title}"
  | result description => String.ofList description

end Note

end ContextFree
