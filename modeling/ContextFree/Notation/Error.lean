import ContextFree.Grammar
import ContextFree.Notation.Fault

/-!
# Errors in written grammars
-/

namespace ContextFree

inductive NotationError where
  /-- The text is not made of the three sections. -/
  | malformed (fault : Fault)
  | noNonTerminals
  | noTerminals
  | noProductions
  /-- A rule has no arrow. -/
  | invalidProduction (rule : Text)
  | invalidLeftHandSide (lhs : Text)
  /-- No name fits the beginning of the rest of a chunk of an alternative. -/
  | unknownSymbol (rest alternative : Text)
  | grammar (error : GrammarError)
  deriving DecidableEq

def NotationError.message : NotationError → String
  | malformed fault => "malformed grammar definition:\n" ++ String.ofList fault.picture
  | noNonTerminals => "no non-terminal symbols declared"
  | noTerminals => "no terminal symbols declared"
  | noProductions => "no production rules found"
  | invalidProduction rule =>
    let text := String.ofList rule
    s!"invalid production `{text}`, expected `A → α`"
  | invalidLeftHandSide lhs =>
    let text := String.ofList lhs
    s!"left-hand side `{text}` is not a non-terminal"
  | unknownSymbol rest alternative =>
    let restText := String.ofList rest
    let text := String.ofList alternative
    s!"unknown symbol at `{restText}` in `{text}`"
  | grammar error => error.message

/-- A failure to build a grammar is an error in how it is written. -/
def NotationError.lift {α : Type} : Except GrammarError α → Except NotationError α
  | .ok a => .ok a
  | .error e => .error (.grammar e)

end ContextFree
