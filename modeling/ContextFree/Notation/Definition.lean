import ContextFree.Notation.Error
import ContextFree.Notation.Outline
import ContextFree.Notation.Segmentation

/-!
# Grammar definitions

The grammar that a definition in three sections describes. Its start symbol is always `S`. An
alternative is `ε`, or symbols set apart by white space or glued together; of a name that is
declared in both sections the terminal counts.
-/

namespace ContextFree

namespace Outline

def vocabulary (o : Outline) : Vocabulary := .ofNames o.nonTerminals o.terminals

/-- The symbols of an alternative that is not empty. -/
def readAlternative (v : Vocabulary) (alternative : Text) : Except NotationError Word :=
  if alternative = epsilon then .ok []
  else
    match (Text.chunks alternative).mapM v.divide with
    | .ok words => .ok words.flatten
    | .error rest => .error (.unknownSymbol rest alternative)

/-- The productions of a rule; empty alternatives count for nothing. -/
def readRule (v : Vocabulary) (r : Name × List Text) : Except NotationError (List Production) :=
  if .nonTerminal r.1 ∈ v.symbols then do
    let words ← (r.2.filter (· ≠ [])).mapM (readAlternative v)
    return words.map fun w => ⟨r.1, w⟩
  else .error (.invalidLeftHandSide r.1.chars)

def toGrammar (o : Outline) : Except NotationError Grammar := do
  if o.nonTerminals = [] then throw .noNonTerminals
  if o.terminals = [] then throw .noTerminals
  let vocabulary := o.vocabulary
  let productions ← o.rules.mapM (readRule vocabulary)
  if productions.flatten = [] then throw .noProductions
  NotationError.lift
    (Grammar.ofParts o.nonTerminals o.terminals (.ofChar 'S') productions.flatten)

end Outline

namespace Grammar

def ofDefinition (t : Text) : Except NotationError Grammar :=
  match Outline.read t with
  | .ok outline => outline.toGrammar
  | .error rest => .error (.malformed (.ofRest t rest))

def sectionText (key : Text) (items : List Text) : Text :=
  key ++ ['=', '{'] ++ Text.commaList items ++ ['}']

/-- Writes a grammar as a definition in three sections. -/
def definition (g : Grammar) : Text :=
  ['\n'].intercalate
    [sectionText ['V', '_', 'N'] (g.nonTerminals.toList.map Name.chars),
      sectionText ['V', '_', 'T'] (g.terminals.toList.map Name.chars),
      sectionText ['P'] (g.productions.toList.map Production.text)]

end Grammar

end ContextFree
