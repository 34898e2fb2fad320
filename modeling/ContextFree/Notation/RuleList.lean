import ContextFree.Notation.Error
import ContextFree.Text.WhiteSpace

/-!
# Lists of rules

Grammars written as rules such as `S → aSb | ε`, in which every character is a symbol of its own:
an ASCII capital is a non-terminal and anything else a terminal. The symbols of the grammar are
those that occur in the rules, and the start symbol.
-/

namespace ContextFree

def Symbol.ofChar (c : Char) : Symbol :=
  if c.isUpper then nonTerminal (.ofChar c) else terminal (.ofChar c)

namespace RuleList

/-- What comes before and after the first `->`. -/
def splitAtDashArrow? : Text → Option (Text × Text)
  | '-' :: '>' :: t => some ([], t)
  | c :: t => (splitAtDashArrow? t).map fun (l, r) => (c :: l, r)
  | [] => none

/-- What comes before and after the arrow: the first `→`, or else the first `->`. -/
def splitAtArrow? (t : Text) : Option (Text × Text) :=
  match t.dropWhile (· ≠ '→') with
  | _ :: r => some (t.takeWhile (· ≠ '→'), r)
  | [] => splitAtDashArrow? t

/-- A left-hand side is a single capital. -/
def readLeftHandSide (t : Text) : Except NotationError Name :=
  match Text.trim t with
  | [c] => if c.isUpper then .ok (.ofChar c) else .error (.invalidLeftHandSide [c])
  | lhs => .error (.invalidLeftHandSide lhs)

def readWord (alternative : Text) : Word :=
  if alternative = epsilon then []
  else (alternative.filter fun c => !isWhiteSpace c).map Symbol.ofChar

/-- The alternatives between bars; empty ones count for nothing. -/
def readAlternatives (t : Text) : List Word :=
  (((t.splitOn '|').map Text.trim).filter (· ≠ [])).map readWord

structure Rule where
  lhs : Name
  alternatives : List Word

def readRule (t : Text) : Except NotationError Rule :=
  match splitAtArrow? t with
  | none => .error (.invalidProduction t)
  | some (l, r) => (readLeftHandSide l).map fun A => ⟨A, readAlternatives r⟩

def Rule.productions (r : Rule) : List Production := r.alternatives.map fun w => ⟨r.lhs, w⟩

def read (start : Name) (rules : List Text) : Except NotationError Grammar := do
  let rules ← rules.mapM readRule
  let nonTerminals := rules.flatMap fun r =>
    r.lhs :: r.alternatives.flatMap Word.nonTerminals
  let terminals := rules.flatMap fun r => r.alternatives.flatMap Word.terminals
  NotationError.lift
    (Grammar.ofParts (start :: nonTerminals) terminals start (rules.flatMap Rule.productions))

end RuleList

end ContextFree
