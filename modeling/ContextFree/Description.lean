import ContextFree.Grammar

/-!
# Descriptions

The written form of a grammar: its symbols in a heading and then one line per left-hand side with
all its alternatives. The start symbol comes first and everything else is sorted, so that a
description does not depend on the order in which a grammar lists its sets.
-/

namespace ContextFree

structure Description where
  start : Name
  nonTerminals : List Name
  terminals : List Name
  /-- The left-hand sides, each with its written alternatives. -/
  lines : List (Name × List Text)
  deriving DecidableEq

namespace Description

/-- Sorts names, the start symbol before all others. -/
def sortFrom (start : Name) (names : List Name) : List Name :=
  names.mergeSort fun A B => decide (A = start ∨ (B ≠ start ∧ A ≤ B))

def sortAlternatives (texts : List Text) : List Text :=
  (OrderedSet.ofList texts).toList.mergeSort fun t u => !decide (u < t)

def ofRules (start : Name) (nonTerminals terminals : OrderedSet Name)
    (rules : List (Name × Text)) : Description where
  start := start
  nonTerminals := sortFrom start nonTerminals.toList
  terminals := terminals.toList.mergeSort fun a b => decide (a ≤ b)
  lines :=
    let byHead := Grouping.ofList Prod.fst rules
    (sortFrom start (OrderedSet.ofList (rules.map Prod.fst)).toList).map fun A =>
      (A, sortAlternatives ((byHead.get A).map Prod.snd))

def lineText (line : Name × List Text) : Text :=
  [' ', ' '] ++ line.1.chars ++ [' ', '→', ' '] ++ [' ', '|', ' '].intercalate line.2 ++ ['\n']

def text (d : Description) : Text :=
  "G = (\x7b".toList ++ Text.commaList (d.nonTerminals.map Name.chars) ++ "\x7d, \x7b".toList ++
    Text.commaList (d.terminals.map Name.chars) ++ "\x7d, P, ".toList ++ d.start.chars ++
      ")\n\nP = \x7b\n".toList ++ d.lines.flatMap lineText ++ "\x7d\n".toList

end Description

namespace Grammar

def description (g : Grammar) : Description :=
  .ofRules g.start g.nonTerminals g.terminals
    (g.productions.toList.map fun p => (p.lhs, Word.text p.rhs))

end Grammar

end ContextFree
