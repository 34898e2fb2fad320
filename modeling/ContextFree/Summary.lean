import ContextFree.Normalization
import ContextFree.Text.Table

/-!
# Summaries

A table with one row for the input of a normalization and one for each stage: the numbers of its
symbols and productions, and the findings.
-/

namespace ContextFree

namespace Normalization

def sizes (g : Grammar) : List Text :=
  [Text.decimal g.nonTerminals.size, Text.decimal g.terminals.size,
    Text.decimal g.productions.size]

def stageRows : Nat → List StageRecord → List (List Text)
  | _, [] => []
  | i, r :: rs =>
    ([Text.decimal i, r.stage.title.toList] ++ sizes r.grammar ++
      [Text.commaList (r.findings.map fun f => f.text.toList)]) :: stageRows (i + 1) rs

def table (n : Normalization) : Table where
  header :=
    ["#", "Step", "Non-terminals", "Terminals", "Productions", "Notes"].map String.toList
  rows := ([[], "Original grammar".toList] ++ sizes n.input ++ [[]]) :: stageRows 1 n.records

def summary (n : Normalization) : Text := n.table.text ++ ['\n']

end Normalization

end ContextFree
