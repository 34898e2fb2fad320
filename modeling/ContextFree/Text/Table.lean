import ContextFree.Text.Basic

/-!
# Tables

Rows of cells set between rules with rounded corners. Cells are left-aligned, each character counts
as one column, and one blank stands on either side of a cell.
-/

namespace ContextFree

structure Table where
  header : List Text
  rows : List (List Text)

namespace Table

def widths (t : Table) : List Nat :=
  (List.range t.header.length).map fun i =>
    ((t.header :: t.rows).map fun row => ((row[i]?).getD []).length).foldl max 0

/-- A horizontal rule with the given ends and joints. -/
def rule (widths : List Nat) (left joint right : Char) : Text :=
  left :: [joint].intercalate (widths.map fun w => List.replicate (w + 2) '─') ++ [right]

def row (widths : List Nat) (cells : List Text) : Text :=
  '│' :: ['│'].intercalate ((widths.zip cells).map fun (w, cell) =>
    ' ' :: cell ++ List.replicate (w - cell.length) ' ' ++ [' ']) ++ ['│']

/-- The lines of the table, with no line break after the last one. -/
def text (t : Table) : Text :=
  let widths := t.widths
  ['\n'].intercalate ([rule widths '╭' '┬' '╮', row widths t.header, rule widths '├' '┼' '┤'] ++
    t.rows.map (row widths) ++ [rule widths '╰' '┴' '╯'])

end Table

end ContextFree
