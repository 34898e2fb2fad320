import ContextFree.Text.Basic

/-!
# Faults in a text

Where the reading of a text came to a stop, as what was read and what is left, and the picture that
points at the place. In a text of several lines the picture shows the line concerned with its
number and column, otherwise the whole text.
-/

namespace ContextFree

structure Fault where
  before : Text
  after : Text
  deriving DecidableEq

namespace Fault

/-- The fault in a text of which the last part is left. -/
def ofRest (t rest : Text) : Fault :=
  ⟨t.take (t.length - rest.length), rest⟩

@[simp] theorem ofRest_append (read rest : Text) : ofRest (read ++ rest) rest = ⟨read, rest⟩ := by
  simp [ofRest]

def offset (f : Fault) : Nat := Text.byteLength f.before

structure Place where
  /-- How many line breaks come before the line. -/
  row : Nat
  /-- How many columns come before the place. -/
  column : Nat
  line : Text
  deriving DecidableEq

def lastLine (t : Text) : Text := (t.reverse.takeWhile (· ≠ '\n')).reverse

/-- A place before a character is counted in characters if the character takes one byte, and in
bytes otherwise; a place at the end comes right after the last character, and a line break there
still belongs to the line that it ends. -/
def place (f : Fault) : Place :=
  match f.after with
  | c :: _ =>
    let start := lastLine f.before
    { row := f.before.count '\n'
      column := if c.utf8Size = 1 then start.length else Text.byteLength start
      line := start ++ f.after.takeWhile (· ≠ '\n') }
  | [] =>
    let init := f.before.dropLast
    let start := lastLine init
    { row := init.count '\n'
      column := start.length + 1
      line := start ++ (f.before.drop init.length).filter (· ≠ '\n') }

def blanks (n : Nat) : Text := List.replicate n ' '

/-- A text of one line, and below it a mark at the place. -/
def singleLinePicture (f : Fault) : Text :=
  f.before ++ f.after ++ ['\n'] ++ blanks f.offset ++ ['^', '\n']

/-- The line concerned between two rules, with a mark at the place. -/
def Place.picture (p : Place) : Text :=
  let number := Text.decimal (p.row + 1)
  let gutter := blanks number.length ++ [' ', '|']
  "parse error at line ".toList ++ number ++ ", column ".toList ++ Text.decimal (p.column + 1) ++
    ['\n'] ++ gutter ++ ['\n'] ++ number ++ [' ', '|', ' '] ++ p.line ++ ['\n'] ++
      gutter ++ [' '] ++ blanks p.column ++ ['^', '\n']

def picture (f : Fault) : Text :=
  if '\n' ∈ f.before ++ f.after then f.place.picture else f.singleLinePicture

end Fault

end ContextFree
