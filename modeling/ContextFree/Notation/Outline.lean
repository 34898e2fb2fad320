import ContextFree.Notation.Reader
import ContextFree.Symbol
import ContextFree.Text.WhiteSpace

/-!
# Outlines

A grammar definition has three sections:

    V_N={S, A}
    V_T={a, b}
    P={S -> aA | ε, A → b}

Its outline holds the names of the first two and the rules of the third, whose alternatives are not
divided into symbols yet.
-/

namespace ContextFree

structure Outline where
  nonTerminals : List Name
  terminals : List Name
  rules : List (Name × List Text)
  deriving DecidableEq

namespace Outline

open Reader

def isReserved (c : Char) : Bool := c = ',' || c = '{' || c = '}' || c = '|'

def isNameChar (c : Char) : Bool := !isWhiteSpace c && !isReserved c

/-- A left-hand side ends where an arrow may begin. -/
def isLeftHandSideChar (c : Char) : Bool := isNameChar c && c != '-' && c != '→'

def endsAlternative (c : Char) : Bool := c = ',' || c = '|' || c = '}'

/-- A name made of the given characters, with blanks around it. -/
def nameOf (isChar : Char → Bool) : Reader Name where
  read t :=
    let t := skipLayout t
    match Name.ofText? (t.takeWhile isChar) with
    | some a => .ok (a, skipLayout (t.dropWhile isChar))
    | none => .error t
  suffix := by
    intro t r a h
    dsimp only at h
    split at h
    · cases h
      exact (skipLayout_suffix _).trans
        ((List.dropWhile_suffix isChar).trans (skipLayout_suffix t))
    · exact absurd h (by simp)

/-- An alternative, which may be empty; white space at its ends is left out. -/
def alternative : Reader Text where
  read t :=
    .ok (Text.trim (t.takeWhile fun c => !endsAlternative c),
      t.dropWhile fun c => !endsAlternative c)
  suffix := by
    intro t r a h
    cases h
    exact List.dropWhile_suffix _

def expectArrow (t : Text) : Except Text Text :=
  match expect ['-', '>'] t with
  | .ok r => .ok r
  | .error _ => expect ['→'] t

theorem expectArrow_suffix {t r : Text} (h : expectArrow t = .ok r) : r <:+ t := by
  unfold expectArrow at h
  split at h
  · cases h
    exact expect_suffix ‹_›
  · exact expect_suffix h

/-- A left-hand side, an arrow and alternatives between bars. -/
def rule : Reader (Name × List Text) where
  read t := do
    let (A, t) ← (nameOf isLeftHandSideChar).read t
    let t ← expectArrow t
    let (alternatives, t) := alternative.separated '|' t
    return ((A, alternatives), t)
  suffix := by
    intro t r a h
    cases hname : (nameOf isLeftHandSideChar).read t with
    | error e => simp [hname, bind, Except.bind] at h
    | ok p =>
        cases harrow : expectArrow p.2 with
        | error e => simp [hname, harrow, bind, Except.bind] at h
        | ok t' =>
            simp only [hname, harrow, bind, Except.bind, pure, Except.pure, Except.ok.injEq,
              Prod.mk.injEq] at h
            rw [← h.2]
            exact (separated_suffix alternative '|' t').trans
              ((expectArrow_suffix harrow).trans ((nameOf isLeftHandSideChar).suffix hname))

/-- A section: its key, an equals sign, and items in braces with commas between them. -/
def readSection {α : Type} (key : Text) (item : Reader α) (t : Text) :
    Except Text (List α × Text) := do
  let t ← expectAfterLayout key t
  let t ← expectAfterLayout ['='] t
  let t ← expectAfterLayout ['{'] t
  let (items, t) := item.separated ',' t
  let t ← expectAfterLayout ['}'] t
  return (items, t)

/-- The outline of a whole text, or what is left of the text where it stops being one. -/
def read (t : Text) : Except Text Outline := do
  let (nonTerminals, t) ← readSection ['V', '_', 'N'] (nameOf isNameChar) t
  let (terminals, t) ← readSection ['V', '_', 'T'] (nameOf isNameChar) t
  let (rules, t) ← readSection ['P'] rule t
  let t := skipLayout t
  if t = [] then return ⟨nonTerminals, terminals, rules⟩ else throw t

end Outline

end ContextFree
