import ContextFree.OrderedSet
import ContextFree.Symbol

/-!
# Segmentation

The division of a chunk of text into the names of symbols, without anything between them. At each
place the longest name is tried first, and a shorter one only if what follows a longer one cannot
be divided. Where there is no division, the shortest remainder that was reached is reported.

What follows a name is divided before the name is tried, and once for all names that end at the
same place: a chunk is divided together with all of its suffixes, the shortest of them first.
-/

namespace ContextFree

/-- The symbols that a text may be made of, none of them with the name of another one. -/
structure Vocabulary where
  symbols : OrderedSet Symbol
  /-- The symbols in the order in which they are tried. -/
  longestFirst : List Symbol

namespace Vocabulary

/-- The symbols with the given names; a name that is given for both kinds is that of a terminal. -/
def ofNames (nonTerminals terminals : List Name) : Vocabulary :=
  let terminals := OrderedSet.ofList terminals
  let symbols := OrderedSet.ofList (terminals.toList.map .terminal ++
    (nonTerminals.filter (· ∉ terminals)).map .nonTerminal)
  ⟨symbols, symbols.toList.mergeSort fun x y =>
    decide (y.name.chars.length ≤ x.name.chars.length)⟩

def isShorter : Text → Text → Bool
  | _, [] => false
  | [], _ :: _ => true
  | _ :: t, _ :: u => isShorter t u

theorem isShorter_iff {t u : Text} : isShorter t u = true ↔ t.length < u.length := by
  induction t generalizing u with
  | nil => cases u <;> simp [isShorter]
  | cons c t ih => cases u <;> simp [isShorter, ih]

/-- Divides a chunk that starts with one of the given symbols, the first that fits. The divisions
of what may follow are known, that of the longest rest first, and `shortest` is the shortest
remainder reached so far. -/
def divideAmong (later : List (Except Text Word)) (chunk : Text) :
    List Symbol → Text → Except Text Word
  | [], shortest => .error shortest
  | x :: xs, shortest =>
    if x.name.chars.isPrefixOf chunk then
      match later.getD (x.name.chars.length - 1) (.error shortest) with
      | .ok w => .ok (x :: w)
      | .error rest =>
        divideAmong later chunk xs (if isShorter rest shortest then rest else shortest)
    else divideAmong later chunk xs shortest

/-- The divisions of a chunk and of all its suffixes, the longest of them first. -/
def divisions (v : Vocabulary) : Text → List (Except Text Word)
  | [] => [.ok []]
  | c :: t =>
    let later := v.divisions t
    divideAmong later (c :: t) v.longestFirst (c :: t) :: later

/-- The symbols that a chunk is made of, or the shortest remainder that none of them begins. -/
def divide (v : Vocabulary) (chunk : Text) : Except Text Word :=
  (v.divisions chunk).headD (.ok [])

@[simp] theorem divide_nil (v : Vocabulary) : v.divide [] = .ok [] := rfl

theorem divide_cons (v : Vocabulary) (c : Char) (t : Text) :
    v.divide (c :: t) = divideAmong (v.divisions t) (c :: t) v.longestFirst (c :: t) := rfl

/-- The divisions are those of the suffixes, one by one. -/
theorem getD_divisions (v : Vocabulary) {chunk : Text} {i : Nat} (h : i ≤ chunk.length)
    (d : Except Text Word) : (v.divisions chunk).getD i d = v.divide (chunk.drop i) := by
  induction chunk generalizing i with
  | nil =>
      obtain rfl := Nat.le_zero.mp h
      rfl
  | cons c t ih =>
      cases i with
      | zero => rfl
      | succ i => exact ih (Nat.le_of_succ_le_succ h)

end Vocabulary

end ContextFree
