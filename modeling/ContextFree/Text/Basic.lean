/-!
# Texts

A text is a list of characters, so that what reads and writes it can be reasoned about by
recursion.
-/

namespace ContextFree

abbrev Text := List Char

namespace Text

/-- The number of bytes that the text takes in UTF-8. -/
def byteLength : Text → Nat
  | [] => 0
  | c :: t => c.utf8Size + byteLength t

@[simp] theorem byteLength_nil : byteLength [] = 0 := rfl

@[simp] theorem byteLength_cons (c : Char) (t : Text) :
    byteLength (c :: t) = c.utf8Size + byteLength t := rfl

@[simp] theorem byteLength_append (t u : Text) :
    byteLength (t ++ u) = byteLength t + byteLength u := by
  induction t with
  | nil => simp
  | cons c t ih => simp [ih, Nat.add_assoc]

def commaList (items : List Text) : Text := [',', ' '].intercalate items

def decimal (n : Nat) : Text := Nat.toDigits 10 n

end Text

end ContextFree
