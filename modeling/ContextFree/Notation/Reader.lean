import ContextFree.Text.Basic

/-!
# Readers

A reader takes an item off the front of a text and hands back what is left, or says with what was
left it came to a stop. What is left is always a suffix of the text. A list of separated items is
read as far as it goes and never fails: a separator that no item follows is not read.
-/

namespace ContextFree

structure Reader (α : Type) where
  read : Text → Except Text (α × Text)
  suffix : ∀ {t r : Text} {a : α}, read t = .ok (a, r) → r <:+ t

namespace Reader

variable {α : Type}

/-- The blank characters between the parts of a definition. -/
def isLayout (c : Char) : Bool := c = ' ' || c = '\t' || c = '\r' || c = '\n'

def skipLayout (t : Text) : Text := t.dropWhile isLayout

theorem skipLayout_suffix (t : Text) : skipLayout t <:+ t := List.dropWhile_suffix isLayout

/-- Further items, each of them after a separator. -/
def more (item : Reader α) (sep : Char) : Text → List α × Text
  | [] => ([], [])
  | c :: t =>
    if c = sep then
      match _h : item.read t with
      | .ok (a, r) =>
        let (as, rest) := more item sep r
        (a :: as, rest)
      | .error _ => ([], c :: t)
    else ([], c :: t)
termination_by t => t.length
decreasing_by exact Nat.lt_succ_of_le (item.suffix ‹item.read t = .ok (a, r)›).length_le

theorem more_suffix (item : Reader α) (sep : Char) (t : Text) : (item.more sep t).2 <:+ t := by
  fun_induction more item sep t with
  | case1 => exact List.suffix_rfl
  | case2 t a r h as rest hrest ih =>
      rw [hrest] at ih
      exact ih.trans ((item.suffix h).trans (List.suffix_cons _ _))
  | case3 t e h => exact List.suffix_rfl
  | case4 c t hc => exact List.suffix_rfl

def separated (item : Reader α) (sep : Char) (t : Text) : List α × Text :=
  match item.read t with
  | .ok (a, r) =>
    let (as, rest) := item.more sep r
    (a :: as, rest)
  | .error _ => ([], t)

theorem separated_suffix (item : Reader α) (sep : Char) (t : Text) :
    (item.separated sep t).2 <:+ t := by
  unfold separated
  split
  · exact (more_suffix item sep _).trans (item.suffix ‹_›)
  · exact List.suffix_rfl

def expect (word : Text) (t : Text) : Except Text Text :=
  if word.isPrefixOf t then .ok (t.drop word.length) else .error t

def expectAfterLayout (word : Text) (t : Text) : Except Text Text := expect word (skipLayout t)

theorem expect_suffix {word t r : Text} (h : expect word t = .ok r) : r <:+ t := by
  unfold expect at h
  split at h
  · cases h
    exact List.drop_suffix _ _
  · exact absurd h (by simp)

end Reader

end ContextFree
