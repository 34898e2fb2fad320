import ContextFree.Coded
import ContextFree.Trie

/-!
# Groupings

Items put in groups by a key, so that the items of one key are found without going through all of
them. The main statement is `get_ofList`: the group of a key holds the items of a list that have
it, in their order.
-/

namespace ContextFree

structure Grouping (κ α : Type) where
  groups : Trie (List α)

namespace Grouping

variable {κ α : Type} [Coded κ]

def get (t : Grouping κ α) (k : κ) : List α := (t.groups.find? (Coded.code k)).getD []

/-- Puts an item in front of those that its key has already. -/
def push (t : Grouping κ α) (k : κ) (a : α) : Grouping κ α :=
  ⟨t.groups.update (fun as => a :: as.getD []) (Coded.code k)⟩

def ofList (key : α → κ) (l : List α) : Grouping κ α :=
  l.foldr (fun a t => t.push (key a) a) ⟨.empty⟩

theorem get_push [DecidableEq κ] (t : Grouping κ α) (k k' : κ) (a : α) :
    (t.push k a).get k' = if k' = k then a :: t.get k' else t.get k' := by
  simp only [get, push, Trie.find?_update (Coded.code_ne_nil k), Coded.code_inj]
  split <;> simp [*]

@[simp] theorem get_ofList [DecidableEq κ] (key : α → κ) (l : List α) (k : κ) :
    (ofList key l).get k = l.filter (key · = k) := by
  induction l with
  | nil => simp [ofList, get]
  | cons a l ih =>
      change ((ofList key l).push (key a) a).get k = _
      rw [get_push, ih]
      by_cases h : key a = k
      · simp [h]
      · simp [h, Ne.symm h]

end Grouping

end ContextFree
