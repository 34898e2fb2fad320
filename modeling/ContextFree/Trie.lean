/-!
# Tries

A finite map whose keys are nonempty lists of numbers. Keys that begin with the same number share a
node; the rest of them lies below the node, and the keys that begin otherwise lie beside it. The
main statement is `find?_update`: an update changes what its key has and nothing else.
-/

namespace ContextFree

inductive Trie (β : Type) where
  | empty
  /-- The key that is just `n` has the value. -/
  | node (n : Nat) (value : Option β) (below beside : Trie β)

namespace Trie

variable {β : Type}

def find? : Trie β → List Nat → Option β
  | _, [] => none
  | empty, _ :: _ => none
  | node m value below beside, n :: key =>
    if n = m then
      match key with
      | [] => value
      | _ :: _ => below.find? key
    else beside.find? (n :: key)

def single (b : β) : List Nat → Trie β
  | [] => empty
  | [n] => node n (some b) empty empty
  | n :: key => node n none (single b key) empty

/-- Gives a key the value that `f` makes of what it had. -/
def update (f : Option β → β) : Trie β → List Nat → Trie β
  | t, [] => t
  | empty, n :: key => single (f none) (n :: key)
  | node m value below beside, n :: key =>
    if n = m then
      match key with
      | [] => node m (some (f value)) below beside
      | _ :: _ => node m value (below.update f key) beside
    else node m value below (beside.update f (n :: key))

@[simp] theorem find?_nil (t : Trie β) : t.find? [] = none := by
  cases t <;> rfl

@[simp] theorem find?_empty (key : List Nat) : (empty : Trie β).find? key = none := by
  cases key <;> rfl

theorem find?_single {b : β} {key key' : List Nat} (h : key ≠ []) :
    (single b key).find? key' = if key' = key then some b else none := by
  induction key generalizing key' with
  | nil => exact absurd rfl h
  | cons n key ih =>
      cases key' with
      | nil => simp
      | cons k rest =>
          by_cases hk : k = n <;> cases key <;> cases rest <;> simp_all [single, find?]

theorem find?_update {f : Option β → β} {t : Trie β} {key key' : List Nat} (h : key ≠ []) :
    (t.update f key).find? key' = if key' = key then some (f (t.find? key)) else t.find? key' := by
  induction t generalizing key key' with
  | empty =>
      obtain ⟨n, rest, rfl⟩ := List.exists_cons_of_ne_nil h
      simp [update, find?_single]
  | node m value below beside ihbelow ihbeside =>
      obtain ⟨n, key, rfl⟩ := List.exists_cons_of_ne_nil h
      cases key' with
      | nil => simp
      | cons k rest =>
          by_cases hn : n = m <;> by_cases hk : k = m
          · subst hn hk
            cases key <;> cases rest <;> simp [update, find?, ihbelow]
          · cases key <;> simp [update, find?, hn, hk]
          · simp [update, find?, hn, hk, Ne.symm hn]
          · simp [update, find?, hn, hk, ihbeside]

end Trie

end ContextFree
