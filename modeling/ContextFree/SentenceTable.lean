import ContextFree.Symbol
import ContextFree.Trie

/-!
# Tables of sentences

Facts `(A, u)`, saying that the non-terminal `A` derives the sentence `u`, arranged by non-terminal
and, below that, by the length of the sentence: what is too long to fit is passed over a whole shelf
at a time.
-/

namespace ContextFree

abbrev Fact := Name × Sentence

instance : Coded Fact where
  code f := Coded.code f.1 ++ Coded.code f.2
  code_ne_nil f := List.append_ne_nil_of_left_ne_nil (Coded.code_ne_nil f.1) _
  eq_of_code_eq h :=
    have hparts := Name.code_append_inj h
    Prod.ext hparts.1 (Coded.eq_of_code_eq hparts.2)

/-- Sentences by length: each length comes with the sentences that have it. -/
abbrev Shelves := List (Nat × List Sentence)

namespace Shelves

/-- Puts a sentence of length `k` on its shelf, which may be a new one. -/
def add (k : Nat) (u : Sentence) : Shelves → Shelves
  | [] => [(k, [u])]
  | (m, us) :: s => if k = m then (m, u :: us) :: s else (m, us) :: add k u s

def Holds (s : Shelves) (u : Sentence) : Prop := ∃ e ∈ s, u ∈ e.2

def Sorted (s : Shelves) : Prop := ∀ e ∈ s, ∀ u ∈ e.2, u.length = e.1

@[simp] theorem not_holds_nil (u : Sentence) : ¬ Holds [] u := by
  simp [Holds]

theorem holds_cons {e : Nat × List Sentence} {s : Shelves} {u : Sentence} :
    Holds (e :: s) u ↔ u ∈ e.2 ∨ Holds s u := by
  simp [Holds]

theorem holds_append {s t : Shelves} {u : Sentence} :
    Holds (s ++ t) u ↔ Holds s u ∨ Holds t u := by
  induction s with
  | nil => simp
  | cons e s ih => rw [List.cons_append, holds_cons, holds_cons, ih, or_assoc]

theorem holds_add {k : Nat} {u v : Sentence} {s : Shelves} :
    Holds (add k u s) v ↔ v = u ∨ Holds s v := by
  induction s with
  | nil => simp [add, holds_cons]
  | cons e s ih =>
      unfold add
      split
      · simp only [holds_cons, List.mem_cons, or_assoc]
      · rw [holds_cons, ih, holds_cons, or_left_comm]

theorem Sorted.append {s t : Shelves} (hs : Sorted s) (ht : Sorted t) : Sorted (s ++ t) :=
  fun e he => (List.mem_append.mp he).elim (hs e) (ht e)

theorem Sorted.add {s : Shelves} (hs : Sorted s) (u : Sentence) : Sorted (s.add u.length u) := by
  induction s with
  | nil =>
      intro e he v hv
      obtain rfl := List.mem_singleton.mp he
      rw [List.mem_singleton.mp hv]
  | cons e s ih =>
      have hrest : Sorted s := fun e' he' => hs e' (List.mem_cons_of_mem e he')
      unfold Shelves.add
      split
      · rename_i hlength
        intro e' he' v hv
        rcases List.mem_cons.mp he' with rfl | he'
        · rcases List.mem_cons.mp hv with rfl | hv
          · exact hlength
          · exact hs e List.mem_cons_self v hv
        · exact hrest e' he' v hv
      · intro e' he'
        rcases List.mem_cons.mp he' with rfl | he'
        · exact hs _ List.mem_cons_self
        · exact ih hrest e' he'

/-- The sentences of length at most `n` that begin with one from the shelves and go on with what may
fill the room that is left. -/
def prepend (n : Nat) (s : Shelves) (tails : Nat → List Sentence) : List Sentence :=
  s.flatMap fun (k, us) =>
    if k ≤ n then
      let vs := tails (n - k)
      us.flatMap fun u => vs.map (u ++ ·)
    else []

theorem mem_prepend {n : Nat} {s : Shelves} {tails : Nat → List Sentence} (hs : Sorted s)
    {w : Sentence} : w ∈ prepend n s tails ↔
      ∃ u, Holds s u ∧ u.length ≤ n ∧ ∃ v ∈ tails (n - u.length), u ++ v = w := by
  simp only [prepend, List.mem_flatMap]
  constructor
  · rintro ⟨⟨k, us⟩, he, hw⟩
    split at hw
    · rename_i hk
      obtain ⟨u, hu, hw⟩ := List.mem_flatMap.mp hw
      obtain rfl : u.length = k := hs _ he u hu
      exact ⟨u, ⟨_, he, hu⟩, hk, List.mem_map.mp hw⟩
    · exact absurd hw List.not_mem_nil
  · rintro ⟨u, ⟨⟨k, us⟩, he, hu⟩, hk, hw⟩
    obtain rfl : u.length = k := hs _ he u hu
    exact ⟨_, he, by rw [if_pos hk]; exact List.mem_flatMap.mpr ⟨u, hu, List.mem_map.mpr hw⟩⟩

end Shelves

structure SentenceTable where
  shelves : Trie Shelves

namespace SentenceTable

def shelvesOf (t : SentenceTable) (A : Name) : Shelves :=
  (t.shelves.find? (Coded.code A)).getD []

def empty : SentenceTable := ⟨.empty⟩

def add (t : SentenceTable) (f : Fact) : SentenceTable :=
  ⟨t.shelves.update (fun s => (s.getD []).add f.2.length f.2) (Coded.code f.1)⟩

def ofFacts (facts : List Fact) : SentenceTable := facts.foldl add empty

theorem shelvesOf_add (t : SentenceTable) (f : Fact) (A : Name) : (t.add f).shelvesOf A =
    if A = f.1 then (t.shelvesOf A).add f.2.length f.2 else t.shelvesOf A := by
  rw [shelvesOf, add, Trie.find?_update (Coded.code_ne_nil f.1)]
  by_cases h : A = f.1
  · simp [h, shelvesOf]
  · have hcode : Coded.code A ≠ Coded.code f.1 := fun e => h (Coded.eq_of_code_eq e)
    simp [h, hcode, shelvesOf]

theorem sorted_shelvesOf_foldl {t : SentenceTable} {A : Name} (h : (t.shelvesOf A).Sorted)
    (facts : List Fact) : ((facts.foldl add t).shelvesOf A).Sorted := by
  induction facts generalizing t with
  | nil => exact h
  | cons f facts ih =>
      apply ih
      rw [shelvesOf_add]
      split
      · exact h.add f.2
      · exact h

theorem holds_shelvesOf_foldl {t : SentenceTable} {facts : List Fact} {A : Name} {u : Sentence} :
    ((facts.foldl add t).shelvesOf A).Holds u ↔ (t.shelvesOf A).Holds u ∨ (A, u) ∈ facts := by
  induction facts generalizing t with
  | nil => simp
  | cons f facts ih =>
      rw [List.foldl_cons, ih, shelvesOf_add, List.mem_cons, ← or_assoc, Prod.ext_iff]
      by_cases h : A = f.1
      · simp [h, Shelves.holds_add, or_comm]
      · simp [h]

theorem sorted_shelvesOf_ofFacts (facts : List Fact) (A : Name) :
    ((ofFacts facts).shelvesOf A).Sorted :=
  sorted_shelvesOf_foldl (fun e he => absurd he (by simp [empty, shelvesOf])) facts

theorem holds_shelvesOf_ofFacts {facts : List Fact} {A : Name} {u : Sentence} :
    ((ofFacts facts).shelvesOf A).Holds u ↔ (A, u) ∈ facts := by
  rw [ofFacts, holds_shelvesOf_foldl]
  simp [empty, shelvesOf]

end SentenceTable

end ContextFree
