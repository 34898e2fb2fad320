import ContextFree.Exploration
import ContextFree.Grammar
import ContextFree.SentenceTable

/-!
# Short words of the language

The sentences of bounded length that a grammar derives. Facts `(A, u)`, saying that `A` derives the
sentence `u`, are collected until no production yields a new one; only facts with sentences up to
the bound are kept, which loses nothing, as the parts of a sentence are no longer than it. There
are finitely many sentences up to a length over the letters of the productions, so this ends.

Every round spells right-hand sides with at least one fact that the round before has found. What is
collected is closed under the productions up to the bound (`mem_facts_of_spelled`), and nothing else
is collected (`facts_induction`).
-/

namespace ContextFree

/-- The word derives the sentence when its non-terminals derive what the facts say. -/
inductive Spelled (facts : List Fact) : Word → Sentence → Prop where
  | nil : Spelled facts [] []
  | terminal (a : Name) {w : Word} {u : Sentence} (h : Spelled facts w u) :
    Spelled facts (.terminal a :: w) (a :: u)
  | nonTerminal {A : Name} {w : Word} {u v : Sentence} (hfact : (A, u) ∈ facts)
    (h : Spelled facts w v) : Spelled facts (.nonTerminal A :: w) (u ++ v)

/-- The sentences that can stand for a symbol: those known before the last round, and those that
came with it. -/
structure Choices where
  old : Shelves
  fresh : Shelves

namespace Choices

def ofSymbol (old fresh : SentenceTable) : Symbol → Choices
  | .terminal a => ⟨[(1, [[a]])], []⟩
  | .nonTerminal A => ⟨old.shelvesOf A, fresh.shelvesOf A⟩

/-- The sentences of length at most `n` that consist of one choice after the other. -/
def concatenations : Nat → List Choices → List Sentence
  | _, [] => [[]]
  | n, c :: cs => (c.old ++ c.fresh).prepend n fun m => concatenations m cs

/-- Those of them in which some choice came with the last round. -/
def freshConcatenations : Nat → List Choices → List Sentence
  | _, [] => []
  | n, c :: cs =>
    if (c :: cs).all fun c => c.fresh.isEmpty then []
    else
      c.fresh.prepend n (fun m => concatenations m cs) ++
        c.old.prepend n fun m => freshConcatenations m cs

section

variable {old fresh : List Fact}

theorem sorted_old (x : Symbol) :
    (ofSymbol (.ofFacts old) (.ofFacts fresh) x).old.Sorted := by
  cases x with
  | terminal a =>
      intro e he u hu
      obtain rfl := List.mem_singleton.mp he
      rw [List.mem_singleton.mp hu]
      rfl
  | nonTerminal A => exact SentenceTable.sorted_shelvesOf_ofFacts old A

theorem sorted_fresh (x : Symbol) :
    (ofSymbol (.ofFacts old) (.ofFacts fresh) x).fresh.Sorted := by
  cases x with
  | terminal a => exact fun e he => absurd he List.not_mem_nil
  | nonTerminal A => exact SentenceTable.sorted_shelvesOf_ofFacts fresh A

theorem spelled_cons_iff {x : Symbol} {w : Word} {u : Sentence} :
    Spelled (old ++ fresh) (x :: w) u ↔
      ∃ v, ((ofSymbol (.ofFacts old) (.ofFacts fresh) x).old.Holds v ∨
        (ofSymbol (.ofFacts old) (.ofFacts fresh) x).fresh.Holds v) ∧
        ∃ v', Spelled (old ++ fresh) w v' ∧ v ++ v' = u := by
  cases x with
  | terminal a =>
      simp only [ofSymbol, Shelves.holds_cons, Shelves.not_holds_nil, List.mem_singleton, or_false]
      constructor
      · rintro (_ | ⟨_, h⟩)
        exact ⟨[a], rfl, _, h, rfl⟩
      · rintro ⟨_, rfl, v', h, rfl⟩
        exact h.terminal a
  | nonTerminal A =>
      simp only [ofSymbol, SentenceTable.holds_shelvesOf_ofFacts, ← List.mem_append]
      constructor
      · rintro (_ | _ | ⟨hfact, h⟩)
        exact ⟨_, hfact, _, h, rfl⟩
      · rintro ⟨v, hfact, v', h, rfl⟩
        exact .nonTerminal hfact h

theorem spelled_old_cons {x : Symbol} {w : Word} {v v' : Sentence}
    (hv : (ofSymbol (.ofFacts old) (.ofFacts fresh) x).old.Holds v) (h : Spelled old w v') :
    Spelled old (x :: w) (v ++ v') := by
  cases x with
  | terminal a =>
      simp only [ofSymbol, Shelves.holds_cons, Shelves.not_holds_nil, List.mem_singleton,
        or_false] at hv
      exact hv ▸ h.terminal a
  | nonTerminal A => exact .nonTerminal (SentenceTable.holds_shelvesOf_ofFacts.mp hv) h

/-- The sentences up to a length that a word spells are found. -/
theorem mem_concatenations {n : Nat} {w : Word} {u : Sentence} :
    u ∈ concatenations n (w.map (ofSymbol (.ofFacts old) (.ofFacts fresh))) ↔
      u.length ≤ n ∧ Spelled (old ++ fresh) w u := by
  induction w generalizing n u with
  | nil =>
      rw [List.map_nil, concatenations, List.mem_singleton]
      constructor
      · rintro rfl
        exact ⟨Nat.zero_le n, .nil⟩
      · rintro ⟨_, h⟩
        cases h
        rfl
  | cons x w ih =>
      rw [List.map_cons, concatenations,
        Shelves.mem_prepend ((sorted_old x).append (sorted_fresh x)), spelled_cons_iff]
      constructor
      · rintro ⟨v, hv, hlength, v', hv', rfl⟩
        obtain ⟨hlength', h⟩ := ih.mp hv'
        refine ⟨?_, v, Shelves.holds_append.mp hv, v', h, rfl⟩
        rw [List.length_append]
        omega
      · rintro ⟨hlength, v, hv, v', h, rfl⟩
        rw [List.length_append] at hlength
        exact ⟨v, Shelves.holds_append.mpr hv, by omega, v', ih.mpr ⟨by omega, h⟩, rfl⟩

theorem spelled_old_of_all_isEmpty {w : Word} {u : Sentence} (h : Spelled (old ++ fresh) w u)
    (hempty : ∀ x ∈ w, (ofSymbol (.ofFacts old) (.ofFacts fresh) x).fresh = []) :
    Spelled old w u := by
  induction w generalizing u with
  | nil =>
      cases h
      exact .nil
  | cons x w ih =>
      obtain ⟨v, hv, v', hv', rfl⟩ := spelled_cons_iff.mp h
      rw [hempty x List.mem_cons_self] at hv
      exact spelled_old_cons (hv.resolve_right (Shelves.not_holds_nil v))
        (ih hv' fun y hy => hempty y (List.mem_cons_of_mem x hy))

theorem spelled_of_mem_freshConcatenations {n : Nat} {w : Word} {u : Sentence}
    (h : u ∈ freshConcatenations n (w.map (ofSymbol (.ofFacts old) (.ofFacts fresh)))) :
    u.length ≤ n ∧ Spelled (old ++ fresh) w u := by
  induction w generalizing n u with
  | nil => exact absurd h List.not_mem_nil
  | cons x w ih =>
      rw [List.map_cons, freshConcatenations] at h
      split at h
      · exact absurd h List.not_mem_nil
      rw [List.mem_append, Shelves.mem_prepend (sorted_fresh x),
        Shelves.mem_prepend (sorted_old x)] at h
      rw [spelled_cons_iff]
      rcases h with ⟨v, hv, hlength, v', hv', rfl⟩ | ⟨v, hv, hlength, v', hv', rfl⟩
      · obtain ⟨hlength', h⟩ := mem_concatenations.mp hv'
        exact ⟨by rw [List.length_append]; omega, v, Or.inr hv, v', h, rfl⟩
      · obtain ⟨hlength', h⟩ := ih hv'
        exact ⟨by rw [List.length_append]; omega, v, Or.inl hv, v', h, rfl⟩

/-- What a word spells is spelled without the fresh facts, or is found to be new. -/
theorem spelled_old_or_mem_freshConcatenations {n : Nat} {w : Word} {u : Sentence}
    (hlength : u.length ≤ n) (h : Spelled (old ++ fresh) w u) : Spelled old w u ∨
      u ∈ freshConcatenations n (w.map (ofSymbol (.ofFacts old) (.ofFacts fresh))) := by
  induction w generalizing n u with
  | nil =>
      cases h
      exact Or.inl .nil
  | cons x w ih =>
      rw [List.map_cons, freshConcatenations]
      split
      · rename_i hempty
        refine Or.inl (spelled_old_of_all_isEmpty h fun y hy => ?_)
        rw [← List.map_cons, List.all_map, List.all_eq_true] at hempty
        exact List.isEmpty_iff.mp (hempty y hy)
      rw [List.mem_append, Shelves.mem_prepend (sorted_fresh x),
        Shelves.mem_prepend (sorted_old x)]
      obtain ⟨v, hv, v', hv', rfl⟩ := spelled_cons_iff.mp h
      rw [List.length_append] at hlength
      rcases hv with hv | hv
      · rcases ih (n := n - v.length) (by omega) hv' with hold | hmem
        · exact Or.inl (spelled_old_cons hv hold)
        · exact Or.inr (Or.inr ⟨v, hv, by omega, v', hmem, rfl⟩)
      · exact Or.inr (Or.inl ⟨v, hv, by omega, v',
          mem_concatenations.mpr ⟨by omega, hv'⟩, rfl⟩)

end

end Choices

namespace Grammar

def sentencesOf (facts : List Fact) (A : Name) : List Sentence :=
  facts.filterMap fun f => if f.1 = A then some f.2 else none

@[simp] theorem mem_sentencesOf {facts : List Fact} {A : Name} {u : Sentence} :
    u ∈ sentencesOf facts A ↔ (A, u) ∈ facts := by
  simp only [sentencesOf, List.mem_filterMap]
  constructor
  · rintro ⟨⟨B, v⟩, hmem, h⟩
    split at h
    · cases h
      rename_i hB
      exact hB ▸ hmem
    · exact absurd h (by simp)
  · exact fun h => ⟨_, h, by simp⟩

/-- The facts that need no others, with sentences of length at most `n`. -/
def firstFacts (g : Grammar) (n : Nat) : List Fact :=
  g.productions.toList.flatMap fun p =>
    (Choices.concatenations n (p.rhs.map (.ofSymbol (.ofFacts []) (.ofFacts [])))).map fun u =>
      (p.lhs, u)

/-- The facts that follow from the old facts, which the table holds, and the fresh ones with the
help of at least one of the fresh ones. -/
def furtherFacts (g : Grammar) (n : Nat) (old : SentenceTable) (fresh : List Fact) : List Fact :=
  let fresh := SentenceTable.ofFacts fresh
  g.productions.toList.flatMap fun p =>
    (Choices.freshConcatenations n (p.rhs.map (.ofSymbol old fresh))).map fun u => (p.lhs, u)

/-- What the productions say in one step, given some facts and a bound on the length. -/
def Follows (g : Grammar) (n : Nat) (facts : List Fact) (f : Fact) : Prop :=
  ∃ p ∈ g.productions, p.lhs = f.1 ∧ f.2.length ≤ n ∧ Spelled facts p.rhs f.2

variable {g : Grammar} {n : Nat}

theorem mem_firstFacts {f : Fact} : f ∈ g.firstFacts n ↔ g.Follows n [] f := by
  simp only [firstFacts, List.mem_flatMap, List.mem_map, Choices.mem_concatenations]
  constructor
  · rintro ⟨p, hp, u, ⟨hlength, h⟩, rfl⟩
    exact ⟨p, hp, rfl, hlength, h⟩
  · rintro ⟨p, hp, hlhs, hlength, h⟩
    exact ⟨p, hp, f.2, ⟨hlength, h⟩, Prod.ext hlhs rfl⟩

theorem follows_of_mem_furtherFacts {old fresh : List Fact} {f : Fact}
    (h : f ∈ g.furtherFacts n (.ofFacts old) fresh) : g.Follows n (old ++ fresh) f := by
  obtain ⟨p, hp, h⟩ := List.mem_flatMap.mp h
  obtain ⟨u, hu, rfl⟩ := List.mem_map.mp h
  obtain ⟨hlength, hspelled⟩ := Choices.spelled_of_mem_freshConcatenations hu
  exact ⟨p, hp, rfl, hlength, hspelled⟩

theorem follows_old_or_mem_furtherFacts {old fresh : List Fact} {f : Fact}
    (h : g.Follows n (old ++ fresh) f) :
    g.Follows n old f ∨ f ∈ g.furtherFacts n (.ofFacts old) fresh := by
  obtain ⟨p, hp, hlhs, hlength, hspelled⟩ := h
  rcases Choices.spelled_old_or_mem_freshConcatenations hlength hspelled with hold | hmem
  · exact Or.inl ⟨p, hp, hlhs, hlength, hold⟩
  · exact Or.inr (List.mem_flatMap.mpr
      ⟨p, hp, List.mem_map.mpr ⟨f.2, hmem, Prod.ext hlhs rfl⟩⟩)

def letters (g : Grammar) : List Name :=
  g.productions.toList.flatMap fun p => Word.terminals p.rhs

def InBounds (g : Grammar) (n : Nat) (f : Fact) : Prop :=
  f.1 ∈ g.heads ∧ f.2.length ≤ n ∧ ∀ a ∈ f.2, a ∈ g.letters

theorem exists_list_sentences (letters : List Name) (n : Nat) :
    ∃ l : List Sentence, ∀ u : Sentence, u.length ≤ n → (∀ a ∈ u, a ∈ letters) → u ∈ l := by
  induction n with
  | zero =>
      refine ⟨[[]], fun u hu _ => ?_⟩
      rw [List.length_eq_zero_iff.mp (Nat.le_zero.mp hu)]
      exact List.mem_singleton.mpr rfl
  | succ n ih =>
      obtain ⟨l, hl⟩ := ih
      refine ⟨[] :: letters.flatMap fun a => l.map (a :: ·), fun u hu hletters => ?_⟩
      cases u with
      | nil => exact List.mem_cons_self
      | cons a u =>
          have htail : u ∈ l := hl u (Nat.le_of_succ_le_succ hu)
            fun b hb => hletters b (List.mem_cons_of_mem a hb)
          exact List.mem_cons_of_mem _ (List.mem_flatMap.mpr
            ⟨a, hletters a List.mem_cons_self, List.mem_map.mpr ⟨u, htail, rfl⟩⟩)

theorem exists_list_inBounds (g : Grammar) (n : Nat) :
    ∃ l : List Fact, ∀ f, g.InBounds n f → f ∈ l := by
  obtain ⟨l, hl⟩ := exists_list_sentences g.letters n
  refine ⟨g.heads.flatMap fun A => l.map fun u => (A, u), fun f hf => ?_⟩
  exact List.mem_flatMap.mpr ⟨f.1, hf.1, List.mem_map.mpr ⟨f.2, hl f.2 hf.2.1 hf.2.2, rfl⟩⟩

theorem mem_letters_of_spelled {facts : List Fact} {letters : List Name} {w : Word}
    {u : Sentence} (hfacts : ∀ f ∈ facts, ∀ a ∈ f.2, a ∈ letters)
    (hw : ∀ a, .terminal a ∈ w → a ∈ letters) (h : Spelled facts w u) : ∀ a ∈ u, a ∈ letters := by
  induction h with
  | nil => exact fun a ha => absurd ha List.not_mem_nil
  | terminal a _ ih =>
      have hrest := ih fun b hb => hw b (List.mem_cons_of_mem _ hb)
      exact List.forall_mem_cons.mpr ⟨hw a List.mem_cons_self, hrest⟩
  | nonTerminal hfact _ ih =>
      have hrest := ih fun b hb => hw b (List.mem_cons_of_mem _ hb)
      exact fun a ha => (List.mem_append.mp ha).elim (hfacts _ hfact a) (hrest a)

theorem Follows.inBounds {facts : List Fact} {f : Fact} (h : g.Follows n facts f)
    (hfacts : ∀ e ∈ facts, g.InBounds n e) : g.InBounds n f := by
  obtain ⟨p, hp, hlhs, hlength, hspelled⟩ := h
  refine ⟨mem_heads.mpr ⟨p, hp, hlhs⟩, hlength, ?_⟩
  exact mem_letters_of_spelled (fun e he => (hfacts e he).2.2)
    (fun a ha => List.mem_flatMap.mpr ⟨p, hp, Word.mem_terminals.mpr ha⟩) hspelled

def facts (g : Grammar) (n : Nat) : OrderedSet Fact :=
  OrderedSet.explore (p := g.InBounds n) SentenceTable.add .empty (g.furtherFacts n)
    (g.exists_list_inBounds n)
    (fun _ _ h _ hf => (follows_of_mem_furtherFacts hf).inBounds h)
    (.ofList (g.firstFacts n))
    (fun _ hf => (mem_firstFacts.mp (OrderedSet.mem_ofList.mp hf)).inBounds
      fun _ he => absurd he List.not_mem_nil)
    .empty (OrderedSet.ofList (g.firstFacts n)).toList ⟨[], rfl, rfl⟩

/-- What follows from the facts, up to the bound, is among them. -/
theorem mem_facts_of_spelled {p : Production} (hp : p ∈ g.productions) {u : Sentence}
    (hlength : u.length ≤ n) (h : Spelled (g.facts n).toList p.rhs u) :
    (p.lhs, u) ∈ g.facts n := by
  refine OrderedSet.mem_explore_of_follows (g.Follows n)
    (fun _ _ _ hf => follows_old_or_mem_furtherFacts hf) _ _ _ _ _ (fun old hold f hf => ?_) _
    ⟨p, hp, rfl, hlength, h⟩
  rw [List.self_eq_append_left.mp hold] at hf
  exact OrderedSet.mem_ofList.mpr (mem_firstFacts.mpr hf)

/-- What every production hands on from facts to what they spell holds of all facts. -/
theorem facts_induction {motive : Fact → Prop}
    (hstep : ∀ p ∈ g.productions, ∀ facts : List Fact, (∀ f ∈ facts, motive f) →
      ∀ u, u.length ≤ n → Spelled facts p.rhs u → motive (p.lhs, u)) :
    ∀ f ∈ g.facts n, motive f := by
  have hfollows : ∀ facts : List Fact, (∀ f ∈ facts, motive f) →
      ∀ f, g.Follows n facts f → motive f := by
    rintro facts hfacts ⟨A, u⟩ ⟨p, hp, rfl, hlength, h⟩
    exact hstep p hp facts hfacts u hlength h
  refine OrderedSet.explore_induction
    (fun old fresh h f hf => hfollows _ h f (follows_of_mem_furtherFacts hf)) _ _ _ _ _
    fun f hf => ?_
  exact hfollows [] (fun e he => absurd he List.not_mem_nil) f
    (mem_firstFacts.mp (OrderedSet.mem_ofList.mp hf))

/-- Shorter sentences come first, those of one length in lexicographic order. -/
def shortlex (u v : Sentence) : Bool :=
  decide (u.length < v.length ∨ (u.length = v.length ∧ u ≤ v))

/-- The sentences of length at most `n` that the grammar generates, shortest first. -/
def shortWords (g : Grammar) (n : Nat) : List Sentence :=
  (sentencesOf (g.facts n).toList g.start).mergeSort shortlex

end Grammar

end ContextFree
