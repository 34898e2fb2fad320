import ContextFree.Generating

/-!
# Grammars without ε-productions

Every production with a nonempty right-hand side is replaced by its variants, in which any of the
nullable non-terminals are left out; empty variants are dropped. What is lost is the empty word.
-/

namespace ContextFree

namespace Grammar

/-- The words that remain when some occurrences of optional symbols are left out: first those
that keep the first symbol, then those without it. -/
def variants (optional : Symbol → Bool) : Word → List Word
  | [] => [[]]
  | x :: w =>
    (variants optional w).map (x :: ·) ++ if optional x then variants optional w else []

@[simp] theorem variants_nil (optional : Symbol → Bool) : variants optional [] = [[]] := rfl

theorem sublist_of_mem_variants {optional : Symbol → Bool} {w v : Word}
    (h : v ∈ variants optional w) : v.Sublist w := by
  induction w generalizing v with
  | nil =>
      rw [variants_nil, List.mem_singleton] at h
      exact h ▸ List.Sublist.refl []
  | cons x w ih =>
      rcases List.mem_append.mp h with hkeep | hdrop
      · obtain ⟨v', hv', rfl⟩ := List.mem_map.mp hkeep
        exact (ih hv').cons_cons x
      · split at hdrop
        · exact (ih hdrop).cons x
        · exact absurd hdrop List.not_mem_nil

/-- The productions that take the place of one with a nonempty right-hand side. -/
def epsilonVariants (nullable : OrderedSet Name) (p : Production) : List Production :=
  ((variants (covers (fun _ => false) nullable) p.rhs).filter (· ≠ [])).map fun w => ⟨p.lhs, w⟩

/-- Each production that stays, with the variants that take its place. -/
def epsilonReplacements (g : Grammar) : List (Production × List Production) :=
  let nullable := g.nullable
  (g.productions.toList.filter fun p => !p.isErasing).map fun p =>
    (p, epsilonVariants nullable p)

theorem mem_epsilonVariants {nullable : OrderedSet Name} {p q : Production} :
    q ∈ epsilonVariants nullable p ↔
      q.lhs = p.lhs ∧ q.rhs ≠ [] ∧ q.rhs ∈ variants (covers (fun _ => false) nullable) p.rhs := by
  simp only [epsilonVariants, List.mem_map, List.mem_filter, decide_eq_true_eq]
  constructor
  · rintro ⟨w, ⟨hw, hne⟩, rfl⟩
    exact ⟨rfl, hne, hw⟩
  · rintro ⟨hlhs, hne, hw⟩
    exact ⟨q.rhs, ⟨hw, hne⟩, by cases q; simp_all⟩

def epsilonFree (g : Grammar) : Grammar :=
  { g with productions := .ofList (g.epsilonReplacements.flatMap Prod.snd) }

theorem mem_productions_epsilonFree {g : Grammar} {q : Production} :
    q ∈ g.epsilonFree.productions ↔
      ∃ p ∈ g.productions, p.rhs ≠ [] ∧ q ∈ epsilonVariants g.nullable p := by
  have hne : ∀ p : Production, p.isErasing = false ↔ p.rhs ≠ [] := by
    intro p
    rw [← Bool.not_eq_true, Production.isErasing_iff]
  simp only [epsilonFree, epsilonReplacements, OrderedSet.mem_ofList, List.mem_flatMap,
    List.mem_map, List.mem_filter, Bool.not_eq_true', hne, OrderedSet.mem_toList]
  constructor
  · rintro ⟨_, ⟨p, ⟨hp, hrhs⟩, rfl⟩, hq⟩
    exact ⟨p, hp, hrhs, hq⟩
  · rintro ⟨p, hp, hrhs, hq⟩
    exact ⟨_, ⟨p, ⟨hp, hrhs⟩, rfl⟩, hq⟩

end Grammar

end ContextFree
