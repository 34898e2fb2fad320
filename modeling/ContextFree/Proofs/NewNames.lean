import Mathlib
import ContextFree.Proofs.Normalization

/-!
# The names that normalization brings in

Only the passage to binary form brings in non-terminals, and their names are none of those of the
grammar that it is given. By then the symbols that are of no use have been dropped. So a new
non-terminal has the name of no symbol of the input but, it may be, of a terminal that occurs in no
word of the language (`names_of_new_nonTerminals`), and this does happen (`exists_shared_name`).
-/

namespace ContextFree

namespace Stage

variable {g : Grammar}

theorem nonTerminals_foldl_subset (stages : List Stage) (hstages : binary ∉ stages) {A : Name}
    (hA : A ∈ (stages.foldl (fun g stage => stage.apply g) g).nonTerminals) :
    A ∈ g.nonTerminals := by
  induction stages generalizing g with
  | nil => exact hA
  | cons stage stages ih =>
      have hstage : stage ≠ binary := (List.ne_of_not_mem_cons hstages).symm
      exact stage.nonTerminals_apply_subset hstage (ih (List.not_mem_of_not_mem_cons hstages) hA)

end Stage

namespace Grammar

variable {g : Grammar} {A : Name}

theorem Valid.mem_names_iff (hg : g.Valid) :
    A ∈ g.names ↔ A ∈ g.nonTerminals ∨ A ∈ g.terminals := by
  have hdeclared : ∀ x : Symbol, g.Declares x → x.name ∈ g.nonTerminals ∨ x.name ∈ g.terminals := by
    intro x hx
    cases x with
    | terminal a => exact Or.inr hx
    | nonTerminal B => exact Or.inl hx
  constructor
  · intro hA
    simp only [names, List.mem_append, List.mem_flatMap, OrderedSet.mem_toList,
      List.mem_singleton] at hA
    rcases hA with ((hA | hA) | rfl) | ⟨p, hp, hA⟩
    · exact Or.inl hA
    · exact Or.inr hA
    · exact Or.inl hg.1
    · rcases List.mem_cons.mp hA with rfl | hA
      · exact Or.inl (hg.2.lhs_mem hp)
      · obtain ⟨x, hx, rfl⟩ := List.mem_map.mp hA
        exact hdeclared x (hg.2.declares_of_mem_rhs hp hx)
  · rintro (hA | hA)
    · exact nonTerminal_mem_names hA
    · exact terminal_mem_names hA

/-- The grammar that goes over to binary form. -/
def cleaned (g : Grammar) : Grammar := g.epsilonFree.unitFree.productivePart.accessiblePart

theorem Consistent.cleaned (hg : g.Consistent) : g.cleaned.Consistent :=
  (hg.epsilonFree.unitFree.restrict _).restrict _

theorem Consistent.mem_terminals_cleaned_iff (hg : g.Consistent) {a : Name} :
    a ∈ g.cleaned.terminals ↔ ∃ u, g.Language u ∧ a ∈ u :=
  hg.mem_terminals_afterwards_iff [.unitFree]

theorem Consistent.mem_nonTerminals_normalForm (hg : g.Consistent)
    (hA : A ∈ g.normalForm.nonTerminals) : A ∈ g.nonTerminals ∨ A ∉ g.cleaned.names := by
  have hbinary : A ∈ g.cleaned.binaryForm.nonTerminals :=
    Stage.nonTerminals_foldl_subset [.unitFree, .productive, .accessible] (by decide) hA
  refine (hg.cleaned.mem_nonTerminals_binaryForm hbinary).imp_left fun hold => ?_
  exact Stage.nonTerminals_foldl_subset [.epsilonFree, .unitFree, .productive, .accessible]
    (by decide) hold

/-- Two letters, and a terminal that is of no use and has the name of a proxy. -/
def doubled : Grammar where
  nonTerminals := .ofList [.ofChar 'S']
  terminals := .ofList [.ofChar 'a', ⟨['T', '_', 'a'], List.cons_ne_nil _ _⟩]
  start := .ofChar 'S'
  productions := .ofList
    [⟨.ofChar 'S', [.terminal (.ofChar 'a'), .terminal (.ofChar 'a')]⟩]

theorem valid_doubled : doubled.Valid := validate_eq_ok_iff.mp rfl

theorem proxy_mem_outcome_doubled : ⟨['T', '_', 'a'], List.cons_ne_nil _ _⟩ ∈
    doubled.normalize.outcome.nonTerminals := OrderedSet.contains_iff.mp (by cbv)

end Grammar

namespace Normalization

open Grammar

variable {g : Grammar}

/-- A non-terminal that normalization brings in has the name of no symbol of the input, but for
terminals that occur in no word of the language. -/
theorem names_of_new_nonTerminals (hg : g.Valid) :
    (∀ A ∈ g.normalize.outcome.nonTerminals, A ∉ g.nonTerminals →
        (A ∈ g.names ↔ A ∈ g.terminals ∧ ∀ u, g.Language u → A ∉ u)) ∧
      ((∀ a ∈ g.terminals, ∃ u, g.Language u ∧ a ∈ u) →
        ∀ A ∈ g.normalize.outcome.nonTerminals, A ∉ g.nonTerminals → A ∉ g.names) := by
  have hnames : ∀ A ∈ g.normalize.outcome.nonTerminals, A ∉ g.nonTerminals →
      (A ∈ g.names ↔ A ∈ g.terminals ∧ ∀ u, g.Language u → A ∉ u) := by
    intro A hA hnew
    rw [outcome_normalize] at hA
    have hfree := (hg.2.mem_nonTerminals_normalForm hA).resolve_left hnew
    rw [hg.mem_names_iff, or_iff_right hnew]
    refine ⟨fun ha => ⟨ha, fun u hu hmem => hfree ?_⟩, And.left⟩
    exact terminal_mem_names (hg.2.mem_terminals_cleaned_iff.mpr ⟨u, hu, hmem⟩)
  refine ⟨hnames, fun hused A hA hnew hmem => ?_⟩
  obtain ⟨ha, hnone⟩ := (hnames A hA hnew).mp hmem
  obtain ⟨u, hu, hau⟩ := hused A ha
  exact hnone u hu hau

theorem names_of_new_nonTerminals_doubled : doubled.Valid ∧
    ∀ u, doubled.Language u → (⟨['T', '_', 'a'], List.cons_ne_nil _ _⟩ : Name) ∉ u := by
  obtain ⟨hnames, _⟩ := names_of_new_nonTerminals valid_doubled
  have hshared := hnames _ proxy_mem_outcome_doubled (by decide)
  exact ⟨valid_doubled, (hshared.mp (by decide)).2⟩

/-- A terminal that has been dropped can lend its name to a proxy. -/
theorem exists_shared_name : doubled.Valid ∧
    ∃ A ∈ doubled.normalize.outcome.nonTerminals, A ∉ doubled.nonTerminals ∧ A ∈ doubled.names :=
  ⟨valid_doubled, _, proxy_mem_outcome_doubled, by decide, by decide⟩

end Normalization

end ContextFree
