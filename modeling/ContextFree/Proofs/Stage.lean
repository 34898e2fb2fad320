import ContextFree.Normalization
import ContextFree.Proofs.BinaryForm
import ContextFree.Proofs.EpsilonFree
import ContextFree.Proofs.UnitFree
import ContextFree.Proofs.Useful

/-!
# What every pass preserves

Consistency alone is not handed on by all that can be done to a grammar: a pass may drop the start
symbol, which is declared again later on, and by then a terminal could have its name. A well-formed
grammar is consistent and does not let that happen. Every pass keeps a grammar well-formed, and
keeps its non-empty words, the passage to binary form only where there are no ε-productions.
-/

namespace ContextFree

namespace Grammar

/-- Consistent, and the start symbol, declared or not, has the name of no terminal. -/
structure WellFormed (g : Grammar) : Prop where
  consistent : g.Consistent
  start_not_mem_terminals : g.start ∉ g.terminals

variable {g : Grammar}

theorem Valid.wellFormed (hg : g.Valid) : g.WellFormed :=
  ⟨hg.2, fun hstart => hg.2.1 g.start hstart hg.1⟩

theorem Consistent.lhs_ne_start (hg : g.Consistent) (hstart : ¬ g.DeclaresStart) :
    ∀ p ∈ g.productions, p.lhs ≠ g.start :=
  fun _ hp heq => hstart (heq ▸ hg.lhs_mem hp : g.start ∈ g.nonTerminals)

end Grammar

namespace Stage

variable {g : Grammar}

theorem start_apply (stage : Stage) (g : Grammar) : (stage.apply g).start = g.start := by
  cases stage <;> rfl

theorem terminals_apply_subset (stage : Stage) {a : Name} (ha : a ∈ (stage.apply g).terminals) :
    a ∈ g.terminals := by
  cases stage with
  | epsilonFree => exact ha
  | unitFree => exact ha
  | productive => exact (Grammar.mem_terminals_restrict.mp ha).1
  | accessible => exact (Grammar.mem_terminals_restrict.mp ha).1
  | binary => exact (Grammar.mem_terminals_binaryForm.mp ha).1

/-- Only binary form brings in non-terminals. -/
theorem nonTerminals_apply_subset (stage : Stage) (hstage : stage ≠ binary) {A : Name}
    (hA : A ∈ (stage.apply g).nonTerminals) : A ∈ g.nonTerminals := by
  cases stage with
  | epsilonFree => exact hA
  | unitFree => exact hA
  | productive => exact (Grammar.mem_nonTerminals_restrict.mp hA).1
  | accessible => exact (Grammar.mem_nonTerminals_restrict.mp hA).1
  | binary => exact absurd rfl hstage

theorem consistent_apply (stage : Stage) (hg : g.Consistent) : (stage.apply g).Consistent := by
  cases stage with
  | epsilonFree => exact hg.epsilonFree
  | unitFree => exact hg.unitFree
  | productive => exact hg.restrict _
  | accessible => exact hg.restrict _
  | binary => exact hg.binaryForm

theorem wellFormed_apply (stage : Stage) (hg : g.WellFormed) : (stage.apply g).WellFormed := by
  refine ⟨stage.consistent_apply hg.consistent, fun hstart => ?_⟩
  rw [stage.start_apply] at hstart
  exact hg.start_not_mem_terminals (stage.terminals_apply_subset hstart)

theorem rhs_ne_nil_apply (stage : Stage) (hne : ∀ p ∈ g.productions, p.rhs ≠ []) :
    ∀ p ∈ (stage.apply g).productions, p.rhs ≠ [] := by
  intro p hp
  cases stage with
  | epsilonFree => exact Grammar.epsilonFree_rhs_ne_nil hp
  | unitFree =>
      obtain ⟨_, B, _, hmem⟩ := Grammar.mem_productions_unitFree.mp hp
      exact hne ⟨B, p.rhs⟩ hmem
  | productive => exact hne p (Grammar.mem_productions_of_restrict hp)
  | accessible => exact hne p (Grammar.mem_productions_of_restrict hp)
  | binary => exact Production.rhs_ne_nil_of_isBinary (Grammar.isBinary_of_mem_binaryForm hp)

/-- The empty word is lost with the ε-productions, and only binary form loses more with them. -/
theorem language_apply_iff_of_ne_nil (stage : Stage) (hg : g.Consistent)
    (hbinary : stage = binary → ∀ p ∈ g.productions, p.rhs ≠ []) {u : Sentence} (hu : u ≠ []) :
    (stage.apply g).Language u ↔ g.Language u := by
  cases stage with
  | epsilonFree => exact Grammar.generates_epsilonFree_iff.trans (and_iff_left hu)
  | unitFree => exact Grammar.generates_unitFree_iff
  | productive => exact Grammar.generates_productivePart_iff
  | accessible => exact hg.language_accessiblePart_iff
  | binary => exact hg.language_binaryForm_iff (hbinary rfl)

/-- Without ε-productions there is no empty word to lose. -/
theorem language_apply_iff (stage : Stage) (hg : g.Consistent)
    (hne : ∀ p ∈ g.productions, p.rhs ≠ []) {u : Sentence} :
    (stage.apply g).Language u ↔ g.Language u := by
  by_cases hu : u = []
  · have hbefore : ¬ g.Language u := fun hlang => hlang.ne_nil hne hu
    have hafter : ¬ (stage.apply g).Language u := fun hlang =>
      hlang.ne_nil (stage.rhs_ne_nil_apply hne) hu
    exact iff_of_false hafter hbefore
  · exact stage.language_apply_iff_of_ne_nil hg (fun _ => hne) hu

theorem language_foldl_iff (stages : List Stage) (hg : g.Consistent)
    (hne : ∀ p ∈ g.productions, p.rhs ≠ []) {u : Sentence} :
    (stages.foldl (fun g stage => stage.apply g) g).Language u ↔ g.Language u := by
  induction stages generalizing g with
  | nil => exact Iff.rfl
  | cons stage stages ih =>
      have hrest := ih (stage.consistent_apply hg) (stage.rhs_ne_nil_apply hne)
      exact hrest.trans (stage.language_apply_iff hg hne)

theorem consistent_foldl (stages : List Stage) (hg : g.Consistent) :
    (stages.foldl (fun g stage => stage.apply g) g).Consistent :=
  List.foldlRecOn stages _ hg fun _ h stage _ => stage.consistent_apply h

theorem wellFormed_foldl (stages : List Stage) (hg : g.WellFormed) :
    (stages.foldl (fun g stage => stage.apply g) g).WellFormed :=
  List.foldlRecOn stages _ hg fun _ h stage _ => stage.wellFormed_apply h

theorem wellFormed_of_mem_run (stages : List Stage) (seen : List Finding) (hg : g.WellFormed) :
    ∀ r ∈ StageRecord.run stages seen g, r.grammar.WellFormed := by
  induction stages generalizing seen g with
  | nil => exact fun r hr => absurd hr List.not_mem_nil
  | cons stage stages ih =>
      have hnext := stage.wellFormed_apply hg
      exact List.forall_mem_cons.mpr ⟨hnext, ih _ hnext⟩

end Stage

end ContextFree
