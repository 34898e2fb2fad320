import Mathlib
import ContextFree.Proofs.Reduced
import ContextFree.Proofs.Transformation

/-!
# Passes made twice

A pass leaves nothing of what it is after, so that its outcome is one of the grammars on which the
same pass does nothing at all, down to the order of symbols and productions (`apply_apply`). As to
useless symbols this is said of the outcome by itself: the non-terminals that are left have to be
productive, or accessible, by the productions that are left, and these have to use the terminals
that are left. Binary form finds no production to take apart, and so it makes no proxy and no link
either.
-/

namespace ContextFree

namespace Grammar

variable {g : Grammar}

theorem epsilonFree_epsilonFree (g : Grammar) : g.epsilonFree.epsilonFree = g.epsilonFree :=
  epsilonFree_eq_self fun _ => epsilonFree_rhs_ne_nil

theorem unitFree_unitFree (g : Grammar) : g.unitFree.unitFree = g.unitFree :=
  unitFree_eq_self (fun _ hp => (mem_productions_unitFree.mp hp).1) g.grouped_unitFree

theorem Consistent.productivePart_productivePart (hg : g.Consistent) :
    g.productivePart.productivePart = g.productivePart :=
  (hg.restrict _).productivePart_eq_self (fun _ => exists_generates_of_mem_productivePart)
    fun _ ha => (mem_terminals_restrict.mp ha).2

theorem Consistent.accessiblePart_accessiblePart (hg : g.Consistent) :
    g.accessiblePart.accessiblePart = g.accessiblePart :=
  (hg.restrict _).accessiblePart_eq_self (fun _ => hg.reaches_accessiblePart)
    fun _ ha => (mem_terminals_restrict.mp ha).2

theorem binaryForm_binaryForm (g : Grammar) : g.binaryForm.binaryForm = g.binaryForm :=
  binaryForm_eq_self (fun _ => isBinary_of_mem_binaryForm)
    fun _ ha => (mem_terminals_binaryForm.mp ha).2

end Grammar

namespace Stage

open Grammar

variable {g : Grammar}

/-- A pass over its own outcome changes nothing, not even an order. -/
theorem apply_apply (hg : g.Reached) (stage : Stage) :
    stage.apply (stage.apply g) = stage.apply g := by
  have hconsistent := hg.wellFormed.consistent
  cases stage with
  | epsilonFree => exact g.epsilonFree_epsilonFree
  | unitFree => exact g.unitFree_unitFree
  | productive => exact hconsistent.productivePart_productivePart
  | accessible => exact hconsistent.accessiblePart_accessiblePart
  | binary => exact g.binaryForm_binaryForm

/-- Every pass has something to do here, but only once. -/
theorem apply_apply_nested : nested.Reached ∧
    ∀ stage : Stage, stage.apply nested ≠ nested ∧
      stage.apply (stage.apply nested) = stage.apply nested := by
  refine ⟨valid_nested.reached, fun stage => ⟨of_decide_eq_false ?_, ?_⟩⟩
  · cases stage <;> cbv
  · exact apply_apply valid_nested.reached stage

end Stage

end ContextFree
