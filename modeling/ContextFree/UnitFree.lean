import ContextFree.Exploration
import ContextFree.Grammar
import ContextFree.OrderedMap

/-!
# Grammars without unit productions

The unit closure of a non-terminal `A` holds the non-terminals that `A` derives by unit productions
alone, nearest first. Every left-hand side receives a copy of the other productions of all
non-terminals in its closure, and the unit productions are dropped.
-/

namespace ContextFree

namespace Grammar

def unitTargets (g : Grammar) : List Name := g.productions.toList.filterMap Production.unitTarget?

namespace Index

variable {g : Grammar} (index : g.Index)

def unitTargetsOf (A : Name) : List Name :=
  (index.productionsOf A).filterMap Production.unitTarget?

theorem mem_unitTargetsOf {A B : Name} :
    B ∈ index.unitTargetsOf A ↔ ⟨A, [.nonTerminal B]⟩ ∈ g.productions := by
  simp only [unitTargetsOf, productionsOf_eq, List.mem_filterMap, mem_productionsOf,
    Production.unitTarget?_eq_some_iff]
  constructor
  · rintro ⟨⟨lhs, rhs⟩, ⟨hp, rfl⟩, rfl⟩
    exact hp
  · exact fun h => ⟨_, ⟨h, rfl⟩, rfl⟩

theorem mem_unitTargets {A B : Name} (h : B ∈ index.unitTargetsOf A) : B ∈ g.unitTargets :=
  List.mem_filterMap.mpr ⟨_, index.mem_unitTargetsOf.mp h, rfl⟩

/-- The non-terminals that `A` derives by unit productions, `A` first. -/
def unitClosure (A : Name) : OrderedSet Name :=
  OrderedSet.reachable (p := (· ∈ A :: g.unitTargets)) index.unitTargetsOf
    ⟨A :: g.unitTargets, fun _ h => h⟩
    (fun _ _ _ hC => List.mem_cons_of_mem _ (index.mem_unitTargets hC))
    (.ofList [A]) (fun B hB => by
      rw [OrderedSet.mem_ofList, List.mem_singleton] at hB
      exact hB ▸ List.mem_cons_self)

def properProductionsOf (A : Name) : List Production :=
  (index.productionsOf A).filter fun p => p.unitTarget? = none

theorem mem_properProductionsOf {A : Name} {p : Production} :
    p ∈ index.properProductionsOf A ↔
      p ∈ g.productions ∧ p.lhs = A ∧ ∀ B, p.rhs ≠ [.nonTerminal B] := by
  have hnone : p.unitTarget? = none ↔ ∀ B, p.rhs ≠ [.nonTerminal B] := by
    simp [Option.eq_none_iff_forall_ne_some, ← Production.unitTarget?_eq_some_iff]
  simp [properProductionsOf, mem_productionsOf, hnone, and_assoc]

/-- Each production that a left-hand side takes over, with its copy, closure by closure. -/
def unitCopies (A : Name) (closure : OrderedSet Name) : List (Production × Production) :=
  closure.toList.flatMap fun B =>
    (index.properProductionsOf B).map fun p => (p, ⟨A, p.rhs⟩)

end Index

def unitClosures (g : Grammar) : OrderedMap Name (OrderedSet Name) :=
  let index := g.index
  .tabulate (.ofList g.heads) index.unitClosure

def unitFree (g : Grammar) : Grammar :=
  let index := g.index
  { g with
    productions := .ofList (g.unitClosures.entries.flatMap fun e =>
      (index.unitCopies e.1 e.2).map Prod.snd) }

end Grammar

end ContextFree
