import Mathlib
import ContextFree.Proofs.UnitFree

/-!
# Unit closures

Every left-hand side, and nothing else, has a unit closure. It lists the left-hand side itself and
then all non-terminals to which chains of unit productions lead from there, each once and in the
order of the lengths of the shortest chains (`unitClosures_exact`), whether or not the chains run in
circles and the non-terminals at their ends have productions of their own.
-/

namespace ContextFree

namespace Grammar

variable {g : Grammar} {A B : Name}

/-- The length of a shortest chain of unit productions from `A` to `B`, where there is one. -/
noncomputable def unitDistance (g : Grammar) (A B : Name) : Nat := sInf {n | Chain g.UnitStep A n B}

theorem unitDistance_le {n : Nat} (h : Chain g.UnitStep A n B) : g.unitDistance A B ≤ n :=
  Nat.sInf_le h

theorem UnitDerives.chain_unitDistance (h : g.UnitDerives A B) :
    Chain g.UnitStep A (g.unitDistance A B) B := Nat.sInf_mem (exists_chain_iff.mpr h)

namespace Index

variable (index : g.Index)

theorem reachedIn_iff {n : Nat} : OrderedSet.ReachedIn index.unitTargetsOf (.ofList [A]) n B ↔
    Chain g.UnitStep A n B := by
  rw [OrderedSet.ReachedIn, index.unitTargetsOf_eq_unitStep]
  simp

theorem head?_unitClosure (A : Name) : (index.unitClosure A).toList.head? = some A := by
  have hprefix : (OrderedSet.ofList [A]).toList <+: (index.unitClosure A).toList :=
    OrderedSet.toList_prefix_reachable _ _
  rw [OrderedSet.toList_ofList_of_nodup (List.nodup_singleton A)] at hprefix
  obtain ⟨others, hlist⟩ := hprefix
  rw [← hlist]
  rfl

theorem pairwise_unitClosure (A : Name) : (index.unitClosure A).toList.Pairwise fun B C =>
    g.unitDistance A B ≤ g.unitDistance A C := by
  have hsearch : (index.unitClosure A).toList.Pairwise
      (OrderedSet.NoFarther index.unitTargetsOf (.ofList [A])) := OrderedSet.pairwise_reachable _
  refine hsearch.imp_of_mem fun {B C} _ hC hnear => ?_
  have hchain := (index.mem_unitClosure_iff.mp hC).chain_unitDistance
  obtain ⟨m, hm, hB⟩ := hnear _ (index.reachedIn_iff.mpr hchain)
  exact (unitDistance_le (index.reachedIn_iff.mp hB)).trans hm

end Index

theorem get?_unitClosures (g : Grammar) (A : Name) :
    g.unitClosures.get? A = if A ∈ g.heads then some (g.index.unitClosure A) else none := by
  simp only [unitClosures, OrderedMap.get?_tabulate, OrderedSet.mem_ofList]

/-- The search for the closure of a left-hand side ends when each non-terminal in it has had its
turn. It has found the non-terminals that the left-hand side derives by unit productions alone, each
once, the left-hand side first and the others nearest first. What is no left-hand side has no
closure. -/
theorem unitClosures_exact (g : Grammar) :
    (∀ A, (∃ p ∈ g.productions, p.lhs = A) → ∃ closure, g.unitClosures.get? A = some closure ∧
        (OrderedSet.Search.turn g.index.unitTargetsOf)^[closure.size] ⟨.ofList [A], [A]⟩ =
          ⟨closure, []⟩ ∧
        closure.toList.Nodup ∧ closure.toList.head? = some A ∧
        (∀ B, B ∈ closure ↔ g.UnitDerives A B) ∧
        closure.toList.Pairwise fun B C => g.unitDistance A B ≤ g.unitDistance A C) ∧
      ∀ A, (¬ ∃ p ∈ g.productions, p.lhs = A) → g.unitClosures.get? A = none := by
  refine ⟨fun A hA => ⟨g.index.unitClosure A, ?_, g.index.iterate_turn_unitClosure A,
    (g.index.unitClosure A).nodup, g.index.head?_unitClosure A,
    fun _ => g.index.mem_unitClosure_iff, g.index.pairwise_unitClosure A⟩, fun A hA => ?_⟩
  · rw [get?_unitClosures, if_pos (mem_heads.mpr hA)]
  · rw [get?_unitClosures, if_neg fun hmem => hA (mem_heads.mp hmem)]

/-- From `S` through `A` and `C` to `D`, which has no productions, and through `B` back to `S`. -/
def circular : Grammar where
  nonTerminals := .ofList [.ofChar 'S', .ofChar 'A', .ofChar 'B', .ofChar 'C', .ofChar 'D']
  terminals := .ofList [.ofChar 'b']
  start := .ofChar 'S'
  productions := .ofList
    [⟨.ofChar 'S', [.nonTerminal (.ofChar 'A')]⟩,
      ⟨.ofChar 'A', [.nonTerminal (.ofChar 'C')]⟩,
      ⟨.ofChar 'C', [.nonTerminal (.ofChar 'D')]⟩,
      ⟨.ofChar 'S', [.nonTerminal (.ofChar 'B')]⟩,
      ⟨.ofChar 'B', [.nonTerminal (.ofChar 'B')]⟩,
      ⟨.ofChar 'B', [.nonTerminal (.ofChar 'S')]⟩,
      ⟨.ofChar 'B', [.terminal (.ofChar 'b')]⟩]

/-- `B` comes before `C` and `D`, although the way to these begins with the first production. -/
theorem unitClosures_exact_circular :
    (∃ closure, circular.unitClosures.get? (.ofChar 'S') = some closure ∧
        closure.toList = ['S', 'A', 'B', 'C', 'D'].map .ofChar ∧
        circular.UnitDerives (.ofChar 'S') (.ofChar 'D') ∧
        circular.unitDistance (.ofChar 'S') (.ofChar 'B') ≤
          circular.unitDistance (.ofChar 'S') (.ofChar 'C')) ∧
      circular.unitClosures.get? (.ofChar 'D') = none := by
  obtain ⟨hheads, hothers⟩ := unitClosures_exact circular
  obtain ⟨closure, hclosure, _, _, _, hmem, hpairwise⟩ :=
    hheads (.ofChar 'S') ⟨⟨.ofChar 'S', [.nonTerminal (.ofChar 'A')]⟩, by decide, rfl⟩
  have hlist : (circular.unitClosures.get? (.ofChar 'S')).map OrderedSet.toList =
      some (['S', 'A', 'B', 'C', 'D'].map .ofChar) := by cbv
  rw [hclosure, Option.map_some, Option.some.injEq] at hlist
  have hD : .ofChar 'D' ∈ closure := by
    rw [← OrderedSet.mem_toList, hlist]
    decide
  rw [hlist] at hpairwise
  refine ⟨⟨closure, hclosure, hlist, (hmem _).mp hD, ?_⟩, hothers _ (by decide)⟩
  simp only [List.map_cons, List.map_nil, List.pairwise_cons] at hpairwise
  exact hpairwise.2.2.1 _ (by simp)

end Grammar

end ContextFree
