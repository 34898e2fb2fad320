import ContextFree.UnitFree
import ContextFree.Proofs.Derivation
import ContextFree.Proofs.Exploration

/-!
# The language without unit productions

The unit closure of a non-terminal holds what chains of unit productions lead to, and the
productions that take the place of the unit productions are those at the ends of such chains
(`mem_productions_unitFree`). Hence every non-terminal derives the same sentences as before
(`unitFree_exact`). Cycles of unit productions do not keep the search for a closure going, as no
non-terminal has more than one turn in it (`iterate_turn_unitClosure`).
-/

namespace ContextFree

namespace Grammar

variable {g : Grammar}

def UnitStep (g : Grammar) (A B : Name) : Prop := ⟨A, [.nonTerminal B]⟩ ∈ g.productions

/-- A chain of unit productions leads from the one non-terminal to the other. -/
def UnitDerives (g : Grammar) : Name → Name → Prop := Relation.ReflTransGen g.UnitStep

theorem UnitDerives.derives {A B : Name} (h : g.UnitDerives A B) :
    g.Derives [.nonTerminal A] [.nonTerminal B] := by
  induction h with
  | refl => exact .refl
  | tail _ hstep ih => exact ih.trans (derives_of_mem hstep)

theorem Index.unitTargetsOf_eq_unitStep (index : g.Index) :
    (fun A B => B ∈ index.unitTargetsOf A) = g.UnitStep :=
  funext fun _ => funext fun _ => propext index.mem_unitTargetsOf

theorem Index.mem_unitClosure_iff (index : g.Index) {A B : Name} :
    B ∈ index.unitClosure A ↔ g.UnitDerives A B := by
  rw [unitClosure, OrderedSet.mem_reachable_iff, index.unitTargetsOf_eq_unitStep]
  simp [UnitDerives]

theorem Index.iterate_turn_unitClosure (index : g.Index) (A : Name) :
    (OrderedSet.Search.turn index.unitTargetsOf)^[(index.unitClosure A).size] ⟨.ofList [A], [A]⟩ =
      ⟨index.unitClosure A, []⟩ := by
  have hlist : (OrderedSet.ofList [A]).toList = [A] :=
    OrderedSet.toList_ofList_of_nodup (by simp)
  have hsearch : (OrderedSet.Search.turn index.unitTargetsOf)^[(index.unitClosure A).size]
      ⟨.ofList [A], (OrderedSet.ofList [A]).toList⟩ = ⟨index.unitClosure A, []⟩ :=
    OrderedSet.iterate_turn_reachable _ _
  rwa [hlist] at hsearch

theorem UnitDerives.mem_heads {A : Name} {p : Production} (h : g.UnitDerives A p.lhs)
    (hp : p ∈ g.productions) : A ∈ g.heads := by
  rcases h.cases_head with heq | ⟨B, hstep, _⟩
  · exact Grammar.mem_heads.mpr ⟨p, hp, heq.symm⟩
  · exact Grammar.mem_heads.mpr ⟨_, hstep, rfl⟩

theorem mem_productions_unitFree {q : Production} :
    q ∈ g.unitFree.productions ↔
      (∀ B, q.rhs ≠ [.nonTerminal B]) ∧
        ∃ B, g.UnitDerives q.lhs B ∧ ⟨B, q.rhs⟩ ∈ g.productions := by
  simp only [unitFree, unitClosures, OrderedMap.entries_tabulate, OrderedSet.mem_ofList,
    List.mem_flatMap, List.mem_map, Index.unitCopies, OrderedSet.mem_toList]
  constructor
  · rintro ⟨_, ⟨A, _, rfl⟩, _, ⟨B, hB, p, hp, rfl⟩, rfl⟩
    obtain ⟨hmem, rfl, hproper⟩ := (Index.mem_properProductionsOf _).mp hp
    exact ⟨hproper, p.lhs, (Index.mem_unitClosure_iff _).mp hB, hmem⟩
  · rintro ⟨hproper, B, hB, hmem⟩
    have hhead : q.lhs ∈ g.heads := hB.mem_heads (p := ⟨B, q.rhs⟩) hmem
    have hclosure := (Index.mem_unitClosure_iff g.index).mpr hB
    have hcopy := (Index.mem_properProductionsOf g.index).mpr ⟨hmem, rfl, hproper⟩
    exact ⟨_, ⟨q.lhs, hhead, rfl⟩, _, ⟨B, hclosure, _, hcopy, rfl⟩, rfl⟩

theorem Consistent.unitFree (hg : g.Consistent) : g.unitFree.Consistent := by
  refine ⟨hg.1, fun q hq x hx => ?_⟩
  obtain ⟨_, B, hB, hmem⟩ := mem_productions_unitFree.mp hq
  rcases List.mem_cons.mp hx with rfl | hx
  · obtain ⟨p, hp, hlhs⟩ := Grammar.mem_heads.mp (hB.mem_heads (p := ⟨B, q.rhs⟩) hmem)
    exact hlhs ▸ hg.lhs_mem hp
  · exact hg.declares_of_mem_rhs hmem hx

theorem mem_unitFree_of_unitStep {A : Name} {q : Production} (hstep : g.UnitStep A q.lhs)
    (hq : q ∈ g.unitFree.productions) : ⟨A, q.rhs⟩ ∈ g.unitFree.productions := by
  obtain ⟨hproper, B, hB, hmem⟩ := mem_productions_unitFree.mp hq
  exact mem_productions_unitFree.mpr ⟨hproper, B, hB.head hstep, hmem⟩

theorem Yields.unitFree {w : Word} {u : Sentence} (hy : g.Yields w u) : g.unitFree.Yields w u := by
  induction hy with
  | nil => exact .nil
  | terminal a _ ih => exact ih.terminal a
  | @nonTerminal p w u v hp _ _ ihrhs ih =>
      by_cases hunit : ∃ B, p.rhs = [.nonTerminal B]
      · obtain ⟨B, hB⟩ := hunit
        rw [hB] at ihrhs
        obtain ⟨q, hq, rfl, hyq⟩ := generates_iff.mp (generates_iff_yields.mpr ihrhs)
        have hstep : g.UnitStep p.lhs q.lhs := by rwa [UnitStep, ← hB]
        exact Yields.nonTerminal (p := ⟨p.lhs, q.rhs⟩) (mem_unitFree_of_unitStep hstep hq) hyq ih
      · have hmem : p ∈ g.unitFree.productions :=
          mem_productions_unitFree.mpr ⟨not_exists.mp hunit, p.lhs, .refl, hp⟩
        exact .nonTerminal hmem ihrhs ih

theorem derives_of_unitFree {v w : Word} (hd : g.unitFree.Derives v w) : g.Derives v w := by
  refine derives_of_simulated (fun q hq => ?_) hd
  obtain ⟨_, B, hB, hmem⟩ := mem_productions_unitFree.mp hq
  exact hB.derives.trans (derives_of_mem hmem)

theorem generates_unitFree_iff {A : Name} {u : Sentence} :
    g.unitFree.Generates A u ↔ g.Generates A u := by
  constructor
  · exact derives_of_unitFree
  · intro hgen
    exact generates_iff_yields.mpr (generates_iff_yields.mp hgen).unitFree

/-- The search for each closure ends, and what it leads to is a grammar without unit productions,
with the same symbols and the same words from every non-terminal; its productions are those at the
ends of chains of unit productions. -/
theorem unitFree_exact (g : Grammar) :
    (∀ A, (OrderedSet.Search.turn g.index.unitTargetsOf)^[(g.index.unitClosure A).size]
        ⟨.ofList [A], [A]⟩ = ⟨g.index.unitClosure A, []⟩) ∧
      (∀ p ∈ g.unitFree.productions, ∀ B, p.rhs ≠ [.nonTerminal B]) ∧
      g.unitFree.start = g.start ∧ g.unitFree.nonTerminals = g.nonTerminals ∧
      g.unitFree.terminals = g.terminals ∧
      (∀ A u, g.unitFree.Generates A u ↔ g.Generates A u) ∧
      ∀ A w, ⟨A, w⟩ ∈ g.unitFree.productions ↔
        (∀ B, w ≠ [.nonTerminal B]) ∧ ∃ B, g.UnitDerives A B ∧ ⟨B, w⟩ ∈ g.productions :=
  ⟨g.index.iterate_turn_unitClosure, fun _ hp => (mem_productions_unitFree.mp hp).1, rfl, rfl, rfl,
    fun _ _ => generates_unitFree_iff, fun _ _ => mem_productions_unitFree⟩

end Grammar

end ContextFree
