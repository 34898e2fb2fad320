import ContextFree.Proofs.NewNames
import ContextFree.Proofs.Reduced
import ContextFree.Proofs.RoundOutput

/-!
# Nothing is left to clean up

Binary form brings in non-terminals only where a production calls for them: a proxy occurs in the
word that the left-hand side of that production derives, and so does each link of a chain, which
derives the end of that word. Hence a grammar all of whose non-terminals are productive and
accessible is reduced in binary form, if it has no ε-productions and no unit productions
(`reduced_binaryForm`), and the passes that clean it up once more leave it as it is
(`second_cleaning_idle`).
-/

namespace ContextFree

namespace Grammar

variable {g : Grammar}

theorem Reaches.of_derives {A : Name} {w : Word} (hA : g.Reaches (.nonTerminal A))
    (hd : g.Derives [.nonTerminal A] w) : ∀ x ∈ w, g.Reaches x :=
  hd.forall_mem (fun _ hp hlhs _ hx => hlhs.of_production hp hx)
    (List.forall_mem_singleton.mpr hA)

/-- The non-terminal comes out of the start symbol and derives a sentence. -/
def Serves (g : Grammar) (A : Name) : Prop :=
  g.Reaches (.nonTerminal A) ∧ ∃ u, g.Generates A u

end Grammar

namespace BinaryForm

namespace Round

variable {h : Grammar}

variable {r s : Round} {ps : List Production}

/-- A new non-terminal stands in what is left of the production that calls for it, and so it comes
out of the left-hand side and derives a part of the right-hand side. -/
theorem Leads.serves (hrun : r.Leads ps s) (hin : s.Within h)
    (hps : ∀ p ∈ ps, h.Reaches (.nonTerminal p.lhs) ∧ ∃ u, h.Yields p.rhs u) {A : Name}
    (hA : A ∈ s.nonTerminals) : A ∈ r.nonTerminals ∨ h.Serves A := by
  induction hrun with
  | done r => exact Or.inl hA
  | keep _ _ ih => exact ih hin (List.forall_mem_cons.mp hps).2 hA
  | drop _ ih => exact ih hin (List.forall_mem_cons.mp hps).2 hA
  | exchange _ hB hrun ih =>
      obtain ⟨⟨hlhs, u, hu⟩, hps⟩ := List.forall_mem_cons.mp hps
      have hproxy := hin.proxies _ (hrun.grows.proxies _ hB)
      have hyields := Grammar.derives_map_iff.mp ((derives_exchange hproxy).trans hu.derives)
      exact ih hin (List.forall_mem_cons.mpr ⟨⟨hlhs, u, hyields⟩, hps⟩) hA
  | @introduce r _ _ a v w _ _ _ hrun ih =>
      obtain ⟨⟨hlhs, u, hu⟩, hps⟩ := List.forall_mem_cons.mp hps
      have hproxy := hin.proxies _ (hrun.grows.proxies _ List.mem_cons_self)
      have hyields := Grammar.derives_map_iff.mp ((derives_exchange hproxy).trans hu.derives)
      rcases ih hin (List.forall_mem_cons.mpr ⟨⟨hlhs, u, hyields⟩, hps⟩) hA with hmem | hserves
      · refine (OrderedSet.mem_insert.mp hmem).imp_right ?_
        rintro rfl
        have hd := hrun.derives hin _ List.mem_cons_self (by simp)
        have hstands : .nonTerminal (r.supply.proxy a).1 ∈
            v ++ .nonTerminal (r.supply.proxy a).1 :: w := by simp
        exact ⟨hlhs.of_derives hd _ hstands, hyields.exists_generates hstands⟩
      · exact Or.inr hserves
  | @link r _ A B C D Bs _ hrun ih =>
      obtain ⟨⟨hlhs, u, hu⟩, hps⟩ := List.forall_mem_cons.mp hps
      have hpair := hin.output _ (hrun.grows.output _ (OrderedSet.mem_insert_self _ _))
      have hlink := hlhs.of_production hpair (List.mem_cons_of_mem _ (List.mem_singleton.mpr rfl))
      obtain ⟨_, v, -, -, hrest⟩ := Grammar.Yields.of_append (w := [.nonTerminal B]) hu
      rcases ih hin (List.forall_mem_cons.mpr ⟨⟨hlink, v, hrest⟩, hps⟩) hA with hmem | hserves
      · refine (OrderedSet.mem_insert.mp hmem).imp_right ?_
        rintro rfl
        have hd := hrun.derives hin _ List.mem_cons_self (List.cons_ne_nil _ _)
        exact ⟨hlink, v, hd.trans hrest.derives⟩
      · exact Or.inr hserves
  | note _ _ _ ih => exact ih hin hps hA

end Round

end BinaryForm

namespace Grammar

variable {g : Grammar}

/-! ## Binary form of a grammar that is cleaned up -/

theorem isNormal_of_mem_binaryForm (hunit : ∀ p ∈ g.productions, ∀ B, p.rhs ≠ [.nonTerminal B])
    {q : Production} (hq : q ∈ g.binaryForm.productions) :
    (∃ a, q.rhs = [.terminal a]) ∨ ∃ B C, q.rhs = [.nonTerminal B, .nonTerminal C] := by
  rcases origin_of_mem_binaryForm hq with ⟨hold, _⟩ | ⟨_, _, hrhs⟩ | ⟨hrhs⟩
  · rcases rhs_cases_of_mem_binaryForm hq with hterminal | hpair | ⟨B, hB⟩
    · exact Or.inl hterminal
    · exact Or.inr hpair
    · exact absurd hB (hunit q hold B)
  · exact Or.inl ⟨_, hrhs⟩
  · exact Or.inr ⟨_, _, hrhs⟩

theorem Consistent.serves_of_mem_binaryForm (hg : g.Consistent)
    (hne : ∀ p ∈ g.productions, p.rhs ≠ []) (hserves : ∀ A ∈ g.nonTerminals, g.Serves A) :
    ∀ A ∈ g.binaryForm.nonTerminals, g.binaryForm.Serves A := by
  have hderives : ∀ {v w : Word}, g.Derives v w → g.binaryForm.Derives v w := fun hd =>
    derives_binaryForm ((derives_nonErasing_iff hne).mpr hd)
  have hold : ∀ A ∈ g.nonTerminals, g.binaryForm.Serves A := by
    intro A hA
    obtain ⟨⟨pre, post, hd⟩, u, hu⟩ := hserves A hA
    exact ⟨⟨pre, post, hderives hd⟩, u, hderives hu⟩
  have hproductions : ∀ p ∈ g.productions.toList,
      g.binaryForm.Reaches (.nonTerminal p.lhs) ∧ ∃ u, g.binaryForm.Yields p.rhs u := by
    intro p hp
    refine ⟨(hold p.lhs (hg.lhs_mem hp)).1, exists_yields fun B hB => ?_⟩
    exact (hold B (hg.declares_of_mem_rhs hp hB)).2
  have hin := BinaryForm.Round.within_of_output_subset (h := g.binaryForm)
    fun _ hp => mem_productions_binaryForm.mpr hp
  intro A hA
  rw [nonTerminals_binaryForm] at hA
  exact ((BinaryForm.Round.leads_foldl _ _).serves hin hproductions hA).elim (hold A) id

theorem Consistent.reduced_binaryForm (hg : g.Consistent)
    (hne : ∀ p ∈ g.productions, p.rhs ≠ [])
    (hunit : ∀ p ∈ g.productions, ∀ B, p.rhs ≠ [.nonTerminal B])
    (hserves : ∀ A ∈ g.nonTerminals, g.Serves A) : g.binaryForm.Reduced where
  normal _ hq := isNormal_of_mem_binaryForm hunit hq
  productive A hA := (hg.serves_of_mem_binaryForm hne hserves A hA).2
  accessible A hA := (hg.serves_of_mem_binaryForm hne hserves A hA).1
  used a ha := by
    obtain ⟨_, q, hq, hrhs⟩ := mem_terminals_binaryForm.mp ha
    exact ⟨q, hq, hrhs ▸ List.mem_singleton.mpr rfl⟩

theorem mem_productions_of_cleaned {p : Production} (hp : p ∈ g.cleaned.productions) :
    p ∈ g.epsilonFree.unitFree.productions :=
  mem_productions_of_restrict (mem_productions_of_restrict hp)

theorem Consistent.reduced_binaryForm_cleaned (hg : g.Consistent) :
    g.cleaned.binaryForm.Reduced := by
  have hunitFree := hg.epsilonFree.unitFree
  refine hg.cleaned.reduced_binaryForm (fun p hp => ?_) (fun p hp => ?_) fun A hA => ⟨?_, ?_⟩
  · exact Stage.unitFree.rhs_ne_nil_apply (fun _ => epsilonFree_rhs_ne_nil) p
      (mem_productions_of_cleaned hp)
  · exact (mem_productions_unitFree.mp (mem_productions_of_cleaned hp)).1
  · exact (hunitFree.restrict _).reaches_accessiblePart hA
  · exact exists_generates_of_mem_accessiblePart (hunitFree.restrict _)
      (fun _ => exists_generates_of_mem_productivePart) hA

/-- Removing unit productions from a reduced grammar reorders its productions, and after that there
is nothing useless to remove. -/
theorem Reduced.cleaning_equiv_self (hr : g.Reduced) (hg : g.Consistent) :
    g.unitFree ≈ g ∧ g.unitFree.productivePart ≈ g ∧
      g.unitFree.productivePart.accessiblePart ≈ g := by
  have hsame := unitFree_equiv_self hr.rhs_ne_unit
  rw [hr.unitFree.productivePart_eq_self hg.unitFree,
    hr.unitFree.accessiblePart_eq_self hg.unitFree]
  exact ⟨hsame, hsame, hsame⟩

end Grammar

namespace Normalization

open Grammar

variable {g : Grammar}

/-- The passes after binary form leave the grammar as it is, up to the order of its parts. -/
theorem second_cleaning_idle (hg : g.Valid) : ∃ r₅ r₆ r₇ r₈,
    g.normalize.records.drop 4 = [r₅, r₆, r₇, r₈] ∧
      [r₅.stage, r₆.stage, r₇.stage, r₈.stage] = [.binary, .unitFree, .productive, .accessible] ∧
      r₆.grammar ≈ r₅.grammar ∧ r₇.grammar ≈ r₅.grammar ∧ r₈.grammar ≈ r₅.grammar :=
  ⟨_, _, _, _, rfl, rfl,
    hg.2.reduced_binaryForm_cleaned.cleaning_equiv_self hg.2.cleaned.binaryForm⟩

theorem size_nonTerminals_binaryForm_nested :
    nested.cleaned.binaryForm.nonTerminals.size = 6 := by cbv

/-- Two proxies and three links have come in by then, and all of them are of use. -/
theorem second_cleaning_idle_nested : nested.Valid ∧ ∃ r₅ r₆ r₇ r₈,
    nested.normalize.records.drop 4 = [r₅, r₆, r₇, r₈] ∧
      nested.cleaned.nonTerminals.size = 1 ∧ r₅.grammar.nonTerminals.size = 6 ∧
      r₈.grammar ≈ r₅.grammar := by
  obtain ⟨r₅, r₆, r₇, r₈, hrecords, _, _, _, hlast⟩ := second_cleaning_idle valid_nested
  have hsize : r₅.grammar.nonTerminals.size = 6 := by
    rw [← (List.cons.inj hrecords).1]
    exact size_nonTerminals_binaryForm_nested
  exact ⟨valid_nested, r₅, r₆, r₇, r₈, hrecords, by cbv, hsize, hlast⟩

end Normalization

end ContextFree
