import Mathlib
import ContextFree.Proofs.RoundTrip

/-!
# The test for an empty language

On the typed form this test asks whether the start symbol has productions, and not what they lead
to. So its yes is right: without productions nothing is derived. A no says less, since productions
that never come to an end derive nothing either (`not_isEmpty_endless`). Both answers are right
where all non-terminals are productive, as after the passes that drop useless symbols
(`isEmpty_ofGrammar_exact`).
-/

namespace ContextFree

namespace NormalGrammar

variable {g : Grammar} {c : NormalGrammar}

theorem forall_not_language_iff (c : NormalGrammar) :
    (∀ u, ¬ c.Language u) ↔ ∀ n, c.shortWords n = [] := by
  constructor
  · intro hnone n
    exact List.eq_nil_iff_forall_not_mem.mpr fun u hu => hnone u (mem_shortWords_iff.mp hu).1
  · intro hempty u hu
    have hmem := mem_shortWords_iff.mpr ⟨hu, Nat.le_refl u.length⟩
    rw [hempty] at hmem
    exact List.not_mem_nil hmem

theorem isEmpty_ofGrammar_iff (hc : ofGrammar g = .ok c) :
    c.isEmpty = true ↔ ∀ p ∈ g.productions, p.lhs ≠ g.start := by
  obtain ⟨rfl, hnormal⟩ := ofGrammar_eq_ok_iff.mp hc
  have hkeys : (normalPart g false).start ∈ (normalPart g false).rules.keys ↔
      ∃ p ∈ g.productions, p.lhs = g.start := by
    rw [mem_keys_normalPart]
    exact exists_congr fun p => and_congr_right fun hp => and_iff_right (hnormal p hp)
  have hnot : (normalPart g false).erasable = false := rfl
  rw [isEmpty, hnot, Bool.not_false, Bool.true_and, decide_eq_true_iff, hkeys]
  exact ⟨fun hnone p hp heq => hnone ⟨p, hp, heq⟩, fun hnone ⟨p, hp, heq⟩ => hnone p hp heq⟩

theorem language_ofGrammar_iff (hc : ofGrammar g = .ok c) {u : Sentence} :
    c.Language u ↔ g.Language u := by
  obtain ⟨rfl, hnormal⟩ := ofGrammar_eq_ok_iff.mp hc
  exact (language_of_not_erasable rfl u).trans (derives_withoutEmptyWord_iff hnormal)

theorem forall_not_language_ofGrammar_iff (hc : ofGrammar g = .ok c) :
    (∀ u, ¬ c.Language u) ↔ g.start ∉ g.productive := by
  simp only [language_ofGrammar_iff hc, Grammar.mem_productive_iff, not_exists]
  exact Iff.rfl

theorem not_language_of_isEmpty (hc : ofGrammar g = .ok c) (hempty : c.isEmpty = true) :
    ∀ u, ¬ c.Language u := by
  intro u hu
  obtain ⟨p, hp, hlhs, _⟩ := Grammar.generates_iff.mp ((language_ofGrammar_iff hc).mp hu)
  exact (isEmpty_ofGrammar_iff hc).mp hempty p hp hlhs

/-- The test says yes exactly where the start symbol has no productions, and then there are no
words. There are none exactly where the start symbol is not productive, and if all non-terminals are
productive, this comes to the same. -/
theorem isEmpty_ofGrammar_exact (hg : g.Reached) (hc : ofGrammar g = .ok c) :
    (c.isEmpty = true ↔ ∀ p ∈ g.productions, p.lhs ≠ g.start) ∧
      ((∀ u, ¬ c.Language u) ↔ ∀ n, c.shortWords n = []) ∧
      ((∀ u, ¬ c.Language u) ↔ g.start ∉ g.productive) ∧
      (c.isEmpty = true → ∀ u, ¬ c.Language u) ∧
      ((∀ A ∈ g.nonTerminals, A ∈ g.productive) →
        (c.isEmpty = true ↔ ∀ u, ¬ c.Language u)) := by
  refine ⟨isEmpty_ofGrammar_iff hc, c.forall_not_language_iff,
    forall_not_language_ofGrammar_iff hc, not_language_of_isEmpty hc, fun hproductive =>
      ⟨not_language_of_isEmpty hc, fun hnone => (isEmpty_ofGrammar_iff hc).mpr ?_⟩⟩
  intro p hp hlhs
  have hdeclared : p.lhs ∈ g.nonTerminals := hg.wellFormed.consistent.lhs_mem hp
  exact (forall_not_language_ofGrammar_iff hc).mp hnone (hlhs ▸ hproductive _ hdeclared)

end NormalGrammar

namespace Grammar

/-- `S → SS`: normal, but without an end. -/
def endless : Grammar where
  nonTerminals := .ofList [.ofChar 'S']
  terminals := ∅
  start := .ofChar 'S'
  productions := .ofList
    [⟨.ofChar 'S', [.nonTerminal (.ofChar 'S'), .nonTerminal (.ofChar 'S')]⟩]

theorem valid_endless : endless.Valid := validate_eq_ok_iff.mp rfl

theorem start_not_mem_productive_endless : endless.start ∉ endless.productive := by
  have hnone : endless.productive.contains endless.start = false := by cbv
  exact fun hmem => Bool.false_ne_true (hnone.symm.trans (OrderedSet.contains_iff.mpr hmem))

end Grammar

namespace NormalGrammar

open Grammar

theorem ofGrammar_endless : ofGrammar endless = .ok (normalPart endless false) := rfl

theorem ofGrammar_productivePart_endless : ofGrammar endless.productivePart =
    .ok (normalPart endless.productivePart false) := by
  have hnormal : ∀ p ∈ endless.productions.toList, p.isNormal = true := by decide
  exact ofGrammar_of_isNormal fun p hp =>
    hnormal p (mem_productions_productivePart.mp hp).1

/-- The test says no, although there are no words; when the symbols that are not productive have
been dropped, it says yes. -/
theorem isEmpty_ofGrammar_exact_endless :
    endless.Reached ∧ ofGrammar endless = .ok (normalPart endless false) ∧
      (normalPart endless false).isEmpty ≠ true ∧
      (∀ u, ¬ (normalPart endless false).Language u) ∧
      endless.productivePart.Reached ∧
      ofGrammar endless.productivePart = .ok (normalPart endless.productivePart false) ∧
      (normalPart endless.productivePart false).isEmpty = true := by
  have hreached : endless.productivePart.Reached :=
    valid_endless.reached.apply (.stage .productive)
  obtain ⟨htest, _, hwords, _⟩ := isEmpty_ofGrammar_exact valid_endless.reached ofGrammar_endless
  obtain ⟨_, _, _, _, hproductive⟩ :=
    isEmpty_ofGrammar_exact hreached ofGrammar_productivePart_endless
  have hnone := hwords.mpr start_not_mem_productive_endless
  refine ⟨valid_endless.reached, ofGrammar_endless, fun hempty => ?_, hnone, hreached,
    ofGrammar_productivePart_endless, (hproductive fun A hA => ?_).mpr fun u hu => ?_⟩
  · exact htest.mp hempty _ List.mem_cons_self rfl
  · exact mem_productive_iff.mpr (exists_generates_of_mem_productivePart hA)
  · have hlang := (language_ofGrammar_iff ofGrammar_productivePart_endless).mp hu
    exact hnone u ((language_ofGrammar_iff ofGrammar_endless).mpr
      (generates_productivePart_iff.mp hlang))

/-- The test says no, and there are no words. -/
theorem not_isEmpty_endless : endless.Reached ∧
    ofGrammar endless = .ok (normalPart endless false) ∧
      (normalPart endless false).isEmpty = false ∧
      (∀ u, ¬ (normalPart endless false).Language u) ∧
      ∀ n, (normalPart endless false).shortWords n = [] := by
  have hnone := (forall_not_language_ofGrammar_iff ofGrammar_endless).mpr
    start_not_mem_productive_endless
  exact ⟨valid_endless.reached, ofGrammar_endless, rfl, hnone,
    (forall_not_language_iff _).mp hnone⟩

end NormalGrammar

end ContextFree
