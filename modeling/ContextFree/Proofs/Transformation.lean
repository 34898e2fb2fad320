import ContextFree.Transformation
import ContextFree.Proofs.Normalization

/-!
# Transformations in any order

Whatever is done to a valid grammar, and however often, it stays well-formed. That is the invariant
that carries everything else here: a grammar that has lost its start symbol gets it back on the way
through the typed form, and this is safe because the name has not been given to a terminal. The
words that are not empty stay the same as well, as long as binary form is only asked for where there
are no ε-productions.
-/

namespace ContextFree

namespace NormalGrammar

theorem not_mem_nonTerminals_normalPart {g : Grammar} (hg : g.WellFormed) {erasable : Bool} :
    ∀ a ∈ (normalPart g erasable).terminals, a ∉ (normalPart g erasable).nonTerminals := by
  intro a ha hA
  obtain ⟨p, hp, hap⟩ := mem_terminals.mp ha
  have hp := (mem_productions_normalPart.mp hp).1
  have hterminal : a ∈ g.terminals := hg.consistent.declares_of_mem_rhs hp hap
  rcases mem_nonTerminals.mp hA with hstart | ⟨q, hq, hAq⟩
  · -- The start symbol is declared again here, also where it had been dropped.
    have hfree : (normalPart g erasable).start ∉ g.terminals := hg.start_not_mem_terminals
    exact hfree (hstart ▸ hterminal)
  · have hq := (mem_productions_normalPart.mp hq).1
    have hdecl : a ∈ g.nonTerminals := by
      rcases hAq with rfl | hAq
      · exact hg.consistent.lhs_mem hq
      · exact hg.consistent.declares_of_mem_rhs hq hAq
    exact hg.consistent.1 a hterminal hdecl

end NormalGrammar

namespace Transformation

open Grammar

variable {g : Grammar}

theorem valid_apply_roundTrip (hg : g.WellFormed) : (roundTrip.apply g).Valid := by
  have houtcome : g.normalize.outcome.WellFormed := by
    rw [Normalization.outcome_normalize]
    exact hg.normalForm
  exact NormalGrammar.valid_toGrammar
    (NormalGrammar.not_mem_nonTerminals_normalPart houtcome)

theorem wellFormed_apply (t : Transformation) (hg : g.WellFormed) : (t.apply g).WellFormed := by
  cases t with
  | stage s => exact s.wellFormed_apply hg
  | normalForm => exact hg.normalForm
  | roundTrip => exact (valid_apply_roundTrip hg).wellFormed

theorem wellFormed_applyAll (ts : List Transformation) (hg : g.WellFormed) :
    (applyAll ts g).WellFormed := by
  induction ts generalizing g with
  | nil => exact hg
  | cons t ts ih => exact ih (t.wellFormed_apply hg)

/-! ## The language -/

/-- Binary form is permitted where there are no ε-productions. -/
def Permitted (t : Transformation) (g : Grammar) : Prop :=
  t = stage .binary → ∀ p ∈ g.productions, p.rhs ≠ []

/-- Each of the transformations is permitted when its turn comes. -/
def PermittedAll : List Transformation → Grammar → Prop
  | [], _ => True
  | t :: ts, g => t.Permitted g ∧ PermittedAll ts (t.apply g)

theorem PermittedAll.of_append {ts rest : List Transformation} (h : PermittedAll (ts ++ rest) g) :
    PermittedAll ts g := by
  induction ts generalizing g with
  | nil => trivial
  | cons t ts ih => exact ⟨h.1, ih h.2⟩

variable {u : Sentence}

theorem language_apply_roundTrip_iff (hg : g.Consistent) :
    (roundTrip.apply g).Language u ↔ g.Language u := by
  apply NormalGrammar.language_toGrammar_iff.trans
  exact Normalization.language_normalForm_iff hg

theorem language_apply_iff (t : Transformation) (hg : g.Consistent) (ht : t.Permitted g)
    (hu : u ≠ []) : (t.apply g).Language u ↔ g.Language u := by
  cases t with
  | stage s =>
      have hbinary : s = .binary → ∀ p ∈ g.productions, p.rhs ≠ [] := fun hs =>
        ht (congrArg stage hs)
      exact s.language_apply_iff_of_ne_nil hg hbinary hu
  | normalForm => exact hg.language_normalForm_iff.trans (and_iff_left hu)
  | roundTrip => exact language_apply_roundTrip_iff hg

theorem language_applyAll_iff {ts : List Transformation} (hg : g.WellFormed)
    (hts : PermittedAll ts g) (hu : u ≠ []) : (applyAll ts g).Language u ↔ g.Language u := by
  induction ts generalizing g with
  | nil => exact Iff.rfl
  | cons t ts ih =>
      have hrest := ih (t.wellFormed_apply hg) hts.2
      exact hrest.trans (t.language_apply_iff hg.consistent hts.1 hu)

/-- After each of the steps the words that are not empty are those of the beginning. -/
theorem language_applyAll_take_iff {ts : List Transformation} (hg : g.Valid)
    (hts : PermittedAll ts g) (n : Nat) :
    ∀ u ≠ [], (applyAll (ts.take n) g).Language u ↔ g.Language u := by
  intro u hu
  have hfirst : PermittedAll (ts.take n) g := by
    rw [← List.take_append_drop n ts] at hts
    exact hts.of_append
  exact language_applyAll_iff hg.wellFormed hfirst hu

theorem language_applyAll_nested :
    nested.Valid ∧ PermittedAll [roundTrip, stage .epsilonFree, stage .binary, normalForm] nested ∧
      (applyAll [roundTrip, stage .epsilonFree, stage .binary] nested).Language
        [.ofChar 'a', .ofChar 'b'] := by
  have hpermitted :
      PermittedAll [roundTrip, stage .epsilonFree, stage .binary, normalForm] nested :=
    ⟨nofun, nofun, fun _ _ hp => epsilonFree_rhs_ne_nil hp, nofun, trivial⟩
  have hsame := language_applyAll_take_iff valid_nested hpermitted 3
  exact ⟨valid_nested, hpermitted, (hsame _ (List.cons_ne_nil _ _)).mpr language_nested_brackets⟩

end Transformation

namespace Grammar

variable {g : Grammar}

theorem Reached.wellFormed (hg : g.Reached) : g.WellFormed := by
  obtain ⟨g₀, ts, hvalid, rfl⟩ := hg
  exact Transformation.wellFormed_applyAll ts hvalid.wellFormed

/-- What can be reached from a valid grammar uses its symbols consistently, can be normalized
without a fault on the way, and is valid again after the way through the typed form. -/
theorem Reached.stays_consistent (hg : g.Reached) :
    g.checkSymbols = .ok () ∧ g.start ∉ g.terminals ∧
      (¬ g.DeclaresStart → ∀ p ∈ g.productions, p.lhs ≠ g.start) ∧
      (∀ r ∈ g.normalize.records, r.grammar.checkSymbols = .ok ()) ∧
      (∃ c, NormalGrammar.ofGrammar g.normalize.outcome = .ok c ∧
        g.normalize.normalForm = { c with erasable := g.normalize.derivesEmptyWord }) ∧
      (Transformation.roundTrip.apply g).validate = .ok () := by
  have hwell := hg.wellFormed
  refine ⟨checkSymbols_eq_ok_iff.mpr hwell.consistent, hwell.start_not_mem_terminals,
    hwell.consistent.lhs_ne_start, fun r hr => ?_, ?_, ?_⟩
  · have hrecord := Stage.wellFormed_of_mem_run Stage.sequence [] hwell r hr
    exact checkSymbols_eq_ok_iff.mpr hrecord.consistent
  · exact Normalization.exists_ofGrammar_outcome g
  · exact validate_eq_ok_iff.mpr (Transformation.valid_apply_roundTrip hwell)

/-- On this way the start symbol is dropped and comes back. -/
theorem stays_consistent_applyAll_silent :
    (Transformation.applyAll [.stage .epsilonFree, .stage .productive, .roundTrip,
      .stage .binary] silent).Reached ∧
    (Transformation.applyAll [.stage .epsilonFree, .stage .productive, .roundTrip,
      .stage .binary] silent).checkSymbols = .ok () := by
  have hreached : (Transformation.applyAll [.stage .epsilonFree, .stage .productive, .roundTrip,
      .stage .binary] silent).Reached := ⟨silent, _, valid_silent, rfl⟩
  obtain ⟨hcheck, _⟩ := hreached.stays_consistent
  exact ⟨hreached, hcheck⟩

end Grammar

end ContextFree
