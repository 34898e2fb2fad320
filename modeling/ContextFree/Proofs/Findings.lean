import ContextFree.Proofs.Normalization

/-!
# What the findings say

The passes find the start symbol useless when there is no word but perhaps the empty one, and then
they report it at the first pass that drops it and at the one after that; otherwise they report
nothing (`findings_normalize`). A start symbol that is gone does not come back, and one that derives
a word is not dropped. Together with the test for the empty word, the findings decide whether the
language is empty.
-/

namespace ContextFree

open Grammar

namespace Stage

variable {g : Grammar}

/-- A start symbol that is gone does not come back. -/
theorem declaresStart_of_apply (stage : Stage) (hg : g.Consistent)
    (hstart : (stage.apply g).DeclaresStart) : g.DeclaresStart := by
  rw [DeclaresStart, stage.start_apply] at hstart
  by_cases hstage : stage = binary
  · -- The new names are none of those in use, and the start symbol is in use.
    subst hstage
    exact (hg.mem_nonTerminals_binaryForm hstart).resolve_right fun hnew => hnew g.start_mem_names
  · exact stage.nonTerminals_apply_subset hstage hstart

/-- What a pass reports where there is no start symbol. -/
def lossFindings : Stage → List Finding
  | productive => [.nonProductiveStart]
  | accessible => [.inaccessibleStart]
  | _ => []

theorem findings_of_declaresStart (stage : Stage) {outcome : Grammar}
    (hstart : outcome.DeclaresStart) : stage.findings outcome = [] := if_pos hstart

theorem findings_of_not_declaresStart (stage : Stage) {outcome : Grammar}
    (hstart : ¬ outcome.DeclaresStart) : stage.findings outcome = stage.lossFindings := by
  cases stage <;> exact if_neg hstart

/-- Reports of passes over grammars without a start symbol, each finding once. -/
def lossReports : List Stage → List Finding → List (List Finding)
  | [], _ => []
  | stage :: stages, seen =>
    let found := stage.lossFindings.filter (· ∉ seen)
    found :: lossReports stages (seen ++ found)

end Stage

namespace StageRecord

variable {g : Grammar}

theorem map_findings_run_cons (stage : Stage) (stages : List Stage) (seen found : List Finding)
    (hfound : stage.findings (stage.apply g) = found) :
    (run (stage :: stages) seen g).map findings = found.filter (· ∉ seen) ::
      (run stages (seen ++ found.filter (· ∉ seen)) (stage.apply g)).map findings := by
  rw [run, hfound, List.map_cons]

theorem map_findings_run_cons_nil (stage : Stage) (stages : List Stage) (seen : List Finding)
    (hnone : stage.findings (stage.apply g) = []) :
    (run (stage :: stages) seen g).map findings =
      [] :: (run stages seen (stage.apply g)).map findings := by
  rw [map_findings_run_cons stage stages seen [] hnone, List.filter_nil, List.append_nil]

theorem map_findings_run_of_loss (stages : List Stage) (seen : List Finding) (hg : g.Consistent)
    (hstart : ¬ g.DeclaresStart) :
    (run stages seen g).map findings = Stage.lossReports stages seen := by
  induction stages generalizing seen g with
  | nil => rfl
  | cons stage stages ih =>
      have hlost : ¬ (stage.apply g).DeclaresStart := fun h =>
        hstart (stage.declaresStart_of_apply hg h)
      rw [map_findings_run_cons stage stages seen _ (stage.findings_of_not_declaresStart hlost),
        ih _ (stage.consistent_apply hg) hlost, Stage.lossReports]

theorem map_findings_run_of_language (stages : List Stage) (seen : List Finding)
    (hg : g.Consistent) (hne : ∀ p ∈ g.productions, p.rhs ≠ []) {u : Sentence}
    (hu : g.Language u) :
    (run stages seen g).map findings = List.replicate stages.length [] := by
  induction stages generalizing g with
  | nil => rfl
  | cons stage stages ih =>
      have hg' := stage.consistent_apply hg
      have hu' : (stage.apply g).Language u := (stage.language_apply_iff hg hne).mpr hu
      have hnone := stage.findings_of_declaresStart (hg'.mem_nonTerminals_of_generates hu')
      rw [map_findings_run_cons_nil stage stages seen hnone,
        ih hg' (stage.rhs_ne_nil_apply hne) hu', List.length_cons, List.replicate_succ]

/-- The first two passes have nothing to report, whatever they come to. -/
theorem map_findings_run_sequence (g : Grammar) :
    (run Stage.sequence [] g).map findings =
      [] :: [] :: (run (Stage.sequence.drop 2) [] g.epsilonFree.unitFree).map findings := by
  rw [Stage.sequence, map_findings_run_cons_nil .epsilonFree _ [] (ite_self []),
    map_findings_run_cons_nil .unitFree _ [] (ite_self [])]
  rfl

end StageRecord

namespace Grammar

variable {g : Grammar}

theorem Consistent.findings_of_language (hg : g.Consistent) {u : Sentence} (hu : g.Language u)
    (hne : u ≠ []) : g.normalize.records.map StageRecord.findings = List.replicate 8 [] := by
  have hlang : g.epsilonFree.unitFree.Language u :=
    (hg.language_afterwards_iff [.unitFree]).mpr ⟨hu, hne⟩
  have hrest := StageRecord.map_findings_run_of_language (Stage.sequence.drop 2) []
    hg.epsilonFree.unitFree
    (Stage.unitFree.rhs_ne_nil_apply fun _ => epsilonFree_rhs_ne_nil) hlang
  rw [normalize, StageRecord.map_findings_run_sequence, hrest]
  rfl

theorem Consistent.findings_of_no_language (hg : g.Consistent)
    (hnone : ∀ u, g.Language u → u = []) :
    g.normalize.records.map StageRecord.findings =
      [[], [], [.nonProductiveStart], [.inaccessibleStart], [], [], [], []] := by
  have hlost : ¬ (Stage.productive.apply g.epsilonFree.unitFree).DeclaresStart := by
    intro hstart
    obtain ⟨u, hu⟩ := exists_generates_of_mem_productivePart hstart
    obtain ⟨hlang, hne⟩ := (hg.language_afterwards_iff [.unitFree, .productive]).mp hu
    exact hne (hnone u hlang)
  have hconsistent := Stage.productive.consistent_apply hg.epsilonFree.unitFree
  have hthird : Stage.sequence.drop 2 = .productive :: Stage.sequence.drop 3 := rfl
  rw [normalize, StageRecord.map_findings_run_sequence, hthird,
    StageRecord.map_findings_run_cons .productive _ [] _
      (Stage.productive.findings_of_not_declaresStart hlost),
    StageRecord.map_findings_run_of_loss _ _ hconsistent hlost]
  rfl

/-- A word that is not empty, or nothing but perhaps the empty one. -/
theorem exists_ne_nil_or_forall_eq_nil (g : Grammar) :
    (∃ u, g.Language u ∧ u ≠ []) ∨ ∀ u, g.Language u → u = [] := by
  by_cases h : ∃ u, g.Language u ∧ u ≠ []
  · exact Or.inl h
  · exact Or.inr fun u hu => Classical.byContradiction fun hne => h ⟨u, hu, hne⟩

theorem forall_not_language_iff :
    (∀ u, ¬ g.Language u) ↔ ¬ g.Language [] ∧ ¬ ∃ u, g.Language u ∧ u ≠ [] := by
  constructor
  · exact fun hnone => ⟨hnone [], fun ⟨u, hu, _⟩ => hnone u hu⟩
  · rintro ⟨hnil, hword⟩ u hu
    by_cases hne : u = []
    · exact hnil (hne ▸ hu)
    · exact hword ⟨u, hu, hne⟩

end Grammar

namespace Normalization

variable {g : Grammar}

theorem findings_eq (n : Normalization) : n.findings =
    [.nonProductiveStart, .inaccessibleStart].filter fun f =>
      (n.records.map StageRecord.findings).any fun found => decide (f ∈ found) := by
  simp only [findings, List.any_map, Function.comp_def]

/-- Nothing has been found exactly when there is a word that is not empty. -/
theorem isEmpty_findings_normalize_iff (hg : g.Consistent) :
    g.normalize.findings.isEmpty = true ↔ ∃ u, g.Language u ∧ u ≠ [] := by
  rw [findings_eq]
  rcases g.exists_ne_nil_or_forall_eq_nil with ⟨u, hu, hne⟩ | hnone
  · rw [hg.findings_of_language hu hne]
    exact iff_of_true rfl ⟨u, hu, hne⟩
  · rw [hg.findings_of_no_language hnone]
    exact iff_of_false (by decide) fun ⟨u, hu, hne⟩ => hne (hnone u hu)

theorem isLanguageEmpty_normalize_iff (hg : g.Consistent) :
    g.normalize.isLanguageEmpty = true ↔ ∀ u, ¬ g.Language u := by
  rw [isLanguageEmpty, Bool.and_eq_true, Bool.not_eq_true', Bool.not_eq_true', ← Bool.not_eq_true,
    ← Bool.not_eq_true, derivesEmptyWord_normalize_iff, isEmpty_findings_normalize_iff hg,
    forall_not_language_iff]

/-- The start symbol has productions at the end exactly when there is a word that is not empty. -/
theorem start_mem_keys_normalForm_iff (hg : g.Consistent) :
    g.normalize.normalForm.start ∈ g.normalize.normalForm.rules.keys ↔
      ∃ u, g.Language u ∧ u ≠ [] := by
  rw [normalForm, NormalGrammar.mem_keys_normalPart]
  constructor
  · rintro ⟨p, hp, _, -⟩
    rcases g.exists_ne_nil_or_forall_eq_nil with hword | hnone
    · exact hword
    · rw [outcome_normalize, (hg.normalForm_eq_empty hnone).2.2] at hp
      exact absurd hp (OrderedSet.not_mem_empty p)
  · rintro ⟨u, hu, hne⟩
    obtain ⟨p, hp, hlhs, _⟩ := generates_iff.mp ((language_outcome_iff hg).mpr ⟨hu, hne⟩)
    exact ⟨p, hp, isNormal_of_mem_outcome hp, hlhs⟩

theorem isEmpty_normalForm_iff (hg : g.Consistent) :
    g.normalize.normalForm.isEmpty = true ↔ ∀ u, ¬ g.Language u := by
  have herasable : g.normalize.normalForm.erasable = g.normalize.derivesEmptyWord := rfl
  rw [NormalGrammar.isEmpty, Bool.and_eq_true, decide_eq_true_iff, Bool.not_eq_true',
    ← Bool.not_eq_true, start_mem_keys_normalForm_iff hg, herasable,
    derivesEmptyWord_normalize_iff, forall_not_language_iff]

/-- Either nothing is reported and there is a word that is not empty, or the loss of the start
symbol is reported at the third and at the fourth pass and there is no such word. Hence the tests
for an empty language, on the passes and on the typed form, are right. -/
theorem findings_normalize (hg : g.Valid) :
    ((g.normalize.records.map StageRecord.findings = List.replicate 8 [] ∧
          ∃ u, g.Language u ∧ u ≠ []) ∨
        (g.normalize.records.map StageRecord.findings =
            [[], [], [.nonProductiveStart], [.inaccessibleStart], [], [], [], []] ∧
          ∀ u, g.Language u → u = [])) ∧
      (g.normalize.isLanguageEmpty = true ↔ ∀ u, ¬ g.Language u) ∧
      g.normalize.isLanguageEmpty = g.normalize.normalForm.isEmpty := by
  refine ⟨?_, isLanguageEmpty_normalize_iff hg.2, ?_⟩
  · rcases g.exists_ne_nil_or_forall_eq_nil with ⟨u, hu, hne⟩ | hnone
    · exact Or.inl ⟨hg.2.findings_of_language hu hne, u, hu, hne⟩
    · exact Or.inr ⟨hg.2.findings_of_no_language hnone, hnone⟩
  · rw [Bool.eq_iff_iff, isLanguageEmpty_normalize_iff hg.2, isEmpty_normalForm_iff hg.2]

theorem findings_normalize_nested_silent : nested.Valid ∧ silent.Valid ∧
    nested.normalize.records.map StageRecord.findings = List.replicate 8 [] ∧
      silent.normalize.records.map StageRecord.findings =
        [[], [], [.nonProductiveStart], [.inaccessibleStart], [], [], [], []] ∧
      silent.normalize.isLanguageEmpty = false ∧ silent.normalize.normalForm.isEmpty = false := by
  obtain ⟨hnested, _⟩ := findings_normalize valid_nested
  obtain ⟨hsilent, hempty, hsame⟩ := findings_normalize valid_silent
  have hnested' := hnested.resolve_right fun h => absurd (h.2 _ language_nested_brackets) (by simp)
  have hsilent' := hsilent.resolve_left fun ⟨_, u, hu, hne⟩ => hne (language_silent hu)
  have hnil : silent.Language [] :=
    generates_iff.mpr ⟨⟨.ofChar 'S', []⟩, by decide, rfl, .nil⟩
  have hfalse : silent.normalize.isLanguageEmpty = false :=
    Bool.eq_false_iff.mpr fun h => hempty.mp h [] hnil
  exact ⟨valid_nested, valid_silent, hnested'.1, hsilent'.1, hfalse, hsame ▸ hfalse⟩

end Normalization

end ContextFree
