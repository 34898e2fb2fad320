import ContextFree.Proofs.Findings
import ContextFree.Transformation

/-!
# What normalization warns of

Of the passes, one warns of a start symbol that is not productive, one of a start symbol that is not
declared, and binary form of every ε-production that it drops (`prominent_notes`). In their usual
order they have no ε-production to drop, as the first of them leaves none and no other brings one
back. So there is nothing to warn of where there is a word that is not empty, and otherwise there
are three warnings: the third step finds that the start symbol is of no use, and the fourth and the
eighth miss it (`warnings_normalForm`).
-/

namespace ContextFree

namespace Note

def isWarning (note : Note) : Bool := decide (note.level = .warn)

/-- The warnings of a log and the announcements of steps. -/
def prominent (log : List Note) : List Note :=
  log.filter fun note => note.level = .warn ∨ note.level = .info

/-- The number of the step that is under way after a note. -/
def stepAfter : Nat → Note → Nat
  | _, step i _ => i
  | i, _ => i

/-- The notes of a log, each with the number of the step that was announced last. -/
def numbered : Nat → List Note → List (Nat × Note)
  | _, [] => []
  | i, note :: log => (stepAfter i note, note) :: numbered (stepAfter i note) log

/-- The warnings of a log, each with the number of the step that it comes from. -/
def warningsFrom (i : Nat) (log : List Note) : List (Nat × Note) :=
  (numbered i log).filter fun e => e.2.isWarning

@[simp] theorem prominent_append (log log' : List Note) :
    prominent (log ++ log') = prominent log ++ prominent log' := List.filter_append ..

theorem filter_isWarning_prominent (log : List Note) :
    (prominent log).filter isWarning = log.filter isWarning := by
  rw [prominent, List.filter_filter]
  refine List.filter_congr fun note _ => ?_
  cases hlevel : note.level <;> simp [isWarning, hlevel]

theorem map_snd_numbered (i : Nat) (log : List Note) : (numbered i log).map Prod.snd = log := by
  induction log generalizing i with
  | nil => rfl
  | cons note log ih => rw [numbered, List.map_cons, ih]

theorem map_snd_warningsFrom (i : Nat) (log : List Note) :
    (warningsFrom i log).map Prod.snd = log.filter isWarning := by
  change ((numbered i log).filter (isWarning ∘ Prod.snd)).map Prod.snd = _
  rw [← List.filter_map, map_snd_numbered]

/-- Only announcements change the number. -/
theorem stepAfter_of_level {note : Note} (h : note.level ≠ .info) (i : Nat) :
    stepAfter i note = i := by
  cases note with
  | step _ _ => exact absurd rfl h
  | _ => rfl

/-- What is logged during a step has the number of that step. -/
theorem warningsFrom_append {log : List Note} (h : ∀ note ∈ log, note.level ≠ .info) (i : Nat)
    (log' : List Note) : warningsFrom i (log ++ log') =
      (log.filter isWarning).map (Prod.mk i) ++ warningsFrom i log' := by
  induction log with
  | nil => rfl
  | cons note log ih =>
      obtain ⟨hnote, hlog⟩ := List.forall_mem_cons.mp h
      have ih := ih hlog
      rw [warningsFrom] at ih ⊢
      rw [List.cons_append, numbered, stepAfter_of_level hnote, List.filter_cons, ih,
        List.filter_cons]
      cases note.isWarning <;> rfl

end Note

namespace BinaryForm

open Note

namespace Round

theorem isErasing_of_isBinary {p : Production} (h : p.isBinary = true) : p.isErasing = false := by
  rw [← Bool.not_eq_true, Production.isErasing_iff]
  exact Production.rhs_ne_nil_of_isBinary h

/-- Of the notes that a round makes, those on dropped productions stand out. -/
theorem Leads.prominent_notes {r s : Round} {ps : List Production} (hrun : r.Leads ps s) :
    prominent s.notes = prominent r.notes ++ (ps.filter Production.isErasing).map .drops := by
  induction hrun with
  | done r => simp
  | keep hbinary _ ih => rw [ih, List.filter_cons, isErasing_of_isBinary hbinary]; rfl
  | drop _ ih =>
      rw [ih, prominent_append, List.append_assoc]
      rfl
  | exchange _ _ _ ih => simpa [Production.isErasing] using ih
  | @introduce r _ _ a _ _ _ _ _ _ ih =>
      have hsilent : prominent [.introduces (r.supply.proxy a).1 a] = [] := rfl
      simpa [Production.isErasing, Round.introduce, hsilent] using ih
  | link _ ih => exact ih
  | note p q _ ih =>
      have hsilent : prominent [.yields p q] = [] := rfl
      simpa [hsilent] using ih

theorem prominent_notes_run (supply : NameSupply) (N : OrderedSet Name) (ps : List Production) :
    prominent (run supply N ps).notes = (ps.filter Production.isErasing).map .drops :=
  (leads_foldl _ ps).prominent_notes.trans (List.nil_append _)

end Round

theorem prominent_notes_settle (supply : NameSupply) (N : OrderedSet Name)
    (s : OrderedSet Production) (notes : List Note) (rounds : Nat) :
    prominent (settle supply N s notes rounds).notes =
      prominent notes ++ (s.toList.filter Production.isErasing).map .drops := by
  fun_induction settle supply N s notes rounds with
  | case1 supply N s notes rounds r h => rw [prominent_append, Round.prominent_notes_run]
  | case2 supply N s notes rounds r h ih =>
      -- What a round puts out has no ε-productions, so that the rounds after it drop nothing.
      have hnone : r.output.toList.filter Production.isErasing = [] := by
        refine List.filter_eq_nil_iff.mpr fun p hp => ?_
        rw [Round.isErasing_of_isBinary (Round.isBinary_of_mem_run hp)]
        exact Bool.false_ne_true
      rw [ih, prominent_append, Round.prominent_notes_run, hnone, List.map_nil, List.append_nil]

end BinaryForm

namespace Stage

open Note

variable {g : Grammar}

/-- What a pass warns of. -/
def warnings : Stage → Grammar → List Note
  | productive, g =>
    if g.DeclaresStart ∧ g.start ∉ g.productive then [.nonProductiveStart g.start] else []
  | accessible, g => if g.DeclaresStart then [] else [.undeclaredStart g.start]
  | binary, g => (g.productions.toList.filter Production.isErasing).map .drops
  | _, _ => []

theorem prominent_notes (stage : Stage) (g : Grammar) :
    prominent (stage.notes g) = stage.warnings g := by
  cases stage with
  | epsilonFree =>
      refine List.filter_eq_nil_iff.mpr fun note hnote => ?_
      rcases List.mem_cons.mp hnote with rfl | hnote
      · exact Bool.false_ne_true
      · obtain ⟨e, _, hnote⟩ := List.mem_flatMap.mp hnote
        obtain ⟨q, _, rfl⟩ := List.mem_map.mp hnote
        exact Bool.false_ne_true
  | unitFree =>
      refine List.filter_eq_nil_iff.mpr fun note hnote => ?_
      obtain ⟨e, _, hnote⟩ := List.mem_flatMap.mp hnote
      rcases List.mem_append.mp hnote with hnote | hnote
      · split at hnote
        · rw [List.mem_singleton.mp hnote]
          exact Bool.false_ne_true
        · exact absurd hnote List.not_mem_nil
      · obtain ⟨c, _, rfl⟩ := List.mem_map.mp hnote
        exact Bool.false_ne_true
  | productive =>
      simp only [notes, warnings]
      split <;> rfl
  | accessible =>
      simp only [notes, warnings]
      split <;> rfl
  | binary => exact BinaryForm.prominent_notes_settle _ _ _ _ _

theorem level_of_mem_warnings {stage : Stage} {note : Note} (h : note ∈ stage.warnings g) :
    note.level = .warn := by
  cases stage with
  | epsilonFree => exact absurd h List.not_mem_nil
  | unitFree => exact absurd h List.not_mem_nil
  | productive =>
      simp only [warnings, List.mem_ite_nil_right, List.mem_singleton] at h
      exact h.2 ▸ rfl
  | accessible =>
      simp only [warnings, List.mem_ite_nil_left, List.mem_singleton] at h
      exact h.2 ▸ rfl
  | binary =>
      obtain ⟨p, _, rfl⟩ := List.mem_map.mp h
      rfl

theorem level_ne_info_of_mem_notes {stage : Stage} {note : Note} (h : note ∈ stage.notes g) :
    note.level ≠ .info := by
  intro hinfo
  have hprominent : note ∈ prominent (stage.notes g) :=
    List.mem_filter.mpr ⟨h, decide_eq_true (Or.inr hinfo)⟩
  rw [prominent_notes] at hprominent
  exact absurd (hinfo.symm.trans (level_of_mem_warnings hprominent)) (by decide)

theorem filter_isWarning_notes (stage : Stage) (g : Grammar) :
    (stage.notes g).filter isWarning = stage.warnings g := by
  rw [← filter_isWarning_prominent, prominent_notes, List.filter_eq_self]
  exact fun note hnote => decide_eq_true (level_of_mem_warnings hnote)

/-- The warnings of passes in a row, each with the number of its step. -/
def warningsOfRun : Nat → List Stage → Grammar → List (Nat × Note)
  | _, [], _ => []
  | i, stage :: stages, g =>
    (stage.warnings g).map (Prod.mk i) ++ warningsOfRun (i + 1) stages (stage.apply g)

theorem warningsFrom_notesFrom (i j : Nat) (stages : List Stage) (seen : List Finding)
    (g : Grammar) :
    warningsFrom j (Normalization.notesFrom i g (StageRecord.run stages seen g)) =
      warningsOfRun i stages g := by
  induction stages generalizing i j seen g with
  | nil => rfl
  | cons stage stages ih =>
      have hstep : warningsFrom j
          (Normalization.notesFrom i g (StageRecord.run (stage :: stages) seen g)) =
          warningsFrom i (stage.notes g ++ .result (stage.apply g).description.text ::
            Normalization.notesFrom (i + 1) (stage.apply g)
              (StageRecord.run stages
                (seen ++ (stage.findings (stage.apply g)).filter (· ∉ seen))
                (stage.apply g))) := rfl
      rw [hstep, warningsFrom_append (fun _ => level_ne_info_of_mem_notes),
        filter_isWarning_notes, warningsOfRun]
      exact congrArg _ (ih (i + 1) i _ _)

/-! ## Without ε-productions -/

theorem warnings_binary_of_ne_nil (hne : ∀ p ∈ g.productions, p.rhs ≠ []) :
    binary.warnings g = [] := by
  have hnone : g.productions.toList.filter Production.isErasing = [] :=
    List.filter_eq_nil_iff.mpr fun p hp herasing => hne p hp (Production.isErasing_iff.mp herasing)
  rw [warnings, hnone, List.map_nil]

theorem warnings_of_language (stage : Stage) (hg : g.Consistent)
    (hne : ∀ p ∈ g.productions, p.rhs ≠ []) {u : Sentence} (hu : g.Language u) :
    stage.warnings g = [] := by
  cases stage with
  | epsilonFree => rfl
  | unitFree => rfl
  | productive => exact if_neg fun h => h.2 (Grammar.mem_productive_iff.mpr ⟨u, hu⟩)
  | accessible => exact if_pos (hg.mem_nonTerminals_of_generates hu)
  | binary => exact warnings_binary_of_ne_nil hne

theorem warningsOfRun_of_language (i : Nat) (stages : List Stage) (hg : g.Consistent)
    (hne : ∀ p ∈ g.productions, p.rhs ≠ []) {u : Sentence} (hu : g.Language u) :
    warningsOfRun i stages g = [] := by
  induction stages generalizing i g with
  | nil => rfl
  | cons stage stages ih =>
      rw [warningsOfRun, stage.warnings_of_language hg hne hu, List.map_nil, List.nil_append]
      exact ih _ (stage.consistent_apply hg) (stage.rhs_ne_nil_apply hne)
        ((stage.language_apply_iff hg hne).mpr hu)

/-- What a pass warns of where there is no start symbol. -/
def lossWarnings (start : Name) : Stage → List Note
  | accessible => [.undeclaredStart start]
  | _ => []

theorem warnings_of_loss (stage : Stage) (hne : ∀ p ∈ g.productions, p.rhs ≠ [])
    (hstart : ¬ g.DeclaresStart) : stage.warnings g = stage.lossWarnings g.start := by
  cases stage with
  | epsilonFree => rfl
  | unitFree => rfl
  | productive => exact if_neg fun h => hstart h.1
  | accessible => exact if_neg hstart
  | binary => exact warnings_binary_of_ne_nil hne

theorem warningsOfRun_of_loss (i : Nat) (stages : List Stage) (hg : g.Consistent)
    (hne : ∀ p ∈ g.productions, p.rhs ≠ []) (hstart : ¬ g.DeclaresStart) :
    warningsOfRun i stages g =
      (stages.zipIdx i).flatMap fun e => (e.1.lossWarnings g.start).map (Prod.mk e.2) := by
  induction stages generalizing i g with
  | nil => rfl
  | cons stage stages ih =>
      have hlost : ¬ (stage.apply g).DeclaresStart := fun h =>
        hstart (stage.declaresStart_of_apply hg h)
      rw [warningsOfRun, stage.warnings_of_loss hne hstart,
        ih _ (stage.consistent_apply hg) (stage.rhs_ne_nil_apply hne) hlost, stage.start_apply]
      rfl

/-- Where there are no words, the start symbol is lost as soon as non-productive symbols are
dropped, with a warning; from then on it is missed. -/
theorem warningsOfRun_productive_of_no_language (i : Nat) (stages : List Stage)
    (hg : g.Consistent) (hne : ∀ p ∈ g.productions, p.rhs ≠ []) (hstart : g.DeclaresStart)
    (hnone : ∀ u, ¬ g.Language u) :
    warningsOfRun i (productive :: stages) g = (i, .nonProductiveStart g.start) ::
      (stages.zipIdx (i + 1)).flatMap fun e => (e.1.lossWarnings g.start).map (Prod.mk e.2) := by
  have huseless : g.start ∉ g.productive := fun hmem =>
    have ⟨u, hu⟩ := Grammar.mem_productive_iff.mp hmem
    hnone u hu
  have hwarning : productive.warnings g = [.nonProductiveStart g.start] :=
    if_pos ⟨hstart, huseless⟩
  have hlost : ¬ (productive.apply g).DeclaresStart := fun h =>
    huseless (of_decide_eq_true (Grammar.mem_nonTerminals_restrict.mp h).2)
  rw [warningsOfRun, hwarning, warningsOfRun_of_loss _ _ (productive.consistent_apply hg)
    (productive.rhs_ne_nil_apply hne) hlost, productive.start_apply]
  rfl

end Stage

namespace Grammar

open Note

variable {g : Grammar}

theorem warningsFrom_notes_normalize (g : Grammar) :
    warningsFrom 0 g.normalize.notes =
      Stage.warningsOfRun 3 (Stage.sequence.drop 2) g.epsilonFree.unitFree :=
  Stage.warningsFrom_notesFrom 1 0 Stage.sequence [] g

theorem Consistent.warnings_of_language (hg : g.Consistent) {u : Sentence} (hu : g.Language u)
    (hne : u ≠ []) : warningsFrom 0 g.normalize.notes = [] := by
  have hlang : g.epsilonFree.unitFree.Language u :=
    (hg.language_afterwards_iff [.unitFree]).mpr ⟨hu, hne⟩
  rw [warningsFrom_notes_normalize]
  exact Stage.warningsOfRun_of_language _ _ hg.epsilonFree.unitFree
    (Stage.unitFree.rhs_ne_nil_apply fun _ => epsilonFree_rhs_ne_nil) hlang

theorem Valid.warnings_of_no_language (hg : g.Valid) (hnone : ∀ u, g.Language u → u = []) :
    warningsFrom 0 g.normalize.notes =
      [(3, .nonProductiveStart g.start), (4, .undeclaredStart g.start),
        (8, .undeclaredStart g.start)] := by
  have hsame : g.epsilonFree.unitFree.start = g.start := by simp only [unitFree, epsilonFree]
  have hdecl : g.epsilonFree.unitFree.DeclaresStart := by
    have hmem : g.start ∈ g.nonTerminals := hg.1
    rw [DeclaresStart, hsame]
    simpa only [unitFree, epsilonFree] using hmem
  have hnone' : ∀ u, ¬ g.epsilonFree.unitFree.Language u := by
    intro u hu
    obtain ⟨hlang, hne⟩ := (hg.2.language_afterwards_iff [.unitFree]).mp hu
    exact hne (hnone u hlang)
  have hsequence : Stage.sequence.drop 2 = .productive :: Stage.sequence.drop 3 := rfl
  rw [warningsFrom_notes_normalize, hsequence,
    Stage.warningsOfRun_productive_of_no_language _ _ hg.2.epsilonFree.unitFree
      (Stage.unitFree.rhs_ne_nil_apply fun _ => epsilonFree_rhs_ne_nil) hdecl hnone', hsame]
  rfl

end Grammar

namespace Transformation

open Grammar Note

variable {g : Grammar}

/-- Either there is a word that is not empty and nothing is warned of, or there is none and three
steps warn of the start symbol. No ε-production is dropped with a warning in either case. -/
theorem warnings_normalForm (hg : g.Valid) :
    ((warningsFrom 0 (normalForm.notes g) = [] ∧ ∃ u, g.Language u ∧ u ≠ []) ∨
        (warningsFrom 0 (normalForm.notes g) =
            [(3, .nonProductiveStart g.start), (4, .undeclaredStart g.start),
              (8, .undeclaredStart g.start)] ∧
          ∀ u, g.Language u → u = [])) ∧
      (normalForm.notes g).filter isWarning =
        (warningsFrom 0 (normalForm.notes g)).map Prod.snd ∧
      ∀ p, .drops p ∉ normalForm.notes g := by
  have hlog : normalForm.notes g = g.normalize.notes := rfl
  rw [hlog]
  have hall := map_snd_warningsFrom 0 g.normalize.notes
  have hdrops : ∀ p, .drops p ∈ g.normalize.notes →
      .drops p ∈ (warningsFrom 0 g.normalize.notes).map Prod.snd := fun p hp =>
    hall ▸ List.mem_filter.mpr ⟨hp, rfl⟩
  rcases g.exists_ne_nil_or_forall_eq_nil with ⟨u, hu, hne⟩ | hnone
  · have hwarnings := hg.2.warnings_of_language hu hne
    refine ⟨Or.inl ⟨hwarnings, u, hu, hne⟩, hall.symm, fun p hp => ?_⟩
    exact absurd (hdrops p hp) (by simp [hwarnings])
  · have hwarnings := hg.warnings_of_no_language hnone
    refine ⟨Or.inr ⟨hwarnings, hnone⟩, hall.symm, fun p hp => ?_⟩
    exact absurd (hdrops p hp) (by simp [hwarnings])

theorem warnings_normalForm_nested_silent : nested.Valid ∧ silent.Valid ∧
    warningsFrom 0 (normalForm.notes nested) = [] ∧
      warningsFrom 0 (normalForm.notes silent) =
        [(3, .nonProductiveStart (.ofChar 'S')), (4, .undeclaredStart (.ofChar 'S')),
          (8, .undeclaredStart (.ofChar 'S'))] := by
  obtain ⟨hnested, _⟩ := warnings_normalForm valid_nested
  obtain ⟨hsilent, _⟩ := warnings_normalForm valid_silent
  have hnested' := hnested.resolve_right fun h => absurd (h.2 _ language_nested_brackets) (by simp)
  have hsilent' := hsilent.resolve_left fun ⟨_, u, hu, hne⟩ => hne (language_silent hu)
  exact ⟨valid_nested, valid_silent, hnested'.1, hsilent'.1⟩

end Transformation

end ContextFree
