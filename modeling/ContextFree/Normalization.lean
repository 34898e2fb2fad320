import ContextFree.BinaryForm
import ContextFree.EpsilonFree
import ContextFree.NormalGrammar
import ContextFree.UnitFree
import ContextFree.Useful

/-!
# Normalization

The passes that lead to Chomsky normal form, one after the other, with a record of every grammar on
the way and of what it reveals about the language. Going over to binary form brings back unit
productions and useless symbols where the grammar has them, hence the second round of cleaning up.
The last grammar has normal productions only (`isNormal_of_mem_outcome`).
-/

namespace ContextFree

inductive Stage where
  | epsilonFree
  | unitFree
  | productive
  | accessible
  | binary
  deriving DecidableEq

/-- A fact about the language: each of them means that it holds no word but perhaps the empty
one. -/
inductive Finding where
  | nonProductiveStart
  | inaccessibleStart
  deriving DecidableEq

def Finding.text : Finding → String
  | nonProductiveStart => "start symbol is non-productive"
  | inaccessibleStart => "start symbol is inaccessible"

namespace Stage

def title : Stage → String
  | epsilonFree => "Eliminate ε-productions"
  | unitFree => "Eliminate unit productions"
  | productive => "Eliminate non-productive symbols"
  | accessible => "Eliminate inaccessible symbols"
  | binary => "Transform productions to A → BC or A → a"

def apply : Stage → Grammar → Grammar
  | epsilonFree => Grammar.epsilonFree
  | unitFree => Grammar.unitFree
  | productive => Grammar.productivePart
  | accessible => Grammar.accessiblePart
  | binary => Grammar.binaryForm

/-- What a pass over a grammar has to say. -/
def notes : Stage → Grammar → List Note
  | epsilonFree, g =>
    .nullable g.nullable.toList ::
      g.epsilonReplacements.flatMap fun e => (e.2.filter (· ≠ e.1)).map (.yields e.1)
  | unitFree, g =>
    let index := g.index
    g.unitClosures.entries.flatMap fun e =>
      (if e.2.size > 1 then [.unitClosure e.1 e.2.toList] else []) ++
        ((index.unitCopies e.1 e.2).filter fun c => c.1.lhs ≠ e.1).map fun c => .yields c.1 c.2
  | productive, g =>
    let names := g.productive
    .productive names.toList ::
      if g.DeclaresStart ∧ g.start ∉ names then [.nonProductiveStart g.start] else []
  | accessible, g =>
    (if g.DeclaresStart then [] else [.undeclaredStart g.start]) ++
      [.accessible g.accessible.toList]
  | binary, g => g.binaryOutcome.notes

/-- What the outcome of a pass reveals: one that drops useless symbols may have dropped the start
symbol. -/
def findings (stage : Stage) (outcome : Grammar) : List Finding :=
  if outcome.DeclaresStart then []
  else match stage with
    | productive => [.nonProductiveStart]
    | accessible => [.inaccessibleStart]
    | _ => []

def sequence : List Stage :=
  [epsilonFree, unitFree, productive, accessible, binary, unitFree, productive, accessible]

end Stage

structure StageRecord where
  stage : Stage
  grammar : Grammar
  /-- What the stage reveals and no earlier one did. -/
  findings : List Finding
  deriving DecidableEq

namespace StageRecord

/-- Runs stages one after the other; what was found before is not reported again. -/
def run : List Stage → List Finding → Grammar → List StageRecord
  | [], _, _ => []
  | stage :: stages, seen, g =>
    let outcome := stage.apply g
    let found := (stage.findings outcome).filter (· ∉ seen)
    ⟨stage, outcome, found⟩ :: run stages (seen ++ found) outcome

end StageRecord

structure Normalization where
  input : Grammar
  records : List StageRecord
  derivesEmptyWord : Bool
  deriving DecidableEq

namespace Grammar

def normalize (g : Grammar) : Normalization where
  input := g
  records := StageRecord.run Stage.sequence [] g
  derivesEmptyWord := decide (g.start ∈ g.nullable)

def normalForm (g : Grammar) : Grammar := Stage.sequence.foldl (fun g stage => stage.apply g) g

end Grammar

namespace Normalization

def outcome (n : Normalization) : Grammar :=
  n.records.foldl (fun _ r => r.grammar) n.input

def findings (n : Normalization) : List Finding :=
  [.nonProductiveStart, .inaccessibleStart].filter fun f => n.records.any fun r => f ∈ r.findings

/-- Whether the language of the input holds no word at all. -/
def isLanguageEmpty (n : Normalization) : Bool :=
  !n.derivesEmptyWord && !n.findings.isEmpty

/-- The last grammar in its typed form, with the empty word where the input derives it. -/
def normalForm (n : Normalization) : NormalGrammar :=
  .normalPart n.outcome n.derivesEmptyWord

/-- The notes of all stages: each is announced, says what it has to say, and ends with the
description of its outcome. -/
def notesFrom : Nat → Grammar → List StageRecord → List Note
  | _, _, [] => []
  | i, g, r :: rs =>
    .step i r.stage.title :: (r.stage.notes g ++
      .result r.grammar.description.text :: notesFrom (i + 1) r.grammar rs)

def notes (n : Normalization) : List Note := notesFrom 1 n.input n.records

theorem foldl_run (stages : List Stage) (seen : List Finding) (g : Grammar) :
    (StageRecord.run stages seen g).foldl (fun _ r => r.grammar) g =
      stages.foldl (fun g stage => stage.apply g) g := by
  induction stages generalizing seen g with
  | nil => rfl
  | cons stage stages ih => exact ih _ _

theorem outcome_normalize (g : Grammar) : g.normalize.outcome = g.normalForm :=
  foldl_run Stage.sequence [] g

end Normalization

namespace BinaryForm

theorem isBinary_of_mem_settle {supply : NameSupply} {N : OrderedSet Name}
    {s : OrderedSet Production} {notes : List Note} {rounds : Nat} {p : Production}
    (hp : p ∈ (settle supply N s notes rounds).productions) : p.isBinary = true := by
  fun_induction settle supply N s notes rounds with
  | case1 supply N s notes rounds r h => exact Round.isBinary_of_mem_run ((h p).mpr hp)
  | case2 supply N s notes rounds r h ih => exact ih hp

end BinaryForm

namespace Grammar

theorem isBinary_of_mem_binaryForm {g : Grammar} {p : Production}
    (hp : p ∈ g.binaryForm.productions) : p.isBinary = true :=
  BinaryForm.isBinary_of_mem_settle hp

theorem isNormal_of_mem_unitFree {g : Grammar} (h : ∀ p ∈ g.productions, p.isBinary = true)
    {p : Production} (hp : p ∈ g.unitFree.productions) : p.isNormal = true := by
  simp only [unitFree, OrderedSet.mem_ofList, List.mem_flatMap, List.mem_map,
    Index.unitCopies] at hp
  obtain ⟨e, _, c, ⟨B, _, q, hq, rfl⟩, rfl⟩ := hp
  obtain ⟨hmem, _, hproper⟩ := (Index.mem_properProductionsOf _).mp hq
  have hunit : q.unitTarget? = none :=
    Option.eq_none_iff_forall_ne_some.mpr fun C hC =>
      hproper C (Production.unitTarget?_eq_some_iff.mp hC)
  have hbinary := h q hmem
  rw [Production.isBinary, hunit] at hbinary
  simpa [Production.isNormal] using hbinary

theorem mem_productions_of_restrict {g : Grammar} {keep : Name → Bool} {p : Production}
    (hp : p ∈ (g.restrict keep).productions) : p ∈ g.productions :=
  (mem_productions_restrict.mp hp).1

/-- Binary form, followed by the removal of unit productions, is normal form. -/
theorem isNormal_of_mem_normalForm {g : Grammar} {p : Production}
    (hp : p ∈ g.normalForm.productions) : p.isNormal = true := by
  have hp' := mem_productions_of_restrict (mem_productions_of_restrict hp)
  exact isNormal_of_mem_unitFree (fun _ hq => isBinary_of_mem_binaryForm hq) hp'

end Grammar

namespace Normalization

theorem isNormal_of_mem_outcome {g : Grammar} {p : Production}
    (hp : p ∈ g.normalize.outcome.productions) : p.isNormal = true :=
  Grammar.isNormal_of_mem_normalForm (outcome_normalize g ▸ hp)

end Normalization

end ContextFree
