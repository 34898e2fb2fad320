import Mathlib
import ContextFree.Proofs.EpsilonFree
import ContextFree.Proofs.Findings
import ContextFree.Proofs.ShortWords
import ContextFree.Proofs.UnitFree
import ContextFree.Proofs.Useful

/-!
# The order in which a grammar is written down

Every set that a pass computes is settled by what the productions derive, whatever the order in
which they are gone through. So all passes but the one to binary form take equivalent grammars to
equivalent grammars (`Stage.apply_congr`), and by induction so do runs of such passes. Binary form
hands out new names in the order of the productions, and from there on it is only the language that
two runs have in common; this still settles what they report and which short words they list
(`order_irrelevant`).
-/

namespace ContextFree

theorem OrderedMap.tabulate_congr {κ ν : Type} [Coded κ] [Setoid ν] {ks ks' : OrderedSet κ}
    {f f' : κ → ν} (hkeys : ks ≈ ks') (hvalues : ∀ k, f k ≈ f' k) :
    tabulate ks f ≈ tabulate ks' f' := by
  have hsub : ∀ {ks ks' : OrderedSet κ} {f f' : κ → ν}, (∀ k ∈ ks, k ∈ ks') →
      (∀ k, f k ≈ f' k) → ∀ e ∈ (tabulate ks f).entries,
        ∃ e' ∈ (tabulate ks' f').entries, e'.1 = e.1 ∧ e.2 ≈ e'.2 := by
    intro ks ks' f f' hkeys hvalues e he
    obtain ⟨k, hk, rfl⟩ := List.mem_map.mp he
    exact ⟨(k, f' k), List.mem_map.mpr ⟨k, hkeys k hk, rfl⟩, rfl, hvalues k⟩
  exact ⟨hsub (fun k => (hkeys k).mp) hvalues,
    hsub (fun k => (hkeys k).mpr) fun k => Setoid.symm (hvalues k)⟩

namespace Grammar

/-! ## What equivalent grammars have in common -/

section

variable {a b : Grammar} (heq : a ≈ b)

include heq

theorem generates_congr {A : Name} {u : Sentence} : a.Generates A u ↔ b.Generates A u :=
  derives_congr heq.2.2.2

theorem language_congr {u : Sentence} : a.Language u ↔ b.Language u := by
  rw [Language, Language, heq.1]
  exact generates_congr heq

theorem declares_congr {x : Symbol} : a.Declares x ↔ b.Declares x := by
  cases x with
  | terminal c => exact heq.2.2.1 c
  | nonTerminal A => exact heq.2.1 A

theorem declaresStart_congr : a.DeclaresStart ↔ b.DeclaresStart := by
  rw [DeclaresStart, DeclaresStart, heq.1]
  exact heq.2.1 b.start

theorem Consistent.of_equiv (ha : a.Consistent) : b.Consistent := by
  refine ⟨fun c hc hC => ?_, fun p hp x hx => ?_⟩
  · exact ha.1 c ((heq.2.2.1 c).mpr hc) ((heq.2.1 c).mpr hC)
  · exact (declares_congr heq).mp (ha.2 p ((heq.2.2.2 p).mpr hp) x hx)

theorem Valid.of_equiv (ha : a.Valid) : b.Valid :=
  ⟨(declaresStart_congr heq).mp ha.1, ha.2.of_equiv heq⟩

/-! ## The sets that the passes compute -/

theorem generating_congr (letter : Name → Bool) : a.generating letter ≈ b.generating letter := by
  intro A
  rw [mem_generating_iff, mem_generating_iff]
  exact exists_congr fun u => and_congr_left' (generates_congr heq)

theorem nullable_congr : a.nullable ≈ b.nullable := generating_congr heq _

theorem productive_congr : a.productive ≈ b.productive := generating_congr heq _

theorem mem_successors_congr {x y : Symbol} :
    y ∈ a.index.successors x ↔ y ∈ b.index.successors x := by
  rw [Index.mem_successors_iff, Index.mem_successors_iff]
  exact exists_congr fun p => and_congr (heq.2.2.2 p)
    (and_congr_right' (and_congr_right' (declares_congr heq)))

theorem accessible_congr : a.accessible ≈ b.accessible := by
  intro x
  have hnext : (fun x y => y ∈ a.index.successors x) = fun x y => y ∈ b.index.successors x :=
    funext fun x => funext fun y => propext (mem_successors_congr heq)
  rw [mem_accessible_iff_chain, mem_accessible_iff_chain, hnext, heq.1, declaresStart_congr heq]

theorem unitDerives_congr {A B : Name} : a.UnitDerives A B ↔ b.UnitDerives A B := by
  have hstep : a.UnitStep = b.UnitStep :=
    funext fun A => funext fun B => propext (heq.2.2.2 ⟨A, [.nonTerminal B]⟩)
  rw [UnitDerives, UnitDerives, hstep]

theorem mem_heads_congr {A : Name} : A ∈ a.heads ↔ A ∈ b.heads := by
  rw [mem_heads, mem_heads]
  exact exists_congr fun p => and_congr_left' (heq.2.2.2 p)

theorem unitClosures_congr : a.unitClosures ≈ b.unitClosures := by
  refine OrderedMap.tabulate_congr (fun A => ?_) fun A B => ?_
  · rw [OrderedSet.mem_ofList, OrderedSet.mem_ofList]
    exact mem_heads_congr heq
  · rw [Index.mem_unitClosure_iff, Index.mem_unitClosure_iff]
    exact unitDerives_congr heq

/-! ## The passes -/

theorem omitsNullable_congr {w v : Word} : a.OmitsNullable w v ↔ b.OmitsNullable w v := by
  simp only [OmitsNullable, generates_congr heq]

theorem epsilonFree_congr : a.epsilonFree ≈ b.epsilonFree := by
  refine ⟨heq.1, heq.2.1, heq.2.2.1, fun q => ?_⟩
  obtain ⟨A, v⟩ := q
  rw [mem_productions_epsilonFree_iff, mem_productions_epsilonFree_iff]
  exact and_congr_right' (exists_congr fun w =>
    and_congr (heq.2.2.2 ⟨A, w⟩) (omitsNullable_congr heq))

theorem unitFree_congr : a.unitFree ≈ b.unitFree := by
  refine ⟨heq.1, heq.2.1, heq.2.2.1, fun q => ?_⟩
  rw [mem_productions_unitFree, mem_productions_unitFree]
  exact and_congr_right' (exists_congr fun B =>
    and_congr (unitDerives_congr heq) (heq.2.2.2 ⟨B, q.rhs⟩))

theorem restrict_congr {keep keep' : Name → Bool} (hkeep : ∀ A, keep A = keep' A) :
    a.restrict keep ≈ b.restrict keep' := by
  obtain rfl : keep = keep' := funext hkeep
  have hproductions : ∀ p,
      p ∈ (a.restrict keep).productions ↔ p ∈ (b.restrict keep).productions := by
    intro p
    rw [mem_productions_restrict, mem_productions_restrict]
    exact and_congr_left' (heq.2.2.2 p)
  refine ⟨heq.1, fun A => ?_, fun c => ?_, hproductions⟩
  · rw [mem_nonTerminals_restrict, mem_nonTerminals_restrict]
    exact and_congr_left' (heq.2.1 A)
  · rw [mem_terminals_restrict, mem_terminals_restrict]
    exact and_congr (heq.2.2.1 c) (exists_congr fun p => and_congr_left' (hproductions p))

theorem productivePart_congr : a.productivePart ≈ b.productivePart :=
  restrict_congr heq fun A => decide_eq_decide.mpr (productive_congr heq A)

theorem accessiblePart_congr : a.accessiblePart ≈ b.accessiblePart :=
  restrict_congr heq fun A => decide_eq_decide.mpr (accessible_congr heq (.nonTerminal A))

end

end Grammar

open Grammar

namespace Stage

theorem apply_congr {stage : Stage} (hstage : stage ≠ binary) {a b : Grammar} (heq : a ≈ b) :
    stage.apply a ≈ stage.apply b := by
  cases stage with
  | epsilonFree => exact epsilonFree_congr heq
  | unitFree => exact unitFree_congr heq
  | productive => exact productivePart_congr heq
  | accessible => exact accessiblePart_congr heq
  | binary => exact absurd rfl hstage

end Stage

namespace StageRecord

theorem take_run (n : Nat) (stages : List Stage) (seen : List Finding) (g : Grammar) :
    (run stages seen g).take n = run (stages.take n) seen g := by
  induction stages generalizing n seen g with
  | nil => rw [List.take_nil, run, List.take_nil]
  | cons stage stages ih =>
      cases n with
      | zero => rfl
      | succ n => exact congrArg (List.cons _) (ih n _ _)

/-- The grammars on the way do not depend on what was found before. -/
theorem forall₂_grammar_run {stages : List Stage} (hstages : .binary ∉ stages)
    (seen seen' : List Finding) {a b : Grammar} (heq : a ≈ b) :
    List.Forall₂ (· ≈ ·) ((run stages seen a).map grammar) ((run stages seen' b).map grammar) := by
  induction stages generalizing seen seen' a b with
  | nil => exact .nil
  | cons stage stages ih =>
      have hstage : stage ≠ .binary := Ne.symm (List.ne_of_not_mem_cons hstages)
      have hnext := Stage.apply_congr hstage heq
      exact .cons hnext (ih (List.not_mem_of_not_mem_cons hstages) _ _ hnext)

end StageRecord

/-! ## What only the language decides -/

theorem NormalGrammar.shortWords_congr {c d : NormalGrammar}
    (hlang : ∀ u, c.Language u ↔ d.Language u) (n : Nat) : c.shortWords n = d.shortWords n := by
  refine eq_of_pairwise_shortlexLt (c.pairwise_shortWords n) (d.pairwise_shortWords n) fun u => ?_
  rw [mem_shortWords_iff, mem_shortWords_iff, hlang]

namespace Grammar

section

variable {a b : Grammar}

theorem shortWords_congr (hlang : ∀ u, a.Language u ↔ b.Language u) (n : Nat) :
    a.shortWords n = b.shortWords n := by
  refine eq_of_pairwise_shortlexLt (a.pairwise_shortWords n) (b.pairwise_shortWords n) fun u => ?_
  rw [mem_shortWords_iff, mem_shortWords_iff, hlang]

theorem Consistent.findings_congr (ha : a.Consistent) (hb : b.Consistent)
    (hlang : ∀ u, a.Language u ↔ b.Language u) :
    a.normalize.records.map StageRecord.findings =
      b.normalize.records.map StageRecord.findings := by
  rcases a.exists_ne_nil_or_forall_eq_nil with ⟨u, hu, hne⟩ | hnone
  · rw [ha.findings_of_language hu hne, hb.findings_of_language ((hlang u).mp hu) hne]
  · rw [ha.findings_of_no_language hnone,
      hb.findings_of_no_language fun u hu => hnone u ((hlang u).mpr hu)]

end

/-! ## Where new names come in -/

/-- `S → AaB | BaA` and `A → a`, `B → a`: two candidates for a proxy. -/
def forward : Grammar where
  nonTerminals := .ofList [.ofChar 'S', .ofChar 'A', .ofChar 'B']
  terminals := .ofList [.ofChar 'a']
  start := .ofChar 'S'
  productions := .ofList
    [⟨.ofChar 'S', [.nonTerminal (.ofChar 'A'), .terminal (.ofChar 'a'),
        .nonTerminal (.ofChar 'B')]⟩,
      ⟨.ofChar 'S', [.nonTerminal (.ofChar 'B'), .terminal (.ofChar 'a'),
        .nonTerminal (.ofChar 'A')]⟩,
      ⟨.ofChar 'A', [.terminal (.ofChar 'a')]⟩,
      ⟨.ofChar 'B', [.terminal (.ofChar 'a')]⟩]

def backward : Grammar :=
  { forward with productions := .ofList forward.productions.toList.reverse }

theorem valid_forward : forward.Valid := validate_eq_ok_iff.mp rfl

theorem forward_equiv_backward : forward ≈ backward :=
  ⟨rfl, Setoid.refl _, Setoid.refl _, fun p => by simp [backward]⟩

/-- What becomes of `S → AaB`, by the number of the link and the proxy of `a`. -/
def shaped (k : Nat) (proxy : Name) : List Production :=
  [⟨.ofChar 'S', [.nonTerminal (.ofChar 'A'), .nonTerminal (NameSupply.intermediateCandidate k)]⟩,
    ⟨NameSupply.intermediateCandidate k, [.nonTerminal proxy, .nonTerminal (.ofChar 'B')]⟩]

theorem shaped_forward :
    (shaped 1 (.ofChar 'A')).all forward.normalForm.productions.contains = true := by cbv

theorem shaped_backward :
    (shaped 2 (.ofChar 'B')).all backward.normalForm.productions.contains = true := by cbv

theorem not_shaped_backward :
    (shaped 1 (.ofChar 'A')).all backward.normalForm.productions.contains = false := by cbv

theorem not_normalForm_forward_equiv : ¬ forward.normalForm ≈ backward.normalForm := by
  intro heq
  have hall : (shaped 1 (.ofChar 'A')).all backward.normalForm.productions.contains = true := by
    refine List.all_eq_true.mpr fun p hp => OrderedSet.contains_iff.mpr ?_
    exact (heq.2.2.2 p).mp (OrderedSet.contains_iff.mp (List.all_eq_true.mp shaped_forward p hp))
  exact Bool.false_ne_true (not_shaped_backward.symm.trans hall)

end Grammar

namespace Normalization

variable {a b : Grammar}

theorem forall₂_grammar_take_four (heq : a ≈ b) :
    List.Forall₂ (· ≈ ·) ((a.normalize.records.take 4).map StageRecord.grammar)
      ((b.normalize.records.take 4).map StageRecord.grammar) := by
  rw [Grammar.normalize, Grammar.normalize, StageRecord.take_run, StageRecord.take_run]
  exact StageRecord.forall₂_grammar_run (by decide) [] [] heq

theorem derivesEmptyWord_congr (heq : a ≈ b) :
    a.normalize.derivesEmptyWord = b.normalize.derivesEmptyWord := by
  rw [Bool.eq_iff_iff, derivesEmptyWord_normalize_iff, derivesEmptyWord_normalize_iff]
  exact language_congr heq

theorem isLanguageEmpty_congr (ha : a.Consistent) (heq : a ≈ b) :
    a.normalize.isLanguageEmpty = b.normalize.isLanguageEmpty := by
  rw [Bool.eq_iff_iff, isLanguageEmpty_normalize_iff ha,
    isLanguageEmpty_normalize_iff (ha.of_equiv heq)]
  exact forall_congr' fun u => not_congr (language_congr heq)

theorem language_normalForm_congr (ha : a.Consistent) (heq : a ≈ b) (u : Sentence) :
    a.normalize.normalForm.Language u ↔ b.normalize.normalForm.Language u := by
  rw [language_normalForm_iff ha, language_normalForm_iff (ha.of_equiv heq), language_congr heq]

/-- The order of a valid grammar does not matter for what the passes compute, for the outcomes of
the passes that bring in no names, for the grammars before binary form, for what is found out about
the language, and for the short words; but the normal form may depend on it. -/
theorem order_irrelevant :
    (∀ a b : Grammar, a.Valid → a ≈ b → b.Valid ∧
      (a.nullable ≈ b.nullable ∧ a.productive ≈ b.productive ∧ a.accessible ≈ b.accessible ∧
        a.unitClosures ≈ b.unitClosures) ∧
      (a.epsilonFree ≈ b.epsilonFree ∧ a.unitFree ≈ b.unitFree ∧
        a.productivePart ≈ b.productivePart ∧ a.accessiblePart ≈ b.accessiblePart) ∧
      List.Forall₂ (· ≈ ·) ((a.normalize.records.take 4).map StageRecord.grammar)
        ((b.normalize.records.take 4).map StageRecord.grammar) ∧
      a.normalize.derivesEmptyWord = b.normalize.derivesEmptyWord ∧
      a.normalize.isLanguageEmpty = b.normalize.isLanguageEmpty ∧
      a.normalize.records.map StageRecord.findings =
        b.normalize.records.map StageRecord.findings ∧
      ∀ n, a.normalForm.shortWords n = b.normalForm.shortWords n ∧
        a.normalize.normalForm.shortWords n = b.normalize.normalForm.shortWords n) ∧
    ∃ a b : Grammar, a.Valid ∧ a ≈ b ∧ ¬ a.normalForm ≈ b.normalForm := by
  refine ⟨fun a b ha heq => ?_, forward, backward, valid_forward, forward_equiv_backward,
    not_normalForm_forward_equiv⟩
  have hb : b.Valid := ha.of_equiv heq
  have hnormal := language_normalForm_congr ha.2 heq
  have houtcome : ∀ u, a.normalForm.Language u ↔ b.normalForm.Language u := by
    intro u
    rw [ha.2.language_normalForm_iff, hb.2.language_normalForm_iff, language_congr heq]
  refine ⟨hb, ?_, ?_, forall₂_grammar_take_four heq, derivesEmptyWord_congr heq,
    isLanguageEmpty_congr ha.2 heq, ha.2.findings_congr hb.2 fun u => language_congr heq,
    fun n => ⟨shortWords_congr houtcome n, NormalGrammar.shortWords_congr hnormal n⟩⟩
  · exact ⟨nullable_congr heq, productive_congr heq, accessible_congr heq,
      unitClosures_congr heq⟩
  · exact ⟨epsilonFree_congr heq, unitFree_congr heq, productivePart_congr heq,
      accessiblePart_congr heq⟩

/-- Another number and another proxy, but the same words. -/
theorem order_irrelevant_forward_backward : forward.Valid ∧ forward ≈ backward ∧
    (∀ p ∈ shaped 1 (.ofChar 'A'), p ∈ forward.normalForm.productions) ∧
      (∀ p ∈ shaped 2 (.ofChar 'B'), p ∈ backward.normalForm.productions) ∧
      ∀ n, forward.normalForm.shortWords n = backward.normalForm.shortWords n := by
  obtain ⟨_, _, _, _, _, _, _, hwords⟩ :=
    order_irrelevant.1 forward backward valid_forward forward_equiv_backward
  refine ⟨valid_forward, forward_equiv_backward, fun p hp => ?_, fun p hp => ?_,
    fun n => (hwords n).1⟩
  · exact OrderedSet.contains_iff.mp (List.all_eq_true.mp shaped_forward p hp)
  · exact OrderedSet.contains_iff.mp (List.all_eq_true.mp shaped_backward p hp)

end Normalization

end ContextFree
