import Mathlib
import ContextFree.Proofs.Definition
import ContextFree.Proofs.Stage

/-!
# Legible grammars

What is read from a definition is legible, and no pass makes a grammar illegible: the symbols and
left-hand sides that it leaves are old ones, or have names of letters, digits and underscores.
-/

namespace ContextFree

open Outline

namespace Outline

/-! ## Definitions that are read -/

theorem WrittenList.exists_of_mem {α : Type} {form : α → Text → Prop} {sep : Char} {as : List α}
    {t : Text} (h : WrittenList form sep as t) {a : α} (ha : a ∈ as) : ∃ s, form a s := by
  obtain ⟨parts, hparts, _⟩ := h
  obtain ⟨s, _, hs⟩ := exists_of_forall₂ hparts ha
  exact ⟨s, hs⟩

theorem WrittenSection.exists_of_mem {α : Type} {form : α → Text → Prop} {key : Text}
    {as : List α} {t : Text} (h : WrittenSection key form as t) {a : α} (ha : a ∈ as) :
    ∃ s, form a s := by
  obtain ⟨_, _, _, _, _, _, _, _, _, hbody, _⟩ := h
  exact hbody.exists_of_mem ha

theorem WrittenSection.madeOf {may : Char → Prop} {key : Text} {names : List Name} {t : Text}
    (h : WrittenSection key (WrittenName may) names t) : ∀ a ∈ names, a.MadeOf may := by
  intro a ha
  obtain ⟨_, _, _, _, _, hmay, _⟩ := h.exists_of_mem ha
  exact hmay

theorem madeOf_lhs_of_writtenSection {key : Text} {rules : List (Name × List Text)} {t : Text}
    (h : WrittenSection key WrittenRule rules t) : ∀ r ∈ rules, r.1.MadeOf MayNameHead := by
  intro r hr
  obtain ⟨_, _, _, _, ⟨_, _, _, _, hmay, _⟩, _⟩ := h.exists_of_mem hr
  exact hmay

theorem lhs_of_readRule {v : Vocabulary} {r : Name × List Text} {ps : List Production}
    (h : readRule v r = .ok ps) : ∀ p ∈ ps, p.lhs = r.1 := by
  intro p hp
  unfold readRule at h
  split at h
  · obtain ⟨words, _, hps⟩ := bind_eq_ok_iff.mp h
    cases hps
    obtain ⟨w, _, rfl⟩ := List.mem_map.mp hp
    rfl
  · exact absurd h (by simp)

end Outline

namespace Grammar

variable {g : Grammar} {t : Text}

theorem exists_outline_of_ofDefinition (h : ofDefinition t = .ok g) :
    ∃ o, Written o t ∧ o.toGrammar = .ok g := by
  unfold ofDefinition at h
  split at h
  · exact ⟨_, read_eq_ok_iff.mp ‹_›, h⟩
  · exact absurd h (by simp)

theorem legible_of_ofDefinition (h : ofDefinition t = .ok g) : g.Legible := by
  obtain ⟨o, ⟨N, T, P, _, hN, hT, hP, _, _⟩, hgrammar⟩ := exists_outline_of_ofDefinition h
  obtain ⟨_, _, ps, hps, _, hparts⟩ := toGrammar_eq_ok_iff.mp hgrammar
  obtain ⟨rfl, _⟩ := ofParts_eq_ok_iff.mp hparts
  refine ⟨fun A hA => hN.madeOf A (OrderedSet.mem_ofList.mp hA),
    fun a ha => hT.madeOf a (OrderedSet.mem_ofList.mp ha), fun A hA => ?_⟩
  obtain ⟨p, hp, rfl⟩ := mem_heads.mp hA
  obtain ⟨qs, hqs, hpqs⟩ := List.mem_flatten.mp (OrderedSet.mem_ofList.mp hp)
  obtain ⟨r, hr, hread⟩ := exists_of_forall₂ hps.flip hqs
  rw [lhs_of_readRule hread p hpqs]
  exact madeOf_lhs_of_writtenSection hP r hr

theorem valid_of_ofDefinition (h : ofDefinition t = .ok g) : g.Valid := by
  obtain ⟨_, _, hgrammar⟩ := exists_outline_of_ofDefinition h
  obtain ⟨_, _, _, _, _, hparts⟩ := toGrammar_eq_ok_iff.mp hgrammar
  exact valid_of_ofParts hparts

theorem start_of_ofDefinition (h : ofDefinition t = .ok g) : g.start = .ofChar 'S' := by
  obtain ⟨_, _, hgrammar⟩ := exists_outline_of_ofDefinition h
  obtain ⟨_, _, _, _, _, hparts⟩ := toGrammar_eq_ok_iff.mp hgrammar
  rw [(ofParts_eq_ok_iff.mp hparts).1]

end Grammar

/-! ## New names -/

namespace Outline

theorem isWhiteSpace_of_isAlphanum {c : Char} (hc : c.isAlphanum = true) :
    isWhiteSpace c = false := by
  have hrange : (48 ≤ c.toNat ∧ c.toNat ≤ 57) ∨ (65 ≤ c.toNat ∧ c.toNat ≤ 90) ∨
      (97 ≤ c.toNat ∧ c.toNat ≤ 122) := by
    simp [Char.isAlphanum, Char.isAlpha, Char.isUpper, Char.isLower, Char.isDigit,
      UInt32.le_iff_toNat_le] at hc
    omega
  simp only [isWhiteSpace, Bool.or_eq_false_iff, Bool.and_eq_false_iff, decide_eq_false_iff_not,
    beq_eq_false_iff_ne]
  omega

theorem mayNameHead_of_isAlphanum {c : Char} (hc : c.isAlphanum = true) : MayNameHead c := by
  have hnot : ∀ d ∈ [',', '{', '}', '|', '-', '→'], d.isAlphanum = false := by simp
  refine ⟨⟨isWhiteSpace_of_isAlphanum hc, fun hmem => ?_⟩, fun hmem => ?_⟩
  · exact absurd hc (by simp [hnot c (List.mem_append_left ['-', '→'] hmem)])
  · exact absurd hc (by simp [hnot c (List.mem_append_right [',', '{', '}', '|'] hmem)])

end Outline

namespace NameSupply

theorem mayNameHead_of_mem_decimal {n : Nat} {c : Char} (hc : c ∈ Text.decimal n) :
    MayNameHead c := by
  have hdigit : c.isDigit = true := Nat.isDigit_of_mem_toDigits (by decide) (by decide) hc
  exact mayNameHead_of_isAlphanum (by simp [Char.isAlphanum, hdigit])

theorem madeOf_intermediateCandidate (k : Nat) :
    (intermediateCandidate k).MadeOf MayNameHead :=
  List.forall_mem_cons.mpr ⟨by decide, fun _ hc => mayNameHead_of_mem_decimal hc⟩

theorem madeOf_proxyCandidate (a : Name) (k : Nat) : (proxyCandidate a k).MadeOf MayNameHead := by
  have hfilter : ∀ c ∈ a.chars.filter Char.isAlphanum, MayNameHead c := fun c hc =>
    mayNameHead_of_isAlphanum (List.mem_filter.mp hc).2
  cases k with
  | zero =>
      refine List.forall_mem_cons.mpr ⟨by decide, List.forall_mem_cons.mpr ⟨by decide, ?_⟩⟩
      exact hfilter
  | succ k =>
      refine List.forall_mem_cons.mpr ⟨by decide, List.forall_mem_cons.mpr ⟨by decide, ?_⟩⟩
      refine List.forall_mem_append.mpr ⟨hfilter, List.forall_mem_cons.mpr ⟨by decide, ?_⟩⟩
      exact fun _ hc => mayNameHead_of_mem_decimal hc

theorem madeOf_proxy (supply : NameSupply) (a : Name) : (supply.proxy a).1.MadeOf MayNameHead :=
  madeOf_proxyCandidate a _

theorem madeOf_intermediate (supply : NameSupply) : supply.intermediate.1.MadeOf MayNameHead :=
  madeOf_intermediateCandidate _

end NameSupply

/-! ## Rounds -/

namespace BinaryForm

namespace Round

structure Legible (r : Round) : Prop where
  nonTerminals : ∀ A ∈ r.nonTerminals, A.MadeOf MayNameSymbol
  heads : ∀ p ∈ r.output, p.lhs.MadeOf MayNameHead

variable {r : Round}

theorem Legible.withNotes (h : r.Legible) (notes : List Note) :
    Legible { r with notes := notes } := ⟨h.nonTerminals, h.heads⟩

theorem Legible.emit (h : r.Legible) {p : Production} (hp : p.lhs.MadeOf MayNameHead) :
    (r.emit p).Legible where
  nonTerminals := h.nonTerminals
  heads := OrderedSet.forall_mem_insert.mpr ⟨h.heads, hp⟩

theorem Legible.declare (h : r.Legible) {X : Name} (hX : X.MadeOf MayNameHead)
    (supply : NameSupply) :
    Legible { r with supply := supply, nonTerminals := r.nonTerminals.insert X } where
  nonTerminals := OrderedSet.forall_mem_insert.mpr ⟨h.nonTerminals, fun c hc => (hX c hc).1⟩
  heads := h.heads

theorem Legible.introduce (h : r.Legible) (a : Name) : (r.introduce a).Legible := by
  have hX := r.supply.madeOf_proxy a
  have hemit := (h.declare hX (r.supply.proxy a).2).emit (p := ⟨_, [.terminal a]⟩) hX
  exact ⟨hemit.nonTerminals, hemit.heads⟩

theorem Legible.link (h : r.Legible) {A : Name} (hA : A.MadeOf MayNameHead) (B : Name) :
    (r.link A B).Legible := by
  have hX := r.supply.madeOf_intermediate
  exact (h.declare hX r.supply.intermediate.2).emit
    (p := ⟨A, [.nonTerminal B, .nonTerminal r.supply.intermediate.1]⟩) hA

/-- A link is legible, so that every left-hand side stays so. -/
theorem Leads.legible {s : Round} {ps : List Production} (hrun : r.Leads ps s) (h : r.Legible)
    (hps : ∀ p ∈ ps, p.lhs.MadeOf MayNameHead) : s.Legible := by
  induction hrun with
  | done r => exact h
  | keep _ _ ih =>
      obtain ⟨hp, hps⟩ := List.forall_mem_cons.mp hps
      exact ih (h.emit hp) hps
  | drop _ ih => exact ih (h.withNotes _) (List.forall_mem_cons.mp hps).2
  | exchange _ _ _ ih =>
      obtain ⟨hp, hps⟩ := List.forall_mem_cons.mp hps
      exact ih h (List.forall_mem_cons.mpr ⟨hp, hps⟩)
  | introduce _ _ _ ih =>
      obtain ⟨hp, hps⟩ := List.forall_mem_cons.mp hps
      exact ih (h.introduce _) (List.forall_mem_cons.mpr ⟨hp, hps⟩)
  | @link r _ _ _ _ _ _ _ _ ih =>
      obtain ⟨hp, hps⟩ := List.forall_mem_cons.mp hps
      exact ih (h.link hp _) (List.forall_mem_cons.mpr ⟨r.supply.madeOf_intermediate, hps⟩)
  | note _ _ _ ih => exact ih (h.withNotes _) hps

end Round

end BinaryForm

/-! ## Passes -/

namespace Grammar

variable {g : Grammar}

theorem Legible.madeOf_lhs (hl : g.Legible) {p : Production} (hp : p ∈ g.productions) :
    p.lhs.MadeOf MayNameHead := hl.heads p.lhs (mem_heads.mpr ⟨p, hp, rfl⟩)

theorem Legible.binaryForm (hl : g.Legible) : g.binaryForm.Legible := by
  have hrun : (BinaryForm.Round.run (.forGrammar g) g.nonTerminals g.productions.toList).Legible :=
    (BinaryForm.Round.leads_foldl _ _).legible
      ⟨hl.nonTerminals, fun p hp => absurd hp (OrderedSet.not_mem_empty p)⟩
      fun _ hp => hl.madeOf_lhs hp
  refine ⟨?_, fun a ha => hl.terminals a (mem_terminals_binaryForm.mp ha).1, fun A hA => ?_⟩
  · rw [nonTerminals_binaryForm]
    exact hrun.nonTerminals
  · obtain ⟨p, hp, rfl⟩ := mem_heads.mp hA
    exact hrun.heads p (mem_productions_binaryForm.mp hp)

theorem Legible.restrict (hl : g.Legible) (keep : Name → Bool) : (g.restrict keep).Legible where
  nonTerminals A hA := hl.nonTerminals A (mem_nonTerminals_restrict.mp hA).1
  terminals a ha := hl.terminals a (mem_terminals_restrict.mp ha).1
  heads A hA := by
    obtain ⟨p, hp, rfl⟩ := mem_heads.mp hA
    exact hl.madeOf_lhs (mem_productions_restrict.mp hp).1

theorem Legible.epsilonFree (hl : g.Legible) : g.epsilonFree.Legible where
  nonTerminals := hl.nonTerminals
  terminals := hl.terminals
  heads A hA := by
    obtain ⟨q, hq, rfl⟩ := mem_heads.mp hA
    obtain ⟨p, hp, _, hvariant⟩ := mem_productions_epsilonFree.mp hq
    rw [(mem_epsilonVariants.mp hvariant).1]
    exact hl.madeOf_lhs hp

theorem Legible.unitFree (hl : g.Legible) : g.unitFree.Legible where
  nonTerminals := hl.nonTerminals
  terminals := hl.terminals
  heads A hA := by
    obtain ⟨q, hq, rfl⟩ := mem_heads.mp hA
    obtain ⟨_, B, hB, hmem⟩ := mem_productions_unitFree.mp hq
    exact hl.heads q.lhs (hB.mem_heads (p := ⟨B, q.rhs⟩) hmem)

end Grammar

namespace Stage

theorem legible_apply {g : Grammar} (stage : Stage) (hl : g.Legible) :
    (stage.apply g).Legible := by
  cases stage with
  | epsilonFree => exact hl.epsilonFree
  | unitFree => exact hl.unitFree
  | productive => exact hl.restrict _
  | accessible => exact hl.restrict _
  | binary => exact hl.binaryForm

end Stage

namespace Grammar

theorem Legible.normalForm {g : Grammar} (hl : g.Legible) : g.normalForm.Legible := by
  rw [Grammar.normalForm]
  exact List.foldlRecOn Stage.sequence _ hl fun _ h stage _ => stage.legible_apply h

end Grammar

end ContextFree
