import ContextFree.Proofs.NormalGrammar
import ContextFree.Proofs.Stage

/-!
# What normalization achieves

The first pass takes the empty word away, and the flag remembers whether there was one. The grammars
behind it have no ε-productions, so that no later pass changes the language. The last two passes
find normal productions and leave them normal, and what they drop is all that is useless.
-/

namespace ContextFree

namespace Grammar

variable {g : Grammar} {u : Sentence}

/-- Whatever passes come after the first one, the words that are not empty are the same. -/
theorem Consistent.language_afterwards_iff (hg : g.Consistent) (stages : List Stage) :
    (stages.foldl (fun g stage => stage.apply g) g.epsilonFree).Language u ↔
      g.Language u ∧ u ≠ [] :=
  (Stage.language_foldl_iff stages hg.epsilonFree fun _ => epsilonFree_rhs_ne_nil).trans
    generates_epsilonFree_iff

theorem Consistent.language_normalForm_iff (hg : g.Consistent) :
    g.normalForm.Language u ↔ g.Language u ∧ u ≠ [] := by
  rw [normalForm, Stage.sequence, List.foldl_cons]
  exact hg.language_afterwards_iff _

theorem derivesEmptyWord_normalize_iff :
    g.normalize.derivesEmptyWord = true ↔ g.Language [] :=
  decide_eq_true_iff.trans mem_nullable_iff

theorem Consistent.exists_normalForm_eq (hg : g.Consistent) :
    ∃ h : Grammar, h.Consistent ∧ g.normalForm = h.productivePart.accessiblePart :=
  ⟨_, Stage.consistent_foldl (Stage.sequence.take 6) hg, rfl⟩

theorem Consistent.normalForm (hg : g.Consistent) : g.normalForm.Consistent := by
  rw [Grammar.normalForm]
  exact Stage.consistent_foldl _ hg

theorem WellFormed.normalForm (hg : g.WellFormed) : g.normalForm.WellFormed := by
  rw [Grammar.normalForm]
  exact Stage.wellFormed_foldl _ hg

theorem Consistent.useful_of_mem_normalForm (hg : g.Consistent) {A : Name}
    (hA : A ∈ g.normalForm.nonTerminals) : g.normalForm.Useful A := by
  obtain ⟨h, hh, heq⟩ := hg.exists_normalForm_eq
  rw [heq] at hA ⊢
  exact useful_of_mem_accessiblePart (hh.restrict _)
    (fun _ => exists_generates_of_mem_productivePart) hA

/-- Whatever passes come after the first one, the removal of useless symbols at their end leaves the
terminals that occur in words of the language. -/
theorem Consistent.mem_terminals_afterwards_iff (hg : g.Consistent) (stages : List Stage)
    {a : Name} :
    a ∈ (stages.foldl (fun g stage => stage.apply g)
        g.epsilonFree).productivePart.accessiblePart.terminals ↔ ∃ u, g.Language u ∧ a ∈ u := by
  have hlang : ∀ u, (stages.foldl (fun g stage => stage.apply g)
      g.epsilonFree).productivePart.accessiblePart.Language u ↔ g.Language u ∧ u ≠ [] := by
    intro u
    have hlater := hg.language_afterwards_iff (stages ++ [.productive, .accessible]) (u := u)
    rwa [List.foldl_append] at hlater
  have hown := mem_terminals_accessiblePart_iff (a := a)
    ((Stage.consistent_foldl stages hg.epsilonFree).restrict _)
    fun _ => exists_generates_of_mem_productivePart
  constructor
  · intro ha
    obtain ⟨u, hu, hmem⟩ := hown.mp ha
    exact ⟨u, ((hlang u).mp hu).1, hmem⟩
  · rintro ⟨u, hu, hmem⟩
    exact hown.mpr ⟨u, (hlang u).mpr ⟨hu, List.ne_nil_of_mem hmem⟩, hmem⟩

theorem Consistent.mem_terminals_normalForm_iff (hg : g.Consistent) {a : Name} :
    a ∈ g.normalForm.terminals ↔ ∃ u, g.Language u ∧ a ∈ u :=
  hg.mem_terminals_afterwards_iff [.unitFree, .productive, .accessible, .binary, .unitFree]

/-- Where only the empty word is left to derive, nothing is useful. -/
theorem Consistent.normalForm_eq_empty (hg : g.Consistent) (hempty : ∀ u, g.Language u → u = []) :
    g.normalForm.nonTerminals = ∅ ∧ g.normalForm.terminals = ∅ ∧
      g.normalForm.productions = ∅ := by
  have hN : ∀ A, A ∉ g.normalForm.nonTerminals := by
    intro A hA
    obtain ⟨pre, post, u, hstart, hend⟩ := hg.useful_of_mem_normalForm hA
    obtain ⟨hlang, hne⟩ := hg.language_normalForm_iff.mp (hstart.trans hend)
    exact hne (hempty u hlang)
  have hT : ∀ a, a ∉ g.normalForm.terminals := by
    intro a ha
    obtain ⟨u, hlang, hmem⟩ := hg.mem_terminals_normalForm_iff.mp ha
    rw [hempty u hlang] at hmem
    exact List.not_mem_nil hmem
  have hP : ∀ p, p ∉ g.normalForm.productions := fun p hp => hN p.lhs (hg.normalForm.lhs_mem hp)
  exact ⟨OrderedSet.ext (List.eq_nil_iff_forall_not_mem.mpr hN),
    OrderedSet.ext (List.eq_nil_iff_forall_not_mem.mpr hT),
    OrderedSet.ext (List.eq_nil_iff_forall_not_mem.mpr hP)⟩

/-- Words in brackets, with a detour from `S` to itself and two symbols that are of no use. -/
def nested : Grammar where
  nonTerminals := .ofList [.ofChar 'S', .ofChar 'A', .ofChar 'B', .ofChar 'C']
  terminals := .ofList [.ofChar 'a', .ofChar 'b', .ofChar 'c']
  start := .ofChar 'S'
  productions := .ofList
    [⟨.ofChar 'S', []⟩,
      ⟨.ofChar 'S', [.terminal (.ofChar 'a'), .nonTerminal (.ofChar 'S'),
        .nonTerminal (.ofChar 'S'), .terminal (.ofChar 'b')]⟩,
      ⟨.ofChar 'S', [.nonTerminal (.ofChar 'A')]⟩,
      ⟨.ofChar 'A', [.nonTerminal (.ofChar 'S')]⟩,
      ⟨.ofChar 'B', [.nonTerminal (.ofChar 'B'), .terminal (.ofChar 'c')]⟩,
      ⟨.ofChar 'C', [.terminal (.ofChar 'c')]⟩]

theorem valid_nested : nested.Valid := validate_eq_ok_iff.mp rfl

theorem language_nested_nil : nested.Language [] :=
  generates_iff.mpr ⟨⟨.ofChar 'S', []⟩, by decide, rfl, .nil⟩

theorem language_nested_brackets : nested.Language [.ofChar 'a', .ofChar 'b'] := by
  have hS : ∀ {w u}, nested.Yields w u → nested.Yields (.nonTerminal (.ofChar 'S') :: w) u :=
    fun h => .nonTerminal (p := ⟨.ofChar 'S', []⟩) (by decide) .nil h
  exact generates_iff.mpr ⟨⟨.ofChar 'S', [.terminal (.ofChar 'a'), .nonTerminal (.ofChar 'S'),
    .nonTerminal (.ofChar 'S'), .terminal (.ofChar 'b')]⟩, by decide, rfl,
    .terminal _ (hS (hS (.terminal _ .nil)))⟩

/-- Only the empty word, by more and more copies of `S`. -/
def silent : Grammar where
  nonTerminals := .ofList [.ofChar 'S']
  terminals := ∅
  start := .ofChar 'S'
  productions := .ofList
    [⟨.ofChar 'S', [.nonTerminal (.ofChar 'S'), .nonTerminal (.ofChar 'S')]⟩, ⟨.ofChar 'S', []⟩]

theorem valid_silent : silent.Valid := validate_eq_ok_iff.mp rfl

theorem language_silent {u : Sentence} (hu : silent.Language u) : u = [] := by
  apply List.eq_nil_iff_forall_not_mem.mpr
  intro a ha
  have hdecl : a ∈ silent.terminals := valid_silent.2.mem_terminals_of_generates hu ha
  exact OrderedSet.not_mem_empty a hdecl

end Grammar

namespace Normalization

open Grammar

theorem exists_ofGrammar_outcome (g : Grammar) :
    ∃ c, NormalGrammar.ofGrammar g.normalize.outcome = .ok c ∧
      g.normalize.normalForm = { c with erasable := g.normalize.derivesEmptyWord } :=
  ⟨_, NormalGrammar.ofGrammar_of_isNormal fun _ => isNormal_of_mem_outcome, rfl⟩

variable {g : Grammar}

theorem language_outcome_iff (hg : g.Consistent) {u : Sentence} :
    g.normalize.outcome.Language u ↔ g.Language u ∧ u ≠ [] := by
  rw [outcome_normalize]
  exact hg.language_normalForm_iff

theorem language_normalForm_iff (hg : g.Consistent) {u : Sentence} :
    g.normalize.normalForm.Language u ↔ g.Language u := by
  calc g.normalize.normalForm.Language u
      ↔ g.normalize.outcome.Language u ∨ g.normalize.derivesEmptyWord = true ∧ u = [] :=
        NormalGrammar.language_normalPart_iff fun _ => isNormal_of_mem_outcome
    _ ↔ (g.Language u ∧ u ≠ []) ∨ g.Language [] ∧ u = [] :=
        or_congr (language_outcome_iff hg) (and_congr_left' derivesEmptyWord_normalize_iff)
    _ ↔ g.Language u := by
        by_cases hu : u = []
        · simp [hu]
        · simp [hu]

/-- Normalization keeps the language: the productions account for the words that are not empty, and
the flag for the empty word. -/
theorem language_normalize (hg : g.Valid) :
    (∀ u, g.normalize.normalForm.Language u ↔ g.Language u) ∧
      (∀ u, g.normalize.outcome.Language u ↔ g.Language u ∧ u ≠ []) ∧
      (g.normalize.derivesEmptyWord = true ↔ g.Language []) ∧
      g.normalize.normalForm.erasable = g.normalize.derivesEmptyWord :=
  ⟨fun _ => language_normalForm_iff hg.2, fun _ => language_outcome_iff hg.2,
    derivesEmptyWord_normalize_iff, rfl⟩

theorem language_normalize_nested : nested.Valid ∧
    (∀ u, nested.normalize.normalForm.Language u ↔ nested.Language u) ∧
      nested.normalize.derivesEmptyWord = true ∧
      nested.normalize.outcome.Language [.ofChar 'a', .ofChar 'b'] := by
  obtain ⟨hlang, houtcome, hempty, _⟩ := language_normalize valid_nested
  exact ⟨valid_nested, hlang, hempty.mpr language_nested_nil,
    (houtcome _).mpr ⟨language_nested_brackets, List.cons_ne_nil _ _⟩⟩

/-- The last grammar is in normal form, so that the typed form loses nothing, and it is reduced. -/
theorem reduced_outcome (hg : g.Valid) :
    (∀ p ∈ g.normalize.outcome.productions,
        (∃ a, p.rhs = [.terminal a]) ∨ ∃ B C, p.rhs = [.nonTerminal B, .nonTerminal C]) ∧
      (∃ c, NormalGrammar.ofGrammar g.normalize.outcome = .ok c ∧
        g.normalize.normalForm = { c with erasable := g.normalize.derivesEmptyWord }) ∧
      (∀ A ∈ g.normalize.outcome.nonTerminals, g.normalize.outcome.Useful A) ∧
      (∀ a, a ∈ g.normalize.outcome.terminals ↔ ∃ u, g.Language u ∧ a ∈ u) ∧
      ((∀ u, g.Language u → u = []) → g.normalize.outcome.nonTerminals = ∅ ∧
        g.normalize.outcome.terminals = ∅ ∧ g.normalize.outcome.productions = ∅) := by
  refine ⟨fun p hp => Production.isNormal_iff.mp (isNormal_of_mem_outcome hp),
    exists_ofGrammar_outcome g, ?_⟩
  rw [outcome_normalize]
  exact ⟨fun A => hg.2.useful_of_mem_normalForm, fun a => hg.2.mem_terminals_normalForm_iff,
    hg.2.normalForm_eq_empty⟩

theorem reduced_outcome_nested_silent : nested.Valid ∧ silent.Valid ∧
    .ofChar 'a' ∈ nested.normalize.outcome.terminals ∧
      silent.normalize.outcome.nonTerminals = ∅ ∧ silent.normalize.outcome.productions = ∅ := by
  obtain ⟨_, _, _, hterminals, _⟩ := reduced_outcome valid_nested
  obtain ⟨_, _, _, _, hempty⟩ := reduced_outcome valid_silent
  obtain ⟨hN, _, hP⟩ := hempty fun _ hu => language_silent hu
  exact ⟨valid_nested, valid_silent,
    (hterminals _).mpr ⟨_, language_nested_brackets, List.mem_cons_self⟩, hN, hP⟩

end Normalization

end ContextFree
