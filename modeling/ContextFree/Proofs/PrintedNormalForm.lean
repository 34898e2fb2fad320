import ContextFree.Proofs.Legible
import ContextFree.Proofs.Reduced

/-!
# Reading normal forms back

The definition of a normal form is read as a grammar with the same symbols. Its right-hand sides are
single terminals and pairs of non-terminals, and few of them can be misread: a terminal called `ε`,
and a pair of one-character names that together are a third name. The second does happen with names
that normalization brings in, such as `X1` where an `X` stands before a `1`.
-/

namespace ContextFree

namespace Vocabulary

variable {v : Vocabulary}

theorem misreads_terminal_iff {a : Name} : v.Misreads [.terminal a] ↔ a.chars = epsilon := by
  constructor
  · rintro (⟨x, hx, hepsilon⟩ | ⟨hshort, y, _, hlong, hwithin⟩)
    · obtain rfl := List.singleton_inj.mp hx
      exact hepsilon
    · rw [Word.text_of_isShort (List.cons_ne_nil _ _) hshort] at hwithin
      have hle := hwithin.length_le
      have hone := hshort _ (List.mem_singleton.mpr rfl)
      simp only [Word.glued_cons, Word.glued_nil, List.append_nil] at hle
      omega
  · exact fun h => .inl ⟨_, rfl, h⟩

theorem misreads_pair_iff {B C : Name} : v.Misreads [.nonTerminal B, .nonTerminal C] ↔
    B.chars.length = 1 ∧ C.chars.length = 1 ∧
      ∃ y ∈ v.symbols, y.name.chars = B.chars ++ C.chars := by
  have hshort_iff : Word.IsShort [.nonTerminal B, .nonTerminal C] ↔
      B.chars.length = 1 ∧ C.chars.length = 1 := by simp [Word.IsShort, Symbol.name]
  have htext : B.chars.length = 1 ∧ C.chars.length = 1 →
      Word.text [.nonTerminal B, .nonTerminal C] = B.chars ++ C.chars := by
    intro hone
    rw [Word.text_of_isShort (List.cons_ne_nil _ _) (hshort_iff.mpr hone)]
    simp [Symbol.name]
  constructor
  · rintro (⟨x, hx, _⟩ | ⟨hshort, y, hy, hlong, hwithin⟩)
    · exact absurd hx (by simp)
    · have hone := hshort_iff.mp hshort
      rw [htext hone] at hwithin
      refine ⟨hone.1, hone.2, y, hy, hwithin.eq_of_length_le ?_⟩
      rw [List.length_append]
      omega
  · rintro ⟨hB, hC, y, hy, hchars⟩
    have hlength : y.name.chars.length = 2 := by rw [hchars, List.length_append, hB, hC]
    have heq : y.name.chars = Word.text [.nonTerminal B, .nonTerminal C] :=
      hchars.trans (htext ⟨hB, hC⟩).symm
    exact .inr ⟨hshort_iff.mpr ⟨hB, hC⟩, y, hy, hlength.ge, heq ▸ List.infix_rfl⟩

end Vocabulary

namespace Grammar

variable {g : Grammar} {t : Text}

theorem exists_mem_productions (hne : g.productions ≠ ∅) : ∃ p, p ∈ g.productions :=
  List.exists_mem_of_ne_nil _ fun hnil => hne (OrderedSet.ext hnil)

theorem Reduced.declaresStart (hr : g.Reduced) (hg : g.Consistent) (hne : g.productions ≠ ∅) :
    g.DeclaresStart := by
  obtain ⟨p, hp⟩ := exists_mem_productions hne
  have hlhs := hg.lhs_mem hp
  exact hg.declaresStart_of_reaches hlhs (hr.accessible p.lhs hlhs)

theorem Reduced.terminals_ne_empty (hr : g.Reduced) (hg : g.Consistent)
    (hne : g.productions ≠ ∅) : g.terminals ≠ ∅ := by
  obtain ⟨p, hp⟩ := exists_mem_productions hne
  obtain ⟨u, hu⟩ := hr.productive p.lhs (hg.lhs_mem hp)
  obtain ⟨a, ha⟩ := List.exists_mem_of_ne_nil u (hu.ne_nil hr.rhs_ne_nil)
  intro hempty
  have hmem := hg.mem_terminals_of_generates hu ha
  rw [hempty] at hmem
  exact OrderedSet.not_mem_empty a hmem

theorem start_normalForm (g : Grammar) : g.normalForm.start = g.start := rfl

/-- The right-hand sides of a reduced grammar that are misread. -/
theorem Reduced.forall_not_misreads_iff (hr : g.Reduced) (hg : g.Consistent) :
    (∀ p ∈ g.productions, ¬ g.outline.vocabulary.Misreads p.rhs) ↔
      (¬ ∃ p ∈ g.productions, ∃ a, p.rhs = [.terminal a] ∧ a.chars = epsilon) ∧
        ¬ ∃ p ∈ g.productions, ∃ B C, p.rhs = [.nonTerminal B, .nonTerminal C] ∧
          B.chars.length = 1 ∧ C.chars.length = 1 ∧
            ∃ y, g.Declares y ∧ y.name.chars = B.chars ++ C.chars := by
  constructor
  · intro h
    refine ⟨?_, ?_⟩
    · rintro ⟨p, hp, a, ha, hepsilon⟩
      exact h p hp (ha ▸ Vocabulary.misreads_terminal_iff.mpr hepsilon)
    · rintro ⟨p, hp, B, C, hBC, hB, hC, y, hy, hchars⟩
      refine h p hp (hBC ▸ Vocabulary.misreads_pair_iff.mpr ⟨hB, hC, y, ?_, hchars⟩)
      exact hg.mem_vocabulary_outline_iff.mpr hy
  · rintro ⟨hterminal, hpair⟩ p hp hmisread
    rcases hr.normal p hp with ⟨a, ha⟩ | ⟨B, C, hBC⟩
    · rw [ha, Vocabulary.misreads_terminal_iff] at hmisread
      exact hterminal ⟨p, hp, a, ha, hmisread⟩
    · rw [hBC, Vocabulary.misreads_pair_iff] at hmisread
      obtain ⟨hB, hC, y, hy, hchars⟩ := hmisread
      exact hpair ⟨p, hp, B, C, hBC, hB, hC, y, hg.mem_vocabulary_outline_iff.mp hy, hchars⟩

theorem exists_ofDefinition_normalForm_eq (hread : ofDefinition t = .ok g)
    (hne : g.normalForm.productions ≠ ∅) :
    ∃ h, ofDefinition g.normalForm.definition = .ok h ∧
      h.nonTerminals = g.normalForm.nonTerminals ∧ h.terminals = g.normalForm.terminals ∧
        h.start = g.normalForm.start ∧
          (h ≈ g.normalForm ↔
            ∀ p ∈ g.normalForm.productions, ¬ g.normalForm.outline.vocabulary.Misreads p.rhs) := by
  have hg := valid_of_ofDefinition hread
  have hconsistent : g.normalForm.Consistent := hg.2.normalForm
  have hr : g.normalForm.Reduced := hg.2.reduced_normalForm
  have hvalid : g.normalForm.Valid := ⟨hr.declaresStart hconsistent hne, hconsistent⟩
  exact (legible_of_ofDefinition hread).normalForm.exists_ofDefinition_eq hvalid
    (g.start_normalForm.trans (start_of_ofDefinition hread))
    (hr.terminals_ne_empty hconsistent hne) hne

/-- All names have one character, and none of them is `ε`. -/
def IsPlain (g : Grammar) : Prop :=
  ∀ x ∈ g.symbols, x.name.chars.length = 1 ∧ x.name.chars ≠ epsilon

instance (g : Grammar) : Decidable g.IsPlain :=
  inferInstanceAs (Decidable (∀ x ∈ g.symbols, x.name.chars.length = 1 ∧ x.name.chars ≠ epsilon))

theorem IsPlain.not_misreads (h : g.IsPlain) (hg : g.Consistent) {p : Production}
    (hp : p ∈ g.productions) : ¬ g.outline.vocabulary.Misreads p.rhs := by
  rintro (⟨x, hx, hepsilon⟩ | ⟨_, y, hy, hlong, _⟩)
  · have hdecl := hg.declares_of_mem_rhs hp (x := x) (hx ▸ List.mem_singleton.mpr rfl)
    exact (h x (mem_symbols.mpr hdecl)).2 hepsilon
  · have hone := (h y (mem_symbols.mpr (hg.mem_vocabulary_outline_iff.mp hy))).1
    omega

theorem IsPlain.ofDefinition_eq_self (h : g.IsPlain) (hl : g.Legible) (hg : g.Valid)
    (hstart : g.start = .ofChar 'S') (hterminals : g.terminals ≠ ∅)
    (hproductions : g.productions ≠ ∅) : ofDefinition g.definition = .ok g :=
  hl.ofDefinition_eq_self hg hstart hterminals hproductions fun _ hp => h.not_misreads hg.2 hp

/-- The normal form of a grammar that was read is found again in its definition, up to the order of
its sets, unless it has a terminal called `ε` for a right-hand side, or a pair of one-character
names that together are the name of a symbol. -/
theorem ofDefinition_definition_normalForm (hread : ofDefinition t = .ok g)
    (hne : g.normalForm.productions ≠ ∅) :
    ∃ h, ofDefinition g.normalForm.definition = .ok h ∧
      h.nonTerminals = g.normalForm.nonTerminals ∧ h.terminals = g.normalForm.terminals ∧
        h.start = g.normalForm.start ∧
          (h ≈ g.normalForm ↔
            (¬ ∃ p ∈ g.normalForm.productions, ∃ a, p.rhs = [.terminal a] ∧ a.chars = epsilon) ∧
              ¬ ∃ p ∈ g.normalForm.productions, ∃ B C,
                p.rhs = [.nonTerminal B, .nonTerminal C] ∧
                  B.chars.length = 1 ∧ C.chars.length = 1 ∧
                    ∃ y, g.normalForm.Declares y ∧ y.name.chars = B.chars ++ C.chars) := by
  have hg := valid_of_ofDefinition hread
  obtain ⟨h, hdefinition, hN, hT, hS, hequiv⟩ := exists_ofDefinition_normalForm_eq hread hne
  exact ⟨h, hdefinition, hN, hT, hS,
    hequiv.trans (hg.2.reduced_normalForm.forall_not_misreads_iff hg.2.normalForm)⟩

/-- Letters `a` and then as many letters `b`. -/
def paired : Grammar where
  nonTerminals := .ofList [.ofChar 'S']
  terminals := .ofList [.ofChar 'a', .ofChar 'b']
  start := .ofChar 'S'
  productions := .ofList
    [⟨.ofChar 'S', [.terminal (.ofChar 'a'), .nonTerminal (.ofChar 'S'), .terminal (.ofChar 'b')]⟩,
      ⟨.ofChar 'S', [.terminal (.ofChar 'a'), .terminal (.ofChar 'b')]⟩]

theorem valid_paired : paired.Valid := validate_eq_ok_iff.mp rfl

theorem ofDefinition_paired : ofDefinition paired.definition = .ok paired :=
  (show paired.IsPlain by decide).ofDefinition_eq_self (by decide) valid_paired rfl (by decide)
    (by decide)

theorem size_productions_normalForm_paired : paired.normalForm.productions.size = 5 := by cbv

theorem names_normalForm_paired {p : Production} (hp : p ∈ paired.normalForm.productions) :
    (p.rhs.map fun x => x.name.chars) ∈
      [[['a']], [['b']], [['T', '_', 'a'], ['X', '1']], [['T', '_', 'a'], ['T', '_', 'b']],
        [['S'], ['T', '_', 'b']]] := by
  have hall : (paired.normalForm.productions.toList.map fun p => p.rhs.map fun x => x.name.chars) =
      [[['a']], [['b']], [['T', '_', 'a'], ['X', '1']], [['T', '_', 'a'], ['T', '_', 'b']],
        [['S'], ['T', '_', 'b']]] := by cbv
  exact hall ▸ List.mem_map_of_mem hp

theorem ofDefinition_definition_normalForm_paired :
    ofDefinition paired.definition = .ok paired ∧ paired.normalForm.productions ≠ ∅ ∧
      ∃ h, ofDefinition paired.normalForm.definition = .ok h ∧ h ≈ paired.normalForm := by
  have hne : paired.normalForm.productions ≠ ∅ := by
    intro hempty
    have hsize := size_productions_normalForm_paired
    rw [hempty] at hsize
    exact absurd hsize (by decide)
  obtain ⟨h, hread, _, _, _, hequiv⟩ :=
    ofDefinition_definition_normalForm ofDefinition_paired hne
  refine ⟨ofDefinition_paired, hne, h, hread, hequiv.mpr ⟨?_, ?_⟩⟩
  · rintro ⟨p, hp, a, ha, hepsilon⟩
    have hrhs := names_normalForm_paired hp
    rw [ha] at hrhs
    simp [Symbol.name, hepsilon, epsilon] at hrhs
  · rintro ⟨p, hp, B, C, hBC, hB, hC, _⟩
    have hrhs := names_normalForm_paired hp
    rw [hBC] at hrhs
    have hcases : B.chars = ['T', '_', 'a'] ∧ C.chars = ['X', '1'] ∨
        B.chars = ['T', '_', 'a'] ∧ C.chars = ['T', '_', 'b'] ∨
          B.chars = ['S'] ∧ C.chars = ['T', '_', 'b'] := by simpa [Symbol.name] using hrhs
    rcases hcases with ⟨hchars, _⟩ | ⟨hchars, _⟩ | ⟨_, hchars⟩
    · exact absurd hB (by rw [hchars]; decide)
    · exact absurd hB (by rw [hchars]; decide)
    · exact absurd hC (by rw [hchars]; decide)

/-- The normal form has an `X1`, and an `X` next to a `1`. -/
def smudged : Grammar where
  nonTerminals := .ofList [.ofChar 'S', .ofChar 'X', .ofChar '1']
  terminals := .ofList [.ofChar 'a']
  start := .ofChar 'S'
  productions := .ofList
    [⟨.ofChar 'S', [.nonTerminal (.ofChar '1'), .nonTerminal (.ofChar 'X'),
        .nonTerminal (.ofChar '1')]⟩,
      ⟨.ofChar 'X', [.terminal (.ofChar 'a')]⟩, ⟨.ofChar '1', [.terminal (.ofChar 'a')]⟩]

theorem valid_smudged : smudged.Valid := validate_eq_ok_iff.mp rfl

theorem definition_smudged : smudged.definition =
    "V_N=\x7bS, X, 1\x7d\nV_T=\x7ba\x7d\nP=\x7bS → 1X1, X → a, 1 → a\x7d".toList := by decide

theorem ofDefinition_smudged : ofDefinition smudged.definition = .ok smudged :=
  (show smudged.IsPlain by decide).ofDefinition_eq_self (by decide) valid_smudged rfl (by decide)
    (by decide)

theorem pair_mem_normalForm_smudged :
    ⟨⟨['X', '1'], List.cons_ne_nil _ _⟩, [.nonTerminal (.ofChar 'X'), .nonTerminal (.ofChar '1')]⟩ ∈
      smudged.normalForm.productions := OrderedSet.contains_iff.mp (by cbv)

/-- The pair `X` and `1` is read as the one symbol `X1`. -/
theorem not_read_back_smudged :
    ofDefinition "V_N=\x7bS, X, 1\x7d\nV_T=\x7ba\x7d\nP=\x7bS → 1X1, X → a, 1 → a\x7d".toList =
        .ok smudged ∧
      (∃ h, ofDefinition smudged.definition = .ok h ∧ h ≈ smudged) ∧
      smudged.normalForm.productions ≠ ∅ ∧
      ∃ h, ofDefinition smudged.normalForm.definition = .ok h ∧ ¬ h ≈ smudged.normalForm := by
  have hmem := pair_mem_normalForm_smudged
  have hne : smudged.normalForm.productions ≠ ∅ := by
    intro hempty
    rw [hempty] at hmem
    exact OrderedSet.not_mem_empty _ hmem
  have hconsistent : smudged.normalForm.Consistent := valid_smudged.2.normalForm
  have hX1 : smudged.normalForm.Declares (.nonTerminal ⟨['X', '1'], List.cons_ne_nil _ _⟩) :=
    hconsistent.lhs_mem hmem
  obtain ⟨h, hread, _, _, _, hequiv⟩ := exists_ofDefinition_normalForm_eq ofDefinition_smudged hne
  refine ⟨definition_smudged ▸ ofDefinition_smudged,
    ⟨smudged, ofDefinition_smudged, Setoid.refl _⟩, hne, h, hread,
    fun heq => hequiv.mp heq _ hmem ?_⟩
  exact Vocabulary.misreads_pair_iff.mpr
    ⟨rfl, rfl, _, hconsistent.mem_vocabulary_outline_iff.mpr hX1, rfl⟩

end Grammar

end ContextFree
