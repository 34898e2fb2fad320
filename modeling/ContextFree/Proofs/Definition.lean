import ContextFree.Notation.Definition
import ContextFree.Proofs.Derivation
import ContextFree.Proofs.Spelling

/-!
# Reading definitions back

The definition of a grammar whose names can be told apart in it has the grammar's own sets as its
outline (`read_definition`). What is read back is the grammar with its right-hand sides read back
one by one, and this is the same grammar exactly when none of them is misread
(`Legible.exists_ofDefinition_eq`): a misread right-hand side turns into one that is written in
another way, so that it cannot stand in for another production of the grammar.
-/

namespace ContextFree

namespace Outline

open Reader

/-! ## Written definitions -/

theorem writtenName_chars {may : Char → Prop} {a : Name} (ha : a.MadeOf may) :
    WrittenName may a a.chars :=
  ⟨[], [], isBlank_nil, isBlank_nil, ha, (List.append_nil _).symm⟩

theorem isBlank_space : IsBlank [' '] := List.forall_mem_singleton.mpr (by decide)

theorem WrittenName.blank_append {may : Char → Prop} {a : Name} {t w : Text}
    (h : WrittenName may a t) (hw : IsBlank w) : WrittenName may a (w ++ t) := by
  obtain ⟨v, v', hv, hv', ha, rfl⟩ := h
  exact ⟨w ++ v, v', hw.append hv, hv', ha, by simp only [List.append_assoc]⟩

theorem WrittenRule.blank_append {r : Name × List Text} {t w : Text} (h : WrittenRule r t)
    (hw : IsBlank w) : WrittenRule r (w ++ t) := by
  obtain ⟨head, arrow, body, hhead, harrow, hne, hbody, rfl⟩ := h
  exact ⟨w ++ head, arrow, body, hhead.blank_append hw, harrow, hne, hbody,
    by simp only [List.append_assoc]⟩

theorem writtenRule_text {p : Production} (hlhs : p.lhs.MadeOf MayNameHead)
    (hrhs : ∀ x ∈ p.rhs, x.name.MadeOf MayNameSymbol) :
    WrittenRule (p.lhs, [p.rhs.text]) p.text := by
  refine ⟨p.lhs.chars ++ [' '], ['→'], ' ' :: p.rhs.text, ?_, by decide,
    List.cons_ne_nil _ _, ?_, by simp [Production.text]⟩
  · exact ⟨[], [' '], isBlank_nil, isBlank_space, hlhs, rfl⟩
  · exact ⟨[' ' :: p.rhs.text], .cons (writtenAlternative_text hrhs).space_cons .nil,
      List.intercalate_singleton.symm⟩

/-- A section with the given items, and blanks after the commas. -/
def sectionWith (w key : Text) (items : List Text) : Text :=
  key ++ ['=', '{'] ++ (',' :: w).intercalate items ++ ['}']

theorem sectionText_eq_sectionWith (key : Text) (items : List Text) :
    Grammar.sectionText key items = sectionWith [' '] key items := rfl

section

variable {α : Type} {form : α → Text → Prop} {as : List α} {items : List Text} {v w : Text}

/-- The blanks after the commas count to the items that follow them. -/
theorem writtenList_intercalate (hitems : List.Forall₂ form as items)
    (hblank : ∀ {a t}, form a t → form a (w ++ t)) :
    WrittenList form ',' as ((',' :: w).intercalate items) := by
  cases hitems with
  | nil => exact ⟨[], .nil, rfl⟩
  | @cons a item as items hitem hitems =>
      refine ⟨item :: items.map (w ++ ·), .cons hitem ?_, ?_⟩
      · exact List.forall₂_map_right_iff.mpr (hitems.imp fun _ _ => hblank)
      · rw [intercalate_cons, intercalate_cons_of_char, List.flatMap_map]
        rfl

theorem writtenSection_sectionWith (hv : IsBlank v) (hitems : List.Forall₂ form as items)
    (hblank : ∀ {a t}, form a t → form a (w ++ t)) (key : Text) :
    WrittenSection key form as (v ++ sectionWith w key items) :=
  ⟨v, [], [], (',' :: w).intercalate items, [], hv, isBlank_nil, isBlank_nil, isBlank_nil,
    writtenList_intercalate hitems hblank, by simp [sectionWith]⟩

theorem writtenSection_names {names : List Name} (hv : IsBlank v) (hw : IsBlank w)
    (hnames : ∀ a ∈ names, a.MadeOf MayNameSymbol) (key : Text) :
    WrittenSection key (WrittenName MayNameSymbol) names
      (v ++ sectionWith w key (names.map Name.chars)) := by
  refine writtenSection_sectionWith hv ?_ (fun h => h.blank_append hw) key
  rw [List.forall₂_map_right_iff, List.forall₂_same]
  exact fun a ha => writtenName_chars (hnames a ha)

end

/-! ## Outlines of grammars -/

theorem lift_eq_ok_iff {α : Type} {x : Except GrammarError α} {a : α} :
    NotationError.lift x = .ok a ↔ x = .ok a := by
  cases x <;> simp [NotationError.lift]

theorem toGrammar_eq_ok_iff {o : Outline} {g : Grammar} : o.toGrammar = .ok g ↔
    o.nonTerminals ≠ [] ∧ o.terminals ≠ [] ∧
      ∃ ps, List.Forall₂ (fun r ps => readRule o.vocabulary r = .ok ps) o.rules ps ∧
        ps.flatten ≠ [] ∧
          Grammar.ofParts o.nonTerminals o.terminals (.ofChar 'S') ps.flatten = .ok g := by
  rw [toGrammar]
  simp only [ite_throw_eq_ok_iff, bind_eq_ok_iff, mapM_eq_ok_iff, lift_eq_ok_iff]

end Outline

namespace Grammar

open Outline

variable {g : Grammar} {p : Production}

/-- The characters of the names can be told from those around them in a definition. -/
structure Legible (g : Grammar) : Prop where
  nonTerminals : ∀ A ∈ g.nonTerminals.toList, A.MadeOf MayNameSymbol
  terminals : ∀ a ∈ g.terminals.toList, a.MadeOf MayNameSymbol
  heads : ∀ A ∈ g.heads, A.MadeOf MayNameHead

theorem legible_iff : g.Legible ↔
    (∀ A ∈ g.nonTerminals.toList, A.MadeOf MayNameSymbol) ∧
      (∀ a ∈ g.terminals.toList, a.MadeOf MayNameSymbol) ∧
      ∀ A ∈ g.heads, A.MadeOf MayNameHead :=
  ⟨fun h => ⟨h.nonTerminals, h.terminals, h.heads⟩, fun h => ⟨h.1, h.2.1, h.2.2⟩⟩

instance (g : Grammar) : Decidable g.Legible := decidable_of_iff _ legible_iff.symm

theorem Legible.mayNameSymbol (hl : g.Legible) {x : Symbol} (hx : g.Declares x) :
    x.name.MadeOf MayNameSymbol := by
  cases x with
  | terminal a => exact hl.terminals a hx
  | nonTerminal A => exact hl.nonTerminals A hx

def outline (g : Grammar) : Outline where
  nonTerminals := g.nonTerminals.toList
  terminals := g.terminals.toList
  rules := g.productions.toList.map fun p => (p.lhs, [p.rhs.text])

theorem Legible.written_definition (hl : g.Legible) (hg : g.Consistent) :
    Written g.outline g.definition := by
  have hrules : List.Forall₂ WrittenRule g.outline.rules
      (g.productions.toList.map Production.text) := by
    rw [outline, List.forall₂_map_left_iff, List.forall₂_map_right_iff, List.forall₂_same]
    intro p hp
    refine writtenRule_text (hl.heads p.lhs (mem_heads.mpr ⟨p, hp, rfl⟩)) fun x hx => ?_
    exact hl.mayNameSymbol (hg.2 p hp x (List.mem_cons_of_mem _ hx))
  have hline : IsBlank ['\n'] := List.forall_mem_singleton.mpr (by decide)
  have hN := writtenSection_names isBlank_nil isBlank_space hl.nonTerminals ['V', '_', 'N']
  have hT := writtenSection_names hline isBlank_space hl.terminals ['V', '_', 'T']
  have hP := writtenSection_sectionWith hline hrules (fun h => h.blank_append isBlank_space) ['P']
  exact ⟨_, _, _, [], hN, hT, hP, isBlank_nil,
    by simp [definition, sectionText_eq_sectionWith, List.intercalate_cons_cons]⟩

theorem Legible.read_definition (hl : g.Legible) (hg : g.Consistent) :
    Outline.read g.definition = .ok g.outline :=
  read_eq_ok_iff.mpr (hl.written_definition hg)

/-! ## Productions read back -/

theorem isOrdered_vocabulary (o : Outline) : o.vocabulary.IsOrdered :=
  Vocabulary.isOrdered_ofNames o.nonTerminals o.terminals

theorem Consistent.mem_vocabulary_outline_iff (hg : g.Consistent) {x : Symbol} :
    x ∈ g.outline.vocabulary.symbols ↔ g.Declares x := by
  rw [Outline.vocabulary, Vocabulary.mem_symbols_ofNames]
  cases x with
  | terminal a => rfl
  | nonTerminal A => exact and_iff_left_of_imp fun hA hAT => hg.1 A hAT hA

/-- The production with its right-hand side as it is read back. -/
def reread (g : Grammar) (p : Production) : Production :=
  ⟨p.lhs, (readAlternative g.outline.vocabulary p.rhs.text).toOption.getD []⟩

theorem Legible.readBack (hl : g.Legible) (hg : g.Consistent) (hp : p ∈ g.productions) :
    ReadBack g.outline.vocabulary p.rhs (g.reread p).rhs := by
  have hdeclares : ∀ x ∈ p.rhs, g.Declares x := fun x hx => hg.declares_of_mem_rhs hp hx
  obtain ⟨w, hw⟩ := exists_readBack (isOrdered_vocabulary g.outline)
    (fun x hx => hg.mem_vocabulary_outline_iff.mpr (hdeclares x hx))
    fun x hx => hl.mayNameSymbol (hdeclares x hx)
  have hreread : (g.reread p).rhs = w := by rw [reread, hw.read]; rfl
  exact hreread ▸ hw

theorem Legible.readRule_eq (hl : g.Legible) (hg : g.Consistent) (hp : p ∈ g.productions) :
    readRule g.outline.vocabulary (p.lhs, [p.rhs.text]) = .ok [g.reread p] := by
  have hlhs : .nonTerminal p.lhs ∈ g.outline.vocabulary.symbols :=
    hg.mem_vocabulary_outline_iff.mpr (hg.lhs_mem hp)
  have hfilter : [p.rhs.text].filter (· ≠ []) = [p.rhs.text] := by
    simp [Word.text_ne_nil]
  have hmap : [p.rhs.text].mapM (readAlternative g.outline.vocabulary) = .ok [(g.reread p).rhs] :=
    mapM_eq_ok_iff.mpr (.cons (hl.readBack hg hp).read .nil)
  rw [readRule, if_pos hlhs, hfilter, hmap]
  rfl

theorem Legible.reread_eq_self (hl : g.Legible) (hg : g.Consistent) (hp : p ∈ g.productions)
    (hclear : ¬ g.outline.vocabulary.Misreads p.rhs) : g.reread p = p :=
  Production.ext rfl ((hl.readBack hg hp).eq_self hclear)

theorem Legible.ofList_map_reread (hl : g.Legible) (hg : g.Consistent)
    (hclear : ∀ p ∈ g.productions, ¬ g.outline.vocabulary.Misreads p.rhs) :
    OrderedSet.ofList (g.productions.toList.map g.reread) = g.productions := by
  have hself : g.productions.toList.map g.reread = g.productions.toList :=
    (List.map_congr_left fun p hp => hl.reread_eq_self hg hp (hclear p hp)).trans (List.map_id _)
  rw [hself, OrderedSet.ofList_toList]

/-- If a production is misread, no production is read back as it: one that is misread turns into one
that is not, and one that is not misread stays what it is. -/
theorem Legible.reread_equiv_iff (hl : g.Legible) (hg : g.Consistent) :
    { g with productions := .ofList (g.productions.toList.map g.reread) } ≈ g ↔
      ∀ p ∈ g.productions, ¬ g.outline.vocabulary.Misreads p.rhs := by
  constructor
  · intro h p hp hmisread
    have hmem : p ∈ g.productions.toList.map g.reread :=
      OrderedSet.mem_ofList.mp ((h.2.2.2 p).mpr hp)
    obtain ⟨q, hq, rfl⟩ := List.mem_map.mp hmem
    by_cases hqmisread : g.outline.vocabulary.Misreads q.rhs
    · rcases (hl.readBack hg hq).nil_or_long hqmisread with hnil | ⟨x, hx, hlong⟩
      · exact hmisread.ne_nil hnil
      · have hshort := hmisread.isShort x hx
        omega
    · exact hqmisread (hl.reread_eq_self hg hq hqmisread ▸ hmisread)
  · intro hclear
    refine ⟨rfl, Setoid.refl _, Setoid.refl _, fun p => ?_⟩
    exact iff_of_eq (congrArg (p ∈ ·) (hl.ofList_map_reread hg hclear))

section

variable (hl : g.Legible) (hg : g.Valid) (hstart : g.start = .ofChar 'S')
  (hterminals : g.terminals ≠ ∅) (hproductions : g.productions ≠ ∅)

include hl hg hstart hterminals hproductions

theorem Legible.toGrammar_outline : g.outline.toGrammar =
    .ok { g with productions := .ofList (g.productions.toList.map g.reread) } := by
  have hflatten : (g.productions.toList.map fun p => [g.reread p]).flatten =
      g.productions.toList.map g.reread := by
    rw [← List.flatMap_def, ← List.map_eq_flatMap]
  rw [toGrammar_eq_ok_iff]
  refine ⟨List.ne_nil_of_mem hg.1, fun h => hterminals (OrderedSet.ext h),
    g.productions.toList.map fun p => [g.reread p], ?_, ?_, ?_⟩
  · rw [outline, List.forall₂_map_left_iff, List.forall₂_map_right_iff, List.forall₂_same]
    exact fun p hp => hl.readRule_eq hg.2 hp
  · rw [hflatten]
    exact fun h => hproductions (OrderedSet.ext (List.map_eq_nil_iff.mp h))
  · rw [hflatten, ofParts_eq_ok_iff]
    refine ⟨by simp [outline, hstart], hg.1, hg.2.1, fun q hq x hx => ?_⟩
    obtain ⟨p, hp, rfl⟩ := List.mem_map.mp (OrderedSet.mem_ofList.mp hq)
    rcases List.mem_cons.mp hx with rfl | hx
    · exact hg.2.lhs_mem (p := p) hp
    · exact hg.2.mem_vocabulary_outline_iff.mp ((hl.readBack hg.2 hp).mem_symbols x hx)

/-- A definition is read as the grammar with its right-hand sides read back. -/
theorem Legible.ofDefinition_eq : ofDefinition g.definition =
    .ok { g with productions := .ofList (g.productions.toList.map g.reread) } := by
  rw [ofDefinition, hl.read_definition hg.2]
  exact hl.toGrammar_outline hg hstart hterminals hproductions

theorem Legible.exists_ofDefinition_eq :
    ∃ h, ofDefinition g.definition = .ok h ∧ h.nonTerminals = g.nonTerminals ∧
      h.terminals = g.terminals ∧ h.start = g.start ∧
        (h ≈ g ↔ ∀ p ∈ g.productions, ¬ g.outline.vocabulary.Misreads p.rhs) :=
  ⟨_, hl.ofDefinition_eq hg hstart hterminals hproductions, rfl, rfl, rfl,
    hl.reread_equiv_iff hg.2⟩

/-- Where nothing is misread, the sets come back in their order. -/
theorem Legible.ofDefinition_eq_self
    (hclear : ∀ p ∈ g.productions, ¬ g.outline.vocabulary.Misreads p.rhs) :
    ofDefinition g.definition = .ok g := by
  rw [hl.ofDefinition_eq hg hstart hterminals hproductions, hl.ofList_map_reread hg.2 hclear]

end

/-- A grammar is found again in its definition, up to the order of its sets, unless one of its
right-hand sides is a single symbol called `ε`, or is glued together from names of one character and
has a longer name in it. -/
theorem ofDefinition_definition (hg : g.Valid) (hstart : g.start = .ofChar 'S')
    (hterminals : g.terminals ≠ ∅) (hproductions : g.productions ≠ ∅) (hl : g.Legible) :
    ∃ h, ofDefinition g.definition = .ok h ∧ h.nonTerminals = g.nonTerminals ∧
      h.terminals = g.terminals ∧ h.start = g.start ∧
        (h ≈ g ↔
          (¬ ∃ p ∈ g.productions, ∃ x, p.rhs = [x] ∧ x.name.chars = epsilon) ∧
            ¬ ∃ p ∈ g.productions, (∀ x ∈ p.rhs, x.name.chars.length = 1) ∧
              ∃ y, g.Declares y ∧ 2 ≤ y.name.chars.length ∧ y.name.chars <:+: p.rhs.text) := by
  obtain ⟨h, hread, hN, hT, hS, hequiv⟩ :=
    hl.exists_ofDefinition_eq hg hstart hterminals hproductions
  refine ⟨h, hread, hN, hT, hS, hequiv.trans ?_⟩
  simp only [Vocabulary.Misreads, Word.IsShort, hg.2.mem_vocabulary_outline_iff, not_or,
    not_exists, not_and, forall_and]

/-- The right-hand side `AB` of `S` is written like the non-terminal `AB`. -/
def blurred : Grammar where
  nonTerminals := .ofList
    [.ofChar 'S', .ofChar 'A', .ofChar 'B', ⟨['A', 'B'], List.cons_ne_nil _ _⟩]
  terminals := .ofList [.ofChar 'a', .ofChar 'b']
  start := .ofChar 'S'
  productions := .ofList
    [⟨.ofChar 'S', [.nonTerminal (.ofChar 'A'), .nonTerminal (.ofChar 'B')]⟩,
      ⟨.ofChar 'A', [.terminal (.ofChar 'a')]⟩, ⟨.ofChar 'B', [.terminal (.ofChar 'b')]⟩,
      ⟨⟨['A', 'B'], List.cons_ne_nil _ _⟩, []⟩]

theorem valid_blurred : blurred.Valid := validate_eq_ok_iff.mp rfl

theorem ofDefinition_definition_blurred : blurred.Valid ∧ blurred.start = .ofChar 'S' ∧
    blurred.terminals ≠ ∅ ∧ blurred.productions ≠ ∅ ∧ blurred.Legible ∧
      ∃ h, ofDefinition blurred.definition = .ok h ∧ h.nonTerminals = blurred.nonTerminals ∧
        ¬ h ≈ blurred := by
  have hterminals : blurred.terminals ≠ ∅ := by decide
  have hproductions : blurred.productions ≠ ∅ := by decide
  have hl : blurred.Legible := by decide
  obtain ⟨h, hread, hN, _, _, hequiv⟩ :=
    ofDefinition_definition valid_blurred rfl hterminals hproductions hl
  refine ⟨valid_blurred, rfl, hterminals, hproductions, hl, h, hread, hN, fun heq => ?_⟩
  have hmem : ⟨.ofChar 'S', [.nonTerminal (.ofChar 'A'), .nonTerminal (.ofChar 'B')]⟩ ∈
      blurred.productions := by decide
  exact (hequiv.mp heq).2 ⟨_, hmem, by decide, .nonTerminal ⟨['A', 'B'], List.cons_ne_nil _ _⟩,
    by decide, by decide, by decide⟩

end Grammar

end ContextFree
