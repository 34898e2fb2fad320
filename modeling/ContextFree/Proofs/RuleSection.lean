import ContextFree.Proofs.RuleList

/-!
# Rules as a section of a definition

A list of rules can be put into a definition as it stands, after the symbols that occur in it. Both
readers then come to the same grammar (`ofDefinition_of_read`). They find the same arrow, because
a left-hand side has none of its characters, and the same words, because all names are single
characters: there, dividing a chunk into names is the same as taking its characters one by one.
-/

namespace ContextFree

open Outline

namespace RuleList

/-! ## A rule in both readings -/

/-- All white space in the text is blanks. -/
def OnlyBlanks (l : Text) : Prop :=
  ∀ c ∈ l, isWhiteSpace c = true → c ∈ [' ', '\t', '\r', '\n']

/-- There is nothing but blanks around the left-hand side. -/
def HasBlankHead (t : Text) : Prop := ∀ parts ∈ splitAtArrow? t, OnlyBlanks parts.1

/-- The text has none of the characters around the items of a section. -/
def IsClean (t : Text) : Prop := ∀ c ∈ t, c ∉ [',', '{', '}']

instance (l : Text) : Decidable (OnlyBlanks l) := List.decidableBAll _ l

instance (t : Text) : Decidable (HasBlankHead t) :=
  inferInstanceAs (Decidable (∀ parts ∈ splitAtArrow? t, OnlyBlanks parts.1))

instance (t : Text) : Decidable (IsClean t) := List.decidableBAll _ t

variable {t body : Text} {r : Rule}

theorem writtenList_splitOn (hbody : IsClean body) :
    WrittenList WrittenAlternative '|' ((body.splitOn '|').map Text.trim) body := by
  refine ⟨body.splitOn '|', ?_, (List.intercalate_splitOn '|').symm⟩
  rw [List.forall₂_map_left_iff, List.forall₂_same]
  intro part hpart
  refine ⟨fun c hc => ?_, Text.isTrimmed_trim part⟩
  obtain ⟨hmem, hbar⟩ := Text.of_mem_splitOn hpart c hc
  have hclean := hbody c hmem
  simp only [List.mem_cons, List.not_mem_nil, or_false, not_or] at hclean ⊢
  exact ⟨hclean.1, hbar, hclean.2.2⟩

/-- What the two readers take from a rule: the same left-hand side, and on one hand the alternatives
as texts, on the other the words they stand for. -/
def Agree (out : Name × List Text) (r : Rule) : Prop :=
  out.1 = r.lhs ∧ r.alternatives = (out.2.filter (· ≠ [])).map readWord

theorem exists_writtenRule (hr : readRule t = .ok r) (hclean : IsClean t) (hhead : HasBlankHead t) :
    ∃ out, WrittenRule out t ∧ Agree out r := by
  obtain ⟨l, body, hsplit, hlhs, halternatives⟩ := readRule_eq_ok_iff.mp hr
  obtain ⟨c, htrim, hc, hA⟩ := readLeftHandSide_eq_ok_iff.mp hlhs
  obtain ⟨arrow, harrow, rfl⟩ := exists_arrow_of_splitAtArrow? hsplit
  obtain ⟨⟨w, w', hw, hw', rfl⟩, _, _⟩ := Text.trim_eq_iff.mp htrim
  have hblank : IsBlank w ∧ IsBlank w' :=
    ⟨fun d hd => hhead _ hsplit d (by simp [hd]) (hw d hd),
      fun d hd => hhead _ hsplit d (by simp [hd]) (hw' d hd)⟩
  have hmay : Name.MadeOf MayNameHead (.ofChar c) :=
    List.forall_mem_singleton.mpr (mayNameHead_of_isUpper hc)
  have hname : WrittenName MayNameHead r.lhs (w ++ [c] ++ w') := by
    rw [hA]
    exact ⟨w, w', hblank.1, hblank.2, hmay, rfl⟩
  have hne : (body.splitOn '|').map Text.trim ≠ [] := by simp [List.splitOn_ne_nil]
  have hbody : IsClean body := fun d hd => hclean d (by simp [hd])
  exact ⟨(r.lhs, _), ⟨_, arrow, body, hname, harrow, hne, writtenList_splitOn hbody, rfl⟩, rfl,
    halternatives⟩

theorem exists_writtenRules {rules : List Text} {rs : List Rule}
    (hrs : List.Forall₂ (fun t r => readRule t = .ok r) rules rs)
    (hclean : ∀ t ∈ rules, IsClean t) (hhead : ∀ t ∈ rules, HasBlankHead t) :
    ∃ outs, List.Forall₂ WrittenRule outs rules ∧ List.Forall₂ Agree outs rs := by
  induction hrs with
  | nil => exact ⟨[], .nil, .nil⟩
  | cons hr _ ih =>
      obtain ⟨hclean, hcleans⟩ := List.forall_mem_cons.mp hclean
      obtain ⟨hhead, hheads⟩ := List.forall_mem_cons.mp hhead
      obtain ⟨out, hwritten, hagree⟩ := exists_writtenRule hr hclean hhead
      obtain ⟨outs, hwrittens, hagrees⟩ := ih hcleans hheads
      exact ⟨out :: outs, .cons hwritten hwrittens, .cons hagree hagrees⟩

/-! ## Names of one character -/

/-- The name is a single character that a name in a definition may have. -/
def IsLetter (a : Name) : Prop := ∃ c, a = .ofChar c ∧ MayNameSymbol c

theorem isLetter_of_isUpper {c : Char} (hc : c.isUpper = true) : IsLetter (.ofChar c) :=
  ⟨c, rfl, (mayNameHead_of_isUpper hc).1⟩

theorem IsLetter.madeOf {a : Name} (ha : IsLetter a) : a.MadeOf MayNameSymbol := by
  obtain ⟨c, rfl, hc⟩ := ha
  exact List.forall_mem_singleton.mpr hc

theorem isLetter_lhs (hr : readRule t = .ok r) : IsLetter r.lhs := by
  obtain ⟨l, body, _, hlhs, _⟩ := readRule_eq_ok_iff.mp hr
  obtain ⟨c, _, hc, hA⟩ := readLeftHandSide_eq_ok_iff.mp hlhs
  exact hA ▸ isLetter_of_isUpper hc

theorem isLetter_of_mem_alternatives (hr : readRule t = .ok r) (hclean : IsClean t) {w : Word}
    (hw : w ∈ r.alternatives) {x : Symbol} (hx : x ∈ w) : IsLetter x.name := by
  obtain ⟨l, body, hsplit, _, halternatives⟩ := readRule_eq_ok_iff.mp hr
  obtain ⟨arrow, _, rfl⟩ := exists_arrow_of_splitAtArrow? hsplit
  obtain ⟨u, hu, hmem, rfl⟩ := exists_speltOut_of_mem_readAlternatives (halternatives ▸ hw)
  obtain ⟨c, hc, rfl⟩ := List.mem_map.mp hx
  have hbody := hclean c (by simp [hmem c hc])
  obtain ⟨hblack, hbar⟩ := hu.of_mem c hc
  refine ⟨c, Symbol.name_ofChar c, hblack, ?_⟩
  simp only [List.mem_cons, List.not_mem_nil, or_false, not_or] at hbody ⊢
  exact ⟨hbody.1, hbody.2.1, hbody.2.2, hbar⟩

theorem isLetter_of_declares {rules : List Text} {g : Grammar}
    (hread : read (.ofChar 'S') rules = .ok g) (hclean : ∀ t ∈ rules, IsClean t) {x : Symbol}
    (hx : g.Declares x) : IsLetter x.name := by
  obtain ⟨rs, hrs, rfl, _⟩ := read_eq_ok_iff.mp hread
  have hword : ∀ r ∈ rs, ∀ w ∈ r.alternatives, x ∈ w → IsLetter x.name := by
    intro r hr w hw hxw
    obtain ⟨t, ht, hread⟩ := exists_of_forall₂ hrs.flip hr
    exact isLetter_of_mem_alternatives hread (hclean t ht) hw hxw
  cases x with
  | terminal a =>
      obtain ⟨r, hr, w, hw, ha⟩ := mem_terminals_grammarOf.mp hx
      exact hword r hr w hw ha
  | nonTerminal A =>
      rcases mem_nonTerminals_grammarOf.mp hx with rfl | ⟨r, hr, rfl | ⟨w, hw, hA⟩⟩
      · exact isLetter_of_isUpper (by decide)
      · obtain ⟨t, _, hread⟩ := exists_of_forall₂ hrs.flip hr
        exact isLetter_lhs hread
      · exact hword r hr w hw hA

/-- Among names of one character, dividing a chunk is going through its characters. -/
theorem divide_eq_map_ofChar {v : Vocabulary} (hv : v.IsOrdered)
    (hletters : ∀ x ∈ v.symbols, IsLetter x.name) {chunk : Text}
    (hchunk : ∀ x ∈ chunk.map Symbol.ofChar, x ∈ v.symbols) :
    v.divide chunk = .ok (chunk.map Symbol.ofChar) := by
  have hdivide := hv.divide_short hchunk (isShort_map_ofChar chunk) fun y hy hlong _ => by
    obtain ⟨c, hc, _⟩ := hletters y hy
    rw [hc] at hlong
    exact absurd hlong (by simp [Name.ofChar])
  rwa [glued_map_ofChar] at hdivide

theorem readAlternative_eq_readWord {v : Vocabulary} (hv : v.IsOrdered)
    (hletters : ∀ x ∈ v.symbols, IsLetter x.name) {alternative : Text}
    (hmem : ∀ x ∈ readWord alternative, x ∈ v.symbols) :
    readAlternative v alternative = .ok (readWord alternative) := by
  by_cases hepsilon : alternative = epsilon
  · rw [readAlternative, readWord, if_pos hepsilon, if_pos hepsilon]
  rw [readWord, if_neg hepsilon, ← Text.flatten_chunks] at hmem ⊢
  have hdivides : List.Forall₂ (fun chunk w => v.divide chunk = .ok w) (Text.chunks alternative)
      ((Text.chunks alternative).map fun chunk => chunk.map Symbol.ofChar) := by
    rw [List.forall₂_map_right_iff, List.forall₂_same]
    intro chunk hchunk
    refine divide_eq_map_ofChar hv hletters fun x hx => hmem x ?_
    obtain ⟨c, hc, rfl⟩ := List.mem_map.mp hx
    exact List.mem_map_of_mem (List.mem_flatten.mpr ⟨chunk, hchunk, hc⟩)
  rw [readAlternative_eq_ok hepsilon hdivides, List.map_flatten]

theorem readRule_eq_ok_of_agree {v : Vocabulary} (hv : v.IsOrdered)
    (hletters : ∀ x ∈ v.symbols, IsLetter x.name) {out : Name × List Text} (hagree : Agree out r)
    (hlhs : .nonTerminal r.lhs ∈ v.symbols)
    (hmem : ∀ w ∈ r.alternatives, ∀ x ∈ w, x ∈ v.symbols) :
    Outline.readRule v out = .ok r.productions := by
  obtain ⟨hA, halternatives⟩ := hagree
  have hwords : (out.2.filter (· ≠ [])).mapM (readAlternative v) = .ok r.alternatives := by
    rw [mapM_eq_ok_iff, halternatives, List.forall₂_map_right_iff, List.forall₂_same]
    refine fun alternative h => readAlternative_eq_readWord hv hletters (hmem _ ?_)
    exact halternatives ▸ List.mem_map_of_mem h
  rw [Outline.readRule, hA, if_pos hlhs, hwords]
  rfl

end RuleList

namespace Grammar

open RuleList

/-! ## The grammar from its rules and from a definition -/

/-- The symbols of the grammar in two sections and the rules in a third. After the commas, and
between the sections, there may be blanks. -/
def definitionFrom (w gap : Text) (g : Grammar) (rules : List Text) : Text :=
  gap.intercalate
    [sectionWith w ['V', '_', 'N'] (g.nonTerminals.toList.map Name.chars),
      sectionWith w ['V', '_', 'T'] (g.terminals.toList.map Name.chars),
      sectionWith w ['P'] rules]

theorem written_definitionFrom {rules : List Text} {g : Grammar}
    (hletters : ∀ x, g.Declares x → IsLetter x.name) {w gap : Text} (hw : IsBlank w)
    (hgap : IsBlank gap) {outs : List (Name × List Text)}
    (houts : List.Forall₂ WrittenRule outs rules) :
    Written ⟨g.nonTerminals.toList, g.terminals.toList, outs⟩ (g.definitionFrom w gap rules) := by
  have hnonTerminals : ∀ A ∈ g.nonTerminals.toList, A.MadeOf MayNameSymbol := fun A hA =>
    (hletters (.nonTerminal A) hA).madeOf
  have hterminals : ∀ a ∈ g.terminals.toList, a.MadeOf MayNameSymbol := fun a ha =>
    (hletters (.terminal a) ha).madeOf
  have hN := writtenSection_names isBlank_nil hw hnonTerminals ['V', '_', 'N']
  have hT := writtenSection_names hgap hw hterminals ['V', '_', 'T']
  have hP := writtenSection_sectionWith hgap houts (fun h => h.blank_append hw) ['P']
  exact ⟨_, _, _, [], hN, hT, hP, isBlank_nil,
    by simp [definitionFrom, List.intercalate_cons_cons]⟩

theorem declares_grammarOf (start : Name) {rs : List Rule} {r : Rule} (hr : r ∈ rs) :
    (grammarOf start rs).Declares (.nonTerminal r.lhs) ∧
      ∀ w ∈ r.alternatives, ∀ x ∈ w, (grammarOf start rs).Declares x := by
  refine ⟨mem_nonTerminals_grammarOf.mpr (Or.inr ⟨r, hr, Or.inl rfl⟩), fun w hw x hx => ?_⟩
  cases x with
  | terminal a => exact mem_terminals_grammarOf.mpr ⟨r, hr, w, hw, hx⟩
  | nonTerminal A => exact mem_nonTerminals_grammarOf.mpr (Or.inr ⟨r, hr, Or.inr ⟨w, hw, hx⟩⟩)

/-- The two readings of the rules give the same productions one by one. -/
theorem forall₂_readRule {start : Name} {rs : List Rule} (hg : (grammarOf start rs).Consistent)
    (hletters : ∀ x, (grammarOf start rs).Declares x → IsLetter x.name)
    {outs : List (Name × List Text)} (hagree : List.Forall₂ Agree outs rs) :
    List.Forall₂
      (fun out ps => Outline.readRule (grammarOf start rs).outline.vocabulary out = .ok ps) outs
      (rs.map Rule.productions) := by
  have hmem : ∀ x, x ∈ (grammarOf start rs).outline.vocabulary.symbols ↔
      (grammarOf start rs).Declares x := fun x => hg.mem_vocabulary_outline_iff
  have hrules := (List.forall₂_and_left rs outs).mpr
    ⟨fun _ => declares_grammarOf start, hagree.flip⟩
  rw [List.forall₂_map_right_iff]
  refine hrules.flip.imp fun out r ⟨⟨hlhs, hwords⟩, hagree⟩ => ?_
  exact readRule_eq_ok_of_agree (isOrdered_vocabulary _) (fun x hx => hletters x ((hmem x).mp hx))
    hagree ((hmem _).mpr hlhs) fun w hw x hx => (hmem x).mpr (hwords w hw x hx)

/-- Rules that a definition can hold, without commas and braces and with nothing but blanks around
their left-hand sides, describe the same grammar there as they do by themselves, in the same
order. -/
theorem ofDefinition_of_read {rules : List Text} {g : Grammar}
    (hread : RuleList.read (.ofChar 'S') rules = .ok g) (hclean : ∀ t ∈ rules, IsClean t)
    (hhead : ∀ t ∈ rules, HasBlankHead t) (hterminals : g.terminals ≠ ∅)
    (hproductions : g.productions ≠ ∅) {w gap : Text} (hw : IsBlank w) (hgap : IsBlank gap) :
    ofDefinition (g.definitionFrom w gap rules) = .ok g := by
  have hletters : ∀ x, g.Declares x → IsLetter x.name := fun x =>
    isLetter_of_declares hread hclean
  obtain ⟨rs, hrs, rfl, hvalid⟩ := RuleList.read_eq_ok_iff.mp hread
  obtain ⟨outs, houts, hagree⟩ := exists_writtenRules hrs hclean hhead
  have houtline := Outline.read_eq_ok_iff.mpr (written_definitionFrom hletters hw hgap houts)
  have hflatten : (grammarOf (.ofChar 'S') rs).productions =
      .ofList (rs.map Rule.productions).flatten := congrArg OrderedSet.ofList List.flatMap_def
  rw [ofDefinition, houtline]
  refine toGrammar_eq_ok_iff.mpr ⟨List.ne_nil_of_mem hvalid.1,
    fun h => hterminals (OrderedSet.ext h), rs.map Rule.productions,
    forall₂_readRule hvalid.2 hletters hagree, fun h => hproductions (by rw [hflatten, h]; rfl), ?_⟩
  refine ofParts_eq_ok_iff.mpr ⟨?_, hvalid⟩
  rw [OrderedSet.ofList_toList, OrderedSet.ofList_toList, ← hflatten]
  rfl

/-- The definition is `V_N={S,A,B} V_T={a,ε,→,-,>} P={S → aεA| ε |→->-,B -> | }`. -/
theorem ofDefinition_of_read_arrows :
    RuleList.read (.ofChar 'S') arrows = .ok ofArrows ∧ (∀ t ∈ arrows, IsClean t) ∧
      (∀ t ∈ arrows, HasBlankHead t) ∧ ofArrows.terminals ≠ ∅ ∧ ofArrows.productions ≠ ∅ ∧
        ofArrows.definitionFrom [] [' '] arrows =
          "V_N=\x7bS,A,B\x7d V_T=\x7ba,ε,→,-,>\x7d P=\x7bS → aεA| ε |→->-,B -> | \x7d".toList ∧
        ofDefinition (ofArrows.definitionFrom [] [' '] arrows) = .ok ofArrows := by
  have hread : RuleList.read (.ofChar 'S') arrows = .ok ofArrows := rfl
  have hclean : ∀ t ∈ arrows, IsClean t := by decide
  have hhead : ∀ t ∈ arrows, HasBlankHead t := by decide
  have hterminals : ofArrows.terminals ≠ ∅ := by decide
  have hproductions : ofArrows.productions ≠ ∅ := by decide
  exact ⟨hread, hclean, hhead, hterminals, hproductions, by decide,
    ofDefinition_of_read hread hclean hhead hterminals hproductions isBlank_nil isBlank_space⟩

end Grammar

end ContextFree
