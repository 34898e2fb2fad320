import ContextFree.Notation.RuleList
import ContextFree.Proofs.Legible

/-!
# Lists of rules read back

What a list of rules is read as can be written down again, one rule for each production, and is then
read as the same productions (`read_map_text`). Every symbol is a single character that is neither
white space nor a bar, so a right-hand side is written without anything between its symbols. It is
never written like the empty word, since a lone `ε` between bars has been read as that.
-/

namespace ContextFree

/-- Going through the first occurrences alone brings in the same elements in the same order. -/
theorem OrderedSet.ofList_flatMap_toList_ofList {α β : Type} [Coded α] [Coded β] (f : α → List β)
    (l : List α) : ofList ((ofList l).toList.flatMap f) = ofList (l.flatMap f) := by
  have hinsert : ∀ (s : OrderedSet α) (t : OrderedSet β), (∀ a ∈ s, ∀ b ∈ f a, b ∈ t) →
      t.insertAll ((s.insertNew l).2.flatMap f) = t.insertAll (l.flatMap f) := by
    induction l with
    | nil => exact fun s t _ => rfl
    | cons a l ih =>
        intro s t hst
        rw [List.flatMap_cons, insertAll_append]
        by_cases ha : a ∈ s
        · rw [insertNew, if_pos ha, insertAll_of_subset (hst a ha)]
          exact ih s t hst
        · rw [insertNew, if_neg ha, List.flatMap_cons, insertAll_append]
          refine ih (s.insert a) (t.insertAll (f a)) fun b hb c hc => ?_
          rcases mem_insert.mp hb with hb | rfl
          · exact mem_insertAll.mpr (Or.inl (hst b hb c hc))
          · exact mem_insertAll.mpr (Or.inr hc)
  have hfirst : (ofList l).toList = ((∅ : OrderedSet α).insertNew l).2 := by
    rw [ofList, toList_insertAll, toList_empty, List.nil_append]
  rw [hfirst]
  exact hinsert ∅ ∅ fun a ha => absurd ha (not_mem_empty a)

theorem Symbol.name_ofChar (c : Char) : (Symbol.ofChar c).name = .ofChar c := by
  unfold Symbol.ofChar
  split <;> rfl

namespace RuleList

/-! ## Where a rule is divided -/

theorem eq_append_of_splitAtDashArrow? {t l r : Text} (h : splitAtDashArrow? t = some (l, r)) :
    t = l ++ ['-', '>'] ++ r := by
  fun_induction splitAtDashArrow? t generalizing l r with
  | case1 t =>
      cases h
      rfl
  | case2 c t _ ih =>
      obtain ⟨⟨l', r'⟩, hsplit, hpair⟩ := Option.map_eq_some_iff.mp h
      cases hpair
      exact congrArg (c :: ·) (ih hsplit)
  | case3 => exact absurd h (by simp)

theorem splitAtArrow?_append {l : Text} (hl : ∀ c ∈ l, c ≠ '→') (r : Text) :
    splitAtArrow? (l ++ '→' :: r) = some (l, r) := by
  have hl' : ∀ c ∈ l, decide (c ≠ '→') = true := fun c hc => decide_eq_true (hl c hc)
  have harrow : ∀ c ∈ ('→' :: r).head?, decide (c ≠ '→') = false := by simp
  rw [splitAtArrow?, Text.dropWhile_append_of_head? hl' harrow,
    Text.takeWhile_append_of_head? hl' harrow]

theorem exists_arrow_of_splitAtArrow? {t l r : Text} (h : splitAtArrow? t = some (l, r)) :
    ∃ arrow ∈ [['-', '>'], ['→']], t = l ++ arrow ++ r := by
  unfold splitAtArrow? at h
  split at h
  · rename_i c r' hdrop
    cases h
    have hhead := Text.head?_dropWhile (· ≠ '→') t c (by rw [hdrop]; rfl)
    obtain rfl : c = '→' := by simpa using hhead
    refine ⟨['→'], by decide, ?_⟩
    rw [List.append_assoc, List.singleton_append, ← hdrop, List.takeWhile_append_dropWhile]
  · exact ⟨['-', '>'], by decide, eq_append_of_splitAtDashArrow? h⟩

theorem readLeftHandSide_eq_ok_iff {t : Text} {A : Name} :
    readLeftHandSide t = .ok A ↔ ∃ c, Text.trim t = [c] ∧ c.isUpper = true ∧ A = .ofChar c := by
  constructor
  · intro h
    unfold readLeftHandSide at h
    split at h
    · rename_i c htrim
      split at h
      · exact ⟨c, htrim, ‹_›, (Except.ok.inj h).symm⟩
      · exact absurd h (by simp)
    · exact absurd h (by simp)
  · rintro ⟨c, htrim, hc, rfl⟩
    rw [readLeftHandSide, htrim]
    exact if_pos hc

theorem readRule_eq_ok_iff {t : Text} {r : Rule} : readRule t = .ok r ↔
    ∃ l body, splitAtArrow? t = some (l, body) ∧ readLeftHandSide l = .ok r.lhs ∧
      r.alternatives = readAlternatives body := by
  unfold readRule
  split
  · rename_i hnone
    simp [hnone]
  · rename_i l body hsplit
    cases hlhs : readLeftHandSide l with
    | error e => simp [hsplit, hlhs, Except.map]
    | ok A =>
        simp only [Except.map, hsplit, Except.ok.injEq, Option.some.injEq, Prod.mk.injEq,
          and_assoc, exists_and_left, exists_eq_left', hlhs]
        obtain ⟨B, words⟩ := r
        simp [eq_comm]

/-- The grammar with the productions of the rules and the symbols that occur in them. -/
def grammarOf (start : Name) (rs : List Rule) : Grammar where
  nonTerminals := .ofList
    (start :: rs.flatMap fun r => r.lhs :: r.alternatives.flatMap Word.nonTerminals)
  terminals := .ofList (rs.flatMap fun r => r.alternatives.flatMap Word.terminals)
  start := start
  productions := .ofList (rs.flatMap Rule.productions)

theorem read_eq_ok_iff {start : Name} {rules : List Text} {g : Grammar} :
    read start rules = .ok g ↔ ∃ rs, List.Forall₂ (fun t r => readRule t = .ok r) rules rs ∧
      g = grammarOf start rs ∧ g.Valid := by
  simp only [read, bind_eq_ok_iff, mapM_eq_ok_iff, Outline.lift_eq_ok_iff,
    Grammar.ofParts_eq_ok_iff]
  rfl

theorem mem_nonTerminals_grammarOf {start A : Name} {rs : List Rule} :
    A ∈ (grammarOf start rs).nonTerminals ↔
      A = start ∨ ∃ r ∈ rs, A = r.lhs ∨ ∃ w ∈ r.alternatives, .nonTerminal A ∈ w := by
  simp [grammarOf]

theorem mem_terminals_grammarOf {start a : Name} {rs : List Rule} :
    a ∈ (grammarOf start rs).terminals ↔ ∃ r ∈ rs, ∃ w ∈ r.alternatives, .terminal a ∈ w := by
  simp [grammarOf]

theorem mem_productions_grammarOf {start : Name} {rs : List Rule} {p : Production} :
    p ∈ (grammarOf start rs).productions ↔ ∃ r ∈ rs, p ∈ r.productions := by
  simp [grammarOf]

/-! ## Words of single characters -/

/-- The characters of a word that is read from an alternative. -/
structure SpeltOut (u : Text) : Prop where
  ne_epsilon : u ≠ epsilon
  of_mem : ∀ c ∈ u, isWhiteSpace c = false ∧ c ≠ '|'

/-- White space within a trimmed text stands between other characters. -/
theorem eq_of_filter_eq_singleton {t : Text} {c : Char} (ht : Text.IsTrimmed t t)
    (hfilter : (t.filter fun d => !isWhiteSpace d) = [c]) : t = [c] := by
  cases t with
  | nil => exact absurd hfilter (by simp)
  | cons d t =>
      have hd : isWhiteSpace d = false := ht.first d rfl
      obtain ⟨rfl, hrest⟩ : d = c ∧ (t.filter fun d => !isWhiteSpace d) = [] := by
        simpa [hd] using hfilter
      refine congrArg (d :: ·) (Decidable.byContradiction fun hne => ?_)
      have hlast : isWhiteSpace (t.getLast hne) = false := ht.last _ (by
        rw [List.getLast?_cons_of_ne_nil hne, List.getLast?_eq_getLast_of_ne_nil hne]
        rfl)
      have hwhite := List.filter_eq_nil_iff.mp hrest _ (List.getLast_mem hne)
      simp [hlast] at hwhite

theorem exists_speltOut_of_mem_readAlternatives {body : Text} {w : Word}
    (hw : w ∈ readAlternatives body) :
    ∃ u, SpeltOut u ∧ (∀ c ∈ u, c ∈ body) ∧ w = u.map Symbol.ofChar := by
  obtain ⟨t, ht, rfl⟩ := List.mem_map.mp hw
  obtain ⟨ht, hne⟩ := List.mem_filter.mp ht
  obtain ⟨part, hpart, rfl⟩ := List.mem_map.mp ht
  have htrim := Text.isTrimmed_trim part
  have hmem : ∀ c ∈ Text.trim part, c ∈ body ∧ c ≠ '|' := by
    obtain ⟨⟨v, v', _, _, heq⟩, _, _⟩ := htrim
    intro c hc
    exact Text.of_mem_splitOn hpart c (by rw [heq]; simp [hc])
  by_cases hepsilon : Text.trim part = epsilon
  · exact ⟨[], ⟨by decide, List.forall_mem_nil _⟩, List.forall_mem_nil _,
      by rw [readWord, if_pos hepsilon]; rfl⟩
  · refine ⟨(Text.trim part).filter fun c => !isWhiteSpace c, ⟨fun hfilter => ?_, fun c hc => ?_⟩,
      fun c hc => (hmem c (List.mem_of_mem_filter hc)).1, by rw [readWord, if_neg hepsilon]⟩
    · have hself := Text.isTrimmed_self htrim.first htrim.last
      exact hepsilon (eq_of_filter_eq_singleton hself hfilter)
    · obtain ⟨hc, hblack⟩ := List.mem_filter.mp hc
      exact ⟨by simpa using hblack, (hmem c hc).2⟩

theorem mayNameHead_of_isUpper {c : Char} (hc : c.isUpper = true) : Outline.MayNameHead c :=
  Outline.mayNameHead_of_isAlphanum (by simp [Char.isAlphanum, Char.isAlpha, hc])

/-- The production can stand in a list of rules. -/
def Fits (p : Production) : Prop :=
  ∃ c u, c.isUpper = true ∧ SpeltOut u ∧ p = ⟨.ofChar c, u.map Symbol.ofChar⟩

theorem fits_of_mem_productions {t : Text} {r : Rule} (hr : readRule t = .ok r) {p : Production}
    (hp : p ∈ r.productions) : Fits p := by
  obtain ⟨l, body, _, hlhs, halternatives⟩ := readRule_eq_ok_iff.mp hr
  obtain ⟨c, _, hc, hA⟩ := readLeftHandSide_eq_ok_iff.mp hlhs
  obtain ⟨w, hw, rfl⟩ := List.mem_map.mp hp
  obtain ⟨u, hu, _, rfl⟩ := exists_speltOut_of_mem_readAlternatives (halternatives ▸ hw)
  exact ⟨c, u, hc, hu, by rw [hA]⟩

/-! ## Productions written as rules -/

theorem glued_map_ofChar (u : Text) : Word.glued (u.map Symbol.ofChar) = u := by
  induction u with
  | nil => rfl
  | cons c u ih => rw [List.map_cons, Word.glued_cons, ih, Symbol.name_ofChar]; rfl

theorem isShort_map_ofChar (u : Text) : Word.IsShort (u.map Symbol.ofChar) := by
  intro x hx
  obtain ⟨c, _, rfl⟩ := List.mem_map.mp hx
  rw [Symbol.name_ofChar]
  rfl

theorem text_map_ofChar {u : Text} (hu : u ≠ []) : Word.text (u.map Symbol.ofChar) = u := by
  have hne : u.map Symbol.ofChar ≠ [] := fun h => hu (List.map_eq_nil_iff.mp h)
  rw [Word.text_of_isShort hne (isShort_map_ofChar u), glued_map_ofChar]

theorem readAlternatives_space_cons {t : Text} (hne : t ≠ [])
    (ht : ∀ c ∈ t, isWhiteSpace c = false ∧ c ≠ '|') :
    readAlternatives (' ' :: t) = [readWord t] := by
  have hsplit : (' ' :: t).splitOn '|' = [' ' :: t] := by
    rw [List.splitOn_eq_splitOnP, List.splitOnP_eq_singleton]
    exact List.forall_mem_cons.mpr ⟨rfl, fun c hc => by simpa using (ht c hc).2⟩
  have htrim : Text.trim (' ' :: t) = t := by
    have haround : ∃ w w', (∀ c ∈ w, isWhiteSpace c = true) ∧ (∀ c ∈ w', isWhiteSpace c = true) ∧
        ' ' :: t = w ++ t ++ w' :=
      ⟨[' '], [], List.forall_mem_singleton.mpr rfl, List.forall_mem_nil _, by simp⟩
    refine Text.trim_eq_iff.mpr ⟨haround, ?_, ?_⟩
    · exact fun c hc => (ht c (List.mem_of_mem_head? hc)).1
    · exact fun c hc => (ht c (List.mem_of_getLast? hc)).1
  simp [readAlternatives, hsplit, htrim, hne]

theorem SpeltOut.readAlternatives_text {u : Text} (hu : SpeltOut u) :
    readAlternatives (' ' :: Word.text (u.map Symbol.ofChar)) = [u.map Symbol.ofChar] := by
  by_cases hnil : u = []
  · subst hnil
    rfl
  have hblack : (u.filter fun c => !isWhiteSpace c) = u :=
    List.filter_eq_self.mpr fun c hc => by simp [(hu.of_mem c hc).1]
  rw [text_map_ofChar hnil, readAlternatives_space_cons hnil hu.of_mem, readWord,
    if_neg hu.ne_epsilon, hblack]

def Rule.ofProduction (p : Production) : Rule := ⟨p.lhs, [p.rhs]⟩

theorem Fits.readRule_text {p : Production} (hp : Fits p) :
    readRule p.text = .ok (.ofProduction p) := by
  obtain ⟨c, u, hc, hu, rfl⟩ := hp
  obtain ⟨⟨hblack, _⟩, harrow⟩ := mayNameHead_of_isUpper hc
  have htext : Production.text ⟨.ofChar c, u.map Symbol.ofChar⟩ =
      [c, ' '] ++ '→' :: ' ' :: Word.text (u.map Symbol.ofChar) := rfl
  have hhead : ∀ d ∈ [c, ' '], d ≠ '→' := by
    simp only [List.mem_cons, List.not_mem_nil, or_false, not_or] at harrow
    simp [harrow.2]
  have haround : ∃ w w', (∀ d ∈ w, isWhiteSpace d = true) ∧ (∀ d ∈ w', isWhiteSpace d = true) ∧
      [c, ' '] = w ++ [c] ++ w' :=
    ⟨[], [' '], List.forall_mem_nil _, List.forall_mem_singleton.mpr rfl, rfl⟩
  have htrim : Text.trim [c, ' '] = [c] :=
    Text.trim_eq_iff.mpr ⟨haround, by simpa using hblack, by simpa using hblack⟩
  rw [readRule_eq_ok_iff, htext]
  exact ⟨_, _, splitAtArrow?_append hhead _,
    readLeftHandSide_eq_ok_iff.mpr ⟨c, htrim, hc, rfl⟩, hu.readAlternatives_text.symm⟩

end RuleList

/-! ## Symbols in use -/

namespace Grammar

/-- The grammar with the symbols that occur in its productions, and the start symbol. -/
def inUse (g : Grammar) : Grammar where
  nonTerminals :=
    .ofList (g.start :: g.productions.toList.flatMap fun p => p.lhs :: Word.nonTerminals p.rhs)
  terminals := .ofList (g.productions.toList.flatMap fun p => Word.terminals p.rhs)
  start := g.start
  productions := g.productions

variable {g : Grammar}

theorem mem_nonTerminals_inUse {A : Name} : A ∈ g.inUse.nonTerminals ↔
    A = g.start ∨ ∃ p ∈ g.productions, A = p.lhs ∨ .nonTerminal A ∈ p.rhs := by
  simp [inUse]

theorem mem_terminals_inUse {a : Name} :
    a ∈ g.inUse.terminals ↔ ∃ p ∈ g.productions, .terminal a ∈ p.rhs := by
  simp [inUse]

theorem Valid.mem_nonTerminals_of_inUse (hg : g.Valid) {A : Name}
    (hA : A ∈ g.inUse.nonTerminals) : A ∈ g.nonTerminals := by
  rcases mem_nonTerminals_inUse.mp hA with rfl | ⟨p, hp, rfl | hmem⟩
  · exact hg.1
  · exact hg.2.lhs_mem hp
  · exact hg.2.declares_of_mem_rhs hp hmem

theorem Valid.inUse (hg : g.Valid) : g.inUse.Valid := by
  refine ⟨mem_nonTerminals_inUse.mpr (Or.inl rfl), fun a ha hA => ?_, fun p hp x hx => ?_⟩
  · obtain ⟨p, hp, hmem⟩ := mem_terminals_inUse.mp ha
    exact hg.2.1 a (hg.2.declares_of_mem_rhs hp hmem) (hg.mem_nonTerminals_of_inUse hA)
  · rcases List.mem_cons.mp hx with rfl | hx
    · exact mem_nonTerminals_inUse.mpr (Or.inr ⟨p, hp, Or.inl rfl⟩)
    · cases x with
      | terminal a => exact mem_terminals_inUse.mpr ⟨p, hp, hx⟩
      | nonTerminal A => exact mem_nonTerminals_inUse.mpr (Or.inr ⟨p, hp, Or.inr hx⟩)

end Grammar

namespace RuleList

theorem read_map_text_of_fits {g : Grammar} (hg : g.Valid) (hfits : ∀ p ∈ g.productions, Fits p) :
    read g.start (g.productions.toList.map Production.text) = .ok g.inUse := by
  refine read_eq_ok_iff.mpr ⟨g.productions.toList.map Rule.ofProduction, ?_, ?_, hg.inUse⟩
  · rw [List.forall₂_map_left_iff, List.forall₂_map_right_iff, List.forall₂_same]
    exact fun p hp => (hfits p hp).readRule_text
  · simp [grammarOf, Grammar.inUse, List.flatMap_map, Rule.ofProduction, Rule.productions]

section

variable {start : Name} {rules : List Text} {g : Grammar} (hread : read start rules = .ok g)

include hread

theorem start_of_read : g.start = start := by
  obtain ⟨rs, _, rfl, _⟩ := read_eq_ok_iff.mp hread
  rfl

theorem valid_of_read : g.Valid := by
  obtain ⟨rs, _, _, hvalid⟩ := read_eq_ok_iff.mp hread
  exact hvalid

theorem fits_of_read : ∀ p ∈ g.productions, Fits p := by
  intro p hp
  obtain ⟨rs, hrs, rfl, _⟩ := read_eq_ok_iff.mp hread
  obtain ⟨r, hr, hp⟩ := mem_productions_grammarOf.mp hp
  obtain ⟨t, _, ht⟩ := exists_of_forall₂ hrs.flip hr
  exact fits_of_mem_productions ht hp

/-- A terminal first occurs in the first production that has it. -/
theorem terminals_inUse_of_read : g.inUse.terminals = g.terminals := by
  obtain ⟨rs, _, rfl, _⟩ := read_eq_ok_iff.mp hread
  have hterminals : ((rs.flatMap Rule.productions).flatMap fun p => Word.terminals p.rhs) =
      rs.flatMap fun r => r.alternatives.flatMap Word.terminals := by
    simp [List.flatMap_assoc, Rule.productions, List.flatMap_map]
  rw [grammarOf, Grammar.inUse, OrderedSet.ofList_flatMap_toList_ofList, hterminals]

end

/-- What is read from rules is read again from its productions, with the same productions and
terminals in the same order; only left-hand sides without alternatives may be lost. -/
theorem read_map_text {start : Name} {rules : List Text} {g : Grammar}
    (hread : read start rules = .ok g) :
    ∃ h, read start (g.productions.toList.map Production.text) = .ok h ∧ h.start = g.start ∧
      h.productions = g.productions ∧ h.terminals = g.terminals ∧
        ∀ A, A ∈ h.nonTerminals ↔ A ∈ g.nonTerminals ∧
          (A = g.start ∨ ∃ p ∈ g.productions, A = p.lhs ∨ .nonTerminal A ∈ p.rhs) := by
  have hvalid := valid_of_read hread
  refine ⟨g.inUse, ?_, rfl, rfl, terminals_inUse_of_read hread, fun A => ?_⟩
  · rw [← start_of_read hread]
    exact read_map_text_of_fits hvalid (fits_of_read hread)
  · rw [← Grammar.mem_nonTerminals_inUse]
    exact (and_iff_right_of_imp hvalid.mem_nonTerminals_of_inUse).symm

/-- With arrows, dashes and `ε` for terminals, the empty word, and a `B` without alternatives. -/
def arrows : List Text := ["S → aεA| ε |→->-".toList, "B -> | ".toList]

def ofArrows : Grammar where
  nonTerminals := .ofList [.ofChar 'S', .ofChar 'A', .ofChar 'B']
  terminals := .ofList [.ofChar 'a', .ofChar 'ε', .ofChar '→', .ofChar '-', .ofChar '>']
  start := .ofChar 'S'
  productions := .ofList
    [⟨.ofChar 'S', ['a', 'ε', 'A'].map Symbol.ofChar⟩, ⟨.ofChar 'S', []⟩,
      ⟨.ofChar 'S', ['→', '-', '>', '-'].map Symbol.ofChar⟩]

theorem read_map_text_arrows : read (.ofChar 'S') arrows = .ok ofArrows ∧
    ∃ h, read (.ofChar 'S') (ofArrows.productions.toList.map Production.text) = .ok h ∧
      h.productions = ofArrows.productions ∧ h.terminals = ofArrows.terminals ∧
        .ofChar 'B' ∈ ofArrows.nonTerminals ∧ .ofChar 'B' ∉ h.nonTerminals := by
  have hread : read (.ofChar 'S') arrows = .ok ofArrows := rfl
  have hunused : ¬ ∃ p ∈ ofArrows.productions.toList,
      .ofChar 'B' = p.lhs ∨ .nonTerminal (.ofChar 'B') ∈ p.rhs := by decide
  obtain ⟨h, hagain, _, hproductions, hterminals, hnonTerminals⟩ := read_map_text hread
  refine ⟨hread, h, hagain, hproductions, hterminals, by decide, fun hB => ?_⟩
  rcases ((hnonTerminals _).mp hB).2 with hstart | hused
  · exact absurd hstart (by decide)
  · exact hunused hused

end RuleList

end ContextFree
