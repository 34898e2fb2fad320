import Mathlib
import ContextFree.Proofs.Definition
import ContextFree.Proofs.Description

/-!
# The text of a description

The text of a description is made of lines, one of them for each left-hand side. A name may hold any
characters, so it can also hold a line break, or what stands between two alternatives. The block has
its lines in the text exactly when nothing on them has a line break (`blockLines_layout_eq_iff`),
and a line is read as its left-hand side and its alternatives where the arrow and the bars that
stand after them are the first ones (`readRow_row`). So the description of a legible grammar can be
read (`Grammar.Legible.map_readRow_blockLines`).
-/

namespace ContextFree

namespace Text

theorem splitOn_append_cons (sep : Char) (t u : Text) :
    (t ++ sep :: u).splitOn sep = t.splitOn sep ++ u.splitOn sep := by
  simp only [List.splitOn_eq_splitOnP]
  exact List.splitOnP_append_cons t u (beq_self_eq_true sep)

theorem splitOn_of_not_mem {sep : Char} {t : Text} (ht : sep ∉ t) : t.splitOn sep = [t] := by
  rw [List.splitOn_eq_splitOnP]
  exact List.splitOnP_eq_singleton fun c hc => beq_false_of_ne fun heq => ht (heq ▸ hc)

/-- Lines that are each ended by a separator are found again, an empty one after the last. -/
theorem splitOn_flatMap_append (sep : Char) (ls : List Text) :
    (ls.flatMap fun l => l ++ [sep]).splitOn sep = (ls.flatMap fun l => l.splitOn sep) ++ [[]] := by
  induction ls with
  | nil => exact splitOn_of_not_mem List.not_mem_nil
  | cons l ls ih =>
      rw [List.flatMap_cons, List.append_assoc, List.singleton_append, splitOn_append_cons, ih,
        List.flatMap_cons, List.append_assoc]

theorem mem_intercalate {sep : Text} {ts : List Text} {c : Char} (hc : c ∉ sep) :
    c ∈ sep.intercalate ts ↔ ∃ t ∈ ts, c ∈ t := by
  induction ts with
  | nil => simp
  | cons t ts ih =>
      cases ts with
      | nil => simp
      | cons u ts => simp [List.intercalate_cons_cons, hc, ih]

end Text

namespace Description

/-! ## The layout -/

/-- The line of a left-hand side. -/
def row (line : Name × List Text) : Text :=
  "  ".toList ++ line.1.chars ++ " → ".toList ++ " | ".toList.intercalate line.2

/-- A heading with the symbols. -/
def heading (start : Name) (nonTerminals terminals : List Name) : Text :=
  "G = (\x7b".toList ++ ", ".toList.intercalate (nonTerminals.map Name.chars) ++
    "\x7d, \x7b".toList ++ ", ".toList.intercalate (terminals.map Name.chars) ++
      "\x7d, P, ".toList ++ start.chars ++ ")".toList

/-- The heading and, between braces, the lines of the block. -/
def layout (start : Name) (nonTerminals terminals : List Name)
    (lines : List (Name × List Text)) : List Text :=
  [heading start nonTerminals terminals, []] ++ "P = \x7b".toList :: lines.map row ++
    ["\x7d".toList]

theorem lineText_eq (line : Name × List Text) : lineText line = row line ++ ['\n'] := by
  simp [lineText, row]

theorem text_eq_layout (d : Description) :
    d.text = (layout d.start d.nonTerminals d.terminals d.lines).flatMap fun l => l ++ ['\n'] := by
  have hrows : d.lines.flatMap lineText = (d.lines.map row).flatMap fun l => l ++ ['\n'] := by
    rw [List.flatMap_map, funext lineText_eq]
  unfold text layout heading
  rw [hrows]
  simp [Text.commaList]

/-! ## The lines of the block -/

/-- The lines between the last line `P = {` and the brace that ends the text. -/
def blockLines (t : Text) : List Text :=
  (((t.splitOn '\n').reverse.drop 2).takeWhile (· ≠ "P = \x7b".toList)).reverse

theorem mem_row_iff {line : Name × List Text} :
    '\n' ∈ row line ↔ '\n' ∈ line.1.chars ∨ ∃ t ∈ line.2, '\n' ∈ t := by
  have hsep : '\n' ∉ " | ".toList := by decide
  simp [row, ← Text.mem_intercalate hsep]

theorem splitOn_layout (start : Name) (N T : List Name) (lines : List (Name × List Text)) :
    ((layout start N T lines).flatMap fun l => l ++ ['\n']).splitOn '\n' =
      ((heading start N T).splitOn '\n' ++ [[]]) ++ "P = \x7b".toList ::
        (lines.flatMap fun line => (row line).splitOn '\n') ++ ["\x7d".toList, []] := by
  have hempty : ([] : Text).splitOn '\n' = [[]] := Text.splitOn_of_not_mem List.not_mem_nil
  have hopen : ("P = \x7b".toList).splitOn '\n' = ["P = \x7b".toList] :=
    Text.splitOn_of_not_mem (by decide)
  have hclose : ("\x7d".toList).splitOn '\n' = ["\x7d".toList] :=
    Text.splitOn_of_not_mem (by decide)
  unfold layout
  rw [Text.splitOn_flatMap_append]
  simp only [List.flatMap_append, List.flatMap_cons, List.flatMap_nil, List.append_nil,
    List.flatMap_map, hempty, hopen, hclose, List.append_assoc, List.cons_append, List.nil_append]

/-- The block has the lines that its rows break into, if none of them seems to open it. -/
theorem blockLines_layout {start : Name} {N T : List Name} {lines : List (Name × List Text)}
    (hlines : ∀ l ∈ lines.flatMap fun line => (row line).splitOn '\n', l ≠ "P = \x7b".toList) :
    blockLines ((layout start N T lines).flatMap fun l => l ++ ['\n']) =
      lines.flatMap fun line => (row line).splitOn '\n' := by
  have hbefore : ∀ l ∈ (lines.flatMap fun line => (row line).splitOn '\n').reverse,
      decide (l ≠ "P = \x7b".toList) = true := fun l hl =>
    decide_eq_true (hlines l (List.mem_reverse.mp hl))
  have hdrop : ∀ ls ms : List Text,
      (ls ++ "P = \x7b".toList :: ms ++ ["\x7d".toList, []]).reverse.drop 2 =
        ms.reverse ++ "P = \x7b".toList :: ls.reverse := by simp
  rw [blockLines, splitOn_layout, hdrop, List.takeWhile_append_of_pos hbefore,
    List.takeWhile_cons_of_neg (by simp), List.append_nil, List.reverse_reverse]

theorem blockLines_layout_eq_iff {start : Name} {N T : List Name}
    {lines : List (Name × List Text)} :
    blockLines ((layout start N T lines).flatMap fun l => l ++ ['\n']) = lines.map row ↔
      ∀ line ∈ lines, '\n' ∉ row line := by
  constructor
  · intro h line hline hmem
    have hrow : row line ∈ lines.map row := List.mem_map_of_mem hline
    rw [← h, blockLines, List.mem_reverse] at hrow
    have hsplit := List.mem_reverse.mp (List.mem_of_mem_drop (List.takeWhile_subset _ hrow))
    exact (Text.of_mem_splitOn hsplit '\n' hmem).2 rfl
  · intro h
    have hself : (lines.flatMap fun line => (row line).splitOn '\n') = lines.map row := by
      rw [List.map_eq_flatMap]
      exact List.flatMap_congr fun line hline => Text.splitOn_of_not_mem (h line hline)
    rw [blockLines_layout, hself]
    rw [hself]
    refine List.forall_mem_map.mpr fun line _ => ?_
    simp [row]

/-! ## The parts of a line -/

/-- What stands between the places where the mark is set between spaces. -/
def divide (mark : Char) : Text → List Text
  | a :: b :: c :: t =>
    if a = ' ' ∧ b = mark ∧ c = ' ' then [] :: divide mark t
    else (divide mark (b :: c :: t)).modifyHead (a :: ·)
  | t => [t]

/-- The left-hand side and the alternatives that a line is read as: what stands before the first
arrow, and what stands between bars after it. -/
def readRow (t : Text) : Text × List Text :=
  let rule := t.drop 2
  let head := (divide '→' rule).headD []
  (head, divide '|' (rule.drop (head.length + 3)))

/-- Where a separator is put after a text that it does not overlap, no earlier one begins. -/
theorem not_prefix_append {sep t : Text} {c : Char} (hne : sep ≠ [])
    (ht : ¬ sep <:+: c :: t ++ sep.dropLast) (u : Text) : ¬ sep <+: c :: (t ++ sep ++ u) := by
  intro hprefix
  have hlast : c :: t ++ sep.dropLast ++ (sep.getLast hne :: u) = c :: (t ++ sep ++ u) := by
    rw [List.append_cons, List.append_assoc (c :: t), List.dropLast_append_getLast hne]
    rfl
  have hlength : sep.length ≤ (c :: t ++ sep.dropLast).length := by
    rw [List.length_append, List.length_dropLast, List.length_cons]
    omega
  exact ht (List.prefix_of_prefix_length_le hprefix ⟨_, hlast⟩ hlength).isInfix

theorem not_infix_of_cons {sep t : Text} {c : Char} (h : ¬ sep <:+: c :: t) : ¬ sep <:+: t :=
  fun hpart => h (List.infix_cons_iff.mpr (Or.inr hpart))

variable {mark : Char} {t : Text}

theorem divide_cons {a : Char} (h : ¬ [' ', mark, ' '] <+: a :: t) :
    divide mark (a :: t) = (divide mark t).modifyHead (a :: ·) := by
  match t with
  | [] => rfl
  | [_] => rfl
  | b :: c :: u =>
      rw [divide, if_neg]
      rintro ⟨rfl, rfl, rfl⟩
      exact h ⟨u, rfl⟩

theorem divide_append (ht : ¬ [' ', mark, ' '] <:+: t ++ [' ', mark]) (u : Text) :
    divide mark (t ++ [' ', mark, ' '] ++ u) = t :: divide mark u := by
  induction t with
  | nil => exact if_pos ⟨rfl, rfl, rfl⟩
  | cons c t ih =>
      have hhead : ¬ [' ', mark, ' '] <+: c :: (t ++ [' ', mark, ' '] ++ u) :=
        not_prefix_append (List.cons_ne_nil _ _) ht u
      rw [List.cons_append, List.cons_append, divide_cons hhead, ih (not_infix_of_cons ht)]
      rfl

theorem divide_of_not_infix (ht : ¬ [' ', mark, ' '] <:+: t) : divide mark t = [t] := by
  induction t with
  | nil => rfl
  | cons c t ih =>
      rw [divide_cons fun hprefix => ht hprefix.isInfix, ih (not_infix_of_cons ht)]
      rfl

theorem divide_intercalate {ts : List Text} (hne : ts ≠ [])
    (hts : ∀ t ∈ ts, ¬ [' ', mark, ' '] <:+: t ++ [' ', mark]) :
    divide mark ([' ', mark, ' '].intercalate ts) = ts := by
  induction ts with
  | nil => exact absurd rfl hne
  | cons t ts ih =>
      obtain ⟨ht, hts⟩ := List.forall_mem_cons.mp hts
      cases ts with
      | nil =>
          rw [List.intercalate_singleton]
          exact divide_of_not_infix fun hpart =>
            ht (hpart.trans (List.prefix_append t _).isInfix)
      | cons u ts =>
          rw [List.intercalate_cons_cons, divide_append ht, ih (List.cons_ne_nil u ts) hts]

theorem readRow_row {line : Name × List Text}
    (hhead : ¬ [' ', '→', ' '] <:+: line.1.chars ++ [' ', '→']) (hne : line.2 ≠ [])
    (hlist : ∀ u ∈ line.2, ¬ [' ', '|', ' '] <:+: u ++ [' ', '|']) :
    readRow (row line) = (line.1.chars, line.2) := by
  have hrule : (row line).drop 2 =
      line.1.chars ++ [' ', '→', ' '] ++ [' ', '|', ' '].intercalate line.2 := by
    simp [row]
  have hfirst : (divide '→' ((row line).drop 2)).headD [] = line.1.chars := by
    rw [hrule, divide_append hhead]
    rfl
  have hrest : ((row line).drop 2).drop (line.1.chars.length + 3) =
      [' ', '|', ' '].intercalate line.2 := by
    rw [hrule]
    exact List.drop_left' (List.length_append ..)
  have halternatives : divide '|' ([' ', '|', ' '].intercalate line.2) = line.2 :=
    divide_intercalate hne hlist
  simp only [readRow, hfirst, hrest, halternatives]

/-! ## What the text shows -/

/-- The text shows the symbols and the lines. It is laid out in lines, with the symbols in order.
Its block has these lines exactly when nothing on them has a line break. And a line is read as what
stands on it where an arrow set after its left-hand side and a bar set after an alternative would
be the first. -/
structure Shows (start : Name) (nonTerminals terminals : OrderedSet Name)
    (lines : List (Name × List Text)) (t : Text) : Prop where
  exists_layout : ∃ N T : List Name, (N.Pairwise (Precedes start) ∧ ∀ A, A ∈ N ↔ A ∈ nonTerminals) ∧
    (T.Pairwise (· < ·) ∧ ∀ a, a ∈ T ↔ a ∈ terminals) ∧
      t = (layout start N T lines).flatMap fun l => l ++ ['\n']
  blockLines_eq_iff : blockLines t = lines.map row ↔
    ∀ line ∈ lines, '\n' ∉ line.1.chars ∧ ∀ u ∈ line.2, '\n' ∉ u
  readRow_row : ∀ line ∈ lines, ¬ " → ".toList <:+: line.1.chars ++ " →".toList →
    (∀ u ∈ line.2, ¬ " | ".toList <:+: u ++ " |".toList) →
      readRow (row line) = (line.1.chars, line.2)

theorem Lists.ne_nil {start : Name} {alternative : Name → Text → Prop}
    {lines : List (Name × List Text)} (h : Lists start alternative lines)
    {line : Name × List Text} (hline : line ∈ lines) : line.2 ≠ [] := by
  obtain ⟨t, ht⟩ := (h.mem_heads_iff line.1).mp (List.mem_map_of_mem hline)
  exact List.ne_nil_of_mem ((h.mem_alternatives_iff line hline t).mpr ht)

theorem shows_ofRules (start : Name) (N T : OrderedSet Name) (rules : List (Name × Text)) :
    Shows start N T (ofRules start N T rules).lines (ofRules start N T rules).text := by
  have hlayout := text_eq_layout (ofRules start N T rules)
  refine ⟨⟨_, _, ⟨pairwise_sortFrom N.nodup, fun A => mem_sortFrom⟩,
    ⟨pairwise_mergeSort_names T.nodup, fun a => List.mem_mergeSort⟩, hlayout⟩, ?_, ?_⟩
  · rw [hlayout, blockLines_layout_eq_iff]
    refine forall₂_congr fun line _ => ?_
    rw [mem_row_iff, not_or]
    simp
  · intro line hline hhead hlist
    exact readRow_row hhead ((lists_ofRules start N T rules).ne_nil hline) hlist

end Description

open Description

/-- Equivalent grammars have the same description. It has one line for each left-hand side, the
start symbol's first and the others in increasing order, and on each line stand the written
right-hand sides, in increasing order too. -/
theorem description_canonical :
    (∀ a b : Grammar, a ≈ b → a.description.text = b.description.text) ∧
    (∀ c d : NormalGrammar, c ≈ d → c.description.text = d.description.text) ∧
    (∀ g : Grammar, ∃ lines, Lists g.start g.Alternative lines ∧
      Shows g.start g.nonTerminals g.terminals lines g.description.text) ∧
    ∀ c : NormalGrammar, ∃ lines, Lists c.start c.Alternative lines ∧
      Shows c.start c.nonTerminals c.terminals lines c.description.text := by
  refine ⟨fun a b h => ?_, fun c d h => ?_, fun g => ?_, fun c => ?_⟩
  · rw [Grammar.description_congr h]
  · rw [NormalGrammar.description_congr h]
  · exact ⟨_, g.lists_description, shows_ofRules _ _ _ _⟩
  · exact ⟨_, c.lists_description, shows_ofRules _ _ _ _⟩

namespace NormalGrammar

/-- `S → AA | a | ε` and `A → a`. -/
def outward : NormalGrammar where
  start := .ofChar 'S'
  erasable := true
  rules :=
    { entries :=
        [(.ofChar 'S', .ofList [.pair (.ofChar 'A') (.ofChar 'A'), .terminal (.ofChar 'a')]),
          (.ofChar 'A', .ofList [.terminal (.ofChar 'a')])]
      nodup_keys := by decide }

/-- The same rules in another order, of left-hand sides as well as of alternatives. -/
def inward : NormalGrammar where
  start := .ofChar 'S'
  erasable := true
  rules :=
    { entries :=
        [(.ofChar 'A', .ofList [.terminal (.ofChar 'a')]),
          (.ofChar 'S', .ofList [.terminal (.ofChar 'a'), .pair (.ofChar 'A') (.ofChar 'A')])]
      nodup_keys := by decide }

theorem description_canonical_outward_inward :
    (outward ≈ inward ∧ outward ≠ inward ∧ outward.description.text = inward.description.text) ∧
    (outward.toGrammar ≈ inward.toGrammar ∧ outward.toGrammar ≠ inward.toGrammar ∧
      outward.toGrammar.description.text = inward.toGrammar.description.text) ∧
    blockLines outward.description.text = ["  S → AA | a | ε".toList, "  A → a".toList] ∧
      readRow "  S → AA | a | ε".toList =
        ("S".toList, ["AA".toList, "a".toList, "ε".toList]) := by
  have htyped : outward ≈ inward := by decide
  have hgrammar : outward.toGrammar ≈ inward.toGrammar := by decide
  obtain ⟨lines, hlists, hshows⟩ := description_canonical.2.2.2 outward
  obtain rfl : lines = [(.ofChar 'S', ["AA".toList, "a".toList, "ε".toList]),
      (.ofChar 'A', ["a".toList])] :=
    (hlists.unique outward.lists_description).trans (by cbv)
  refine ⟨⟨htyped, by decide, description_canonical.2.1 _ _ htyped⟩, ⟨hgrammar, by decide,
    description_canonical.1 _ _ hgrammar⟩, ?_, ?_⟩
  · exact (hshows.blockLines_eq_iff.mpr (by decide)).trans (by decide)
  · exact hshows.readRow_row _ List.mem_cons_self (by decide) (by decide)

end NormalGrammar

namespace Grammar

/-- `S → a`, where a line break and what looks like another line belong to the name of `a`. -/
def broken : Grammar where
  nonTerminals := .ofList [.ofChar 'S']
  terminals := .ofList [⟨"a\n  S → b".toList, by decide⟩]
  start := .ofChar 'S'
  productions := .ofList [⟨.ofChar 'S', [.terminal ⟨"a\n  S → b".toList, by decide⟩]⟩]

/-- `S → b`, where a bar between spaces belongs to the name of `b`. -/
def barred : Grammar where
  nonTerminals := .ofList [.ofChar 'S']
  terminals := .ofList [⟨"b | a".toList, by decide⟩]
  start := .ofChar 'S'
  productions := .ofList [⟨.ofChar 'S', [.terminal ⟨"b | a".toList, by decide⟩]⟩]

/-- The block of a valid grammar can have two lines for one left-hand side, and a line on which
there seem to be alternatives that are neither in order nor right-hand sides. -/
theorem not_canonical_broken_barred :
    (broken.Valid ∧
      blockLines broken.description.text = ["  S → a".toList, "  S → b".toList] ∧
      ¬ ∃ lines, Lists broken.start broken.Alternative lines ∧
        blockLines broken.description.text = lines.map row) ∧
    barred.Valid ∧
      (blockLines barred.description.text).map readRow =
        [("S".toList, ["b".toList, "a".toList])] ∧
      ¬ ∃ lines, Lists barred.start barred.Alternative lines ∧
        (blockLines barred.description.text).map readRow =
          lines.map fun line => (line.1.chars, line.2) := by
  have hbroken : blockLines broken.description.text = ["  S → a".toList, "  S → b".toList] := by
    have hsplit : (broken.description.lines.flatMap fun line => (row line).splitOn '\n') =
        ["  S → a".toList, "  S → b".toList] := by cbv
    rw [text_eq_layout, blockLines_layout (by rw [hsplit]; decide), hsplit]
  have hbarred : (blockLines barred.description.text).map readRow =
        [("S".toList, ["b".toList, "a".toList])] := by
    have hsplit : (barred.description.lines.flatMap fun line => (row line).splitOn '\n') =
        ["  S → b | a".toList] := by cbv
    rw [text_eq_layout, blockLines_layout (by rw [hsplit]; decide), hsplit]
    decide
  refine ⟨⟨validate_eq_ok_iff.mp rfl, hbroken, ?_⟩, validate_eq_ok_iff.mp rfl, hbarred, ?_⟩
  · rintro ⟨lines, hlists, hlines⟩
    have hdescription : broken.description.lines =
        [(.ofChar 'S', ["a\n  S → b".toList])] := by cbv
    rw [hbroken, hlists.unique broken.lists_description, hdescription] at hlines
    exact absurd hlines (by decide)
  · rintro ⟨lines, hlists, hlines⟩
    have hdescription : barred.description.lines =
        [(.ofChar 'S', ["b | a".toList])] := by cbv
    rw [hbarred, hlists.unique barred.lists_description, hdescription] at hlines
    exact absurd hlines (by decide)

end Grammar

/-! ## Legible grammars -/

theorem Word.of_mem_text {w : Word} {c : Char} (hc : c ∈ w.text) :
    c ∈ ['ε', ' '] ∨ ∃ x ∈ w, c ∈ x.name.chars := by
  by_cases hnil : w = []
  · subst hnil
    exact Or.inl (List.mem_append_left [' '] hc)
  by_cases hshort : w.IsShort
  · rw [text_of_isShort hnil hshort] at hc
    exact Or.inr (List.mem_flatMap.mp hc)
  · rw [text_of_not_isShort hshort] at hc
    by_cases hblank : c = ' '
    · exact Or.inl (by simp [hblank])
    · rw [Text.mem_intercalate (by simpa using hblank)] at hc
      simpa using Or.inr hc

namespace Description

theorem not_infix_of_not_mem {t : Text} {c : Char} (hblank : c ≠ ' ') (hc : c ∉ t) :
    ¬ [' ', c, ' '] <:+: t ++ [' ', c] := by
  rintro ⟨before, after, heq⟩
  rcases List.eq_nil_or_concat' after with rfl | ⟨after, d, rfl⟩
  · have hlast := congrArg List.getLast? heq
    simp at hlast
    exact hblank hlast.symm
  · have hinit := congrArg List.dropLast heq
    have hmem : c ∈ t ++ [' '] := by
      rw [← List.append_assoc, List.dropLast_concat, List.append_cons t ' ' [c],
        List.dropLast_concat] at hinit
      rw [← hinit]
      simp
    simp [hc, hblank] at hmem

end Description

namespace Grammar

variable {g : Grammar}

/-- The description of a legible grammar can be read line by line. -/
theorem Legible.map_readRow_blockLines (hl : g.Legible) (hg : g.Consistent) :
    (blockLines g.description.text).map readRow =
      g.description.lines.map fun line => (line.1.chars, line.2) := by
  have hshows : Shows g.start g.nonTerminals g.terminals g.description.lines g.description.text :=
    shows_ofRules _ _ _ _
  have hhead : ∀ line ∈ g.description.lines, ∀ c ∈ line.1.chars, Outline.MayNameHead c := by
    intro line hline
    obtain ⟨t, w, hp, _⟩ := (g.lists_description.mem_heads_iff line.1).mp
      (List.mem_map_of_mem hline)
    exact hl.heads line.1 (mem_heads.mpr ⟨_, hp, rfl⟩)
  have hlist : ∀ line ∈ g.description.lines, ∀ t ∈ line.2, ∀ c ∈ t,
      c ∈ ['ε', ' '] ∨ Outline.MayNameSymbol c := by
    intro line hline t ht c hc
    obtain ⟨w, hp, rfl⟩ := (g.lists_description.mem_alternatives_iff line hline t).mp ht
    refine (Word.of_mem_text hc).imp_right ?_
    rintro ⟨x, hx, hc⟩
    exact hl.mayNameSymbol (hg.2 _ hp x (List.mem_cons_of_mem _ hx)) c hc
  have hlines : blockLines g.description.text = g.description.lines.map row := by
    refine hshows.blockLines_eq_iff.mpr fun line hline => ⟨fun hc => ?_, fun t ht hc => ?_⟩
    · exact absurd (hhead line hline _ hc) (by decide)
    · exact absurd (hlist line hline t ht _ hc) (by decide)
  rw [hlines, List.map_map]
  refine List.map_congr_left fun line hline => hshows.readRow_row line hline ?_ fun t ht => ?_
  · exact not_infix_of_not_mem (by decide) fun hc => absurd (hhead line hline _ hc) (by decide)
  · exact not_infix_of_not_mem (by decide) fun hc => absurd (hlist line hline t ht _ hc) (by decide)

end Grammar

end ContextFree
