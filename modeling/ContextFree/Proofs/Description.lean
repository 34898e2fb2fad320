import Mathlib.Data.List.Sort
import ContextFree.Proofs.NormalGrammar

/-!
# Descriptions and the order of sets

The block of productions in a description has one line for each left-hand side, and the lines and
their alternatives stand in a strict order. So the block is settled by which alternatives there are
(`Lists.unique`), and equivalent grammars have the same description.
-/

namespace ContextFree

namespace Description

/-! ## Strict orders -/

/-- Where nothing is repeated, a list comes out of sorting in strict order. -/
theorem pairwise_mergeSort_of_nodup {α : Type} {le : α → α → Bool} {lt : α → α → Prop} {l : List α}
    (htrans : ∀ a b c, le a b = true → le b c = true → le a c = true)
    (htotal : ∀ a b, (le a b || le b a) = true) (hstrict : ∀ a b, le a b = true → a ≠ b → lt a b)
    (hl : l.Nodup) : (l.mergeSort le).Pairwise lt :=
  (List.pairwise_mergeSort htrans htotal l).imp₂ hstrict
    ((List.mergeSort_perm l le).nodup_iff.mpr hl)

/-- The start symbol comes before all other names, and these follow in their order. -/
def Precedes (start A B : Name) : Prop := B ≠ start ∧ (A = start ∨ A < B)

instance (start : Name) : Std.Asymm (Precedes start) where
  asymm A B := by
    rintro ⟨hB, hAB⟩ ⟨hA, hBA⟩
    exact List.lt_asymm (hAB.resolve_left hA) (hBA.resolve_left hB)

variable {start : Name}

theorem mem_sortFrom {names : List Name} {A : Name} : A ∈ sortFrom start names ↔ A ∈ names :=
  List.mem_mergeSort

theorem pairwise_sortFrom {names : List Name} (hnames : names.Nodup) :
    (sortFrom start names).Pairwise (Precedes start) := by
  refine pairwise_mergeSort_of_nodup ?_ ?_ ?_ hnames
  · intro A B C hAB hBC
    refine decide_eq_true ?_
    rcases of_decide_eq_true hAB with hA | ⟨hB, hAB⟩
    · exact Or.inl hA
    · obtain ⟨hC, hBC⟩ := (of_decide_eq_true hBC).resolve_left hB
      exact Or.inr ⟨hC, Std.le_trans hAB hBC⟩
  · intro A B
    by_cases hA : A = start
    · simp [hA]
    by_cases hB : B = start
    · simp [hB]
    · simpa [hA, hB] using Std.le_total (a := A) (b := B)
  · intro A B hle hne
    rcases of_decide_eq_true hle with rfl | ⟨hB, hle⟩
    · exact ⟨Ne.symm hne, Or.inl rfl⟩
    · exact ⟨hB, Or.inr (Std.lt_of_le_of_ne hle hne)⟩

theorem pairwise_mergeSort_names {names : List Name} (hnames : names.Nodup) :
    (names.mergeSort fun a b => decide (a ≤ b)).Pairwise (· < ·) := by
  refine pairwise_mergeSort_of_nodup ?_ ?_ ?_ hnames
  · intro a b c hab hbc
    exact decide_eq_true (Std.le_trans (of_decide_eq_true hab) (of_decide_eq_true hbc))
  · intro a b
    simpa using Std.le_total (a := a) (b := b)
  · intro a b hle hne
    exact Std.lt_of_le_of_ne (of_decide_eq_true hle) hne

theorem pairwise_sortAlternatives (texts : List Text) :
    (sortAlternatives texts).Pairwise (· < ·) := by
  have hle : ∀ {t u : Text}, (!decide (u < t)) = true ↔ ¬ u < t := by
    simp only [Bool.not_eq_true', decide_eq_false_iff_not, implies_true]
  refine pairwise_mergeSort_of_nodup ?_ ?_ ?_ (OrderedSet.ofList texts).nodup
  · intro t u v htu huv
    exact hle.mpr (List.le_trans (hle.mp htu) (hle.mp huv))
  · intro t u
    exact Bool.or_eq_true_iff.mpr ((List.le_total t u).imp hle.mpr hle.mpr)
  · intro t u htu hne
    exact Decidable.byContradiction fun hut => hne (List.le_antisymm (hle.mp htu) hut)

theorem mem_sortAlternatives {texts : List Text} {t : Text} :
    t ∈ sortAlternatives texts ↔ t ∈ texts := by
  rw [sortAlternatives, List.mem_mergeSort, OrderedSet.mem_toList, OrderedSet.mem_ofList]

/-! ## The lines of a block -/

/-- The lines give the alternatives of each left-hand side: one line for every left-hand side that
has any, the start symbol's first, and on it the alternatives in increasing order. -/
structure Lists (start : Name) (alternative : Name → Text → Prop)
    (lines : List (Name × List Text)) : Prop where
  mem_heads_iff : ∀ A, A ∈ lines.map Prod.fst ↔ ∃ t, alternative A t
  pairwise_heads : (lines.map Prod.fst).Pairwise (Precedes start)
  mem_alternatives_iff : ∀ line ∈ lines, ∀ t, t ∈ line.2 ↔ alternative line.1 t
  pairwise_alternatives : ∀ line ∈ lines, line.2.Pairwise (· < ·)

theorem eq_of_map_fst_eq {κ ν : Type} {l m : List (κ × ν)} (hkeys : l.map Prod.fst = m.map Prod.fst)
    (hvalues : ∀ e ∈ l, ∀ f ∈ m, e.1 = f.1 → e.2 = f.2) : l = m := by
  induction l generalizing m with
  | nil => exact (List.map_eq_nil_iff.mp hkeys.symm).symm
  | cons e l ih =>
      cases m with
      | nil => exact absurd hkeys (List.cons_ne_nil _ _)
      | cons f m =>
          obtain ⟨hkey, hkeys⟩ := List.cons.inj hkeys
          have hhead : e = f := Prod.ext hkey
            (hvalues e List.mem_cons_self f List.mem_cons_self hkey)
          have htail : l = m := ih hkeys fun e' he' f' hf' =>
            hvalues e' (List.mem_cons_of_mem e he') f' (List.mem_cons_of_mem f hf')
          rw [hhead, htail]

variable {alternative : Name → Text → Prop} {lines lines' : List (Name × List Text)}

theorem Lists.unique (h : Lists start alternative lines) (h' : Lists start alternative lines') :
    lines = lines' := by
  have hheads : lines.map Prod.fst = lines'.map Prod.fst :=
    h.pairwise_heads.eq_of_mem_iff h'.pairwise_heads fun A =>
      (h.mem_heads_iff A).trans (h'.mem_heads_iff A).symm
  refine eq_of_map_fst_eq hheads fun line hline line' hline' heq => ?_
  refine (h.pairwise_alternatives line hline).eq_of_mem_iff
    (h'.pairwise_alternatives line' hline') fun t => ?_
  rw [h.mem_alternatives_iff line hline, h'.mem_alternatives_iff line' hline', heq]

theorem Lists.congr {alternative' : Name → Text → Prop} (h : Lists start alternative lines)
    (hsame : ∀ A t, alternative A t ↔ alternative' A t) : Lists start alternative' lines := by
  obtain rfl : alternative = alternative' := funext fun A => funext fun t => propext (hsame A t)
  exact h

theorem lists_ofRules (start : Name) (N T : OrderedSet Name) (rules : List (Name × Text)) :
    Lists start (fun A t => (A, t) ∈ rules) (ofRules start N T rules).lines := by
  have hheads : (ofRules start N T rules).lines.map Prod.fst =
      sortFrom start (OrderedSet.ofList (rules.map Prod.fst)).toList := by
    simp [ofRules, Function.comp_def]
  refine ⟨fun A => ?_, ?_, fun line hline t => ?_, fun line hline => ?_⟩
  · rw [hheads, mem_sortFrom]
    simp
  · rw [hheads]
    exact pairwise_sortFrom (OrderedSet.nodup _)
  · obtain ⟨A, _, rfl⟩ := List.mem_map.mp hline
    simp [mem_sortAlternatives]
  · obtain ⟨A, _, rfl⟩ := List.mem_map.mp hline
    exact pairwise_sortAlternatives _

/-! ## Descriptions of equivalent parts -/

theorem ofRules_congr {N N' T T' : OrderedSet Name} {rules rules' : List (Name × Text)}
    (hN : N ≈ N') (hT : T ≈ T') (hrules : ∀ r, r ∈ rules ↔ r ∈ rules') :
    ofRules start N T rules = ofRules start N' T' rules' := by
  have hnonTerminals : sortFrom start N.toList = sortFrom start N'.toList :=
    (pairwise_sortFrom N.nodup).eq_of_mem_iff (pairwise_sortFrom N'.nodup) fun A =>
      mem_sortFrom.trans ((hN A).trans mem_sortFrom.symm)
  have hterminals : (T.toList.mergeSort fun a b => decide (a ≤ b)) =
      T'.toList.mergeSort fun a b => decide (a ≤ b) :=
    (pairwise_mergeSort_names T.nodup).eq_of_mem_iff (pairwise_mergeSort_names T'.nodup) fun a =>
      List.mem_mergeSort.trans ((hT a).trans List.mem_mergeSort.symm)
  have hlines : (ofRules start N T rules).lines = (ofRules start N' T' rules').lines :=
    ((lists_ofRules start N T rules).congr fun A t => hrules (A, t)).unique
      (lists_ofRules start N' T' rules')
  simp only [ofRules, mk.injEq] at hlines ⊢
  exact ⟨trivial, hnonTerminals, hterminals, hlines⟩

end Description

open Description

namespace Grammar

/-- The right-hand sides of a left-hand side, as they are written. -/
def Alternative (g : Grammar) (A : Name) (t : Text) : Prop :=
  ∃ w, ⟨A, w⟩ ∈ g.productions ∧ Word.text w = t

theorem mem_writtenRules_iff {ps : List Production} {A : Name} {t : Text} :
    (A, t) ∈ ps.map (fun p => (p.lhs, Word.text p.rhs)) ↔ ∃ w, ⟨A, w⟩ ∈ ps ∧ Word.text w = t := by
  rw [List.mem_map]
  constructor
  · rintro ⟨p, hp, hpair⟩
    obtain ⟨rfl, rfl⟩ := Prod.mk.inj hpair
    exact ⟨p.rhs, hp, rfl⟩
  · rintro ⟨w, hw, rfl⟩
    exact ⟨⟨A, w⟩, hw, rfl⟩

theorem lists_description (g : Grammar) : Lists g.start g.Alternative g.description.lines :=
  (lists_ofRules g.start g.nonTerminals g.terminals _).congr fun _ _ => mem_writtenRules_iff

theorem description_congr {a b : Grammar} (h : a ≈ b) : a.description = b.description := by
  obtain ⟨hstart, hN, hT, hP⟩ := h
  rw [description, description, hstart]
  refine ofRules_congr hN hT fun r => ?_
  rw [mem_writtenRules_iff, mem_writtenRules_iff]
  exact exists_congr fun w => and_congr_left' (hP ⟨r.1, w⟩)

end Grammar

namespace NormalGrammar

/-- The right-hand sides of a left-hand side as they are written, and that of the empty word where
it belongs to the language. -/
def Alternative (c : NormalGrammar) (A : Name) (t : Text) : Prop :=
  (∃ w, ⟨A, w⟩ ∈ c.productions ∧ Word.text w = t) ∨ (c.erasable = true ∧ A = c.start ∧ t = epsilon)

theorem mem_writtenRules_iff {c : NormalGrammar} {A : Name} {t : Text} :
    (A, t) ∈ (c.productions.map (fun p => (p.lhs, Word.text p.rhs)) ++
      if c.erasable then [(c.start, epsilon)] else []) ↔ c.Alternative A t := by
  rw [List.mem_append, Grammar.mem_writtenRules_iff]
  refine or_congr_right ?_
  cases c.erasable <;> simp

theorem lists_description (c : NormalGrammar) :
    Lists c.start c.Alternative c.description.lines :=
  (lists_ofRules c.start c.nonTerminals c.terminals _).congr fun _ _ => mem_writtenRules_iff

theorem mem_productions_congr {c d : NormalGrammar} (h : c ≈ d) {p : Production} :
    p ∈ c.productions ↔ p ∈ d.productions := by
  have hsub : ∀ {l m : List (Name × OrderedSet NormalWord)},
      (∀ e ∈ l, ∃ e' ∈ m, e'.1 = e.1 ∧ e.2 ≈ e'.2) →
        p ∈ l.flatMap (fun e => e.2.toList.map fun w => ⟨e.1, w.toWord⟩) →
          p ∈ m.flatMap fun e => e.2.toList.map fun w => ⟨e.1, w.toWord⟩ := by
    intro l m hentries hp
    obtain ⟨e, he, hp⟩ := List.mem_flatMap.mp hp
    obtain ⟨w, hw, rfl⟩ := List.mem_map.mp hp
    obtain ⟨e', he', hkey, hvalue⟩ := hentries e he
    exact List.mem_flatMap.mpr ⟨e', he', List.mem_map.mpr ⟨w, (hvalue w).mp hw, hkey ▸ rfl⟩⟩
  exact ⟨hsub h.2.2.1, hsub h.2.2.2⟩

theorem description_congr {c d : NormalGrammar} (h : c ≈ d) : c.description = d.description := by
  have hproductions : ∀ p, p ∈ c.productions ↔ p ∈ d.productions := fun _ =>
    mem_productions_congr h
  have hN : c.nonTerminals ≈ d.nonTerminals := fun A => by
    simp only [mem_nonTerminals, hproductions, h.1]
  have hT : c.terminals ≈ d.terminals := fun a => by
    simp only [mem_terminals, hproductions]
  rw [description, description, h.1]
  refine ofRules_congr hN hT fun r => ?_
  rw [← h.1, mem_writtenRules_iff, h.1, mem_writtenRules_iff]
  simp only [Alternative, hproductions, h.1, h.2.1]

end NormalGrammar

end ContextFree
