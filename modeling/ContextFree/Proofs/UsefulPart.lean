import Mathlib
import ContextFree.Proofs.Useful

/-!
# What is useful, and nothing else

A grammar whose non-productive symbols are dropped first and whose inaccessible symbols are dropped
after that keeps just what takes part in the derivation of some sentence: non-terminals, productions
and terminals alike (`usefulPart_exact`). On the way from the start symbol to a sentence all symbols
are productive, so that the whole way stays within the productive part, where they are accessible.

A symbol that is productive and accessible need not be useful: the words that it comes up in may all
contain a symbol that is not productive. So the passes do not come to the same in the other order
(`usefulPart_exact_barren`).
-/

namespace ContextFree

namespace Grammar

def usefulPart (g : Grammar) : Grammar := g.productivePart.accessiblePart

variable {g : Grammar}

theorem Consistent.productivePart (hg : g.Consistent) : g.productivePart.Consistent :=
  hg.restrict _

theorem Consistent.usefulPart (hg : g.Consistent) : g.usefulPart.Consistent :=
  hg.productivePart.restrict _

theorem derives_of_usefulPart {v w : Word} (hd : g.usefulPart.Derives v w) : g.Derives v w :=
  derives_of_restrict (derives_of_restrict hd)

theorem mem_productions_of_usefulPart {p : Production} (hp : p ∈ g.usefulPart.productions) :
    p ∈ g.productions :=
  (mem_productions_productivePart.mp (mem_productions_accessiblePart.mp hp).1).1

theorem Consistent.useful_usefulPart (hg : g.Consistent) {A : Name}
    (hA : A ∈ g.usefulPart.nonTerminals) : g.usefulPart.Useful A :=
  useful_of_mem_accessiblePart hg.productivePart (fun _ => exists_generates_of_mem_productivePart)
    hA

theorem Consistent.uses_usefulPart (hg : g.Consistent) {p : Production}
    (hp : p ∈ g.usefulPart.productions) : g.usefulPart.Uses p := by
  refine (hg.useful_usefulPart (hg.usefulPart.lhs_mem hp)).uses hp (exists_yields fun B hB => ?_)
  exact exists_generates_of_mem_accessiblePart hg.productivePart
    (fun _ => exists_generates_of_mem_productivePart) (hg.usefulPart.declares_of_mem_rhs hp hB)

/-! ## On the way to a sentence -/

theorem mem_productive_of_derives {w : Word} {u : Sentence} (hu : g.Derives w (u.map .terminal))
    {A : Name} (hA : .nonTerminal A ∈ w) : A ∈ g.productive :=
  mem_productive_iff.mpr ((derives_map_iff.mp hu).exists_generates hA)

theorem Consistent.mem_accessible_productivePart (hg : g.Consistent) {w : Word} {u : Sentence}
    (hd : g.Derives [.nonTerminal g.start] w) (hu : g.Derives w (u.map .terminal)) :
    ∀ x ∈ w, x ∈ g.productivePart.accessible := by
  have hlang : g.Language u := hd.trans hu
  have hstart : g.productivePart.DeclaresStart := mem_nonTerminals_restrict.mpr
    ⟨hg.mem_nonTerminals_of_generates hlang, decide_eq_true (mem_productive_iff.mpr ⟨u, hlang⟩)⟩
  have hproductive : g.productivePart.Derives [.nonTerminal g.start] w :=
    hd.productivePart fun _ => mem_productive_of_derives hu
  intro x hx
  obtain ⟨pre, post, rfl⟩ := List.append_of_mem hx
  exact hg.productivePart.mem_accessible_iff.mpr ⟨hstart, pre, post, hproductive⟩

/-! ## What is kept -/

theorem Consistent.mem_nonTerminals_usefulPart_iff (hg : g.Consistent) {A : Name} :
    A ∈ g.usefulPart.nonTerminals ↔ g.Useful A := by
  constructor
  · intro hA
    obtain ⟨pre, post, u, hd, hu⟩ := hg.useful_usefulPart hA
    exact ⟨pre, post, u, derives_of_usefulPart hd, derives_of_usefulPart hu⟩
  · rintro ⟨pre, post, u, hd, hu⟩
    have hmem : Symbol.nonTerminal A ∈ pre ++ .nonTerminal A :: post :=
      List.mem_append_right pre List.mem_cons_self
    obtain ⟨v, hv⟩ := (derives_map_iff.mp hu).exists_generates hmem
    have hproductive : A ∈ g.productivePart.nonTerminals := mem_nonTerminals_restrict.mpr
      ⟨hg.mem_nonTerminals_of_generates hv, decide_eq_true (mem_productive_of_derives hu hmem)⟩
    exact mem_nonTerminals_accessiblePart.mpr
      ⟨hproductive, hg.mem_accessible_productivePart hd hu _ hmem⟩

theorem Consistent.mem_productions_usefulPart_iff (hg : g.Consistent) {p : Production} :
    p ∈ g.usefulPart.productions ↔ g.Uses p := by
  constructor
  · intro hp
    obtain ⟨_, pre, post, u, hd, hu⟩ := hg.uses_usefulPart hp
    exact ⟨mem_productions_of_usefulPart hp, pre, post, u, derives_of_usefulPart hd,
      derives_of_usefulPart hu⟩
  · intro huse
    obtain ⟨_, haccessible⟩ := mem_nonTerminals_accessiblePart.mp
      (hg.mem_nonTerminals_usefulPart_iff.mpr huse.useful)
    obtain ⟨pre, post, u, hd, hu⟩ := huse.derives_start
    have hmem : ∀ x ∈ p.rhs, x ∈ pre ++ p.rhs ++ post := fun x hx =>
      List.mem_append_left post (List.mem_append_right pre hx)
    have hrhs : ∀ A, .nonTerminal A ∈ p.rhs → A ∈ g.productive := fun A hA =>
      mem_productive_of_derives hu (hmem _ hA)
    have hlhs : p.lhs ∈ g.productive :=
      lhs_mem_generating huse.1 (all_covers_iff.mpr ⟨fun _ _ => rfl, hrhs⟩)
    exact mem_productions_accessiblePart.mpr
      ⟨mem_productions_productivePart.mpr ⟨huse.1, hlhs, hrhs⟩, haccessible,
        fun A hA => hg.mem_accessible_productivePart hd hu _ (hmem _ hA)⟩

theorem Consistent.language_usefulPart_iff (hg : g.Consistent) {u : Sentence} :
    g.usefulPart.Language u ↔ g.Language u :=
  hg.productivePart.language_accessiblePart_iff.trans generates_productivePart_iff

theorem Consistent.mem_terminals_usefulPart_iff (hg : g.Consistent) {a : Name} :
    a ∈ g.usefulPart.terminals ↔ ∃ u, g.Language u ∧ a ∈ u := by
  have hown : a ∈ g.usefulPart.terminals ↔ ∃ u, g.usefulPart.Language u ∧ a ∈ u :=
    mem_terminals_accessiblePart_iff hg.productivePart
      fun _ => exists_generates_of_mem_productivePart
  rw [hown]
  exact exists_congr fun u => and_congr_left' hg.language_usefulPart_iff

/-- Dropping symbols does not change the order of what stays. -/
theorem sublist_restrict (g : Grammar) (keep : Name → Bool) :
    (g.restrict keep).nonTerminals.toList.Sublist g.nonTerminals.toList ∧
      (g.restrict keep).terminals.toList.Sublist g.terminals.toList ∧
      (g.restrict keep).productions.toList.Sublist g.productions.toList := by
  simp only [restrict, terminalsIn, OrderedSet.toList_filter]
  exact ⟨List.filter_sublist, List.filter_sublist, List.filter_sublist⟩

/-- Of a valid grammar those non-terminals stay that lie on the way from the start symbol to a
sentence, those productions that are applied on such a way, and those terminals that occur in
sentences of the language. Nothing else does, and all that stays keeps its order. -/
theorem usefulPart_exact (hg : g.Valid) :
    (∀ A, A ∈ g.usefulPart.nonTerminals ↔ A ∈ g.nonTerminals ∧ g.Useful A) ∧
      (∀ p, p ∈ g.usefulPart.productions ↔ g.Uses p) ∧
      (∀ a, a ∈ g.usefulPart.terminals ↔ ∃ u, g.Language u ∧ a ∈ u) ∧
      g.usefulPart.start = g.start ∧
      g.usefulPart.nonTerminals.toList.Sublist g.nonTerminals.toList ∧
      g.usefulPart.terminals.toList.Sublist g.terminals.toList ∧
      g.usefulPart.productions.toList.Sublist g.productions.toList := by
  obtain ⟨hN, hT, hP⟩ := g.productivePart.sublist_restrict _
  obtain ⟨hN', hT', hP'⟩ := g.sublist_restrict _
  refine ⟨fun A => ?_, fun _ => hg.2.mem_productions_usefulPart_iff,
    fun _ => hg.2.mem_terminals_usefulPart_iff, rfl, hN.trans hN', hT.trans hT', hP.trans hP'⟩
  rw [← hg.2.mem_nonTerminals_usefulPart_iff]
  exact ⟨fun hA => ⟨(hN.trans hN').subset hA, hA⟩, fun hA => hA.2⟩

/-- `S → AB | b`, `A → a` and `B → BB`: whatever `A` comes up in, `B` does too. -/
def barren : Grammar where
  nonTerminals := .ofList [.ofChar 'S', .ofChar 'A', .ofChar 'B']
  terminals := .ofList [.ofChar 'a', .ofChar 'b']
  start := .ofChar 'S'
  productions := .ofList
    [⟨.ofChar 'S', [.nonTerminal (.ofChar 'A'), .nonTerminal (.ofChar 'B')]⟩,
      ⟨.ofChar 'S', [.terminal (.ofChar 'b')]⟩,
      ⟨.ofChar 'A', [.terminal (.ofChar 'a')]⟩,
      ⟨.ofChar 'B', [.nonTerminal (.ofChar 'B'), .nonTerminal (.ofChar 'B')]⟩]

theorem valid_barren : barren.Valid := validate_eq_ok_iff.mp rfl

theorem usefulPart_exact_barren : barren.Valid ∧
    .ofChar 'A' ∈ barren.productive ∧ .nonTerminal (.ofChar 'A') ∈ barren.accessible ∧
      ¬ barren.Useful (.ofChar 'A') ∧
      .ofChar 'A' ∈ barren.accessiblePart.productivePart.nonTerminals ∧
      .ofChar 'A' ∉ barren.usefulPart.nonTerminals ∧
      ⟨.ofChar 'S', [.terminal (.ofChar 'b')]⟩ ∈ barren.usefulPart.productions := by
  obtain ⟨hN, hP, _⟩ := usefulPart_exact valid_barren
  have hproductive : barren.productive.contains (.ofChar 'A') = true := by cbv
  have haccessible : barren.accessible.contains (.nonTerminal (.ofChar 'A')) = true := by cbv
  have hstays :
      barren.accessiblePart.productivePart.nonTerminals.contains (.ofChar 'A') = true := by cbv
  have hgoes : barren.usefulPart.nonTerminals.contains (.ofChar 'A') = false := by cbv
  have hused : barren.Uses ⟨.ofChar 'S', [.terminal (.ofChar 'b')]⟩ :=
    ⟨by decide, [], [], [.ofChar 'b'], .refl, .refl⟩
  have hdeclared : .ofChar 'A' ∈ barren.nonTerminals := by simp [barren]
  have hnot : .ofChar 'A' ∉ barren.usefulPart.nonTerminals := fun hA =>
    Bool.false_ne_true (hgoes.symm.trans (OrderedSet.contains_iff.mpr hA))
  exact ⟨valid_barren, OrderedSet.contains_iff.mp hproductive,
    OrderedSet.contains_iff.mp haccessible, fun huse => hnot ((hN _).mpr ⟨hdeclared, huse⟩),
    OrderedSet.contains_iff.mp hstays, hnot, (hP _).mpr hused⟩

end Grammar

end ContextFree
