import ContextFree.Useful
import ContextFree.Proofs.Exploration
import ContextFree.Proofs.Generating

/-!
# Dropping useless symbols

The productive part of a grammar derives the same sentences from every non-terminal, and the
accessible part of a consistent grammar does so from all that is accessible. When the second follows
the first, each non-terminal that is left is useful and each terminal occurs in a sentence of the
language (`useful_of_mem_accessiblePart`, `mem_terminals_accessiblePart_iff`).
-/

namespace ContextFree

namespace Grammar

variable {g : Grammar} {keep : Name → Bool}

theorem mem_nonTerminals_restrict {A : Name} :
    A ∈ (g.restrict keep).nonTerminals ↔ A ∈ g.nonTerminals ∧ keep A = true :=
  OrderedSet.mem_filter

theorem mem_terminals_restrict {a : Name} : a ∈ (g.restrict keep).terminals ↔
    a ∈ g.terminals ∧ ∃ p ∈ (g.restrict keep).productions, .terminal a ∈ p.rhs :=
  mem_terminalsIn

theorem derives_of_restrict {v w : Word} (hd : (g.restrict keep).Derives v w) : g.Derives v w :=
  hd.mono fun _ hp => (mem_productions_restrict.mp hp).1

theorem Consistent.restrict (hg : g.Consistent) (keep : Name → Bool) :
    (g.restrict keep).Consistent := by
  constructor
  · intro a ha hA
    exact hg.1 a (mem_terminals_restrict.mp ha).1 (mem_nonTerminals_restrict.mp hA).1
  · intro p hp x hx
    obtain ⟨hmem, hlhs, hrhs⟩ := mem_productions_restrict.mp hp
    have hdecl := hg.2 p hmem x hx
    rcases List.mem_cons.mp hx with rfl | hx
    · exact mem_nonTerminals_restrict.mpr ⟨hdecl, hlhs⟩
    · cases x with
      | terminal a => exact mem_terminals_restrict.mpr ⟨hdecl, p, hp, hx⟩
      | nonTerminal A => exact mem_nonTerminals_restrict.mpr ⟨hdecl, hrhs A hx⟩

/-! ## The productive part -/

theorem mem_productions_productivePart {p : Production} :
    p ∈ g.productivePart.productions ↔ p ∈ g.productions ∧ p.lhs ∈ g.productive ∧
      ∀ A, .nonTerminal A ∈ p.rhs → A ∈ g.productive := by
  simp [productivePart, mem_productions_restrict]

theorem Derives.productivePart {v w : Word} (hd : g.Derives v w)
    (hw : ∀ A, .nonTerminal A ∈ w → A ∈ g.productive) :
    g.productivePart.Derives v w := by
  -- From the end of the derivation back: where the word after a step is productive, so is the
  -- word before it.
  induction hd with
  | refl => exact .refl
  | step _ hp ih =>
      cases hp with
      | @intro pre p hp post =>
          have hrhs : ∀ A, .nonTerminal A ∈ p.rhs → A ∈ g.productive := fun A hA =>
            hw A (List.mem_append_left post (List.mem_append_right pre hA))
          have hlhs : p.lhs ∈ g.productive :=
            lhs_mem_generating hp (all_covers_iff.mpr ⟨fun _ _ => rfl, hrhs⟩)
          have hmem := mem_productions_productivePart.mpr ⟨hp, hlhs, hrhs⟩
          refine (ih fun A hA => ?_).step (.intro pre hmem post)
          rcases List.mem_append.mp hA with hA | hA
          · exact hw A (List.mem_append_left post (List.mem_append_left p.rhs hA))
          · rcases List.mem_cons.mp hA with heq | hA
            · cases heq
              exact hlhs
            · exact hw A (List.mem_append_right _ hA)

theorem generates_productivePart_iff {A : Name} {u : Sentence} :
    g.productivePart.Generates A u ↔ g.Generates A u := by
  constructor
  · exact derives_of_restrict
  · exact fun hgen => Derives.productivePart hgen fun B hB => by simp at hB

theorem exists_generates_of_mem_productivePart {A : Name}
    (hA : A ∈ g.productivePart.nonTerminals) : ∃ u, g.productivePart.Generates A u := by
  have hkeep := of_decide_eq_true (mem_nonTerminals_restrict.mp hA).2
  obtain ⟨u, hu⟩ := mem_productive_iff.mp hkeep
  exact ⟨u, generates_productivePart_iff.mpr hu⟩

/-! ## The accessible part -/

theorem Index.mem_successors_iff (index : g.Index) {x y : Symbol} : y ∈ index.successors x ↔
    ∃ p ∈ g.productions, .nonTerminal p.lhs = x ∧ y ∈ p.rhs ∧ g.Declares y := by
  cases x with
  | terminal a => simp [successors]
  | nonTerminal A =>
      simp only [successors, List.mem_filter, List.mem_flatMap, productionsOf_eq,
        mem_productionsOf, decide_eq_true_eq, Symbol.nonTerminal.injEq]
      constructor
      · rintro ⟨⟨p, ⟨hp, hlhs⟩, hrhs⟩, hdecl⟩
        exact ⟨p, hp, hlhs, hrhs, hdecl⟩
      · rintro ⟨p, hp, hlhs, hrhs, hdecl⟩
        exact ⟨⟨p, ⟨hp, hlhs⟩, hrhs⟩, hdecl⟩

theorem mem_accessible_iff_chain {x : Symbol} : x ∈ g.accessible ↔ g.DeclaresStart ∧
    Relation.ReflTransGen (fun x y => y ∈ g.index.successors x) (.nonTerminal g.start) x := by
  unfold accessible
  rw [OrderedSet.mem_reachable_iff, declaredStart]
  split
  · rename_i hstart
    simp [hstart]
  · rename_i hstart
    simp [hstart, OrderedSet.not_mem_empty]

theorem start_mem_accessible (hstart : g.DeclaresStart) : .nonTerminal g.start ∈ g.accessible :=
  mem_accessible_iff_chain.mpr ⟨hstart, .refl⟩

theorem reaches_of_mem_accessible {x : Symbol} (hx : x ∈ g.accessible) : g.Reaches x := by
  obtain ⟨_, hchain⟩ := mem_accessible_iff_chain.mp hx
  induction hchain with
  | refl => exact g.reaches_start
  | tail hchain hnext ih =>
      obtain ⟨p, hp, rfl, hrhs, _⟩ := g.index.mem_successors_iff.mp hnext
      exact (ih (mem_accessible_iff_chain.mpr ⟨‹_›, hchain⟩)).of_production hp hrhs

theorem Consistent.rhs_mem_accessible (hg : g.Consistent) {p : Production}
    (hp : p ∈ g.productions) (hlhs : .nonTerminal p.lhs ∈ g.accessible) :
    ∀ x ∈ p.rhs, x ∈ g.accessible := by
  intro x hx
  obtain ⟨hstart, hchain⟩ := mem_accessible_iff_chain.mp hlhs
  have hnext := g.index.mem_successors_iff.mpr ⟨p, hp, rfl, hx, hg.declares_of_mem_rhs hp hx⟩
  exact mem_accessible_iff_chain.mpr ⟨hstart, hchain.tail hnext⟩

theorem Consistent.mem_accessible_iff (hg : g.Consistent) {x : Symbol} :
    x ∈ g.accessible ↔ g.DeclaresStart ∧ g.Reaches x := by
  constructor
  · exact fun hx => ⟨(mem_accessible_iff_chain.mp hx).1, reaches_of_mem_accessible hx⟩
  · rintro ⟨hstart, pre, post, hd⟩
    have hall := hd.forall_mem (motive := (· ∈ g.accessible))
      (fun p hp hlhs => hg.rhs_mem_accessible hp hlhs)
      (List.forall_mem_singleton.mpr (start_mem_accessible hstart))
    exact hall x (List.mem_append_right pre List.mem_cons_self)

theorem mem_nonTerminals_accessiblePart {A : Name} : A ∈ g.accessiblePart.nonTerminals ↔
    A ∈ g.nonTerminals ∧ .nonTerminal A ∈ g.accessible := by
  simp [accessiblePart, mem_nonTerminals_restrict]

theorem mem_productions_accessiblePart {p : Production} :
    p ∈ g.accessiblePart.productions ↔ p ∈ g.productions ∧ .nonTerminal p.lhs ∈ g.accessible ∧
      ∀ A, .nonTerminal A ∈ p.rhs → .nonTerminal A ∈ g.accessible := by
  simp [accessiblePart, mem_productions_restrict]

/-- What begins with accessible symbols goes on with accessible symbols. -/
theorem Consistent.derives_accessiblePart (hg : g.Consistent) {v w : Word} (hd : g.Derives v w)
    (hv : ∀ x ∈ v, x ∈ g.accessible) : g.accessiblePart.Derives v w := by
  refine hd.of_closed (motive := (· ∈ g.accessible)) (fun p hp hlhs => ?_) hv
  have hrhs := hg.rhs_mem_accessible hp hlhs
  exact ⟨mem_productions_accessiblePart.mpr ⟨hp, hlhs, fun A hA => hrhs _ hA⟩, hrhs⟩

theorem Consistent.generates_accessiblePart_iff (hg : g.Consistent) {A : Name}
    (hA : .nonTerminal A ∈ g.accessible) {u : Sentence} :
    g.accessiblePart.Generates A u ↔ g.Generates A u :=
  ⟨derives_of_restrict, fun hgen =>
    hg.derives_accessiblePart hgen (List.forall_mem_singleton.mpr hA)⟩

theorem Consistent.language_accessiblePart_iff (hg : g.Consistent) {u : Sentence} :
    g.accessiblePart.Language u ↔ g.Language u := by
  constructor
  · exact derives_of_restrict
  · intro hlang
    -- A start symbol that is not declared derives nothing.
    have hstart : g.DeclaresStart := hg.mem_nonTerminals_of_generates hlang
    exact (hg.generates_accessiblePart_iff (start_mem_accessible hstart)).mpr hlang

theorem Consistent.reaches_accessiblePart (hg : g.Consistent) {A : Name}
    (hA : A ∈ g.accessiblePart.nonTerminals) : g.accessiblePart.Reaches (.nonTerminal A) := by
  obtain ⟨_, hacc⟩ := mem_nonTerminals_accessiblePart.mp hA
  obtain ⟨hstart, pre, post, hd⟩ := hg.mem_accessible_iff.mp hacc
  exact ⟨pre, post, hg.derives_accessiblePart hd
    (List.forall_mem_singleton.mpr (start_mem_accessible hstart))⟩

/-! ## One after the other -/

section

variable (hg : g.Consistent) (hproductive : ∀ A ∈ g.nonTerminals, ∃ u, g.Generates A u)

include hg hproductive

theorem exists_generates_of_mem_accessiblePart {A : Name}
    (hA : A ∈ g.accessiblePart.nonTerminals) : ∃ u, g.accessiblePart.Generates A u := by
  obtain ⟨hmem, hacc⟩ := mem_nonTerminals_accessiblePart.mp hA
  obtain ⟨u, hu⟩ := hproductive A hmem
  exact ⟨u, (hg.generates_accessiblePart_iff hacc).mpr hu⟩

theorem useful_of_mem_accessiblePart {A : Name} (hA : A ∈ g.accessiblePart.nonTerminals) :
    g.accessiblePart.Useful A := by
  have hstart : g.accessiblePart.start ∈ g.accessiblePart.nonTerminals := by
    have hdecl := (hg.mem_accessible_iff.mp (mem_nonTerminals_accessiblePart.mp hA).2).1
    exact mem_nonTerminals_accessiblePart.mpr ⟨hdecl, start_mem_accessible hdecl⟩
  refine (hg.reaches_accessiblePart hA).useful fun B hB => ?_
  obtain ⟨pre, post, hd⟩ := hB
  have hdecl := (hg.restrict _).declares_of_derives hd
    (List.forall_mem_singleton.mpr hstart) _ (List.mem_append_right pre List.mem_cons_self)
  exact exists_generates_of_mem_accessiblePart hg hproductive hdecl

theorem mem_terminals_accessiblePart_iff {a : Name} :
    a ∈ g.accessiblePart.terminals ↔ ∃ u, g.accessiblePart.Language u ∧ a ∈ u := by
  have hpart : g.accessiblePart.Consistent := hg.restrict _
  constructor
  · intro ha
    obtain ⟨_, p, hp, hap⟩ := mem_terminals_restrict.mp ha
    have huse := useful_of_mem_accessiblePart hg hproductive (hpart.lhs_mem hp)
    refine huse.exists_language hp (exists_yields fun B hB => ?_) hap
    exact exists_generates_of_mem_accessiblePart hg hproductive (hpart.declares_of_mem_rhs hp hB)
  · rintro ⟨u, hu, ha⟩
    exact hpart.mem_terminals_of_generates hu ha

end

end Grammar

end ContextFree
