import Mathlib
import ContextFree.Proofs.Transformation

/-!
# What binary form puts out

A production of a round's output went in and is left as it is, or it brings in a proxy for a
terminal that went in, or it is one pair of a chain (`origin_of_mem_run`), since what a round is
taking apart has no other terminals (`Underway`). So the terminals after binary form are those that
some production used before (`toList_terminals_binaryForm`), and the declared non-terminals derive
what they did without ε-productions (`binaryForm_exact`).
-/

namespace ContextFree

namespace BinaryForm

namespace Round

/-- How a production comes to be put out by a round over the given ones. -/
inductive Origin (ps : List Production) (q : Production) : Prop where
  | kept (hq : q ∈ ps) (hbinary : q.isBinary = true)
  | proxy {p : Production} {a : Name} (hp : p ∈ ps) (ha : .terminal a ∈ p.rhs)
    (hrhs : q.rhs = [.terminal a])
  | pair {B C : Name} (hrhs : q.rhs = [.nonTerminal B, .nonTerminal C])

def Traced (ps : List Production) (r : Round) : Prop := ∀ q ∈ r.output, Origin ps q

variable {ps : List Production} {r : Round}

theorem Traced.emit (h : r.Traced ps) {q : Production} (hq : Origin ps q) :
    (r.emit q).Traced ps :=
  OrderedSet.forall_mem_insert.mpr ⟨h, hq⟩

/-- The production is one of the given ones, or what is left of one that is being taken apart. In
that case it has two symbols at least, and its terminals are among those of the given ones. -/
def Underway (ps : List Production) (p : Production) : Prop :=
  p ∈ ps ∨ 2 ≤ p.rhs.length ∧ ∀ a, .terminal a ∈ p.rhs → ∃ q ∈ ps, .terminal a ∈ q.rhs

theorem Underway.exists_of_terminal {p : Production} (h : Underway ps p) {a : Name}
    (ha : .terminal a ∈ p.rhs) : ∃ q ∈ ps, .terminal a ∈ q.rhs :=
  h.elim (fun hp => ⟨p, hp, ha⟩) fun hrest => hrest.2 a ha

theorem Underway.exchange {A a : Name} {v w : Word}
    (h : Underway ps ⟨A, v ++ .terminal a :: w⟩) (hlength : 2 ≤ (v ++ .terminal a :: w).length)
    (B : Name) : Underway ps ⟨A, v ++ .nonTerminal B :: w⟩ := by
  refine Or.inr ⟨by simpa using hlength, fun b hb => h.exists_of_terminal ?_⟩
  simp only [List.mem_append, List.mem_cons, reduceCtorEq, false_or] at hb ⊢
  exact hb.imp_right Or.inr

theorem Leads.traced {s : Round} {qs : List Production} (hrun : r.Leads qs s) (h : r.Traced ps)
    (hqs : ∀ p ∈ qs, Underway ps p) : s.Traced ps := by
  induction hrun with
  | done r => exact h
  | keep hbinary _ ih =>
      obtain ⟨hp, hqs⟩ := List.forall_mem_cons.mp hqs
      refine ih (h.emit ?_) hqs
      rcases hp with hold | ⟨hlength, _⟩
      · exact .kept hold hbinary
      · obtain ⟨B, C, hpair⟩ := Production.exists_pair_of_isBinary hbinary hlength
        exact .pair hpair
  | drop _ ih => exact ih h (List.forall_mem_cons.mp hqs).2
  | exchange hlength _ _ ih =>
      obtain ⟨hp, hqs⟩ := List.forall_mem_cons.mp hqs
      exact ih h (List.forall_mem_cons.mpr ⟨hp.exchange hlength _, hqs⟩)
  | @introduce r _ _ a _ _ _ hlength _ _ ih =>
      obtain ⟨hp, hqs⟩ := List.forall_mem_cons.mp hqs
      obtain ⟨q, hq, ha⟩ := hp.exists_of_terminal (a := a) (by simp)
      have hintroduce : (r.introduce a).Traced ps := h.emit (.proxy hq ha rfl)
      exact ih hintroduce (List.forall_mem_cons.mpr ⟨hp.exchange hlength _, hqs⟩)
  | @link r _ A B C D Bs _ _ ih =>
      have hlink : (r.link A B).Traced ps := h.emit (.pair rfl)
      have hrest : Underway ps ⟨r.supply.intermediate.1, (C :: D :: Bs).map .nonTerminal⟩ :=
        Or.inr ⟨by simp, fun a ha => by simp at ha⟩
      exact ih hlink (List.forall_mem_cons.mpr ⟨hrest, (List.forall_mem_cons.mp hqs).2⟩)
  | note _ _ _ ih => exact ih h hqs

theorem origin_of_mem_run {supply : NameSupply} {N : OrderedSet Name} {q : Production}
    (hq : q ∈ (run supply N ps).output) : Origin ps q :=
  (leads_foldl _ ps).traced (fun q hq => absurd hq (OrderedSet.not_mem_empty q))
    (fun _ hp => Or.inl hp) q hq

end Round

end BinaryForm

namespace Grammar

variable {g : Grammar}

theorem origin_of_mem_binaryForm {q : Production} (hq : q ∈ g.binaryForm.productions) :
    BinaryForm.Round.Origin g.productions.toList q :=
  BinaryForm.Round.origin_of_mem_run (mem_productions_binaryForm.mp hq)

theorem rhs_cases_of_mem_binaryForm {q : Production} (hq : q ∈ g.binaryForm.productions) :
    (∃ a, q.rhs = [.terminal a]) ∨ (∃ B C, q.rhs = [.nonTerminal B, .nonTerminal C]) ∨
      ∃ B, q.rhs = [.nonTerminal B] :=
  Production.isBinary_iff.mp (isBinary_of_mem_binaryForm hq)

/-! ## Terminals -/

theorem exists_terminal_mem_rhs_of_mem_binaryForm {q : Production} {a : Name}
    (hq : q ∈ g.binaryForm.productions) (hrhs : q.rhs = [.terminal a]) :
    ∃ p ∈ g.productions, .terminal a ∈ p.rhs := by
  rcases origin_of_mem_binaryForm hq with ⟨hold, _⟩ | ⟨hp, ha, hproxy⟩ | ⟨hpair⟩
  · exact ⟨q, hold, hrhs ▸ List.mem_singleton.mpr rfl⟩
  · obtain rfl := Symbol.terminal.inj (List.singleton_inj.mp (hrhs.symm.trans hproxy))
    exact ⟨_, hp, ha⟩
  · simp [hpair] at hrhs

/-- A terminal of an old production still comes out of its left-hand side, so that some production
must have it, and this one has nothing else. -/
theorem exists_mem_binaryForm_of_terminal_mem {p : Production} {a : Name}
    (hp : p ∈ g.productions) (ha : .terminal a ∈ p.rhs) :
    ∃ q ∈ g.binaryForm.productions, q.rhs = [.terminal a] := by
  have hmem : p ∈ g.nonErasing.productions :=
    mem_productions_nonErasing.mpr ⟨hp, List.ne_nil_of_mem ha⟩
  have hd : g.binaryForm.Derives [.nonTerminal p.lhs] p.rhs :=
    derives_binaryForm (derives_of_mem hmem)
  obtain ⟨q, hq, haq⟩ := hd.forall_mem
    (motive := fun x => x = .terminal a → ∃ q ∈ g.binaryForm.productions, .terminal a ∈ q.rhs)
    (fun q hq _ x hx heq => ⟨q, hq, heq ▸ hx⟩)
    (List.forall_mem_singleton.mpr nofun) _ ha rfl
  refine ⟨q, hq, ?_⟩
  rcases rhs_cases_of_mem_binaryForm hq with ⟨b, hb⟩ | ⟨B, C, hBC⟩ | ⟨B, hB⟩
  · rw [hb, List.mem_singleton] at haq
    rw [hb, haq]
  · simp [hBC] at haq
  · simp [hB] at haq

theorem mem_terminals_binaryForm_iff {a : Name} : a ∈ g.binaryForm.terminals ↔
    a ∈ g.terminals ∧ ∃ p ∈ g.productions, .terminal a ∈ p.rhs := by
  rw [mem_terminals_binaryForm]
  refine and_congr_right fun _ => ⟨?_, ?_⟩
  · rintro ⟨q, hq, hrhs⟩
    exact exists_terminal_mem_rhs_of_mem_binaryForm hq hrhs
  · rintro ⟨p, hp, ha⟩
    exact exists_mem_binaryForm_of_terminal_mem hp ha

theorem toList_terminals_binaryForm (g : Grammar) : g.binaryForm.terminals.toList =
    g.terminals.toList.filter fun a => ∃ p ∈ g.productions.toList, .terminal a ∈ p.rhs := by
  have hmem := fun a => mem_terminals_binaryForm_iff (g := g) (a := a)
  unfold binaryForm terminalsIn at hmem ⊢
  rw [OrderedSet.toList_filter]
  refine List.filter_congr fun a ha => ?_
  have hiff := hmem a
  rw [OrderedSet.mem_filter, and_congr_right_iff] at hiff
  rw [Bool.eq_iff_iff, hiff ha]
  simp

/-! ## What stays -/

/-- Binary form has productions of the three shapes. From the declared non-terminals it derives what
the grammar derives without its ε-productions, and its terminals are the declared ones that some
production uses, in the order of declaration. -/
theorem binaryForm_exact (hg : g.Reached) :
    (∀ p ∈ g.binaryForm.productions, (∃ a, p.rhs = [.terminal a]) ∨
        (∃ B C, p.rhs = [.nonTerminal B, .nonTerminal C]) ∨ ∃ B, p.rhs = [.nonTerminal B]) ∧
      (∀ A ∈ g.nonTerminals, ∀ u, g.binaryForm.Generates A u ↔ g.nonErasing.Generates A u) ∧
      ((∀ p ∈ g.productions, p.rhs ≠ []) →
        ∀ A ∈ g.nonTerminals, ∀ u, g.binaryForm.Generates A u ↔ g.Generates A u) ∧
      g.binaryForm.terminals.toList =
        g.terminals.toList.filter fun a => ∃ p ∈ g.productions.toList, .terminal a ∈ p.rhs := by
  have hmeaning : ∀ A ∈ g.nonTerminals, ∀ u,
      g.binaryForm.Generates A u ↔ g.nonErasing.Generates A u := fun A hA _ =>
    hg.wellFormed.consistent.generates_binaryForm_iff (nonTerminal_mem_names hA)
  refine ⟨fun _ => rhs_cases_of_mem_binaryForm, hmeaning, fun hne A hA u => ?_,
    g.toList_terminals_binaryForm⟩
  exact (hmeaning A hA u).trans (derives_nonErasing_iff hne)

/-- Brackets need the ε-production; where it has been worked into the others, binary form keeps
them. -/
theorem binaryForm_exact_nested : nested.Reached ∧ nested.epsilonFree.Reached ∧
    (∀ u, ¬ nested.binaryForm.Generates (.ofChar 'S') u) ∧
      nested.epsilonFree.binaryForm.Generates (.ofChar 'S') [.ofChar 'a', .ofChar 'b'] ∧
      nested.binaryForm.terminals.toList = [.ofChar 'a', .ofChar 'b', .ofChar 'c'] := by
  have hreached : nested.epsilonFree.Reached :=
    valid_nested.reached.apply (.stage .epsilonFree)
  obtain ⟨_, hmeaning, _, hterminals⟩ := binaryForm_exact valid_nested.reached
  obtain ⟨_, _, hsame, _⟩ := binaryForm_exact hreached
  refine ⟨valid_nested.reached, hreached, fun u hu => ?_, ?_, hterminals.trans (by decide)⟩
  · have hproductive := mem_productive_iff.mpr ⟨u, (hmeaning _ (by decide) u).mp hu⟩
    have hnot : nested.nonErasing.productive.contains (.ofChar 'S') = false := by cbv
    exact absurd (OrderedSet.contains_iff.mpr hproductive) (by simp [hnot])
  · refine (hsame (fun _ => epsilonFree_rhs_ne_nil) _ (by decide) _).mpr ?_
    exact generates_epsilonFree_iff.mpr ⟨language_nested_brackets, List.cons_ne_nil _ _⟩

end Grammar

end ContextFree
