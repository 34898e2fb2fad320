import Mathlib.Logic.Function.Basic
import ContextFree.Normalization
import ContextFree.Proofs.NameSupply
import ContextFree.Proofs.Round

/-!
# The language of the binary form

Every non-terminal of a round stands for a word of the grammar that the round began with: a proxy
for its terminal, a link of a chain for what it is to derive, and a non-terminal whose only
production is a single terminal for that terminal, since it may serve as a proxy. What a round has
put out can be read in this way as derivations of the grammar (`Faithful`), and so can what it has
still to put out (`Readable`); every move keeps both. Together with the derivations that lead the
other way, this gives the language: that of the grammar without its ε-productions, from each of its
own names (`generates_binaryForm_iff`).
-/

namespace ContextFree

theorem Production.rhs_ne_nil_of_isBinary {p : Production} (hp : p.isBinary = true) :
    p.rhs ≠ [] := by
  intro hnil
  simp [isBinary, isNormal, unitTarget?, hnil] at hp

namespace Grammar

variable {g : Grammar}

def nonErasing (g : Grammar) : Grammar :=
  { g with productions := g.productions.filter fun p => !p.isErasing }

theorem mem_productions_nonErasing {p : Production} :
    p ∈ g.nonErasing.productions ↔ p ∈ g.productions ∧ p.rhs ≠ [] := by
  simp [nonErasing, OrderedSet.mem_filter, ← Bool.not_eq_true, Production.isErasing_iff]

theorem derives_nonErasing_iff (hg : ∀ p ∈ g.productions, p.rhs ≠ []) {v w : Word} :
    g.nonErasing.Derives v w ↔ g.Derives v w := by
  refine derives_congr fun p => ?_
  rw [mem_productions_nonErasing]
  exact and_iff_left_of_imp (hg p)

/-- The terminal that is the only production of a non-terminal, or else the non-terminal itself. -/
def standsFor (g : Grammar) (A : Name) : Word :=
  match g.productionsOf A with
  | [⟨_, [.terminal a]⟩] => [.terminal a]
  | _ => [.nonTerminal A]

theorem standsFor_of_productionsOf {A a : Name}
    (h : g.productionsOf A = [⟨A, [.terminal a]⟩]) : g.standsFor A = [.terminal a] := by
  rw [standsFor, h]

theorem standsFor_cases (g : Grammar) (A : Name) : g.standsFor A = [.nonTerminal A] ∨
    ∃ a, g.productionsOf A = [⟨A, [.terminal a]⟩] ∧ g.standsFor A = [.terminal a] := by
  unfold standsFor
  split
  · rename_i B a honly
    have hmem : ⟨B, [.terminal a]⟩ ∈ g.productionsOf A := honly ▸ List.mem_singleton.mpr rfl
    have hlhs : B = A := (mem_productionsOf.mp hmem).2
    exact Or.inr ⟨a, hlhs ▸ honly, rfl⟩
  · exact Or.inl rfl

theorem derives_standsFor (g : Grammar) (A : Name) :
    g.nonErasing.Derives [.nonTerminal A] (g.standsFor A) := by
  rcases g.standsFor_cases A with heq | ⟨a, honly, heq⟩
  · exact heq ▸ .refl
  · have hmem : ⟨A, [.terminal a]⟩ ∈ g.productionsOf A := honly ▸ List.mem_singleton.mpr rfl
    have hp : ⟨A, [.terminal a]⟩ ∈ g.nonErasing.productions :=
      mem_productions_nonErasing.mpr ⟨(mem_productionsOf.mp hmem).1, List.cons_ne_nil _ _⟩
    exact heq ▸ derives_of_mem hp

theorem derives_substitute_standsFor {p : Production} (hp : p ∈ g.nonErasing.productions) :
    g.nonErasing.Derives (g.standsFor p.lhs) (Word.substitute g.standsFor p.rhs) := by
  rcases g.standsFor_cases p.lhs with heq | ⟨a, honly, heq⟩
  · rw [heq]
    exact lhs_derives hp (derives_substitute g.derives_standsFor p.rhs)
  · have hmem : p ∈ g.productionsOf p.lhs :=
      mem_productionsOf.mpr ⟨(mem_productions_nonErasing.mp hp).1, rfl⟩
    rw [honly, List.mem_singleton] at hmem
    have hrhs : p.rhs = [.terminal a] := by rw [hmem]
    rw [heq, hrhs]
    exact .refl

end Grammar

namespace BinaryForm

namespace Round

/-- The grammar that a round has arrived at, with the terminals of the one that it began with. -/
def grammarOver (r : Round) (g : Grammar) : Grammar :=
  { g with nonTerminals := r.nonTerminals, productions := r.output }

/-- All names that are in use are taken, new non-terminals have new names, and what is put out is
declared and can be read as derivations of the grammar. -/
structure Faithful (g : Grammar) (r : Round) (meaning : Name → Word) : Prop where
  names_taken : ∀ A ∈ g.names, A ∈ r.supply.taken
  taken : ∀ A ∈ r.nonTerminals, A ∈ r.supply.taken
  keeps : ∀ A ∈ g.nonTerminals, A ∈ r.nonTerminals
  fresh : ∀ A ∈ r.nonTerminals, A ∈ g.nonTerminals ∨ A ∉ g.names
  old : ∀ A ∈ g.names, meaning A = g.standsFor A
  proxies : ∀ e ∈ r.proxies, e.2 ∈ r.nonTerminals ∧ meaning e.2 = [.terminal e.1]
  declares : ∀ p ∈ r.output, ∀ x ∈ .nonTerminal p.lhs :: p.rhs, (r.grammarOver g).Declares x
  derives : ∀ p ∈ r.output,
    g.nonErasing.Derives (meaning p.lhs) (Word.substitute meaning p.rhs)

variable {g : Grammar} {r : Round} {meaning : Name → Word}

theorem Faithful.withNotes (h : Faithful g r meaning) (notes : List Note) :
    Faithful g { r with notes := notes } meaning :=
  ⟨h.names_taken, h.taken, h.keeps, h.fresh, h.old, h.proxies, h.declares, h.derives⟩

theorem Faithful.emit (h : Faithful g r meaning) {p : Production}
    (hdecl : ∀ x ∈ .nonTerminal p.lhs :: p.rhs, (r.grammarOver g).Declares x)
    (hderives : g.nonErasing.Derives (meaning p.lhs) (Word.substitute meaning p.rhs)) :
    Faithful g (r.emit p) meaning where
  names_taken := h.names_taken
  taken := h.taken
  keeps := h.keeps
  fresh := h.fresh
  old := h.old
  proxies := h.proxies
  declares := OrderedSet.forall_mem_insert.mpr ⟨h.declares, hdecl⟩
  derives := OrderedSet.forall_mem_insert.mpr ⟨h.derives, hderives⟩

/-- A fresh name may stand for any word: nothing that is there already mentions it. -/
theorem Faithful.declare (h : Faithful g r meaning) {X : Name} (hX : X ∉ r.supply.taken)
    {supply : NameSupply} (hsupply : supply.taken = r.supply.taken.insert X) (v : Word) :
    Faithful g { r with supply := supply, nonTerminals := r.nonTerminals.insert X }
      (Function.update meaning X v) := by
  have hsame : ∀ A ∈ r.supply.taken, Function.update meaning X v A = meaning A := by
    intro A hA
    have hne : A ≠ X := fun heq => hX (heq ▸ hA)
    exact Function.update_of_ne hne v meaning
  have hsubst : ∀ p ∈ r.output, Word.substitute (Function.update meaning X v) p.rhs =
      Word.substitute meaning p.rhs := fun p hp => Word.substitute_congr fun A hA =>
    hsame A (h.taken A (h.declares p hp (.nonTerminal A) (List.mem_cons_of_mem _ hA)))
  constructor
  case names_taken =>
    intro A hA
    rw [hsupply]
    exact OrderedSet.mem_insert_of_mem (h.names_taken A hA)
  case taken =>
    rw [hsupply]
    exact OrderedSet.forall_mem_insert.mpr
      ⟨fun A hA => OrderedSet.mem_insert_of_mem (h.taken A hA), OrderedSet.mem_insert_self _ _⟩
  case keeps => exact fun A hA => OrderedSet.mem_insert_of_mem (h.keeps A hA)
  case fresh =>
    exact OrderedSet.forall_mem_insert.mpr
      ⟨h.fresh, Or.inr fun hname => hX (h.names_taken X hname)⟩
  case old => exact fun A hA => (hsame A (h.names_taken A hA)).trans (h.old A hA)
  case proxies =>
    intro e he
    obtain ⟨hdecl, hmeaning⟩ := h.proxies e he
    exact ⟨OrderedSet.mem_insert_of_mem hdecl,
      (hsame e.2 (h.taken e.2 hdecl)).trans hmeaning⟩
  case declares =>
    intro p hp x hx
    have hdecl := h.declares p hp x hx
    cases x with
    | terminal a => exact hdecl
    | nonTerminal A => exact OrderedSet.mem_insert_of_mem hdecl
  case derives =>
    intro p hp
    rw [hsubst p hp, hsame p.lhs (h.taken _ (h.declares p hp _ List.mem_cons_self))]
    exact h.derives p hp

/-- The old meanings are kept; there may be more names with a meaning. -/
def Refines (r : Round) (meaning meaning' : Name → Word) : Prop :=
  ∀ A ∈ r.nonTerminals, meaning' A = meaning A

theorem Faithful.refines_update (h : Faithful g r meaning) {X : Name}
    (hX : X ∉ r.supply.taken) (v : Word) : r.Refines meaning (Function.update meaning X v) := by
  intro A hA
  have hne : A ≠ X := fun heq => hX (heq ▸ h.taken A hA)
  exact Function.update_of_ne hne v meaning

/-- What is still to be put out uses declared symbols and, unless it is an ε-production, can be read
as a derivation of the grammar. -/
structure Readable (g : Grammar) (r : Round) (meaning : Name → Word) (p : Production) : Prop where
  declares : ∀ x ∈ .nonTerminal p.lhs :: p.rhs, (r.grammarOver g).Declares x
  derives : p.rhs ≠ [] → g.nonErasing.Derives (meaning p.lhs) (Word.substitute meaning p.rhs)

theorem Readable.refines {s : Round} {meaning' : Name → Word} {p : Production}
    (h : Readable g r meaning p) (hgrows : r.Grows s) (hrefines : r.Refines meaning meaning') :
    Readable g s meaning' p where
  declares x hx := by
    have hdecl := h.declares x hx
    cases x with
    | terminal a => exact hdecl
    | nonTerminal A => exact hgrows.nonTerminals A hdecl
  derives hne := by
    have hrhs : Word.substitute meaning' p.rhs = Word.substitute meaning p.rhs :=
      Word.substitute_congr fun A hA =>
        hrefines A (h.declares (.nonTerminal A) (List.mem_cons_of_mem _ hA))
    rw [hrhs, hrefines p.lhs (h.declares _ List.mem_cons_self)]
    exact h.derives hne

theorem Readable.exchange {A a B : Name} {v w : Word}
    (h : Readable g r meaning ⟨A, v ++ .terminal a :: w⟩) (hB : B ∈ r.nonTerminals)
    (hmeaning : meaning B = [.terminal a]) :
    Readable g r meaning ⟨A, v ++ .nonTerminal B :: w⟩ where
  declares x hx := by
    rcases List.mem_cons.mp hx with rfl | hx
    · exact h.declares _ List.mem_cons_self
    · rcases List.mem_append.mp hx with hx | hx
      · exact h.declares x (List.mem_cons_of_mem _ (List.mem_append_left _ hx))
      · rcases List.mem_cons.mp hx with rfl | hx
        · exact hB
        · exact h.declares x (List.mem_cons_of_mem _
            (List.mem_append_right _ (List.mem_cons_of_mem _ hx)))
  derives _ := by
    have hsame : Word.substitute meaning (v ++ .nonTerminal B :: w) =
        Word.substitute meaning (v ++ .terminal a :: w) := by
      simp [hmeaning]
    rw [hsame]
    exact h.derives (by simp)

theorem Faithful.introduce (h : Faithful g r meaning) {A a : Name} {v w : Word}
    (hp : Readable g r meaning ⟨A, v ++ .terminal a :: w⟩) :
    ∃ meaning', Faithful g (r.introduce a) meaning' ∧ r.Refines meaning meaning' ∧
      Readable g (r.introduce a) meaning' ⟨A, v ++ .nonTerminal (r.supply.proxy a).1 :: w⟩ := by
  have ha : a ∈ g.terminals := hp.declares (.terminal a) (by simp)
  have hX := r.supply.proxy_not_mem a
  have hrefines := h.refines_update hX [.terminal a]
  have hdeclared := h.declare hX (r.supply.taken_proxy a) [.terminal a]
  have hself : Function.update meaning (r.supply.proxy a).1 [.terminal a]
      (r.supply.proxy a).1 = [.terminal a] := Function.update_self _ _ _
  have hX' : (r.supply.proxy a).1 ∈ r.nonTerminals.insert (r.supply.proxy a).1 :=
    OrderedSet.mem_insert_self _ _
  have hemit := hdeclared.emit (p := ⟨(r.supply.proxy a).1, [.terminal a]⟩)
    (List.forall_mem_cons.mpr ⟨hX', List.forall_mem_singleton.mpr ha⟩)
    (by rw [hself]; exact .refl)
  refine ⟨Function.update meaning (r.supply.proxy a).1 [.terminal a],
    ⟨hemit.names_taken, hemit.taken, hemit.keeps, hemit.fresh, hemit.old, fun e he => ?_,
      hemit.declares, hemit.derives⟩, hrefines,
    (hp.refines (r.grows_introduce a) hrefines).exchange hX' hself⟩
  rcases List.mem_cons.mp he with rfl | he
  · exact ⟨hX', hself⟩
  · exact hdeclared.proxies e he

/-- The new link stands for the rest, which is then all that is left to derive from it. -/
theorem Faithful.link (h : Faithful g r meaning) {A B : Name} {w : Word}
    (hp : Readable g r meaning ⟨A, .nonTerminal B :: w⟩) :
    ∃ meaning', Faithful g (r.link A B) meaning' ∧ r.Refines meaning meaning' ∧
      Readable g (r.link A B) meaning' ⟨r.supply.intermediate.1, w⟩ := by
  have hX := r.supply.intermediate_not_mem
  have hrefines := h.refines_update hX (Word.substitute meaning w)
  have hself : Function.update meaning r.supply.intermediate.1 (Word.substitute meaning w)
      r.supply.intermediate.1 = Word.substitute meaning w := Function.update_self _ _ _
  have hdeclared := h.declare hX r.supply.taken_intermediate (Word.substitute meaning w)
  have hX' : r.supply.intermediate.1 ∈ r.nonTerminals.insert r.supply.intermediate.1 :=
    OrderedSet.mem_insert_self _ _
  have hA : A ∈ r.nonTerminals := hp.declares _ List.mem_cons_self
  have hB : B ∈ r.nonTerminals := hp.declares (.nonTerminal B) (by simp)
  have hp' := hp.refines (r.grows_link A B) hrefines
  refine ⟨Function.update meaning r.supply.intermediate.1 (Word.substitute meaning w),
    hdeclared.emit (p := ⟨A, [.nonTerminal B, .nonTerminal r.supply.intermediate.1]⟩) ?_ ?_,
    hrefines, ?_, fun _ => ?_⟩
  · exact List.forall_mem_cons.mpr ⟨hp'.declares _ List.mem_cons_self, List.forall_mem_cons.mpr
      ⟨hp'.declares (.nonTerminal B) (by simp), List.forall_mem_singleton.mpr hX'⟩⟩
  · simp only [Word.substitute_nonTerminal_cons, Word.substitute_nil, List.append_nil]
    rw [hrefines A hA, hrefines B hB, hself]
    exact hp.derives (List.cons_ne_nil _ _)
  · exact List.forall_mem_cons.mpr ⟨hX', fun x hx => hp'.declares x (by simp [hx])⟩
  · have hrest : Word.substitute (Function.update meaning r.supply.intermediate.1
        (Word.substitute meaning w)) w = Word.substitute meaning w :=
      Word.substitute_congr fun C hC => hrefines C (hp.declares (.nonTerminal C) (by simp [hC]))
    rw [hself, hrest]
    exact .refl

/-- Every move keeps the round faithful and what is left readable. -/
theorem Leads.faithful {s : Round} {ps : List Production} (hrun : r.Leads ps s)
    (h : Faithful g r meaning) (hps : ∀ p ∈ ps, Readable g r meaning p) :
    ∃ meaning', Faithful g s meaning' := by
  induction hrun generalizing meaning with
  | done r => exact ⟨meaning, h⟩
  | @keep r s p ps hbinary _ ih =>
      obtain ⟨hp, hps⟩ := List.forall_mem_cons.mp hps
      have hderives := hp.derives (Production.rhs_ne_nil_of_isBinary hbinary)
      exact ih (h.emit hp.declares hderives) fun q hq =>
        (hps q hq).refines (r.grows_emit p) fun _ _ => rfl
  | drop _ ih =>
      exact ih (h.withNotes _) fun q hq =>
        (hps q (List.mem_cons_of_mem _ hq)).refines (Grows.refl _).withNotes fun _ _ => rfl
  | exchange _ hB _ ih =>
      obtain ⟨hp, hps⟩ := List.forall_mem_cons.mp hps
      obtain ⟨hdecl, hmeaning⟩ := h.proxies _ hB
      exact ih h (List.forall_mem_cons.mpr ⟨hp.exchange hdecl hmeaning, hps⟩)
  | introduce _ _ _ ih =>
      obtain ⟨hp, hps⟩ := List.forall_mem_cons.mp hps
      obtain ⟨meaning', hfaithful, hrefines, hp'⟩ := h.introduce hp
      exact ih hfaithful (List.forall_mem_cons.mpr
        ⟨hp', fun q hq => (hps q hq).refines (grows_introduce _ _) hrefines⟩)
  | link _ ih =>
      obtain ⟨hp, hps⟩ := List.forall_mem_cons.mp hps
      obtain ⟨meaning', hfaithful, hrefines, hp'⟩ := h.link hp
      exact ih hfaithful (List.forall_mem_cons.mpr
        ⟨hp', fun q hq => (hps q hq).refines (grows_link _ _ _) hrefines⟩)
  | note _ _ _ ih =>
      exact ih (h.withNotes _) fun q hq =>
        (hps q hq).refines (Grows.refl _).withNotes fun _ _ => rfl

theorem faithful_standsFor (hg : g.Consistent) : Faithful g
    ⟨.forGrammar g, g.nonTerminals, knownProxies g.productions.toList, ∅, []⟩ g.standsFor where
  names_taken _ hA := NameSupply.mem_taken_forGrammar.mpr hA
  taken _ hA := NameSupply.mem_taken_forGrammar.mpr (Grammar.nonTerminal_mem_names hA)
  keeps _ hA := hA
  fresh _ hA := Or.inl hA
  old _ _ := rfl
  proxies e he := by
    have honly : g.productionsOf e.2 = [⟨e.2, [.terminal e.1]⟩] :=
      filter_eq_of_mem_knownProxies he
    have hmem : ⟨e.2, [.terminal e.1]⟩ ∈ g.productionsOf e.2 :=
      honly ▸ List.mem_singleton.mpr rfl
    exact ⟨hg.lhs_mem (Grammar.mem_productionsOf.mp hmem).1,
      Grammar.standsFor_of_productionsOf honly⟩
  declares p hp := absurd hp (OrderedSet.not_mem_empty p)
  derives p hp := absurd hp (OrderedSet.not_mem_empty p)

theorem exists_faithful_run (hg : g.Consistent) :
    ∃ meaning, Faithful g (run (.forGrammar g) g.nonTerminals g.productions.toList) meaning :=
  (leads_foldl _ _).faithful (faithful_standsFor hg) fun p hp => ⟨fun x hx => hg.2 p hp x hx,
    fun hne => Grammar.derives_substitute_standsFor
      (Grammar.mem_productions_nonErasing.mpr ⟨hp, hne⟩)⟩

end Round

end BinaryForm

namespace Grammar

variable {g : Grammar}

theorem mem_productions_binaryForm {p : Production} : p ∈ g.binaryForm.productions ↔
    p ∈ (BinaryForm.Round.run (.forGrammar g) g.nonTerminals g.productions.toList).output :=
  (BinaryForm.equiv_productions_settle (.forGrammar g) g.nonTerminals g.productions [] 0).1 p

theorem nonTerminals_binaryForm : g.binaryForm.nonTerminals =
    (BinaryForm.Round.run (.forGrammar g) g.nonTerminals g.productions.toList).nonTerminals :=
  (BinaryForm.equiv_productions_settle (.forGrammar g) g.nonTerminals g.productions [] 0).2

theorem mem_terminals_binaryForm {a : Name} : a ∈ g.binaryForm.terminals ↔
    a ∈ g.terminals ∧ ∃ p ∈ g.binaryForm.productions, p.rhs = [.terminal a] := by
  have hsingle : ∀ p : Production, p.singleTerminal?.isSome = true ∧ .terminal a ∈ p.rhs ↔
      p.rhs = [.terminal a] := by
    intro p
    rw [Option.isSome_iff_exists]
    constructor
    · rintro ⟨⟨b, hb⟩, ha⟩
      rw [Production.singleTerminal?_eq_some_iff] at hb
      rw [hb, List.mem_singleton] at ha
      rw [hb, ha]
    · intro hrhs
      exact ⟨⟨a, Production.singleTerminal?_eq_some_iff.mpr hrhs⟩,
        hrhs ▸ List.mem_singleton.mpr rfl⟩
  have hterminals : a ∈ g.binaryForm.terminals ↔ a ∈ g.terminals ∧
      ∃ p ∈ g.binaryOutcome.productions.toList.filter fun p => p.singleTerminal?.isSome,
        .terminal a ∈ p.rhs := mem_terminalsIn
  simp only [List.mem_filter, and_assoc, hsingle] at hterminals
  exact hterminals

theorem Consistent.mem_nonTerminals_binaryForm (hg : g.Consistent) {A : Name}
    (hA : A ∈ g.binaryForm.nonTerminals) : A ∈ g.nonTerminals ∨ A ∉ g.names := by
  obtain ⟨_, hfaithful⟩ := BinaryForm.Round.exists_faithful_run hg
  exact hfaithful.fresh A (nonTerminals_binaryForm ▸ hA)

theorem Consistent.binaryForm (hg : g.Consistent) : g.binaryForm.Consistent := by
  constructor
  · intro a ha hA
    have hdecl := (mem_terminals_binaryForm.mp ha).1
    rcases hg.mem_nonTerminals_binaryForm hA with hold | hnew
    · exact hg.1 a hdecl hold
    · exact hnew (terminal_mem_names hdecl)
  · intro p hp x hx
    obtain ⟨_, hfaithful⟩ := BinaryForm.Round.exists_faithful_run hg
    have hdecl := hfaithful.declares p (mem_productions_binaryForm.mp hp) x hx
    cases x with
    | nonTerminal A =>
        rw [Declares, nonTerminals_binaryForm]
        exact hdecl
    | terminal a =>
        refine mem_terminals_binaryForm.mpr ⟨hdecl, p, hp, ?_⟩
        have hrhs := (List.mem_cons.mp hx).resolve_left (by simp)
        rcases Production.isBinary_iff.mp (isBinary_of_mem_binaryForm hp) with
          ⟨b, hb⟩ | ⟨B, C, hBC⟩ | ⟨B, hB⟩
        · rw [hb, List.mem_singleton] at hrhs
          rw [hb, hrhs]
        · simp [hBC] at hrhs
        · simp [hB] at hrhs

theorem Consistent.generates_of_binaryForm (hg : g.Consistent) {A : Name} (hA : A ∈ g.names)
    {u : Sentence} (hgen : g.binaryForm.Generates A u) : g.nonErasing.Generates A u := by
  obtain ⟨meaning, hfaithful⟩ := BinaryForm.Round.exists_faithful_run hg
  have hread := Derives.substitute
    (fun p hp => hfaithful.derives p (mem_productions_binaryForm.mp hp)) hgen
  rw [Word.substitute_map_terminal, Word.substitute_nonTerminal_cons, Word.substitute_nil,
    List.append_nil, hfaithful.old A hA] at hread
  exact (g.derives_standsFor A).trans hread

theorem derives_binaryForm {v w : Word} (hd : g.nonErasing.Derives v w) :
    g.binaryForm.Derives v w := by
  refine derives_of_simulated (fun p hp => ?_) hd
  obtain ⟨hmem, hne⟩ := mem_productions_nonErasing.mp hp
  exact BinaryForm.Round.derives_of_output_subset
    (fun q hq => mem_productions_binaryForm.mpr hq) hmem hne

theorem Consistent.generates_binaryForm_iff (hg : g.Consistent) {A : Name} (hA : A ∈ g.names)
    {u : Sentence} : g.binaryForm.Generates A u ↔ g.nonErasing.Generates A u :=
  ⟨hg.generates_of_binaryForm hA, derives_binaryForm⟩

theorem Consistent.language_binaryForm_iff (hg : g.Consistent)
    (hne : ∀ p ∈ g.productions, p.rhs ≠ []) {u : Sentence} :
    g.binaryForm.Language u ↔ g.Language u :=
  (hg.generates_binaryForm_iff g.start_mem_names).trans (derives_nonErasing_iff hne)

end Grammar

end ContextFree
