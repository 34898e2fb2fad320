import ContextFree.Grouping
import ContextFree.OrderedSet
import ContextFree.Production

/-!
# Context-free grammars

A grammar `G = (N, T, P, S)` with ordered sets of non-terminals, terminals and productions. Two
grammars are equivalent (`≈`) when they differ only in the order of their sets. A grammar is
consistent when no name is both a terminal and a non-terminal and every production uses declared
symbols only, and valid when it also declares its start symbol.
-/

namespace ContextFree

structure Grammar where
  nonTerminals : OrderedSet Name
  terminals : OrderedSet Name
  start : Name
  productions : OrderedSet Production
  deriving DecidableEq

inductive GrammarError where
  | undeclaredStart (start : Name)
  | ambiguousName (name : Name)
  | undeclaredSymbol (symbol : Symbol) (production : Production)
  deriving DecidableEq

namespace GrammarError

def message : GrammarError → String
  | undeclaredStart start => s!"start symbol `{start}` is not a declared non-terminal"
  | ambiguousName name => s!"`{name}` is declared both as a terminal and as a non-terminal"
  | undeclaredSymbol symbol production =>
    let name := symbol.name
    s!"production `{production}` uses undeclared symbol `{name}`"

end GrammarError

namespace Grammar

/-- Grammars are equivalent when they agree up to the order of their sets. -/
instance : Setoid Grammar where
  r g h := g.start = h.start ∧ g.nonTerminals ≈ h.nonTerminals ∧ g.terminals ≈ h.terminals ∧
    g.productions ≈ h.productions
  iseqv :=
    { refl := fun _ => ⟨rfl, Setoid.refl _, Setoid.refl _, Setoid.refl _⟩
      symm := fun h => ⟨h.1.symm, Setoid.symm h.2.1, Setoid.symm h.2.2.1, Setoid.symm h.2.2.2⟩
      trans := fun h k => ⟨h.1.trans k.1, Setoid.trans h.2.1 k.2.1,
        Setoid.trans h.2.2.1 k.2.2.1, Setoid.trans h.2.2.2 k.2.2.2⟩ }

theorem equiv_iff {g h : Grammar} : g ≈ h ↔ g.start = h.start ∧
    g.nonTerminals ≈ h.nonTerminals ∧ g.terminals ≈ h.terminals ∧
      g.productions ≈ h.productions := Iff.rfl

instance (g h : Grammar) : Decidable (g ≈ h) := decidable_of_iff _ equiv_iff.symm

def Declares (g : Grammar) : Symbol → Prop
  | .terminal a => a ∈ g.terminals
  | .nonTerminal A => A ∈ g.nonTerminals

instance (g : Grammar) (x : Symbol) : Decidable (g.Declares x) :=
  match x with
  | .terminal a => inferInstanceAs (Decidable (a ∈ g.terminals))
  | .nonTerminal A => inferInstanceAs (Decidable (A ∈ g.nonTerminals))

def DeclaresStart (g : Grammar) : Prop := g.start ∈ g.nonTerminals

instance (g : Grammar) : Decidable g.DeclaresStart :=
  inferInstanceAs (Decidable (g.start ∈ g.nonTerminals))

def productionsOf (g : Grammar) (A : Name) : List Production :=
  g.productions.toList.filter (·.lhs = A)

theorem mem_productionsOf {g : Grammar} {A : Name} {p : Production} :
    p ∈ g.productionsOf A ↔ p ∈ g.productions ∧ p.lhs = A := by
  simp [productionsOf]

/-- The productions, arranged so that those for one non-terminal are found at once. -/
structure Index (g : Grammar) where
  byHead : Grouping Name Production
  byHead_eq : byHead = .ofList Production.lhs g.productions.toList

def index (g : Grammar) : g.Index := ⟨.ofList Production.lhs g.productions.toList, rfl⟩

def Index.productionsOf {g : Grammar} (index : g.Index) (A : Name) : List Production :=
  index.byHead.get A

@[simp] theorem Index.productionsOf_eq {g : Grammar} (index : g.Index) (A : Name) :
    index.productionsOf A = g.productionsOf A := by
  rw [productionsOf, index.byHead_eq, Grouping.get_ofList, Grammar.productionsOf]

def heads (g : Grammar) : List Name := g.productions.toList.map Production.lhs

theorem mem_heads {g : Grammar} {A : Name} : A ∈ g.heads ↔ ∃ p ∈ g.productions, p.lhs = A := by
  simp [heads]

/-- Every name that occurs in the grammar, as often as it occurs. -/
def names (g : Grammar) : List Name :=
  g.nonTerminals.toList ++ g.terminals.toList ++ [g.start] ++
    g.productions.toList.flatMap fun p => p.lhs :: p.rhs.map Symbol.name

/-- The declared terminals that some of the given productions use, in the order of declaration. -/
def terminalsIn (g : Grammar) (ps : List Production) : OrderedSet Name :=
  let used := OrderedSet.ofList (ps.flatMap fun p => Word.terminals p.rhs)
  g.terminals.filter fun a => decide (a ∈ used)

theorem mem_terminalsIn {g : Grammar} {ps : List Production} {a : Name} :
    a ∈ g.terminalsIn ps ↔ a ∈ g.terminals ∧ ∃ p ∈ ps, .terminal a ∈ p.rhs := by
  simp [terminalsIn, OrderedSet.mem_filter]

/-- The non-terminals have the names of no terminals and the productions use declared symbols. -/
def Consistent (g : Grammar) : Prop :=
  (∀ a ∈ g.terminals, a ∉ g.nonTerminals) ∧
    ∀ p ∈ g.productions, ∀ x ∈ .nonTerminal p.lhs :: p.rhs, g.Declares x

def Valid (g : Grammar) : Prop := g.DeclaresStart ∧ g.Consistent

/-- The first symbol of a production, its left-hand side included, that is not declared. -/
def undeclaredIn? (g : Grammar) (p : Production) : Option Symbol :=
  (.nonTerminal p.lhs :: p.rhs).find? fun x => ¬ g.Declares x

/-- Fails with the first fault found: shared names in the order of the terminals, then undeclared
symbols in the order of the productions. -/
def checkSymbols (g : Grammar) : Except GrammarError Unit :=
  match g.terminals.toList.find? (· ∈ g.nonTerminals) with
  | some a => .error (.ambiguousName a)
  | none =>
    match g.productions.toList.findSome? fun p => (g.undeclaredIn? p).map fun x => (x, p) with
    | some (x, p) => .error (.undeclaredSymbol x p)
    | none => .ok ()

def validate (g : Grammar) : Except GrammarError Unit :=
  if g.DeclaresStart then g.checkSymbols else .error (.undeclaredStart g.start)

theorem checkSymbols_eq_ok_iff {g : Grammar} : g.checkSymbols = .ok () ↔ g.Consistent := by
  have hnames : g.terminals.toList.find? (· ∈ g.nonTerminals) = none ↔
      ∀ a ∈ g.terminals, a ∉ g.nonTerminals := by simp
  have hsymbols : (g.productions.toList.findSome? fun p => (g.undeclaredIn? p).map fun x =>
      (x, p)) = none ↔ ∀ p ∈ g.productions, ∀ x ∈ .nonTerminal p.lhs :: p.rhs, g.Declares x := by
    simp [undeclaredIn?]
  rw [Consistent, ← hnames, ← hsymbols, checkSymbols]
  cases g.terminals.toList.find? (· ∈ g.nonTerminals) with
  | some a => simp
  | none =>
      cases g.productions.toList.findSome? fun p => (g.undeclaredIn? p).map fun x => (x, p) with
      | some q => simp
      | none => simp

theorem validate_eq_ok_iff {g : Grammar} : g.validate = .ok () ↔ g.Valid := by
  by_cases h : g.DeclaresStart
  · simp [validate, Valid, h, checkSymbols_eq_ok_iff]
  · simp [validate, Valid, h]

/-- The grammar with the given parts, repetitions dropped, if it is valid. -/
def ofParts (nonTerminals terminals : List Name) (start : Name) (productions : List Production) :
    Except GrammarError Grammar := do
  let g : Grammar :=
    ⟨.ofList nonTerminals, .ofList terminals, start, .ofList productions⟩
  g.validate
  return g

theorem ofParts_eq_ok_iff {N T : List Name} {S : Name} {P : List Production} {g : Grammar} :
    ofParts N T S P = .ok g ↔ g = ⟨.ofList N, .ofList T, S, .ofList P⟩ ∧ g.Valid := by
  unfold ofParts
  dsimp only
  cases hv : Grammar.validate ⟨.ofList N, .ofList T, S, .ofList P⟩ with
  | error e =>
      simp only [bind, Except.bind, reduceCtorEq, false_iff]
      rintro ⟨rfl, hvalid⟩
      exact absurd (validate_eq_ok_iff.mpr hvalid) (by simp [hv])
  | ok u =>
      have hvalid := validate_eq_ok_iff.mp hv
      simp only [bind, Except.bind, pure, Except.pure, Except.ok.injEq]
      exact ⟨fun h => ⟨h.symm, h ▸ hvalid⟩, fun h => h.1.symm⟩

theorem valid_of_ofParts {N T : List Name} {S : Name} {P : List Production} {g : Grammar}
    (h : ofParts N T S P = .ok g) : g.Valid := (ofParts_eq_ok_iff.mp h).2

/-- The valid grammars are those that can be made from parts. -/
theorem valid_iff_exists_ofParts {g : Grammar} :
    g.Valid ↔ ∃ N T S P, ofParts N T S P = .ok g := by
  constructor
  · intro h
    refine ⟨g.nonTerminals.toList, g.terminals.toList, g.start, g.productions.toList, ?_⟩
    rw [ofParts_eq_ok_iff]
    exact ⟨by simp only [OrderedSet.ofList_toList], h⟩
  · rintro ⟨N, T, S, P, h⟩
    exact valid_of_ofParts h

end Grammar

end ContextFree
