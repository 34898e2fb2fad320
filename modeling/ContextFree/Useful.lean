import ContextFree.Exploration
import ContextFree.Generating

/-!
# Useful symbols

A non-terminal is productive when it derives a sentence, and a symbol is accessible when it occurs
in a word that the start symbol derives. The productive and the accessible part of a grammar keep
the non-terminals of the one kind or the other, the productions that mention no other non-terminal,
and the terminals that those productions use. A grammar that loses its start symbol on the way
generates nothing.
-/

namespace ContextFree

namespace Grammar

/-- Keeps the given non-terminals, what can be said with them alone, and the start symbol. -/
def restrict (g : Grammar) (keep : Name → Bool) : Grammar :=
  let productions := g.productions.filter fun p =>
    keep p.lhs && (Word.nonTerminals p.rhs).all keep
  { nonTerminals := g.nonTerminals.filter keep
    terminals := g.terminalsIn productions.toList
    start := g.start
    productions := productions }

theorem mem_productions_restrict {g : Grammar} {keep : Name → Bool} {p : Production} :
    p ∈ (g.restrict keep).productions ↔
      p ∈ g.productions ∧ keep p.lhs = true ∧ ∀ A, .nonTerminal A ∈ p.rhs → keep A = true := by
  simp [restrict, OrderedSet.mem_filter]

def productivePart (g : Grammar) : Grammar :=
  let productive := g.productive
  g.restrict fun A => decide (A ∈ productive)

/-- The declared symbols in the right-hand sides of a non-terminal. -/
def Index.successors {g : Grammar} (index : g.Index) : Symbol → List Symbol
  | .terminal _ => []
  | .nonTerminal A =>
    ((index.productionsOf A).flatMap Production.rhs).filter fun x => g.Declares x

/-- The declared symbols, terminals after non-terminals. -/
def symbols (g : Grammar) : List Symbol :=
  g.nonTerminals.toList.map .nonTerminal ++ g.terminals.toList.map .terminal

theorem mem_symbols {g : Grammar} {x : Symbol} : x ∈ g.symbols ↔ g.Declares x := by
  cases x <;> simp [symbols, Declares]

/-- The start symbol where it is declared, and otherwise nothing. -/
def declaredStart (g : Grammar) : OrderedSet Symbol :=
  if g.DeclaresStart then .ofList [.nonTerminal g.start] else ∅

theorem declares_of_mem_declaredStart {g : Grammar} {x : Symbol} (h : x ∈ g.declaredStart) :
    g.Declares x := by
  unfold declaredStart at h
  split at h
  · rename_i hstart
    rw [OrderedSet.mem_ofList, List.mem_singleton] at h
    exact h ▸ hstart
  · exact absurd h (OrderedSet.not_mem_empty x)

theorem Index.declares_of_mem_successors {g : Grammar} (index : g.Index) {x y : Symbol}
    (h : y ∈ index.successors x) : g.Declares y := by
  cases x with
  | terminal a => exact absurd h List.not_mem_nil
  | nonTerminal A => exact of_decide_eq_true (List.mem_filter.mp h).2

/-- The symbols of the words that the start symbol derives, nearest first. -/
def accessible (g : Grammar) : OrderedSet Symbol :=
  let index := g.index
  OrderedSet.reachable (p := g.Declares) index.successors
    ⟨g.symbols, fun _ h => mem_symbols.mpr h⟩
    (fun _ _ _ h => index.declares_of_mem_successors h)
    g.declaredStart (fun _ h => declares_of_mem_declaredStart h)

def accessiblePart (g : Grammar) : Grammar :=
  let accessible := g.accessible
  g.restrict fun A => decide (.nonTerminal A ∈ accessible)

end Grammar

end ContextFree
