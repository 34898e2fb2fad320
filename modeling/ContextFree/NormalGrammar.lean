import ContextFree.Description
import ContextFree.NameSupply
import ContextFree.OrderedMap
import ContextFree.ShortWords

/-!
# Grammars in Chomsky normal form

A grammar all of whose right-hand sides are a terminal or a pair of non-terminals, listed by
left-hand side. Such productions derive no empty word; whether the language holds it all the same
is a flag of its own.
-/

namespace ContextFree

inductive NormalWord where
  | terminal (a : Name)
  | pair (B C : Name)
  deriving DecidableEq

namespace NormalWord

def ofWord? : Word → Option NormalWord
  | [.terminal a] => some (terminal a)
  | [.nonTerminal B, .nonTerminal C] => some (pair B C)
  | _ => none

def toWord : NormalWord → Word
  | terminal a => [.terminal a]
  | pair B C => [.nonTerminal B, .nonTerminal C]

theorem ofWord?_eq_some_iff {w : Word} {v : NormalWord} : ofWord? w = some v ↔ w = v.toWord := by
  constructor
  · intro h
    unfold ofWord? at h
    split at h
    · cases h
      rfl
    · cases h
      rfl
    · exact absurd h (by simp)
  · rintro rfl
    cases v <;> rfl

theorem toWord_inj {v v' : NormalWord} (h : v.toWord = v'.toWord) : v = v' :=
  Option.some.inj ((ofWord?_eq_some_iff.mpr rfl).symm.trans (ofWord?_eq_some_iff.mpr h))

instance : Coded NormalWord where
  code v := Coded.code v.toWord
  code_ne_nil v := Coded.code_ne_nil v.toWord
  eq_of_code_eq h := toWord_inj (Coded.eq_of_code_eq h)

end NormalWord

structure NormalGrammar where
  start : Name
  /-- Whether the empty word belongs to the language. -/
  erasable : Bool
  rules : OrderedMap Name (OrderedSet NormalWord)
  deriving DecidableEq

/-- A production that is of neither of the shapes `A → a` and `A → BC`. -/
structure ShapeError where
  production : Production
  deriving DecidableEq

def ShapeError.message (e : ShapeError) : String :=
  let production := e.production
  s!"production `{production}` is not in Chomsky normal form"

namespace NormalGrammar

/-- Grammars are equivalent when they agree up to the order of left-hand sides and of words. -/
instance : Setoid NormalGrammar where
  r c d := c.start = d.start ∧ c.erasable = d.erasable ∧ c.rules ≈ d.rules
  iseqv :=
    { refl := fun _ => ⟨rfl, rfl, Setoid.refl _⟩
      symm := fun h => ⟨h.1.symm, h.2.1.symm, Setoid.symm h.2.2⟩
      trans := fun h k => ⟨h.1.trans k.1, h.2.1.trans k.2.1, Setoid.trans h.2.2 k.2.2⟩ }

theorem equiv_iff {c d : NormalGrammar} :
    c ≈ d ↔ c.start = d.start ∧ c.erasable = d.erasable ∧ c.rules ≈ d.rules := Iff.rfl

instance (c d : NormalGrammar) : Decidable (c ≈ d) := decidable_of_iff _ equiv_iff.symm

def normalPart (g : Grammar) (erasable : Bool) : NormalGrammar where
  start := g.start
  erasable := erasable
  rules :=
    let ps := g.productions.toList.filter Production.isNormal
    let byHead := Grouping.ofList Production.lhs ps
    .tabulate (.ofList (ps.map Production.lhs)) fun A =>
      .ofList ((byHead.get A).filterMap fun p => NormalWord.ofWord? p.rhs)

def ofGrammar (g : Grammar) : Except ShapeError NormalGrammar :=
  match g.productions.toList.find? fun p => !p.isNormal with
  | some p => .error ⟨p⟩
  | none => .ok (normalPart g false)

/-- Whether the grammar generates no word at all, not even the empty one. -/
def isEmpty (c : NormalGrammar) : Bool :=
  !c.erasable && decide (c.start ∉ c.rules.keys)

def productions (c : NormalGrammar) : List Production :=
  c.rules.entries.flatMap fun e => e.2.toList.map fun w => ⟨e.1, w.toWord⟩

/-- The start symbol and the non-terminals of the productions, as they first occur. -/
def nonTerminals (c : NormalGrammar) : OrderedSet Name :=
  .ofList (c.start :: c.productions.flatMap fun p => p.lhs :: Word.nonTerminals p.rhs)

def terminals (c : NormalGrammar) : OrderedSet Name :=
  .ofList (c.productions.flatMap fun p => Word.terminals p.rhs)

def withoutEmptyWord (c : NormalGrammar) : Grammar where
  nonTerminals := c.nonTerminals
  terminals := c.terminals
  start := c.start
  productions := .ofList c.productions

/-- A grammar for the same language. The empty word, where it belongs to the language, comes from a
new start symbol, so that the old one may keep its place in right-hand sides. -/
def toGrammar (c : NormalGrammar) : Grammar :=
  let g := c.withoutEmptyWord
  if c.erasable then
    let (start, _) := (NameSupply.forGrammar g).primed c.start
    { nonTerminals := g.nonTerminals.insert start
      terminals := g.terminals
      start := start
      productions :=
        (g.productions.insert ⟨start, []⟩).insert ⟨start, [.nonTerminal c.start]⟩ }
  else g

def description (c : NormalGrammar) : Description :=
  .ofRules c.start c.nonTerminals c.terminals
    (c.productions.map (fun p => (p.lhs, Word.text p.rhs)) ++
      if c.erasable then [(c.start, epsilon)] else [])

/-- The words of length at most `n` in the language, shortest first. -/
def shortWords (c : NormalGrammar) (n : Nat) : List Sentence :=
  let words := c.withoutEmptyWord.shortWords n
  if c.erasable then [] :: words.filter (· ≠ []) else words

end NormalGrammar

end ContextFree
