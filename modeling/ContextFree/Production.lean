import ContextFree.Symbol

/-!
# Productions

A rule `A → w`, and the shapes of right-hand sides that matter: empty, a single
non-terminal, a single terminal, and the two shapes of Chomsky normal form, `a` and `BC`.
-/

namespace ContextFree

structure Production where
  lhs : Name
  rhs : Word
  deriving DecidableEq

namespace Production

theorem ext {p q : Production} (hlhs : p.lhs = q.lhs) (hrhs : p.rhs = q.rhs) : p = q := by
  cases p
  cases q
  simp_all

instance : Coded Production where
  code p := Coded.code p.lhs ++ Coded.code p.rhs
  code_ne_nil p := List.append_ne_nil_of_left_ne_nil (Coded.code_ne_nil p.lhs) _
  eq_of_code_eq h :=
    have hparts := Name.code_append_inj h
    ext hparts.1 (Coded.eq_of_code_eq hparts.2)

def isErasing (p : Production) : Bool := p.rhs.isEmpty

/-- The `B` of a unit production `A → B`. -/
def unitTarget? (p : Production) : Option Name :=
  match p.rhs with
  | [.nonTerminal B] => some B
  | _ => none

/-- The `a` of a production `A → a`. -/
def singleTerminal? (p : Production) : Option Name :=
  match p.rhs with
  | [.terminal a] => some a
  | _ => none

/-- Whether the production has one of the shapes `A → a` and `A → BC`. -/
def isNormal (p : Production) : Bool :=
  match p.rhs with
  | [.terminal _] => true
  | [.nonTerminal _, .nonTerminal _] => true
  | _ => false

theorem isErasing_iff {p : Production} : p.isErasing = true ↔ p.rhs = [] := List.isEmpty_iff

theorem unitTarget?_eq_some_iff {p : Production} {B : Name} :
    p.unitTarget? = some B ↔ p.rhs = [.nonTerminal B] := by
  unfold unitTarget?
  split <;> simp_all

theorem singleTerminal?_eq_some_iff {p : Production} {a : Name} :
    p.singleTerminal? = some a ↔ p.rhs = [.terminal a] := by
  unfold singleTerminal?
  split <;> simp_all

theorem isNormal_iff {p : Production} :
    p.isNormal = true ↔
      (∃ a, p.rhs = [.terminal a]) ∨ ∃ B C, p.rhs = [.nonTerminal B, .nonTerminal C] := by
  unfold isNormal
  split <;> simp_all

def text (p : Production) : Text := p.lhs.chars ++ [' ', '→', ' '] ++ Word.text p.rhs

instance : ToString Production := ⟨fun p => String.ofList p.text⟩

end Production

end ContextFree
