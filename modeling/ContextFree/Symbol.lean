import ContextFree.Coded

/-!
# Names, symbols and words

A name is a nonempty text. A symbol is a name used as a terminal or as a non-terminal, a word is a
list of symbols, and a sentence is a list of names of terminals. Names are ordered character by
character, terminals come before non-terminals, and words are ordered lexicographically.
-/

namespace ContextFree

structure Name where
  chars : Text
  chars_ne_nil : chars ≠ []
  deriving DecidableEq

namespace Name

theorem ext {a b : Name} (h : a.chars = b.chars) : a = b := by
  cases a
  cases b
  simp_all

theorem length_chars_pos (a : Name) : 0 < a.chars.length :=
  List.length_pos_iff.mpr a.chars_ne_nil

theorem length_lt_append (a : Name) (t : Text) : t.length < (a.chars ++ t).length := by
  rw [List.length_append]
  exact Nat.lt_add_of_pos_left a.length_chars_pos

/-- There is no name without characters. -/
def ofText? (t : Text) : Option Name :=
  if h : t = [] then none else some ⟨t, h⟩

def ofChar (c : Char) : Name := ⟨[c], List.cons_ne_nil c []⟩

theorem ofText?_eq_some_iff {t : Text} {a : Name} : ofText? t = some a ↔ t = a.chars := by
  by_cases h : t = []
  · simp [ofText?, h, Ne.symm a.chars_ne_nil]
  · simp only [ofText?, h, dite_false, Option.some.injEq]
    exact ⟨fun e => e ▸ rfl, fun e => ext e⟩

instance : Coded Name where
  code a := Coded.closed a.chars false
  code_ne_nil a := Coded.closed_ne_nil a.chars false
  eq_of_code_eq h := ext (Coded.eq_of_code_eq (α := Text) h)

theorem code_append_inj {a b : Name} {l l' : List Nat}
    (h : Coded.code a ++ l = Coded.code b ++ l') : a = b ∧ l = l' :=
  have hclosed := Coded.closed_append_inj h
  ⟨ext hclosed.1, hclosed.2.2⟩

instance : ToString Name := ⟨fun a => String.ofList a.chars⟩

instance : LT Name := ⟨fun a b => a.chars < b.chars⟩

instance : LE Name := ⟨fun a b => ¬ b < a⟩

instance (a b : Name) : Decidable (a < b) := inferInstanceAs (Decidable (a.chars < b.chars))

instance (a b : Name) : Decidable (a ≤ b) := inferInstanceAs (Decidable (¬ b < a))

instance : Std.IsLinearOrder Name where
  le_refl a := List.le_refl a.chars
  le_trans _ _ _ := List.le_trans
  le_antisymm _ _ hab hba := ext (List.le_antisymm hab hba)
  le_total a b := List.le_total a.chars b.chars

instance : Std.LawfulOrderLT Name where
  lt_iff _ _ := ⟨fun h => ⟨List.lt_asymm h, not_not_intro h⟩, fun h => Classical.not_not.mp h.2⟩

end Name

inductive Symbol where
  | terminal (a : Name)
  | nonTerminal (A : Name)
  deriving DecidableEq

namespace Symbol

def name : Symbol → Name
  | terminal a => a
  | nonTerminal A => A

def terminal? : Symbol → Option Name
  | terminal a => some a
  | nonTerminal _ => none

def nonTerminal? : Symbol → Option Name
  | terminal _ => none
  | nonTerminal A => some A

/-- The name, marked as that of a terminal or of a non-terminal. -/
def marked : Symbol → List Nat
  | terminal a => Coded.closed a.chars false
  | nonTerminal A => Coded.closed A.chars true

theorem marked_ne_nil (x : Symbol) : x.marked ≠ [] := by
  cases x <;> exact Coded.closed_ne_nil _ _

theorem marked_append_inj {x y : Symbol} {l l' : List Nat}
    (h : x.marked ++ l = y.marked ++ l') : x = y ∧ l = l' := by
  cases x <;> cases y <;> obtain ⟨hchars, hmark, hl⟩ := Coded.closed_append_inj h
  · exact ⟨congrArg terminal (Name.ext hchars), hl⟩
  · exact absurd hmark (by decide)
  · exact absurd hmark (by decide)
  · exact ⟨congrArg nonTerminal (Name.ext hchars), hl⟩

instance : Coded Symbol where
  code := marked
  code_ne_nil := marked_ne_nil
  eq_of_code_eq h := (marked_append_inj (congrArg (· ++ ([] : List Nat)) h)).1

def Precedes : Symbol → Symbol → Prop
  | terminal a, terminal b => a < b
  | terminal _, nonTerminal _ => True
  | nonTerminal _, terminal _ => False
  | nonTerminal A, nonTerminal B => A < B

instance : LT Symbol := ⟨Precedes⟩

instance (x y : Symbol) : Decidable (x < y) :=
  match x, y with
  | terminal a, terminal b => inferInstanceAs (Decidable (a < b))
  | terminal _, nonTerminal _ => .isTrue trivial
  | nonTerminal _, terminal _ => .isFalse id
  | nonTerminal A, nonTerminal B => inferInstanceAs (Decidable (A < B))

end Symbol

abbrev Word := List Symbol

abbrev Sentence := List Name

instance : Coded Word where
  code w := 0 :: w.flatMap Symbol.marked
  code_ne_nil _ := List.cons_ne_nil _ _
  eq_of_code_eq h :=
    Coded.eq_of_flatMap_eq Symbol.marked_ne_nil Symbol.marked_append_inj (List.cons.inj h).2

instance : Coded Sentence where
  code u := 0 :: u.flatMap Coded.code
  code_ne_nil _ := List.cons_ne_nil _ _
  eq_of_code_eq h :=
    Coded.eq_of_flatMap_eq Coded.code_ne_nil Name.code_append_inj (List.cons.inj h).2

def epsilon : Text := ['ε']

/-- Names of one character each are glued together; longer ones are set apart by spaces. -/
def spell : List Name → Text
  | [] => epsilon
  | a :: as =>
    if (a :: as).all fun b => b.chars.length = 1 then (a :: as).flatMap Name.chars
    else [' '].intercalate ((a :: as).map Name.chars)

namespace Word

def text (w : Word) : Text := spell (w.map Symbol.name)

def terminals (w : Word) : List Name := w.filterMap Symbol.terminal?

def nonTerminals (w : Word) : List Name := w.filterMap Symbol.nonTerminal?

@[simp] theorem mem_terminals {w : Word} {a : Name} :
    a ∈ terminals w ↔ Symbol.terminal a ∈ w := by
  simp only [terminals, List.mem_filterMap]
  constructor
  · rintro ⟨x, hx, h⟩
    cases x <;> simp_all [Symbol.terminal?]
  · exact fun h => ⟨_, h, rfl⟩

@[simp] theorem mem_nonTerminals {w : Word} {A : Name} :
    A ∈ nonTerminals w ↔ Symbol.nonTerminal A ∈ w := by
  simp only [nonTerminals, List.mem_filterMap]
  constructor
  · rintro ⟨x, hx, h⟩
    cases x <;> simp_all [Symbol.nonTerminal?]
  · exact fun h => ⟨_, h, rfl⟩

/-- Sorts words lexicographically; equal words stay in the order in which they came. -/
def sort (ws : List Word) : List Word := ws.mergeSort fun u v => decide (u ≤ v)

end Word

end ContextFree
