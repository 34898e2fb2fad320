import ContextFree.Grammar

/-!
# Derivations

One step of a derivation replaces one occurrence of the left-hand side of a production by its
right-hand side; `g.Derives` is its reflexive transitive closure. `g.Yields w u` reads a word
symbol by symbol and says that it derives the sentence `u`; the two agree (`derives_map_iff`).
-/

namespace ContextFree

namespace Grammar

variable {g : Grammar}

inductive Produces (g : Grammar) : Word → Word → Prop where
  | intro (pre : Word) {p : Production} (hp : p ∈ g.productions) (post : Word) :
    Produces g (pre ++ .nonTerminal p.lhs :: post) (pre ++ p.rhs ++ post)

inductive Derives (g : Grammar) (u : Word) : Word → Prop where
  | refl : Derives g u u
  | step {v w : Word} (h : Derives g u v) (hp : g.Produces v w) : Derives g u w

/-- The word derives the sentence, each of its symbols a part of it. -/
inductive Yields (g : Grammar) : Word → Sentence → Prop where
  | nil : Yields g [] []
  | terminal (a : Name) {w : Word} {u : Sentence} (h : Yields g w u) :
    Yields g (.terminal a :: w) (a :: u)
  | nonTerminal {p : Production} {w : Word} {u v : Sentence} (hp : p ∈ g.productions)
    (hrhs : Yields g p.rhs u) (h : Yields g w v) : Yields g (.nonTerminal p.lhs :: w) (u ++ v)

/-- The sentences that a non-terminal derives. -/
def Generates (g : Grammar) (A : Name) (u : Sentence) : Prop :=
  g.Derives [.nonTerminal A] (u.map .terminal)

/-- The sentences that the start symbol derives. -/
def Language (g : Grammar) (u : Sentence) : Prop := g.Generates g.start u

theorem Derives.trans {u v w : Word} (h : g.Derives u v) (k : g.Derives v w) : g.Derives u w := by
  induction k with
  | refl => exact h
  | step _ hp ih => exact ih.step hp

theorem Produces.derives {u v : Word} (h : g.Produces u v) : g.Derives u v :=
  Derives.refl.step h

theorem Produces.context {u v : Word} (h : g.Produces u v) (pre post : Word) :
    g.Produces (pre ++ u ++ post) (pre ++ v ++ post) := by
  cases h with
  | intro pre' hp post' =>
      have hstep := Produces.intro (g := g) (pre ++ pre') hp (post' ++ post)
      simpa [List.append_assoc] using hstep

theorem Derives.context {u v : Word} (h : g.Derives u v) (pre post : Word) :
    g.Derives (pre ++ u ++ post) (pre ++ v ++ post) := by
  induction h with
  | refl => exact .refl
  | step _ hp ih => exact ih.step (hp.context pre post)

theorem Derives.append {u v u' v' : Word} (h : g.Derives u v) (h' : g.Derives u' v') :
    g.Derives (u ++ u') (v ++ v') := by
  have hleft := h.context [] u'
  have hright := h'.context v []
  simp only [List.nil_append, List.append_nil] at hleft hright
  exact hleft.trans hright

theorem derives_of_mem {p : Production} (hp : p ∈ g.productions) :
    g.Derives [.nonTerminal p.lhs] p.rhs := by
  have hstep := Produces.intro (g := g) [] hp []
  simpa using hstep.derives

theorem Yields.append {w w' : Word} {u u' : Sentence} (h : g.Yields w u) (h' : g.Yields w' u') :
    g.Yields (w ++ w') (u ++ u') := by
  induction h with
  | nil => exact h'
  | terminal a _ ih => exact ih.terminal a
  | nonTerminal hp hrhs _ _ ih =>
      rw [List.append_assoc]
      exact .nonTerminal hp hrhs ih

theorem Yields.of_append {w w' : Word} {u : Sentence} (h : g.Yields (w ++ w') u) :
    ∃ v v', u = v ++ v' ∧ g.Yields w v ∧ g.Yields w' v' := by
  induction w generalizing u with
  | nil => exact ⟨[], u, rfl, .nil, h⟩
  | cons x w ih =>
      cases h with
      | terminal a h =>
          obtain ⟨v, v', rfl, hv, hv'⟩ := ih h
          exact ⟨a :: v, v', rfl, hv.terminal a, hv'⟩
      | nonTerminal hp hrhs h =>
          obtain ⟨v, v', rfl, hv, hv'⟩ := ih h
          exact ⟨_ ++ v, v', (List.append_assoc _ _ _).symm, .nonTerminal hp hrhs hv, hv'⟩

theorem yields_map_terminal (u : Sentence) : g.Yields (u.map .terminal) u := by
  induction u with
  | nil => exact .nil
  | cons a u ih => exact ih.terminal a

theorem Yields.of_produces {w w' : Word} {u : Sentence} (hp : g.Produces w w')
    (h : g.Yields w' u) : g.Yields w u := by
  cases hp with
  | intro pre hp post =>
      obtain ⟨v, v', rfl, hv, hpost⟩ := h.of_append
      obtain ⟨v₁, v₂, rfl, hpre, hrhs⟩ := hv.of_append
      rw [List.append_assoc]
      exact hpre.append (.nonTerminal hp hrhs hpost)

theorem Yields.derives {w : Word} {u : Sentence} (h : g.Yields w u) :
    g.Derives w (u.map .terminal) := by
  induction h with
  | nil => exact .refl
  | terminal a _ ih => exact (Derives.refl (u := [.terminal a])).append ih
  | nonTerminal hp _ _ ihrhs ih =>
      rw [List.map_append]
      exact ((derives_of_mem hp).trans ihrhs).append ih

/-- A word derives a sentence exactly when its symbols derive the parts of it. -/
theorem derives_map_iff {w : Word} {u : Sentence} :
    g.Derives w (u.map .terminal) ↔ g.Yields w u := by
  refine ⟨fun h => ?_, Yields.derives⟩
  suffices hback : ∀ w', g.Derives w w' → g.Yields w' u → g.Yields w u from
    hback _ h (yields_map_terminal u)
  intro w' hd
  induction hd with
  | refl => exact id
  | step _ hp ih => exact fun hy => ih (hy.of_produces hp)

theorem generates_iff_yields {A : Name} {u : Sentence} :
    g.Generates A u ↔ g.Yields [.nonTerminal A] u := derives_map_iff

theorem generates_iff {A : Name} {u : Sentence} :
    g.Generates A u ↔ ∃ p ∈ g.productions, p.lhs = A ∧ g.Yields p.rhs u := by
  rw [generates_iff_yields]
  constructor
  · intro h
    cases h with
    | nonTerminal hp hrhs h =>
        cases h with
        | nil => exact ⟨_, hp, rfl, (List.append_nil _).symm ▸ hrhs⟩
  · rintro ⟨p, hp, rfl, hrhs⟩
    have h := Yields.nonTerminal hp hrhs .nil
    rwa [List.append_nil] at h

end Grammar

end ContextFree
