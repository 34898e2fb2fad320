import ContextFree.Derivation

/-!
# Derivations across grammars

A grammar simulates another one when it derives, from what each non-terminal stands for, what the
right-hand sides of that non-terminal stand for. A single substitution of words for non-terminals
covers both the case in which every non-terminal stands for itself (`derives_of_simulated`) and the
case in which some of them are abbreviations (`Derives.substitute`).

Besides, this module follows the symbols of a word along a derivation, and says which symbols are
of use in deriving sentences.
-/

namespace ContextFree

namespace Word

def substitute (meaning : Name → Word) (w : Word) : Word :=
  w.flatMap fun
    | .terminal a => [.terminal a]
    | .nonTerminal A => meaning A

section

variable (meaning : Name → Word)

@[simp] theorem substitute_nil : substitute meaning [] = [] := rfl

@[simp] theorem substitute_terminal_cons (a : Name) (w : Word) :
    substitute meaning (.terminal a :: w) = .terminal a :: substitute meaning w := rfl

@[simp] theorem substitute_nonTerminal_cons (A : Name) (w : Word) :
    substitute meaning (.nonTerminal A :: w) = meaning A ++ substitute meaning w := rfl

@[simp] theorem substitute_append (v w : Word) :
    substitute meaning (v ++ w) = substitute meaning v ++ substitute meaning w :=
  List.flatMap_append

@[simp] theorem substitute_map_terminal (u : Sentence) :
    substitute meaning (u.map .terminal) = u.map .terminal := by
  induction u with
  | nil => rfl
  | cons a u ih => rw [List.map_cons, substitute_terminal_cons, ih]

end

theorem substitute_congr {meaning meaning' : Name → Word} {w : Word}
    (h : ∀ A, .nonTerminal A ∈ w → meaning A = meaning' A) :
    substitute meaning w = substitute meaning' w := by
  induction w with
  | nil => rfl
  | cons x w ih =>
      have htail := ih fun A hA => h A (List.mem_cons_of_mem x hA)
      cases x with
      | terminal a => rw [substitute_terminal_cons, substitute_terminal_cons, htail]
      | nonTerminal A =>
          rw [substitute_nonTerminal_cons, substitute_nonTerminal_cons, htail,
            h A List.mem_cons_self]

theorem substitute_self (w : Word) : substitute (fun A => [.nonTerminal A]) w = w := by
  induction w with
  | nil => rfl
  | cons x w ih => cases x <;> simp [ih]

end Word

namespace Grammar

variable {g h : Grammar}

theorem Derives.substitute {meaning : Name → Word}
    (hsim : ∀ p ∈ h.productions, g.Derives (meaning p.lhs) (Word.substitute meaning p.rhs))
    {v w : Word} (hd : h.Derives v w) :
    g.Derives (Word.substitute meaning v) (Word.substitute meaning w) := by
  induction hd with
  | refl => exact .refl
  | step _ hp ih =>
      apply ih.trans
      cases hp with
      | intro pre hp post =>
          have hstep := (hsim _ hp).context (Word.substitute meaning pre)
            (Word.substitute meaning post)
          simpa using hstep

theorem derives_substitute {meaning : Name → Word}
    (hmeaning : ∀ A, g.Derives [.nonTerminal A] (meaning A)) (w : Word) :
    g.Derives w (Word.substitute meaning w) := by
  induction w with
  | nil => exact .refl
  | cons x w ih =>
      cases x with
      | terminal a => exact (Derives.refl (u := [.terminal a])).append ih
      | nonTerminal A => exact (hmeaning A).append ih

theorem derives_of_simulated
    (hsim : ∀ p ∈ h.productions, g.Derives [.nonTerminal p.lhs] p.rhs) {v w : Word}
    (hd : h.Derives v w) : g.Derives v w := by
  have hself : ∀ p ∈ h.productions, g.Derives [.nonTerminal p.lhs]
      (Word.substitute (fun A => [.nonTerminal A]) p.rhs) := by
    intro p hp
    rw [Word.substitute_self]
    exact hsim p hp
  have hsubst : g.Derives (Word.substitute (fun A => [.nonTerminal A]) v)
      (Word.substitute (fun A => [.nonTerminal A]) w) := hd.substitute hself
  rwa [Word.substitute_self, Word.substitute_self] at hsubst

theorem Derives.mono (hsub : ∀ p ∈ h.productions, p ∈ g.productions) {v w : Word}
    (hd : h.Derives v w) : g.Derives v w :=
  derives_of_simulated (fun p hp => derives_of_mem (hsub p hp)) hd

theorem derives_congr (heq : ∀ p, p ∈ h.productions ↔ p ∈ g.productions) {v w : Word} :
    h.Derives v w ↔ g.Derives v w :=
  ⟨Derives.mono fun p => (heq p).mp, Derives.mono fun p => (heq p).mpr⟩

theorem lhs_derives {p : Production} (hp : p ∈ g.productions) {w : Word}
    (hd : g.Derives p.rhs w) : g.Derives [.nonTerminal p.lhs] w :=
  (derives_of_mem hp).trans hd

/-! ## Symbols along a derivation -/

/-- What productions hand on from their left-hand sides to all symbols on the right holds of all
symbols of a word that is derived from such symbols. -/
theorem Derives.forall_mem {motive : Symbol → Prop}
    (hstep : ∀ p ∈ g.productions, motive (.nonTerminal p.lhs) → ∀ x ∈ p.rhs, motive x)
    {v w : Word} (hd : g.Derives v w) (hv : ∀ x ∈ v, motive x) : ∀ x ∈ w, motive x := by
  induction hd with
  | refl => exact hv
  | step _ hp ih =>
      cases hp with
      | intro pre hp post =>
          simp only [List.forall_mem_append, List.forall_mem_cons] at ih ⊢
          obtain ⟨hpre, hlhs, hpost⟩ := ih
          exact ⟨⟨hpre, hstep _ hp hlhs⟩, hpost⟩

/-- A derivation from such symbols uses productions for such symbols only. -/
theorem Derives.of_closed {motive : Symbol → Prop}
    (hstep : ∀ p ∈ h.productions, motive (.nonTerminal p.lhs) →
      p ∈ g.productions ∧ ∀ x ∈ p.rhs, motive x) {v w : Word}
    (hd : h.Derives v w) (hv : ∀ x ∈ v, motive x) : g.Derives v w := by
  induction hd with
  | refl => exact .refl
  | step hd hp ih =>
      have hall := hd.forall_mem (fun p hp hlhs => (hstep p hp hlhs).2) hv
      cases hp with
      | intro pre hp post =>
          have hlhs := hall _ (List.mem_append_right pre List.mem_cons_self)
          exact ih.step (.intro pre (hstep _ hp hlhs).1 post)

theorem Yields.mem_of_terminal_mem {w : Word} {u : Sentence} (hy : g.Yields w u) {a : Name}
    (ha : .terminal a ∈ w) : a ∈ u := by
  induction hy with
  | nil => exact absurd ha List.not_mem_nil
  | terminal b _ ih =>
      rcases List.mem_cons.mp ha with heq | ha
      · cases heq
        exact List.mem_cons_self
      · exact List.mem_cons_of_mem b (ih ha)
  | nonTerminal _ _ _ _ ih =>
      rcases List.mem_cons.mp ha with heq | ha
      · cases heq
      · exact List.mem_append_right _ (ih ha)

/-- A word derives a sentence of admitted letters if its own letters are admitted and each of its
non-terminals derives such a sentence. -/
theorem exists_admitted_yields {admitted : Name → Prop} {w : Word}
    (hletter : ∀ a, .terminal a ∈ w → admitted a)
    (hw : ∀ A, .nonTerminal A ∈ w → ∃ u, g.Generates A u ∧ ∀ a ∈ u, admitted a) :
    ∃ u, g.Yields w u ∧ ∀ a ∈ u, admitted a := by
  induction w with
  | nil => exact ⟨[], .nil, fun a ha => absurd ha List.not_mem_nil⟩
  | cons x w ih =>
      obtain ⟨v, hv, hvletter⟩ := ih (fun a ha => hletter a (List.mem_cons_of_mem x ha))
        (fun A hA => hw A (List.mem_cons_of_mem x hA))
      cases x with
      | terminal a =>
          exact ⟨a :: v, hv.terminal a,
            List.forall_mem_cons.mpr ⟨hletter a List.mem_cons_self, hvletter⟩⟩
      | nonTerminal A =>
          obtain ⟨u, hu, huletter⟩ := hw A List.mem_cons_self
          exact ⟨u ++ v, (generates_iff_yields.mp hu).append hv,
            List.forall_mem_append.mpr ⟨huletter, hvletter⟩⟩

theorem Yields.exists_generates {w : Word} {u : Sentence} (hy : g.Yields w u) {A : Name}
    (hA : .nonTerminal A ∈ w) : ∃ v, g.Generates A v := by
  obtain ⟨pre, post, rfl⟩ := List.append_of_mem hA
  obtain ⟨_, _, -, -, hrest⟩ := hy.of_append
  obtain ⟨v, _, -, hv, -⟩ := Yields.of_append (w := [.nonTerminal A]) hrest
  exact ⟨v, generates_iff_yields.mpr hv⟩

theorem exists_yields {w : Word} (hw : ∀ A, .nonTerminal A ∈ w → ∃ u, g.Generates A u) :
    ∃ u, g.Yields w u := by
  have hall : ∀ A, .nonTerminal A ∈ w → ∃ u, g.Generates A u ∧ ∀ a ∈ u, True := by simpa using hw
  obtain ⟨u, hu, _⟩ := exists_admitted_yields (fun _ _ => trivial) hall
  exact ⟨u, hu⟩

theorem Consistent.declares_of_derives (hg : g.Consistent) {v w : Word} (hd : g.Derives v w)
    (hv : ∀ x ∈ v, g.Declares x) : ∀ x ∈ w, g.Declares x :=
  hd.forall_mem (fun p hp _ x hx => hg.2 p hp x (List.mem_cons_of_mem _ hx)) hv

theorem Consistent.lhs_mem (hg : g.Consistent) {p : Production} (hp : p ∈ g.productions) :
    p.lhs ∈ g.nonTerminals := hg.2 p hp (.nonTerminal p.lhs) List.mem_cons_self

theorem Consistent.declares_of_mem_rhs (hg : g.Consistent) {p : Production}
    (hp : p ∈ g.productions) {x : Symbol} (hx : x ∈ p.rhs) : g.Declares x :=
  hg.2 p hp x (List.mem_cons_of_mem _ hx)

theorem Consistent.mem_nonTerminals_of_generates (hg : g.Consistent) {A : Name} {u : Sentence}
    (hgen : g.Generates A u) : A ∈ g.nonTerminals := by
  obtain ⟨p, hp, rfl, _⟩ := generates_iff.mp hgen
  exact hg.lhs_mem hp

theorem Consistent.mem_terminals_of_generates (hg : g.Consistent) {A a : Name} {u : Sentence}
    (hgen : g.Generates A u) (ha : a ∈ u) : a ∈ g.terminals := by
  have hA := hg.mem_nonTerminals_of_generates hgen
  have hdecl := hg.declares_of_derives hgen (List.forall_mem_singleton.mpr hA)
  exact hdecl (.terminal a) (List.mem_map.mpr ⟨a, ha, rfl⟩)

/-! ## Symbols that are of use -/

/-- The symbol occurs in a word that the start symbol derives. -/
def Reaches (g : Grammar) (x : Symbol) : Prop :=
  ∃ pre post, g.Derives [.nonTerminal g.start] (pre ++ x :: post)

/-- The non-terminal occurs on the way from the start symbol to a sentence. -/
def Useful (g : Grammar) (A : Name) : Prop :=
  ∃ (pre post : Word) (u : Sentence),
    g.Derives [.nonTerminal g.start] (pre ++ .nonTerminal A :: post) ∧
      g.Derives (pre ++ .nonTerminal A :: post) (u.map .terminal)

theorem reaches_start (g : Grammar) : g.Reaches (.nonTerminal g.start) :=
  ⟨[], [], .refl⟩

theorem Reaches.of_production {p : Production} (hp : p ∈ g.productions)
    (hlhs : g.Reaches (.nonTerminal p.lhs)) {x : Symbol} (hx : x ∈ p.rhs) : g.Reaches x := by
  obtain ⟨pre, post, hd⟩ := hlhs
  obtain ⟨before, after, hrhs⟩ := List.append_of_mem hx
  have hstep := hd.step (.intro pre hp post)
  rw [hrhs] at hstep
  exact ⟨pre ++ before, after ++ post, by simpa using hstep⟩

/-- Where every non-terminal in reach derives a sentence, those in reach are useful. -/
theorem Reaches.useful (hall : ∀ A, g.Reaches (.nonTerminal A) → ∃ u, g.Generates A u) {A : Name}
    (hA : g.Reaches (.nonTerminal A)) : g.Useful A := by
  obtain ⟨pre, post, hd⟩ := hA
  have hin : ∀ B, .nonTerminal B ∈ pre ++ .nonTerminal A :: post → ∃ u, g.Generates B u := by
    intro B hB
    refine hall B (hd.forall_mem (fun p hp hlhs x hx => hlhs.of_production hp hx) ?_ _ hB)
    exact List.forall_mem_singleton.mpr g.reaches_start
  obtain ⟨u, hu⟩ := exists_yields hin
  exact ⟨pre, post, u, hd, hu.derives⟩

/-- The production is applied on the way from the start symbol to a sentence. -/
def Uses (g : Grammar) (p : Production) : Prop :=
  p ∈ g.productions ∧ ∃ (pre post : Word) (u : Sentence),
    g.Derives [.nonTerminal g.start] (pre ++ .nonTerminal p.lhs :: post) ∧
      g.Derives (pre ++ p.rhs ++ post) (u.map .terminal)

/-- A production for a useful non-terminal is used, if its right-hand side derives a sentence. -/
theorem Useful.uses {p : Production} (hp : p ∈ g.productions) (huse : g.Useful p.lhs)
    (hrhs : ∃ v, g.Yields p.rhs v) : g.Uses p := by
  obtain ⟨pre, post, u, hd, hu⟩ := huse
  obtain ⟨v, hv⟩ := hrhs
  obtain ⟨before, _, -, hbefore, hrest⟩ := (derives_map_iff.mp hu).of_append
  obtain ⟨_, after, -, -, hafter⟩ := Yields.of_append (w := [.nonTerminal p.lhs]) hrest
  exact ⟨hp, pre, post, _, hd, ((hbefore.append hv).append hafter).derives⟩

theorem Uses.derives_start {p : Production} (h : g.Uses p) : ∃ (pre post : Word) (u : Sentence),
    g.Derives [.nonTerminal g.start] (pre ++ p.rhs ++ post) ∧
      g.Derives (pre ++ p.rhs ++ post) (u.map .terminal) := by
  obtain ⟨hp, pre, post, u, hd, hu⟩ := h
  exact ⟨pre, post, u, hd.step (.intro pre hp post), hu⟩

theorem Uses.useful {p : Production} (h : g.Uses p) : g.Useful p.lhs := by
  obtain ⟨hp, pre, post, u, hd, hu⟩ := h
  exact ⟨pre, post, u, hd, (Produces.intro pre hp post).derives.trans hu⟩

/-- A terminal of a production for a useful non-terminal occurs in a sentence of the language, if
the non-terminals of that production derive sentences. -/
theorem Useful.exists_language {p : Production} (hp : p ∈ g.productions) (huse : g.Useful p.lhs)
    (hrhs : ∃ v, g.Yields p.rhs v) {a : Name} (ha : .terminal a ∈ p.rhs) :
    ∃ u, g.Language u ∧ a ∈ u := by
  obtain ⟨pre, post, u, hd, hu⟩ := (huse.uses hp hrhs).derives_start
  have hmem := (derives_map_iff.mp hu).mem_of_terminal_mem
    (List.mem_append_left post (List.mem_append_right pre ha))
  exact ⟨u, hd.trans hu, hmem⟩

end Grammar

end ContextFree
