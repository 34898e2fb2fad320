import ContextFree.Grammar

/-!
# Generating non-terminals

The non-terminals that derive a sentence all of whose letters are admitted, in the order in which
rounds over the productions find them: a production whose right-hand side is covered by the admitted
letters and the non-terminals found so far adds its left-hand side at once. With no letter admitted
these are the nullable non-terminals, with every letter admitted the productive ones.

A production waits for its turn from the moment at which it is covered: for a later place in the
same round or, where its place is passed already, for the next round. Only the productions that
mention a non-terminal can come to be covered when it is found. What is found is closed under
covered productions (`lhs_mem_generating`), and nothing else is found (`generating_induction`).
-/

namespace ContextFree

namespace Grammar

/-- A production of a grammar, with its place among all of them. -/
structure Placed (g : Grammar) where
  production : Production
  place : Nat
  mem_productions : production ∈ g.productions

def placed (g : Grammar) : List g.Placed :=
  g.productions.toList.attach.zipIdx.map fun (p, i) => ⟨p.1, i, p.2⟩

theorem exists_mem_placed {g : Grammar} {p : Production} (h : p ∈ g.productions) :
    ∃ q ∈ g.placed, q.production = p := by
  obtain ⟨i, hi, hp⟩ := List.mem_iff_getElem.mp (List.mem_attach g.productions.toList ⟨p, h⟩)
  refine ⟨⟨p, i, h⟩, List.mem_map.mpr ⟨(⟨p, h⟩, i), ?_, rfl⟩, rfl⟩
  exact List.mem_zipIdx_iff_getElem?.mpr (List.getElem?_eq_some_iff.mpr ⟨hi, hp⟩)

/-- For each non-terminal, the productions in whose right-hand sides it occurs, in order. -/
def uses (g : Grammar) : Grouping Name g.Placed :=
  (g.placed.flatMap fun q => (OrderedSet.ofList (Word.nonTerminals q.production.rhs)).toList.map
    fun A => (A, q)).foldr (fun e t => t.push e.1 e.2) ⟨.empty⟩

theorem mem_get_uses {g : Grammar} {q : g.Placed} (hq : q ∈ g.placed) {A : Name}
    (hA : .nonTerminal A ∈ q.production.rhs) : q ∈ g.uses.get A := by
  have hpush : ∀ l : List (Name × g.Placed), (A, q) ∈ l →
      q ∈ (l.foldr (fun e t => t.push e.1 e.2) ⟨.empty⟩ : Grouping Name g.Placed).get A := by
    intro l
    induction l with
    | nil => exact fun h => absurd h List.not_mem_nil
    | cons e l ih =>
        intro h
        rw [List.foldr_cons, Grouping.get_push]
        rcases List.mem_cons.mp h with rfl | h
        · rw [if_pos rfl]
          exact List.mem_cons_self
        · split
          · exact List.mem_cons_of_mem _ (ih h)
          · exact ih h
  refine hpush _ (List.mem_flatMap.mpr ⟨q, hq, List.mem_map.mpr ⟨A, ?_, rfl⟩⟩)
  simpa using hA

def covers (letter : Name → Bool) (known : OrderedSet Name) : Symbol → Bool
  | .terminal a => letter a
  | .nonTerminal A => decide (A ∈ known)

theorem all_covers_iff {letter : Name → Bool} {known : OrderedSet Name} {w : Word} :
    w.all (covers letter known) = true ↔
      (∀ a, .terminal a ∈ w → letter a = true) ∧ ∀ A, .nonTerminal A ∈ w → A ∈ known := by
  rw [List.all_eq_true]
  constructor
  · exact fun h => ⟨fun a ha => h _ ha, fun A hA => of_decide_eq_true (h _ hA)⟩
  · rintro ⟨hletter, hknown⟩ (a | A) hx
    · exact hletter a hx
    · exact decide_eq_true (hknown A hx)

/-- Whether a production adds its left-hand side to what was found. -/
def adds (letter : Name → Bool) (known : OrderedSet Name) (p : Production) : Bool :=
  decide (p.lhs ∉ known) && p.rhs.all (covers letter known)

theorem adds_iff {letter : Name → Bool} {known : OrderedSet Name} {p : Production} :
    adds letter known p = true ↔ p.lhs ∉ known ∧ p.rhs.all (covers letter known) = true := by
  simp [adds]

/-- Looks at the productions that wait for this round, then at those that wait for the next; both
lists go by place. -/
def generatingFrom {g : Grammar} (letter : Name → Bool) (uses : Grouping Name g.Placed)
    (known : OrderedSet Name) (hknown : ∀ A ∈ known, A ∈ g.heads) (now later : List g.Placed) :
    OrderedSet Name :=
  match now with
  | [] =>
    match later with
    | [] => known
    | q :: later => generatingFrom letter uses known hknown (q :: later) []
  | q :: now =>
    if adds letter known q.production then
      let found := q.production.lhs
      let concerned := (uses.get found).filter fun r =>
        adds letter (known.insert found) r.production
      generatingFrom letter uses (known.insert found)
        (fun A hA => (OrderedSet.mem_insert.mp hA).elim (hknown A)
          fun e => e ▸ mem_heads.mpr ⟨_, q.mem_productions, rfl⟩)
        (now.merge (concerned.filter fun r => q.place < r.place) fun r s => r.place ≤ s.place)
        (later.merge (concerned.filter fun r => r.place ≤ q.place) fun r s => r.place ≤ s.place)
    else generatingFrom letter uses known hknown now later
termination_by (g.heads.length - known.size, now.length + 2 * later.length)
decreasing_by
  · refine .right _ ?_
    simp only [List.length_cons, List.length_nil]
    omega
  · refine .left _ _ ?_
    have hnew : q.production.lhs ∉ known :=
      (adds_iff.mp ‹adds letter known q.production = true›).1
    have hsize : (known.insert q.production.lhs).size = known.size + 1 :=
      OrderedSet.size_insert_of_not_mem hnew
    have hbound : (known.insert q.production.lhs).size ≤ g.heads.length :=
      OrderedSet.size_le_of_subset fun A hA => (OrderedSet.mem_insert.mp hA).elim (hknown A)
        fun e => e ▸ mem_heads.mpr ⟨_, q.mem_productions, rfl⟩
    change g.heads.length - (known.insert q.production.lhs).size < _
    omega
  · refine .right _ ?_
    simp only [List.length_cons]
    omega

/-- The non-terminals that derive a sentence of admitted letters. -/
def generating (g : Grammar) (letter : Name → Bool) : OrderedSet Name :=
  generatingFrom letter g.uses ∅ (fun A hA => absurd hA (OrderedSet.not_mem_empty A))
    (g.placed.filter fun q => adds letter ∅ q.production) []

def nullable (g : Grammar) : OrderedSet Name := g.generating fun _ => false

def productive (g : Grammar) : OrderedSet Name := g.generating fun _ => true

variable {g : Grammar} {letter : Name → Bool}

theorem generatingFrom_induction {motive : Name → Prop}
    (hstep : ∀ p ∈ g.productions, (∀ a, .terminal a ∈ p.rhs → letter a = true) →
      (∀ A, .nonTerminal A ∈ p.rhs → motive A) → motive p.lhs)
    {uses : Grouping Name g.Placed} {known : OrderedSet Name} {hknown : ∀ A ∈ known, A ∈ g.heads}
    {now later : List g.Placed} (h : ∀ A ∈ known, motive A) :
    ∀ A ∈ generatingFrom letter uses known hknown now later, motive A := by
  fun_induction generatingFrom letter uses known hknown now later with
  | case1 known hknown => exact h
  | case2 known hknown q later ih => exact ih h
  | case3 known hknown later q now hfound found concerned ih =>
      apply ih
      intro A hA
      rcases OrderedSet.mem_insert.mp hA with hold | rfl
      · exact h A hold
      · obtain ⟨hletter, hcovered⟩ := all_covers_iff.mp (adds_iff.mp hfound).2
        exact hstep _ q.mem_productions hletter fun A hA => h A (hcovered A hA)
  | case4 known hknown later q now hfound ih => exact ih h

/-- What every covered production hands on to its left-hand side holds of all that is found. -/
theorem generating_induction {motive : Name → Prop}
    (hstep : ∀ p ∈ g.productions, (∀ a, .terminal a ∈ p.rhs → letter a = true) →
      (∀ A, .nonTerminal A ∈ p.rhs → motive A) → motive p.lhs) :
    ∀ A ∈ g.generating letter, motive A :=
  generatingFrom_induction hstep fun A hA => absurd hA (OrderedSet.not_mem_empty A)

theorem lhs_mem_generatingFrom {uses : Grouping Name g.Placed} {known : OrderedSet Name}
    {hknown : ∀ A ∈ known, A ∈ g.heads} {now later : List g.Placed}
    (huses : ∀ q ∈ g.placed, ∀ A, .nonTerminal A ∈ q.production.rhs → q ∈ uses.get A)
    (hwait : ∀ q ∈ g.placed, q.production.rhs.all (covers letter known) = true →
      q.production.lhs ∈ known ∨ q ∈ now ∨ q ∈ later) :
    ∀ q ∈ g.placed, q.production.rhs.all
        (covers letter (generatingFrom letter uses known hknown now later)) = true →
      q.production.lhs ∈ generatingFrom letter uses known hknown now later := by
  fun_induction generatingFrom letter uses known hknown now later with
  | case1 known hknown => exact fun q hq hcovered => by simpa using hwait q hq hcovered
  | case2 known hknown q later ih =>
      exact ih fun r hr hcovered => by simpa using hwait r hr hcovered
  | case3 known hknown later q now hfound found concerned ih =>
      refine ih fun r hr hcovered => ?_
      by_cases hbefore : r.production.rhs.all (covers letter known) = true
      · rcases hwait r hr hbefore with hold | hnow | hlater
        · exact Or.inl (OrderedSet.mem_insert_of_mem hold)
        · rcases List.mem_cons.mp hnow with rfl | hnow
          · exact Or.inl (OrderedSet.mem_insert_self _ _)
          · exact Or.inr (Or.inl (List.mem_merge.mpr (Or.inl hnow)))
        · exact Or.inr (Or.inr (List.mem_merge.mpr (Or.inl hlater)))
      · have hmentions : .nonTerminal found ∈ r.production.rhs := by
          obtain ⟨hletter, hnonTerminals⟩ := all_covers_iff.mp hcovered
          rw [all_covers_iff] at hbefore
          refine Decidable.byContradiction fun hnot => hbefore ⟨hletter, fun A hA => ?_⟩
          exact (OrderedSet.mem_insert.mp (hnonTerminals A hA)).resolve_right
            fun e => hnot (e ▸ hA)
        refine Decidable.or_iff_not_imp_left.mpr fun hnot => ?_
        have hconcerned : r ∈ concerned := List.mem_filter.mpr
          ⟨huses r hr found hmentions, adds_iff.mpr ⟨hnot, hcovered⟩⟩
        rcases Nat.lt_or_ge q.place r.place with hlt | hge
        · exact Or.inl (List.mem_merge.mpr (Or.inr
            (List.mem_filter.mpr ⟨hconcerned, decide_eq_true hlt⟩)))
        · exact Or.inr (List.mem_merge.mpr (Or.inr
            (List.mem_filter.mpr ⟨hconcerned, decide_eq_true hge⟩)))
  | case4 known hknown later q now hfound ih =>
      refine ih fun r hr hcovered => ?_
      rcases hwait r hr hcovered with hold | hnow | hlater
      · exact Or.inl hold
      · rcases List.mem_cons.mp hnow with rfl | hnow
        · exact Or.inl (Decidable.byContradiction fun hnot =>
            hfound (adds_iff.mpr ⟨hnot, hcovered⟩))
        · exact Or.inr (Or.inl hnow)
      · exact Or.inr (Or.inr hlater)

/-- A production whose right-hand side is covered by what was found has its left-hand side
found. -/
theorem lhs_mem_generating {p : Production} (hp : p ∈ g.productions)
    (hcovered : p.rhs.all (covers letter (g.generating letter)) = true) :
    p.lhs ∈ g.generating letter := by
  obtain ⟨q, hq, rfl⟩ := exists_mem_placed hp
  exact lhs_mem_generatingFrom (fun _ hq _ hA => mem_get_uses hq hA)
    (fun r hr h => Or.inr (Or.inl (List.mem_filter.mpr
      ⟨hr, adds_iff.mpr ⟨OrderedSet.not_mem_empty _, h⟩⟩))) q hq hcovered

end Grammar

end ContextFree
