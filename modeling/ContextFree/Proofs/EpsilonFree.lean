import ContextFree.EpsilonFree
import ContextFree.Proofs.Generating

/-!
# The language without the empty word

A grammar and the one without ε-productions agree on every non-terminal, but for the empty word
(`generates_epsilonFree_iff`). A word derives each of its variants, since what is left out is
nullable; the other way, the parts of a word that derive the empty word tell which variant to take.
The productions themselves are what the old ones come to when nullable non-terminals are omitted
(`epsilonFree_exact`).
-/

namespace ContextFree

/-- What is left of a word without the symbols at the omitted places. -/
def Word.omitting (omitted : Nat → Bool) (w : Word) : Word :=
  (w.mapIdx fun i x => if omitted i then none else some x).filterMap id

theorem Word.omitting_cons (omitted : Nat → Bool) (x : Symbol) (w : Word) :
    Word.omitting omitted (x :: w) =
      if omitted 0 then Word.omitting (fun i => omitted (i + 1)) w
      else x :: Word.omitting (fun i => omitted (i + 1)) w := by
  cases h : omitted 0 <;> simp [Word.omitting, List.mapIdx_cons, h]

namespace Grammar

variable {g : Grammar}

theorem covers_nullable_iff {x : Symbol} :
    covers (fun _ => false) g.nullable x = true ↔ ∃ A, x = .nonTerminal A ∧ g.Generates A [] := by
  cases x with
  | terminal a => simp [covers]
  | nonTerminal A => simp [covers, mem_nullable_iff]

theorem derives_of_mem_variants {w v : Word}
    (h : v ∈ variants (covers (fun _ => false) g.nullable) w) : g.Derives w v := by
  induction w generalizing v with
  | nil =>
      rw [variants_nil, List.mem_singleton] at h
      exact h ▸ .refl
  | cons x w ih =>
      rcases List.mem_append.mp h with hkeep | hdrop
      · obtain ⟨v', hv', rfl⟩ := List.mem_map.mp hkeep
        exact (Derives.refl (u := [x])).append (ih hv')
      · split at hdrop
        · rename_i hx
          obtain ⟨A, rfl, hA⟩ := covers_nullable_iff.mp hx
          exact Derives.append (u := [.nonTerminal A]) (v := []) hA (ih hdrop)
        · exact absurd hdrop List.not_mem_nil

theorem epsilonFree_rhs_ne_nil {p : Production} (hp : p ∈ g.epsilonFree.productions) :
    p.rhs ≠ [] := by
  obtain ⟨q, _, _, hvariant⟩ := mem_productions_epsilonFree.mp hp
  exact (mem_epsilonVariants.mp hvariant).2.1

theorem Consistent.epsilonFree (hg : g.Consistent) : g.epsilonFree.Consistent := by
  refine ⟨hg.1, fun q hq x hx => ?_⟩
  obtain ⟨p, hp, _, hvariant⟩ := mem_productions_epsilonFree.mp hq
  obtain ⟨hlhs, _, hrhs⟩ := mem_epsilonVariants.mp hvariant
  have hsub := (sublist_of_mem_variants hrhs).cons_cons (.nonTerminal p.lhs)
  rw [hlhs] at hx
  exact hg.2 p hp x (hsub.subset hx)

/-- Without ε-productions nothing derives the empty word. -/
theorem Yields.ne_nil (hg : ∀ p ∈ g.productions, p.rhs ≠ []) {w : Word} {u : Sentence}
    (hy : g.Yields w u) (hw : w ≠ []) : u ≠ [] := by
  induction hy with
  | nil => exact absurd rfl hw
  | terminal a _ _ => exact List.cons_ne_nil a _
  | nonTerminal hp _ _ ihrhs _ => exact List.append_ne_nil_of_left_ne_nil (ihrhs (hg _ hp)) _

theorem Generates.ne_nil (hg : ∀ p ∈ g.productions, p.rhs ≠ []) {A : Name} {u : Sentence}
    (hgen : g.Generates A u) : u ≠ [] :=
  (generates_iff_yields.mp hgen).ne_nil hg (List.cons_ne_nil _ _)

/-- Some variant of the word derives the sentence without ε-productions. -/
theorem Yields.exists_variant {w : Word} {u : Sentence} (hy : g.Yields w u) :
    ∃ v ∈ variants (covers (fun _ => false) g.nullable) w, g.epsilonFree.Yields v u := by
  induction hy with
  | nil => exact ⟨[], List.mem_singleton.mpr rfl, .nil⟩
  | terminal a _ ih =>
      obtain ⟨v, hv, hyv⟩ := ih
      exact ⟨.terminal a :: v, List.mem_append_left _ (List.mem_map.mpr ⟨v, hv, rfl⟩),
        hyv.terminal a⟩
  | @nonTerminal p w u u' hp hrhs _ ihrhs ih =>
      obtain ⟨v, hv, hyv⟩ := ih
      by_cases hu : u = []
      · -- The non-terminal derives the empty word, so it may be left out.
        have hnull : covers (fun _ => false) g.nullable (.nonTerminal p.lhs) = true :=
          covers_nullable_iff.mpr ⟨p.lhs, rfl, generates_iff.mpr ⟨p, hp, rfl, hu ▸ hrhs⟩⟩
        refine ⟨v, List.mem_append_right _ ?_, by rwa [hu]⟩
        rwa [if_pos hnull]
      · obtain ⟨r, hr, hyr⟩ := ihrhs
        have hrne : r ≠ [] := by
          rintro rfl
          cases hyr
          exact hu rfl
        have hpne : p.rhs ≠ [] := by
          intro hnil
          rw [hnil] at hrhs
          cases hrhs
          exact hu rfl
        have hmem : (⟨p.lhs, r⟩ : Production) ∈ g.epsilonFree.productions :=
          mem_productions_epsilonFree.mpr
            ⟨p, hp, hpne, mem_epsilonVariants.mpr ⟨rfl, hrne, hr⟩⟩
        exact ⟨.nonTerminal p.lhs :: v, List.mem_append_left _ (List.mem_map.mpr ⟨v, hv, rfl⟩),
          Yields.nonTerminal (p := ⟨p.lhs, r⟩) hmem hyr hyv⟩

theorem derives_of_epsilonFree {v w : Word} (hd : g.epsilonFree.Derives v w) : g.Derives v w := by
  refine derives_of_simulated (fun q hq => ?_) hd
  obtain ⟨p, hp, _, hvariant⟩ := mem_productions_epsilonFree.mp hq
  obtain ⟨hlhs, _, hrhs⟩ := mem_epsilonVariants.mp hvariant
  rw [hlhs]
  exact lhs_derives hp (derives_of_mem_variants hrhs)

theorem generates_epsilonFree_iff {A : Name} {u : Sentence} :
    g.epsilonFree.Generates A u ↔ g.Generates A u ∧ u ≠ [] := by
  constructor
  · exact fun hgen => ⟨derives_of_epsilonFree hgen, hgen.ne_nil fun p => epsilonFree_rhs_ne_nil⟩
  · rintro ⟨hgen, hu⟩
    rw [generates_iff_yields] at hgen ⊢
    obtain ⟨v, hv, hyv⟩ := hgen.exists_variant
    cases sublist_of_mem_variants hv with
    | cons _ hnil =>
        rw [List.sublist_nil.mp hnil] at hyv
        cases hyv
        exact absurd rfl hu
    | cons_cons _ hnil =>
        rwa [List.sublist_nil.mp hnil] at hyv

/-! ## Variants by the places that are omitted -/

theorem omitting_mem_variants {optional : Symbol → Bool} {omitted : Nat → Bool} {w : Word}
    (h : ∀ i x, w[i]? = some x → omitted i = true → optional x = true) :
    w.omitting omitted ∈ variants optional w := by
  induction w generalizing omitted with
  | nil => exact List.mem_singleton.mpr rfl
  | cons x w ih =>
      have hrest : Word.omitting (fun i => omitted (i + 1)) w ∈ variants optional w :=
        ih fun i => h (i + 1)
      rw [Word.omitting_cons]
      split
      · rename_i hfirst
        refine List.mem_append_right _ ?_
        rwa [if_pos (h 0 x rfl hfirst)]
      · exact List.mem_append_left _ (List.mem_map.mpr ⟨_, hrest, rfl⟩)

theorem exists_omitting_of_mem_variants {optional : Symbol → Bool} {w v : Word}
    (h : v ∈ variants optional w) : ∃ omitted : Nat → Bool,
      (∀ i x, w[i]? = some x → omitted i = true → optional x = true) ∧
        v = w.omitting omitted := by
  induction w generalizing v with
  | nil => exact ⟨fun _ => false, by simp, by simpa [Word.omitting] using h⟩
  | cons x w ih =>
      -- The first place is kept or omitted, and the other places move up by one.
      rcases List.mem_append.mp h with hkeep | hdrop
      · obtain ⟨v', hv', rfl⟩ := List.mem_map.mp hkeep
        obtain ⟨omitted, hoptional, rfl⟩ := ih hv'
        refine ⟨fun i => i.casesOn false omitted, fun i y hy hi => ?_, ?_⟩
        · cases i with
          | zero => exact absurd hi Bool.false_ne_true
          | succ i => exact hoptional i y hy hi
        · rw [Word.omitting_cons]
          rfl
      · split at hdrop
        · rename_i hx
          obtain ⟨omitted, hoptional, rfl⟩ := ih hdrop
          refine ⟨fun i => i.casesOn true omitted, fun i y hy hi => ?_, ?_⟩
          · cases i with
            | zero => exact Option.some.inj hy ▸ hx
            | succ i => exact hoptional i y hy hi
          · rw [Word.omitting_cons]
            rfl
        · exact absurd hdrop List.not_mem_nil

/-- The words that come of one when some occurrences of nullable non-terminals, or none, are
omitted. -/
def OmitsNullable (g : Grammar) (w v : Word) : Prop :=
  ∃ omitted : Nat → Bool,
    (∀ i x, w[i]? = some x → omitted i = true → ∃ B, x = .nonTerminal B ∧ g.Generates B []) ∧
      v = w.omitting omitted

theorem mem_variants_nullable_iff {w v : Word} :
    v ∈ variants (covers (fun _ => false) g.nullable) w ↔ g.OmitsNullable w v := by
  simp only [OmitsNullable, ← covers_nullable_iff]
  constructor
  · exact exists_omitting_of_mem_variants
  · rintro ⟨omitted, hnullable, rfl⟩
    exact omitting_mem_variants hnullable

theorem mem_productions_epsilonFree_iff {A : Name} {v : Word} :
    ⟨A, v⟩ ∈ g.epsilonFree.productions ↔
      v ≠ [] ∧ ∃ w, ⟨A, w⟩ ∈ g.productions ∧ g.OmitsNullable w v := by
  rw [mem_productions_epsilonFree]
  simp only [mem_epsilonVariants, mem_variants_nullable_iff]
  constructor
  · rintro ⟨p, hp, _, rfl, hv, homits⟩
    exact ⟨hv, p.rhs, hp, homits⟩
  · rintro ⟨hv, w, hp, homits⟩
    refine ⟨⟨A, w⟩, hp, fun hnil => hv ?_, rfl, hv, homits⟩
    -- Nothing can be left of the empty word but the empty word.
    obtain rfl : w = [] := hnil
    exact List.sublist_nil.mp (sublist_of_mem_variants (mem_variants_nullable_iff.mpr homits))

/-- Without ε-productions, with the same symbols, and with the same words but for the empty one; and
the productions are the nonempty words that come of old right-hand sides when nullable non-terminals
are omitted. -/
theorem epsilonFree_exact (g : Grammar) :
    (∀ p ∈ g.epsilonFree.productions, p.rhs ≠ []) ∧
      g.epsilonFree.start = g.start ∧ g.epsilonFree.nonTerminals = g.nonTerminals ∧
      g.epsilonFree.terminals = g.terminals ∧
      (∀ A u, g.epsilonFree.Generates A u ↔ g.Generates A u ∧ u ≠ []) ∧
      ∀ A v, ⟨A, v⟩ ∈ g.epsilonFree.productions ↔
        v ≠ [] ∧ ∃ w, ⟨A, w⟩ ∈ g.productions ∧ g.OmitsNullable w v :=
  ⟨fun _ => epsilonFree_rhs_ne_nil, rfl, rfl, rfl, fun _ _ => generates_epsilonFree_iff,
    fun _ _ => mem_productions_epsilonFree_iff⟩

end Grammar

end ContextFree
