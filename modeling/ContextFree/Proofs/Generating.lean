import ContextFree.Generating
import ContextFree.Proofs.Derivation

/-!
# What the generating non-terminals are

The non-terminals that the rounds find are those that derive a sentence of admitted letters
(`mem_generating_iff`). For no letters these are the ones that derive the empty word, and for all
letters those that derive any sentence at all.
-/

namespace ContextFree

namespace Grammar

variable {g : Grammar} {letter : Name → Bool}

theorem Yields.all_covers {w : Word} {u : Sentence} (hy : g.Yields w u)
    (hletter : ∀ a ∈ u, letter a = true) : w.all (covers letter (g.generating letter)) = true := by
  induction hy with
  | nil => rfl
  | terminal a _ ih =>
      obtain ⟨ha, hrest⟩ := List.forall_mem_cons.mp hletter
      rw [List.all_cons, ih hrest, Bool.and_true]
      exact ha
  | nonTerminal hp _ _ ihrhs ih =>
      obtain ⟨hfirst, hrest⟩ := List.forall_mem_append.mp hletter
      have hlhs := lhs_mem_generating hp (ihrhs hfirst)
      rw [List.all_cons, ih hrest, Bool.and_true]
      exact decide_eq_true hlhs

theorem mem_generating_iff {A : Name} :
    A ∈ g.generating letter ↔ ∃ u, g.Generates A u ∧ ∀ a ∈ u, letter a = true := by
  constructor
  · refine generating_induction
      (motive := fun A => ∃ u, g.Generates A u ∧ ∀ a ∈ u, letter a = true)
      (fun p hp hletter hcovered => ?_) A
    obtain ⟨u, hu, huletter⟩ := exists_admitted_yields hletter hcovered
    exact ⟨u, generates_iff.mpr ⟨p, hp, rfl, hu⟩, huletter⟩
  · rintro ⟨u, hu, hletter⟩
    have hall := (generates_iff_yields.mp hu).all_covers hletter
    exact (all_covers_iff.mp hall).2 A List.mem_cons_self

theorem mem_nullable_iff {A : Name} : A ∈ g.nullable ↔ g.Generates A [] := by
  rw [nullable, mem_generating_iff]
  constructor
  · rintro ⟨u, hu, hletter⟩
    have hnil : u = [] := List.eq_nil_iff_forall_not_mem.mpr fun a ha =>
      absurd (hletter a ha) Bool.false_ne_true
    exact hnil ▸ hu
  · exact fun hA => ⟨[], hA, fun a ha => absurd ha List.not_mem_nil⟩

theorem mem_productive_iff {A : Name} : A ∈ g.productive ↔ ∃ u, g.Generates A u := by
  rw [productive, mem_generating_iff]
  simp

end Grammar

end ContextFree
