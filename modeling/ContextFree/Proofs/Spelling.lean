import ContextFree.Notation.Definition
import ContextFree.Proofs.Outline
import ContextFree.Proofs.Segmentation

/-!
# Reading words back

A word is written with its names glued together where all of them have one character, and with
spaces between them otherwise. With spaces it is read back as it was. Glued together it may be
misread, as the empty word if its text is `ε`, and otherwise if a longer name stands in its text
(`exists_readBack`). A misread word is read as one that cannot itself be misread.
-/

namespace ContextFree

namespace Word

variable {w : Word}

theorem text_of_isShort (hne : w ≠ []) (hw : w.IsShort) : w.text = w.glued := by
  cases w with
  | nil => exact absurd rfl hne
  | cons x w =>
      have hall : ((x :: w).map Symbol.name).all (fun a => a.chars.length = 1) = true := by
        simpa [IsShort] using hw
      rw [text, List.map_cons, spell, ← List.map_cons, if_pos hall, List.flatMap_map, glued]

theorem text_of_not_isShort (hw : ¬ w.IsShort) :
    w.text = [' '].intercalate (w.map fun x => x.name.chars) := by
  cases w with
  | nil => exact absurd (List.forall_mem_nil _) hw
  | cons x w =>
      have hall : ¬ ((x :: w).map Symbol.name).all (fun a => a.chars.length = 1) = true := by
        simpa [IsShort] using hw
      rw [text, List.map_cons, spell, ← List.map_cons, if_neg hall, List.map_map]
      rfl

theorem text_ne_nil (w : Word) : w.text ≠ [] := by
  by_cases hnil : w = []
  · subst hnil
    exact List.cons_ne_nil _ _
  by_cases hshort : w.IsShort
  · rw [text_of_isShort hnil hshort]
    exact glued_ne_nil hnil
  · obtain ⟨x, w, rfl⟩ := List.exists_cons_of_ne_nil hnil
    rw [text_of_not_isShort hshort, List.map_cons, Reader.intercalate_cons]
    exact List.append_ne_nil_of_left_ne_nil x.name.chars_ne_nil _

end Word

namespace Outline

open Reader

/-! ## Written words as alternatives -/

theorem writtenAlternative_of_forall {t : Text} (ht : ∀ c ∈ t, MayNameSymbol c) :
    WrittenAlternative t t := by
  refine ⟨fun c hc => ?_, Text.isTrimmed_self (fun c hc => (ht c (List.mem_of_mem_head? hc)).1)
    fun c hc => (ht c (List.mem_of_getLast? hc)).1⟩
  have hmay := (ht c hc).2
  simp only [List.mem_cons, not_or] at hmay ⊢
  exact ⟨hmay.1, hmay.2.2.2.1, hmay.2.2.1, List.not_mem_nil⟩

theorem WrittenAlternative.append_space {t u : Text} (ht : WrittenAlternative t t)
    (hu : WrittenAlternative u u) (htne : t ≠ []) (hune : u ≠ []) :
    WrittenAlternative (t ++ ' ' :: u) (t ++ ' ' :: u) := by
  refine ⟨fun c hc => ?_, Text.isTrimmed_self (fun c hc => ?_) fun c hc => ?_⟩
  · rcases List.mem_append.mp hc with hc | hc
    · exact ht.1 c hc
    · rcases List.mem_cons.mp hc with rfl | hc
      · decide
      · exact hu.1 c hc
  · rw [List.head?_append_of_ne_nil _ htne] at hc
    exact ht.2.first c hc
  · rw [List.getLast?_append_of_ne_nil _ (List.cons_ne_nil _ _),
      List.getLast?_cons_of_ne_nil hune] at hc
    exact hu.2.last c hc

theorem WrittenAlternative.space_cons {a t : Text} (ht : WrittenAlternative a t) :
    WrittenAlternative a (' ' :: t) := by
  obtain ⟨ht, ⟨w, w', hw, hw', rfl⟩, hfirst, hlast⟩ := ht
  exact ⟨List.forall_mem_cons.mpr ⟨by decide, ht⟩,
    ⟨' ' :: w, w', List.forall_mem_cons.mpr ⟨rfl, hw⟩, hw', rfl⟩, hfirst, hlast⟩

theorem writtenAlternative_intercalate {ts : List Text}
    (hts : ∀ t ∈ ts, t ≠ [] ∧ ∀ c ∈ t, MayNameSymbol c) :
    WrittenAlternative ([' '].intercalate ts) ([' '].intercalate ts) := by
  induction ts with
  | nil => exact writtenAlternative_of_forall (List.forall_mem_nil _)
  | cons t ts ih =>
      obtain ⟨⟨hne, ht⟩, hts⟩ := List.forall_mem_cons.mp hts
      cases ts with
      | nil =>
          rw [List.intercalate_singleton]
          exact writtenAlternative_of_forall ht
      | cons u ts =>
          have hune : [' '].intercalate (u :: ts) ≠ [] := by
            rw [intercalate_cons]
            exact List.append_ne_nil_of_left_ne_nil (hts u List.mem_cons_self).1 _
          rw [List.intercalate_cons_cons, List.append_assoc, List.singleton_append]
          exact (writtenAlternative_of_forall ht).append_space (ih hts) hne hune

theorem mayNameSymbol_glued {w : Word} (hw : ∀ x ∈ w, x.name.MadeOf MayNameSymbol) :
    ∀ c ∈ w.glued, MayNameSymbol c := by
  intro c hc
  obtain ⟨x, hx, hc⟩ := List.mem_flatMap.mp hc
  exact hw x hx c hc

theorem writtenAlternative_text {w : Word} (hw : ∀ x ∈ w, x.name.MadeOf MayNameSymbol) :
    WrittenAlternative w.text w.text := by
  by_cases hnil : w = []
  · subst hnil
    exact writtenAlternative_of_forall (List.forall_mem_singleton.mpr (by decide))
  by_cases hshort : w.IsShort
  · rw [Word.text_of_isShort hnil hshort]
    exact writtenAlternative_of_forall (mayNameSymbol_glued hw)
  · rw [Word.text_of_not_isShort hshort]
    refine writtenAlternative_intercalate fun t ht => ?_
    obtain ⟨x, hx, rfl⟩ := List.mem_map.mp ht
    exact ⟨x.name.chars_ne_nil, hw x hx⟩

end Outline

namespace Vocabulary

variable {v : Vocabulary} {w : Word}

/-- The written word is not read as it was meant: it looks like the empty word, or a longer name
stands in it by accident. -/
def Misreads (v : Vocabulary) (w : Word) : Prop :=
  (∃ x, w = [x] ∧ x.name.chars = epsilon) ∨
    (w.IsShort ∧ ∃ y ∈ v.symbols, 2 ≤ y.name.chars.length ∧ y.name.chars <:+: w.text)

theorem Misreads.ne_nil (h : v.Misreads w) : w ≠ [] := by
  rintro rfl
  rcases h with ⟨x, hx, _⟩ | ⟨_, y, _, hlong, hwithin⟩
  · exact absurd hx (List.cons_ne_nil x []).symm
  · exact absurd (Nat.le_trans hlong hwithin.length_le) (by decide)

theorem Misreads.isShort (h : v.Misreads w) : w.IsShort := by
  rcases h with ⟨x, rfl, hx⟩ | ⟨hshort, _⟩
  · exact List.forall_mem_singleton.mpr (by rw [hx]; rfl)
  · exact hshort

end Vocabulary

namespace Outline

variable {v : Vocabulary} {w : Word}

/-- The written word is read as `w'`, which is the word itself unless it is misread. -/
structure ReadBack (v : Vocabulary) (w w' : Word) : Prop where
  read : readAlternative v w.text = .ok w'
  mem_symbols : ∀ x ∈ w', x ∈ v.symbols
  eq_self : ¬ v.Misreads w → w' = w
  nil_or_long : v.Misreads w → w' = [] ∨ ∃ x ∈ w', 2 ≤ x.name.chars.length

theorem readAlternative_eq_ok {t : Text} {ws : List Word} (ht : t ≠ epsilon)
    (hws : List.Forall₂ (fun chunk w => v.divide chunk = .ok w) (Text.chunks t) ws) :
    readAlternative v t = .ok ws.flatten := by
  rw [readAlternative, if_neg ht, mapM_eq_ok_iff.mpr hws]

theorem readBack_nil (v : Vocabulary) : ReadBack v [] [] :=
  ⟨rfl, List.forall_mem_nil _, fun _ => rfl, fun _ => .inl rfl⟩

/-- A single symbol called `ε` is lost. -/
theorem readBack_of_text_eq (hnil : w ≠ []) (hshort : w.IsShort) (ht : w.text = epsilon) :
    ReadBack v w [] := by
  have hmisreads : v.Misreads w := by
    rw [Word.text_of_isShort hnil hshort] at ht
    exact .inl (Word.exists_eq_singleton ht)
  exact ⟨by rw [readAlternative, if_pos ht], List.forall_mem_nil _,
    fun hclear => absurd hmisreads hclear, fun _ => .inl rfl⟩

section

variable (hv : v.IsOrdered) (hw : ∀ x ∈ w, x ∈ v.symbols)
  (hmay : ∀ x ∈ w, x.name.MadeOf MayNameSymbol)

include hv hw hmay

theorem readBack_of_not_isShort (hshort : ¬ w.IsShort) : ReadBack v w w := by
  have hchunks : Text.chunks w.text = w.map fun x => x.name.chars := by
    rw [Word.text_of_not_isShort hshort]
    refine Text.chunks_intercalate fun t ht => ?_
    obtain ⟨x, hx, rfl⟩ := List.mem_map.mp ht
    exact ⟨x.name.chars_ne_nil, fun c hc => (hmay x hx c hc).1⟩
  have hne : w.text ≠ epsilon := by
    intro h
    have hepsilon : w.map (fun x => x.name.chars) = [epsilon] := by
      rw [← hchunks, h]
      exact Text.chunks_of_forall (by decide) (List.forall_mem_singleton.mpr rfl)
    refine hshort fun x hx => ?_
    have hmem : x.name.chars ∈ [epsilon] := hepsilon ▸ List.mem_map_of_mem hx
    rw [List.mem_singleton.mp hmem]
    rfl
  have hws : List.Forall₂ (fun chunk u => v.divide chunk = .ok u) (Text.chunks w.text)
      (w.map fun x => [x]) := by
    rw [hchunks, List.forall₂_map_left_iff, List.forall₂_map_right_iff, List.forall₂_same]
    exact fun x hx => hv.divide_name (hw x hx)
  have hread : readAlternative v w.text = .ok w := by
    rw [readAlternative_eq_ok hne hws, ← List.flatMap_def, List.flatMap_singleton']
  exact ⟨hread, hw, fun _ => rfl, fun hmisreads => absurd hmisreads.isShort hshort⟩

/-- A word that is glued together is one chunk. -/
theorem exists_readBack_of_isShort (hshort : w.IsShort) (ht : w.text ≠ epsilon) :
    ∃ w', ReadBack v w w' := by
  have hnil : w ≠ [] := by
    rintro rfl
    exact ht rfl
  have htext : w.text = w.glued := Word.text_of_isShort hnil hshort
  have hchunks : Text.chunks w.text = [w.glued] := by
    rw [htext]
    exact Text.chunks_of_forall (Word.glued_ne_nil hnil) fun c hc =>
      (mayNameSymbol_glued hmay c hc).1
  obtain ⟨w', hdivide⟩ := hv.exists_divide hw
  have hdivides : List.Forall₂ (fun chunk u => v.divide chunk = .ok u)
      (Text.chunks w.text) [w'] := by
    rw [hchunks]
    exact .cons hdivide .nil
  have hread : readAlternative v w.text = .ok w' := by
    rw [readAlternative_eq_ok ht hdivides, List.flatten_singleton]
  refine ⟨w', hread, (hv.flatMap_of_divide hdivide).1, fun hclear => ?_, ?_⟩
  · have hsame := hv.divide_short hw hshort fun y hy hlong hwithin =>
      hclear (.inr ⟨hshort, y, hy, hlong, htext ▸ hwithin⟩)
    exact Except.ok.inj (hdivide.symm.trans hsame)
  · rintro (⟨x, rfl, hx⟩ | ⟨_, y, hy, hlong, hwithin⟩)
    · rw [htext, Word.glued_cons, hx] at ht
      exact absurd rfl ht
    · exact .inr (hv.exists_long_of_infix hw hshort hy hlong (htext ▸ hwithin) hdivide)

/-- Case by case as the word is written: as `ε`, with spaces, or glued together. -/
theorem exists_readBack : ∃ w', ReadBack v w w' := by
  by_cases hnil : w = []
  · exact ⟨[], hnil ▸ readBack_nil v⟩
  by_cases hshort : w.IsShort
  · by_cases ht : w.text = epsilon
    · exact ⟨[], readBack_of_text_eq hnil hshort ht⟩
    · exact exists_readBack_of_isShort hv hw hmay hshort ht
  · exact ⟨w, readBack_of_not_isShort hv hw hmay hshort⟩

end

end Outline

end ContextFree
