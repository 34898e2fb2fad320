import Mathlib.Data.List.DropRight
import ContextFree.Text.WhiteSpace

/-!
# Runs of characters

A run of characters of one kind at the beginning of a text is known by the character after it. So
trimming finds the text that stands between two runs of white space (`trim_eq_iff`), and the chunks
of a text are its pieces between white space.
-/

namespace ContextFree

namespace Text

variable {p : Char → Bool} {w t : Text}

theorem dropWhile_append_of_head? (hw : ∀ c ∈ w, p c = true) (ht : ∀ c ∈ t.head?, p c = false) :
    (w ++ t).dropWhile p = t := by
  rw [List.dropWhile_append_of_pos hw]
  cases t with
  | nil => rfl
  | cons c t => simp [ht c rfl]

theorem takeWhile_append_of_head? (hw : ∀ c ∈ w, p c = true) (ht : ∀ c ∈ t.head?, p c = false) :
    (w ++ t).takeWhile p = w := by
  rw [List.takeWhile_append_of_pos hw]
  cases t with
  | nil => simp
  | cons c t => simp [ht c rfl]

theorem head?_dropWhile (p : Char → Bool) (t : Text) :
    ∀ c ∈ (t.dropWhile p).head?, p c = false := by
  intro c hc
  have hhead := List.head?_dropWhile_not p t
  rw [Option.mem_def.mp hc] at hhead
  exact hhead

/-! ## Trimming -/

/-- The text is `a` with white space around it, and `a` neither begins nor ends with any. -/
structure IsTrimmed (t a : Text) : Prop where
  around : ∃ w w', (∀ c ∈ w, isWhiteSpace c = true) ∧ (∀ c ∈ w', isWhiteSpace c = true) ∧
    t = w ++ a ++ w'
  first : ∀ c ∈ a.head?, isWhiteSpace c = false
  last : ∀ c ∈ a.getLast?, isWhiteSpace c = false

theorem isTrimmed_self {t : Text} (hfirst : ∀ c ∈ t.head?, isWhiteSpace c = false)
    (hlast : ∀ c ∈ t.getLast?, isWhiteSpace c = false) : IsTrimmed t t :=
  ⟨⟨[], [], List.forall_mem_nil _, List.forall_mem_nil _, (List.append_nil t).symm⟩, hfirst, hlast⟩

theorem isTrimmed_trim (t : Text) : IsTrimmed t (trim t) := by
  have hsplit : trim t ++ (t.dropWhile isWhiteSpace).rtakeWhile isWhiteSpace =
      t.dropWhile isWhiteSpace := List.rdropWhile_append_rtakeWhile
  refine ⟨⟨t.takeWhile isWhiteSpace, (t.dropWhile isWhiteSpace).rtakeWhile isWhiteSpace,
    fun c hc => List.mem_takeWhile_imp hc, fun c hc => List.mem_rtakeWhile_imp hc, ?_⟩, ?_, ?_⟩
  · rw [List.append_assoc, hsplit, List.takeWhile_append_dropWhile]
  · intro c hc
    apply head?_dropWhile isWhiteSpace t
    rw [← hsplit, List.head?_append, Option.mem_def.mp hc]
    rfl
  · intro c hc
    rw [trim, List.getLast?_reverse] at hc
    exact head?_dropWhile _ _ c hc

theorem trim_eq_iff {t a : Text} : trim t = a ↔ IsTrimmed t a := by
  constructor
  · rintro rfl
    exact isTrimmed_trim t
  · rintro ⟨⟨w, w', hw, hw', rfl⟩, hfirst, hlast⟩
    have hright : (a ++ w').reverse.dropWhile isWhiteSpace = a.reverse := by
      rw [List.reverse_append]
      exact dropWhile_append_of_head? (fun c hc => hw' c (List.mem_reverse.mp hc))
        (by simpa using hlast)
    rw [trim, List.append_assoc]
    cases a with
    | nil =>
        have hall : ∀ c ∈ w ++ ([] ++ w'), isWhiteSpace c = true := by
          simpa [or_imp, forall_and] using ⟨hw, hw'⟩
        rw [List.dropWhile_eq_nil_iff.mpr hall]
        rfl
    | cons c a =>
        have hleft : (w ++ (c :: a ++ w')).dropWhile isWhiteSpace = c :: a ++ w' :=
          dropWhile_append_of_head? hw (by simpa using hfirst)
        rw [hleft, hright, List.reverse_reverse]

/-! ## Chunks -/

/-- The pieces between separators hold all other characters, in their order. -/
theorem flatten_splitOnP (p : Char → Bool) (t : Text) :
    (t.splitOnP p).flatten = t.filter fun c => !p c := by
  induction t with
  | nil => simp [List.splitOnP_nil]
  | cons c t ih =>
      rw [List.splitOnP_cons_eq_if_modifyHead]
      by_cases hc : p c = true
      · simp [hc, ih]
      · obtain ⟨part, parts, hparts⟩ := List.exists_cons_of_ne_nil (List.splitOnP_ne_nil p t)
        rw [hparts, List.flatten_cons] at ih
        simp [hc, hparts, ← ih]

theorem of_mem_splitOn {sep : Char} {t part : Text} (hpart : part ∈ t.splitOn sep) :
    ∀ c ∈ part, c ∈ t ∧ c ≠ sep := by
  intro c hc
  rw [List.splitOn_eq_splitOnP] at hpart
  have hflatten := List.mem_flatten.mpr ⟨part, hpart, hc⟩
  rw [flatten_splitOnP] at hflatten
  simpa using hflatten

theorem flatten_chunks (t : Text) : (chunks t).flatten = t.filter fun c => !isWhiteSpace c := by
  rw [chunks, List.flatten_filter_ne_nil, flatten_splitOnP]

theorem chunks_append_cons {c : Char} (hc : isWhiteSpace c = true) (t u : Text) :
    chunks (t ++ c :: u) = chunks t ++ chunks u := by
  rw [chunks, List.splitOnP_append_cons t u hc, List.filter_append, chunks, chunks]

theorem chunks_of_forall {t : Text} (hne : t ≠ []) (ht : ∀ c ∈ t, isWhiteSpace c = false) :
    chunks t = [t] := by
  rw [chunks, List.splitOnP_eq_singleton ht]
  simp [hne]

/-- Texts without white space are found again when spaces are set between them. -/
theorem chunks_intercalate {ts : List Text}
    (hts : ∀ t ∈ ts, t ≠ [] ∧ ∀ c ∈ t, isWhiteSpace c = false) :
    chunks ([' '].intercalate ts) = ts := by
  induction ts with
  | nil => simp [chunks]
  | cons t ts ih =>
      obtain ⟨⟨hne, ht⟩, hts⟩ := List.forall_mem_cons.mp hts
      cases ts with
      | nil => rw [List.intercalate_singleton, chunks_of_forall hne ht]
      | cons u ts =>
          rw [List.intercalate_cons_cons, List.append_assoc, List.singleton_append,
            chunks_append_cons rfl, chunks_of_forall hne ht, ih hts, List.singleton_append]

end Text

end ContextFree
