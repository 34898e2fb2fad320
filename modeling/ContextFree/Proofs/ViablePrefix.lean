import ContextFree.Notation.Definition
import ContextFree.Proofs.Outline

/-!
# Where the reading of a definition stops

A malformed definition is reported at a place up to which it could still have become a well-formed
one (`malformed_after_viable_prefix`). Within a section a list of items takes off only what it has
read in full, so that the sign after it, once put there, closes the section; the sections that have
not been reached can be empty. The place is counted in bytes and lies between two characters.
-/

namespace ContextFree

/-! ## Failed computations -/

section

variable {ε α β : Type}

theorem bind_eq_error_iff {x : Except ε α} {f : α → Except ε β} {e : ε} :
    x >>= f = .error e ↔ x = .error e ∨ ∃ a, x = .ok a ∧ f a = .error e := by
  cases x <;> simp [bind, Except.bind]

theorem ite_throw_eq_error_iff {p : Prop} [Decidable p] {e e' : ε} {f : PUnit → Except ε α}
    {x : Except ε α} :
    (if p then throw e >>= f else x) = .error e' ↔ p ∧ e = e' ∨ ¬ p ∧ x = .error e' := by
  by_cases hp : p
  · simp [hp, throw, throwThe, MonadExceptOf.throw, bind, Except.bind]
  · simp [hp]

theorem exists_mem_of_mapM_eq_error {f : α → Except ε β} {as : List α} {e : ε}
    (h : as.mapM f = .error e) : ∃ a ∈ as, f a = .error e := by
  induction as with
  | nil => exact absurd h (by simp [pure, Except.pure])
  | cons a as ih =>
      rw [List.mapM_cons, bind_eq_error_iff] at h
      rcases h with ha | ⟨b, _, h⟩
      · exact ⟨a, List.mem_cons_self, ha⟩
      · rcases bind_eq_error_iff.mp h with has | ⟨bs, _, hlast⟩
        · obtain ⟨a', ha', herror⟩ := ih has
          exact ⟨a', List.mem_cons_of_mem a ha', herror⟩
        · exact absurd hlast (by simp [pure, Except.pure])

end

/-! ## Places in a text -/

namespace Text

theorem utf8ByteSize_ofList (t : Text) : (String.ofList t).utf8ByteSize = byteLength t := by
  induction t with
  | nil => rfl
  | cons c t ih => simp [String.ofList_cons, ih]

/-- As many bytes as a first part of a text takes lead to a place between two characters. -/
theorem isValid_byteLength (t u : Text) :
    (String.Pos.Raw.mk (byteLength t)).IsValid (String.ofList (t ++ u)) := by
  rw [String.Pos.Raw.isValid_iff_exists_append]
  exact ⟨String.ofList t, String.ofList u, String.ofList_append,
    String.Pos.Raw.ext (utf8ByteSize_ofList t).symm⟩

end Text

namespace Outline

open Reader

/-! ## Sections broken off -/

/-- The place of a sign that is missing is after the blanks. -/
theorem exists_blank_of_expectAfterLayout_error {word t rest : Text}
    (herror : expectAfterLayout word t = .error rest) : ∃ w, IsBlank w ∧ t = w ++ rest := by
  obtain ⟨w, hw, ht⟩ := exists_blank t
  rw [expectAfterLayout, expect] at herror
  split at herror
  · exact absurd herror (by simp)
  · cases herror
    exact ⟨w, hw, ht⟩

section

variable {α : Type} {item : Reader α} {form : α → Text → Prop} {stops : Char → Prop}

theorem writtenList_nil {sep : Char} : WrittenList form sep [] [] := ⟨[], .nil, rfl⟩

theorem exists_writtenSection_nil (form : α → Text → Prop) (key : Text) :
    ∃ s, WrittenSection key form [] s :=
  ⟨_, [], [], [], [], [], isBlank_nil, isBlank_nil, isBlank_nil, isBlank_nil, writtenList_nil, rfl⟩

/-- Where a section breaks off, what is left of it can be supplied: the signs up to the brace that
opens it, no items, or the brace that closes it. -/
theorem exists_writtenSection_of_error (h : item.Reads form stops) {k : Char} {key : Text}
    (hk : isLayout k = false) {t rest : Text}
    (herror : readSection (k :: key) item t = .error rest) :
    ∃ before more as, t = before ++ rest ∧ WrittenSection (k :: key) form as (before ++ more) := by
  rcases bind_eq_error_iff.mp herror with hkey | ⟨t₁, hkey, herror₁⟩
  · obtain ⟨w₁, hw₁, rfl⟩ := exists_blank_of_expectAfterLayout_error hkey
    exact ⟨w₁, k :: key ++ ['=', '{', '}'], [], rfl,
      w₁, [], [], [], [], hw₁, isBlank_nil, isBlank_nil, isBlank_nil, writtenList_nil, by simp⟩
  obtain ⟨w₁, hw₁, rfl⟩ := (expectAfterLayout_eq_ok_iff hk).mp hkey
  rcases bind_eq_error_iff.mp herror₁ with hequals | ⟨t₂, hequals, herror₂⟩
  · obtain ⟨w₂, hw₂, rfl⟩ := exists_blank_of_expectAfterLayout_error hequals
    exact ⟨w₁ ++ k :: key ++ w₂, ['=', '{', '}'], [], by simp,
      w₁, w₂, [], [], [], hw₁, hw₂, isBlank_nil, isBlank_nil, writtenList_nil, by simp⟩
  obtain ⟨w₂, hw₂, rfl⟩ := (expectAfterLayout_eq_ok_iff rfl).mp hequals
  rcases bind_eq_error_iff.mp herror₂ with hopen | ⟨t₃, hopen, herror₃⟩
  · obtain ⟨w₃, hw₃, rfl⟩ := exists_blank_of_expectAfterLayout_error hopen
    exact ⟨w₁ ++ k :: key ++ w₂ ++ ['='] ++ w₃, ['{', '}'], [], by simp,
      w₁, w₂, w₃, [], [], hw₁, hw₂, hw₃, isBlank_nil, writtenList_nil, by simp⟩
  obtain ⟨w₃, hw₃, rfl⟩ := (expectAfterLayout_eq_ok_iff rfl).mp hopen
  have hseparated : item.separated ',' t₃ = (_, _) := rfl
  obtain ⟨body, hbody, ht₃⟩ := h.exists_of_separated hseparated
  rcases bind_eq_error_iff.mp herror₃ with hclose | ⟨t₄, _, herror₄⟩
  · obtain ⟨w₄, hw₄, hrest⟩ := exists_blank_of_expectAfterLayout_error hclose
    refine ⟨w₁ ++ k :: key ++ w₂ ++ ['='] ++ w₃ ++ ['{'] ++ body ++ w₄, ['}'], _, ?_,
      w₁, w₂, w₃, body, w₄, hw₁, hw₂, hw₃, hw₄, hbody, rfl⟩
    rw [ht₃, hrest]
    simp only [List.append_assoc]
  · exact absurd herror₄ (by simp [pure, Except.pure])

end

theorem exists_writtenSection_of_names_error {k : Char} {key : Text} (hk : isLayout k = false)
    {t rest : Text} (herror : readSection (k :: key) (nameOf isNameChar) t = .error rest) :
    ∃ before more as, t = before ++ rest ∧
      WrittenSection (k :: key) (WrittenName MayNameSymbol) as (before ++ more) :=
  exists_writtenSection_of_error (reads_nameOf (fun _ => isNameChar_iff) fun _ => id) hk herror

/-! ## Outlines broken off -/

/-- Where the reading stops, an outline could still have come about. -/
theorem exists_written_of_error {t rest : Text} (herror : read t = .error rest) :
    ∃ before more o, t = before ++ rest ∧ Written o (before ++ more) := by
  obtain ⟨T₀, hT₀⟩ := exists_writtenSection_nil (WrittenName MayNameSymbol) ['V', '_', 'T']
  obtain ⟨P₀, hP₀⟩ := exists_writtenSection_nil WrittenRule ['P']
  rcases bind_eq_error_iff.mp herror with hfirst | ⟨⟨nonTerminals, t₁⟩, hfirst, herror₁⟩
  · obtain ⟨before, more, as, rfl, hN⟩ := exists_writtenSection_of_names_error rfl hfirst
    exact ⟨before, more ++ T₀ ++ P₀, ⟨as, [], []⟩, rfl, before ++ more, T₀, P₀, [], hN, hT₀, hP₀,
      isBlank_nil, by simp⟩
  obtain ⟨N, hN, rfl⟩ := (readSection_names_iff rfl).mp hfirst
  rcases bind_eq_error_iff.mp herror₁ with hsecond | ⟨⟨terminals, t₂⟩, hsecond, herror₂⟩
  · obtain ⟨before, more, as, rfl, hT⟩ := exists_writtenSection_of_names_error rfl hsecond
    exact ⟨N ++ before, more ++ P₀, ⟨nonTerminals, as, []⟩, by simp,
      N, before ++ more, P₀, [], hN, hT, hP₀, isBlank_nil, by simp⟩
  obtain ⟨T, hT, rfl⟩ := (readSection_names_iff rfl).mp hsecond
  rcases bind_eq_error_iff.mp herror₂ with hthird | ⟨⟨rules, t₃⟩, hthird, herror₃⟩
  · obtain ⟨before, more, as, rfl, hP⟩ := exists_writtenSection_of_error reads_rule rfl hthird
    exact ⟨N ++ T ++ before, more, ⟨nonTerminals, terminals, as⟩, by simp,
      N, T, before ++ more, [], hN, hT, hP, isBlank_nil, by simp⟩
  obtain ⟨P, hP, rfl⟩ := readSection_rules_iff.mp hthird
  -- All three sections are there, and something else than blanks follows them.
  obtain ⟨w, hw, ht₃⟩ := exists_blank t₃
  have hrest : skipLayout t₃ = rest := by
    dsimp only at herror₃
    split at herror₃
    · exact absurd herror₃ (by simp [pure, Except.pure])
    · exact Except.error.inj herror₃
  rw [hrest] at ht₃
  exact ⟨N ++ T ++ P ++ w, [], ⟨nonTerminals, terminals, rules⟩, by simp [ht₃],
    N, T, P, w, hN, hT, hP, hw, List.append_nil _⟩

/-! ## Other errors -/

theorem exists_of_readAlternative_error {v : Vocabulary} {alternative : Text} {e : NotationError}
    (h : readAlternative v alternative = .error e) :
    ∃ rest, e = .unknownSymbol rest alternative := by
  unfold readAlternative at h
  split at h
  · exact absurd h (by simp)
  · split at h
    · exact absurd h (by simp)
    · exact ⟨_, (Except.error.inj h).symm⟩

/-- A rule fails at its left-hand side or at one of its alternatives. -/
theorem of_readRule_error {v : Vocabulary} {r : Name × List Text} {e : NotationError}
    (h : readRule v r = .error e) : e = .invalidLeftHandSide r.1.chars ∨
      ∃ alternative ∈ r.2, ∃ rest, e = .unknownSymbol rest alternative := by
  unfold readRule at h
  split at h
  · rcases bind_eq_error_iff.mp h with hwords | ⟨words, _, hlast⟩
    · obtain ⟨alternative, hmem, herror⟩ := exists_mem_of_mapM_eq_error hwords
      exact Or.inr ⟨alternative, (List.mem_filter.mp hmem).1,
        exists_of_readAlternative_error herror⟩
    · exact absurd hlast (by simp [pure, Except.pure])
  · exact Or.inl (Except.error.inj h).symm

/-- An outline that is there is not malformed, whatever else is wrong with it. -/
theorem toGrammar_ne_malformed (o : Outline) (fault : Fault) :
    o.toGrammar ≠ .error (.malformed fault) := by
  intro h
  rw [toGrammar] at h
  simp only [ite_throw_eq_error_iff, bind_eq_error_iff, reduceCtorEq, and_false, false_or] at h
  obtain ⟨_, _, hrules | ⟨_, _, _, hparts⟩⟩ := h
  · obtain ⟨r, _, hr⟩ := exists_mem_of_mapM_eq_error hrules
    rcases of_readRule_error hr with hlhs | ⟨_, _, _, hsymbol⟩
    · exact absurd hlhs (by simp)
    · exact absurd hsymbol (by simp)
  · unfold NotationError.lift at hparts
    split at hparts <;> simp at hparts

end Outline

namespace Grammar

open Outline

theorem ofDefinition_eq_malformed_iff {t : Text} {fault : Fault} :
    ofDefinition t = .error (.malformed fault) ↔
      ∃ rest, Outline.read t = .error rest ∧ .ofRest t rest = fault := by
  unfold ofDefinition
  split
  · rename_i o hread
    simp [hread, toGrammar_ne_malformed]
  · rename_i rest hread
    simp [hread]

/-- The place of a fault is one in the text, between two characters, and what comes before it is
the beginning of a text with an outline. -/
theorem malformed_after_viable_prefix {t : Text} {fault : Fault}
    (h : ofDefinition t = .error (.malformed fault)) :
    fault.offset ≤ (String.ofList t).utf8ByteSize ∧
      (String.Pos.Raw.mk fault.offset).IsValid (String.ofList t) ∧
      fault.before ++ fault.after = t ∧
      (String.ofList fault.before).utf8ByteSize = fault.offset ∧
      ∃ more o, Outline.read (fault.before ++ more) = .ok o := by
  obtain ⟨rest, hread, rfl⟩ := ofDefinition_eq_malformed_iff.mp h
  obtain ⟨before, more, o, rfl, ho⟩ := exists_written_of_error hread
  rw [Fault.ofRest_append]
  refine ⟨?_, Text.isValid_byteLength before rest, rfl, Text.utf8ByteSize_ofList before, more, o,
    read_eq_ok_iff.mpr ho⟩
  rw [Text.utf8ByteSize_ofList, Text.byteLength_append]
  exact Nat.le_add_right _ _

/-- The second rule has no arrow, which is noticed at the comma before it. -/
def arrowless : Text := "V_N=\x7bS\x7d\nV_T=\x7bé\x7d\nP=\x7bS -> é, x\x7d".toList

def arrowlessFault : Fault where
  before := "V_N=\x7bS\x7d\nV_T=\x7bé\x7d\nP=\x7bS -> é".toList
  after := ", x\x7d".toList

theorem malformed_after_viable_prefix_arrowless :
    ofDefinition arrowless = .error (.malformed arrowlessFault) ∧ arrowlessFault.offset = 27 ∧
      (String.Pos.Raw.mk 27).IsValid (String.ofList arrowless) ∧
        ∃ more o, Outline.read (arrowlessFault.before ++ more) = .ok o := by
  have hmalformed : ofDefinition arrowless = .error (.malformed arrowlessFault) := by cbv
  obtain ⟨_, hvalid, _, _, hviable⟩ := malformed_after_viable_prefix hmalformed
  exact ⟨hmalformed, rfl, hvalid, hviable⟩

end Grammar

end ContextFree
