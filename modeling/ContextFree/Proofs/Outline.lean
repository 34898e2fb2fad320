import Mathlib.Data.List.Forall2
import ContextFree.Notation.Outline
import ContextFree.Proofs.WhiteSpace

/-!
# Which texts have an outline

A declarative account of the three sections of a grammar definition, with blanks wherever they may
stand, and the proof that the reader follows it: it accepts the texts that can be taken apart in
this way, all of them, and hands out the names and alternatives that stand in them
(`read_eq_ok_iff`). A text may be taken apart in several ways, since blanks between two parts can go
to either of them, but what it says is the same in all of them.
-/

namespace ContextFree

/-! ## Successful computations -/

section

variable {ε α β : Type}

theorem bind_eq_ok_iff {x : Except ε α} {f : α → Except ε β} {b : β} :
    x >>= f = .ok b ↔ ∃ a, x = .ok a ∧ f a = .ok b := by
  cases x <;> simp [bind, Except.bind]

/-- A check passed before the rest. -/
theorem ite_throw_eq_ok_iff {p : Prop} [Decidable p] {e : ε} {f : PUnit → Except ε α}
    {x : Except ε α} {a : α} :
    (if p then throw e >>= f else x) = .ok a ↔ ¬ p ∧ x = .ok a := by
  by_cases hp : p
  · simp [hp, throw, throwThe, MonadExceptOf.throw, bind, Except.bind]
  · simp [hp]

theorem mapM_eq_ok_iff {f : α → Except ε β} {as : List α} {bs : List β} :
    as.mapM f = .ok bs ↔ List.Forall₂ (fun a b => f a = .ok b) as bs := by
  induction as generalizing bs with
  | nil => simp [pure, Except.pure, eq_comm]
  | cons a as ih =>
      rw [List.mapM_cons, bind_eq_ok_iff, List.forall₂_cons_left_iff]
      refine exists_congr fun b => ?_
      rw [bind_eq_ok_iff]
      constructor
      · rintro ⟨hb, bs', hbs', hlast⟩
        exact ⟨bs', hb, ih.mp hbs', (Except.ok.inj hlast).symm⟩
      · rintro ⟨bs', hb, hbs', rfl⟩
        exact ⟨hb, bs', ih.mpr hbs', rfl⟩

theorem exists_of_forall₂ {R : α → β → Prop} {as : List α} {bs : List β}
    (h : List.Forall₂ R as bs) {a : α} (ha : a ∈ as) : ∃ b ∈ bs, R a b := by
  induction h with
  | nil => exact absurd ha List.not_mem_nil
  | @cons a' b as bs hab _ ih =>
      rcases List.mem_cons.mp ha with rfl | ha
      · exact ⟨b, List.mem_cons_self, hab⟩
      · obtain ⟨b', hb', hab'⟩ := ih ha
        exact ⟨b', List.mem_cons_of_mem b hb', hab'⟩

end

/-- All characters of the name are such. -/
def Name.MadeOf (may : Char → Prop) (a : Name) : Prop := ∀ c ∈ a.chars, may c

instance {may : Char → Prop} [DecidablePred may] (a : Name) : Decidable (a.MadeOf may) :=
  List.decidableBAll may a.chars

namespace Outline

/-! ## The written form -/

/-- A run of spaces, tabs, carriage returns and line feeds. -/
def IsBlank (w : Text) : Prop := ∀ c ∈ w, c ∈ [' ', '\t', '\r', '\n']

theorem isBlank_nil : IsBlank [] := fun _ hc => absurd hc List.not_mem_nil

def MayNameSymbol (c : Char) : Prop := isWhiteSpace c = false ∧ c ∉ [',', '{', '}', '|']

def MayNameHead (c : Char) : Prop := MayNameSymbol c ∧ c ∉ ['-', '→']

instance (c : Char) : Decidable (MayNameSymbol c) :=
  inferInstanceAs (Decidable (isWhiteSpace c = false ∧ c ∉ [',', '{', '}', '|']))

instance (c : Char) : Decidable (MayNameHead c) :=
  inferInstanceAs (Decidable (MayNameSymbol c ∧ c ∉ ['-', '→']))

/-- A name made of such characters, with blanks around it. -/
def WrittenName (may : Char → Prop) (a : Name) (t : Text) : Prop :=
  ∃ w w', IsBlank w ∧ IsBlank w' ∧ a.MadeOf may ∧ t = w ++ a.chars ++ w'

/-- A string in which no alternative ends; what counts of it is what is left after trimming. -/
def WrittenAlternative (a : Text) (t : Text) : Prop :=
  (∀ c ∈ t, c ∉ [',', '|', '}']) ∧ Text.IsTrimmed t a

/-- A list, which may be empty, of items with a separator between them. -/
def WrittenList {α : Type} (form : α → Text → Prop) (sep : Char) (as : List α) (t : Text) : Prop :=
  ∃ parts, List.Forall₂ form as parts ∧ t = [sep].intercalate parts

/-- A left-hand side, an arrow, and at least one alternative. -/
def WrittenRule (r : Name × List Text) (t : Text) : Prop :=
  ∃ head arrow body, WrittenName MayNameHead r.1 head ∧ arrow ∈ [['-', '>'], ['→']] ∧
    r.2 ≠ [] ∧ WrittenList WrittenAlternative '|' r.2 body ∧ t = head ++ arrow ++ body

def WrittenSection {α : Type} (key : Text) (form : α → Text → Prop) (as : List α) (t : Text) :
    Prop :=
  ∃ w₁ w₂ w₃ body w₄, IsBlank w₁ ∧ IsBlank w₂ ∧ IsBlank w₃ ∧ IsBlank w₄ ∧
    WrittenList form ',' as body ∧
      t = w₁ ++ key ++ w₂ ++ ['='] ++ w₃ ++ ['{'] ++ body ++ w₄ ++ ['}']

/-- The three sections of an outline, and blanks after them. -/
def Written (o : Outline) (t : Text) : Prop :=
  ∃ N T P w, WrittenSection ['V', '_', 'N'] (WrittenName MayNameSymbol) o.nonTerminals N ∧
    WrittenSection ['V', '_', 'T'] (WrittenName MayNameSymbol) o.terminals T ∧
    WrittenSection ['P'] WrittenRule o.rules P ∧ IsBlank w ∧ t = N ++ T ++ P ++ w

end Outline

/-! ## Blanks -/

namespace Reader

open Outline

theorem isLayout_iff {c : Char} : isLayout c = true ↔ c ∈ [' ', '\t', '\r', '\n'] := by
  simp [isLayout, or_assoc]

theorem isWhiteSpace_of_isLayout {c : Char} (hc : isLayout c = true) : isWhiteSpace c = true := by
  have hblank : c = ' ' ∨ c = '\t' ∨ c = '\r' ∨ c = '\n' := by simpa using isLayout_iff.mp hc
  rcases hblank with rfl | rfl | rfl | rfl <;> rfl

theorem isBlank_iff {w : Text} : IsBlank w ↔ ∀ c ∈ w, isLayout c = true :=
  forall₂_congr fun _ _ => isLayout_iff.symm

theorem skipLayout_append {w t : Text} (hw : IsBlank w) (ht : ∀ c ∈ t.head?, isLayout c = false) :
    skipLayout (w ++ t) = t :=
  Text.dropWhile_append_of_head? (isBlank_iff.mp hw) ht

theorem exists_blank (t : Text) : ∃ w, IsBlank w ∧ t = w ++ skipLayout t :=
  ⟨t.takeWhile isLayout, isBlank_iff.mpr fun _ hc => List.mem_takeWhile_imp hc,
    List.takeWhile_append_dropWhile.symm⟩

theorem expect_eq_ok_iff {word t r : Text} : expect word t = .ok r ↔ t = word ++ r := by
  unfold expect
  by_cases h : word <+: t
  · obtain ⟨rest, rfl⟩ := h
    simp
  · rw [if_neg (by simpa using h)]
    refine ⟨fun herror => absurd herror (by simp), ?_⟩
    rintro rfl
    exact absurd (List.prefix_append _ _) h

theorem expectAfterLayout_eq_ok_iff {c : Char} {word t r : Text} (hc : isLayout c = false) :
    expectAfterLayout (c :: word) t = .ok r ↔ ∃ w, IsBlank w ∧ t = w ++ (c :: word) ++ r := by
  rw [expectAfterLayout, expect_eq_ok_iff]
  constructor
  · intro h
    obtain ⟨w, hw, ht⟩ := exists_blank t
    exact ⟨w, hw, by rw [List.append_assoc, ← h, ← ht]⟩
  · rintro ⟨w, hw, rfl⟩
    rw [List.append_assoc]
    exact skipLayout_append hw (by simpa using hc)

theorem expectAfterLayout_append {c : Char} (word : Text) {w : Text} (hc : isLayout c = false)
    (hw : IsBlank w) (r : Text) :
    expectAfterLayout (c :: word) (w ++ (c :: word ++ r)) = .ok r :=
  (expectAfterLayout_eq_ok_iff hc).mpr ⟨w, hw, (List.append_assoc w _ r).symm⟩

/-! ## Lists of items -/

theorem intercalate_cons (sep part : Text) (parts : List Text) :
    sep.intercalate (part :: parts) = part ++ parts.flatMap (sep ++ ·) := by
  induction parts generalizing part with
  | nil => simp
  | cons next parts ih => rw [List.intercalate_cons_cons, ih]; simp

theorem intercalate_cons_of_char (sep : Char) (part : Text) (parts : List Text) :
    [sep].intercalate (part :: parts) = part ++ parts.flatMap (sep :: ·) :=
  intercalate_cons [sep] part parts

variable {α : Type}

/-- The reader takes off what is written in the form and the blanks after it, and comes to a stop at
certain characters. -/
structure Reads (item : Reader α) (form : α → Text → Prop) (stops : Char → Prop) : Prop where
  sound : ∀ {t r a}, item.read t = .ok (a, r) → ∃ s, form a s ∧ t = s ++ r
  complete : ∀ {a s w c r}, form a s → IsBlank w → stops c →
    item.read (s ++ (w ++ c :: r)) = .ok (a, c :: r)

variable {item : Reader α} {form : α → Text → Prop} {stops : Char → Prop} {sep c : Char}
  {as : List α} {s t r : Text}

theorem Reads.exists_of_more (h : item.Reads form stops) (hread : item.more sep t = (as, r)) :
    ∃ parts, List.Forall₂ form as parts ∧ t = parts.flatMap (sep :: ·) ++ r := by
  fun_induction more item sep t generalizing as r with
  | case1 =>
      cases hread
      exact ⟨[], .nil, rfl⟩
  | case2 t a r' hitem as' rest hrest ih =>
      cases hread
      obtain ⟨part, hpart, rfl⟩ := h.sound hitem
      obtain ⟨parts, hparts, rfl⟩ := ih hrest
      exact ⟨part :: parts, .cons hpart hparts, by simp⟩
  | case3 t e hitem =>
      cases hread
      exact ⟨[], .nil, rfl⟩
  | case4 c t hc =>
      cases hread
      exact ⟨[], .nil, rfl⟩

/-- An item is read up to the separator after it, and the last one up to the end of the list. -/
theorem Reads.exists_more_eq (h : item.Reads form stops) (hsep : stops sep) (hc : stops c)
    (hne : c ≠ sep) {w : Text} (hw : IsBlank w) {a : α} {part : Text} {parts : List Text}
    (hpart : form a part) (hparts : List.Forall₂ form as parts) :
    ∃ rest, item.read (part ++ (parts.flatMap (sep :: ·) ++ (w ++ c :: r))) = .ok (a, rest) ∧
      item.more sep rest = (as, c :: r) := by
  induction hparts generalizing a part with
  | nil => exact ⟨c :: r, h.complete hpart hw hc, by simp [more, hne]⟩
  | @cons b next as parts hnext _ ih =>
      obtain ⟨rest, hread, hmore⟩ := ih hnext
      have hflat : (next :: parts).flatMap (sep :: ·) ++ (w ++ c :: r) =
          sep :: (next ++ (parts.flatMap (sep :: ·) ++ (w ++ c :: r))) := by simp
      rw [hflat]
      refine ⟨_, h.complete (w := []) hpart isBlank_nil hsep, ?_⟩
      rw [more, if_pos rfl]
      split
      · rename_i b' rest' hread'
        obtain ⟨rfl, rfl⟩ := Prod.mk.inj (Except.ok.inj (hread.symm.trans hread'))
        rw [hmore]
      · rename_i hread'
        exact absurd (hread.symm.trans hread') (by simp)

theorem Reads.exists_of_separated (h : item.Reads form stops)
    (hread : item.separated sep t = (as, r)) : ∃ s, WrittenList form sep as s ∧ t = s ++ r := by
  unfold separated at hread
  split at hread
  · rename_i a rest hitem
    obtain ⟨part, hpart, rfl⟩ := h.sound hitem
    cases hmore : item.more sep rest with
    | mk as' rest' =>
        rw [hmore] at hread
        cases hread
        obtain ⟨parts, hparts, rfl⟩ := h.exists_of_more hmore
        refine ⟨_, ⟨part :: parts, .cons hpart hparts, rfl⟩, ?_⟩
        rw [intercalate_cons_of_char, List.append_assoc]
  · cases hread
    exact ⟨[], ⟨[], .nil, rfl⟩, rfl⟩

theorem Reads.separated_append (h : item.Reads form stops) (hsep : stops sep) (hc : stops c)
    (hne : c ≠ sep) {w : Text} (hw : IsBlank w) (has : as ≠ [])
    (hform : WrittenList form sep as s) :
    item.separated sep (s ++ (w ++ c :: r)) = (as, c :: r) := by
  obtain ⟨parts, hparts, rfl⟩ := hform
  cases hparts with
  | nil => exact absurd rfl has
  | cons hpart hparts =>
      obtain ⟨rest, hread, hmore⟩ := h.exists_more_eq (r := r) hsep hc hne hw hpart hparts
      rw [intercalate_cons_of_char, List.append_assoc, separated, hread]
      dsimp only
      rw [hmore]

end Reader

namespace Outline

open Reader

/-! ## Names and rules -/

theorem isNameChar_iff {c : Char} : isNameChar c = true ↔ MayNameSymbol c := by
  simp [isNameChar, isReserved, MayNameSymbol, not_or, and_assoc]

theorem isLeftHandSideChar_iff {c : Char} : isLeftHandSideChar c = true ↔ MayNameHead c := by
  rw [isLeftHandSideChar, Bool.and_eq_true, Bool.and_eq_true, isNameChar_iff]
  simp [MayNameHead, and_assoc]

theorem endsAlternative_eq_false_iff {c : Char} :
    endsAlternative c = false ↔ c ∉ [',', '|', '}'] := by
  simp [endsAlternative, not_or, and_assoc]

theorem isLayout_of_mayNameSymbol {c : Char} (hc : MayNameSymbol c) : isLayout c = false :=
  Bool.eq_false_iff.mpr fun hlayout =>
    absurd (isWhiteSpace_of_isLayout hlayout) (by simp [hc.1])

theorem IsBlank.append {w w' : Text} (hw : IsBlank w) (hw' : IsBlank w') : IsBlank (w ++ w') :=
  fun c hc => (List.mem_append.mp hc).elim (hw c) (hw' c)

theorem IsBlank.isWhiteSpace {w : Text} (hw : IsBlank w) : ∀ c ∈ w, isWhiteSpace c = true :=
  fun c hc => isWhiteSpace_of_isLayout (isBlank_iff.mp hw c hc)

theorem skipLayout_name {a : Name} {w : Text} (hw : IsBlank w)
    (ha : ∀ c ∈ a.chars, isLayout c = false) (r : Text) :
    skipLayout (w ++ (a.chars ++ r)) = a.chars ++ r := by
  refine skipLayout_append hw fun c hc => ?_
  cases hchars : a.chars with
  | nil => exact absurd hchars a.chars_ne_nil
  | cons d l =>
      obtain rfl : d = c := by simpa [hchars] using hc
      exact ha d (by simp [hchars])

/-- A name ends at the first blank after it. -/
theorem isChar_head?_append {isChar : Char → Bool} {w : Text} (hw : IsBlank w)
    (hlayout : ∀ c, isChar c = true → isLayout c = false) {c : Char} (hc : isChar c = false)
    (r : Text) : ∀ d ∈ (w ++ c :: r).head?, isChar d = false := by
  cases w with
  | nil => simpa using hc
  | cons d w =>
      have hd : isLayout d = true := isBlank_iff.mp hw d List.mem_cons_self
      have hnot : isChar d = false :=
        Bool.eq_false_iff.mpr fun hdchar => absurd hd (by simp [hlayout d hdchar])
      simpa using hnot

/-- A name ends at a character that neither belongs to it nor is a blank. -/
theorem reads_nameOf {isChar : Char → Bool} {may : Char → Prop}
    (hchar : ∀ c, isChar c = true ↔ may c) (hmay : ∀ c, may c → MayNameSymbol c) :
    (nameOf isChar).Reads (WrittenName may) fun c => isChar c = false ∧ isLayout c = false := by
  constructor
  · intro t r a hread
    simp only [nameOf] at hread
    split at hread
    · rename_i b hname
      obtain ⟨rfl, rfl⟩ := Prod.mk.inj (Except.ok.inj hread)
      obtain ⟨w, hw, ht⟩ := exists_blank t
      obtain ⟨w', hw', hrest⟩ := exists_blank ((skipLayout t).dropWhile isChar)
      have hchars := Name.ofText?_eq_some_iff.mp hname
      refine ⟨w ++ b.chars ++ w', ⟨w, w', hw, hw', fun c hc => ?_, rfl⟩, ?_⟩
      · rw [← hchars] at hc
        exact (hchar c).mp (List.mem_takeWhile_imp hc)
      · rw [List.append_assoc, ← hrest, ← hchars, List.append_assoc,
          List.takeWhile_append_dropWhile, ← ht]
    · exact absurd hread (by simp)
  · rintro a s v c r ⟨w, w', hw, hw', ha, rfl⟩ hv ⟨hc, hclayout⟩
    have hlayout : ∀ d, isChar d = true → isLayout d = false := fun d hd =>
      isLayout_of_mayNameSymbol (hmay d ((hchar d).mp hd))
    have hchars : ∀ d ∈ a.chars, isChar d = true := fun d hd => (hchar d).mpr (ha d hd)
    have hblank := hw'.append hv
    have hafter := isChar_head?_append hblank hlayout hc r
    have htext : w ++ a.chars ++ w' ++ (v ++ c :: r) =
        w ++ (a.chars ++ (w' ++ v ++ c :: r)) := by simp only [List.append_assoc]
    have hstart := skipLayout_name hw (fun d hd => hlayout d (hchars d hd)) (w' ++ v ++ c :: r)
    have hend : skipLayout (w' ++ v ++ c :: r) = c :: r :=
      skipLayout_append hblank (by simpa using hclayout)
    simp only [nameOf, htext, hstart, Text.takeWhile_append_of_head? hchars hafter,
      Text.dropWhile_append_of_head? hchars hafter, Name.ofText?_eq_some_iff.mpr rfl, hend]

theorem WrittenAlternative.append_blank {a s w : Text} (hs : WrittenAlternative a s)
    (hw : IsBlank w) : WrittenAlternative a (s ++ w) := by
  obtain ⟨hs, ⟨u, u', hu, hu', rfl⟩, hfirst, hlast⟩ := hs
  refine ⟨fun c hc => ?_, ⟨u, u' ++ w, hu, fun c hc => ?_, by simp⟩, hfirst, hlast⟩
  · rcases List.mem_append.mp hc with hc | hc
    · exact hs c hc
    · rcases by simpa using hw c hc with rfl | rfl | rfl | rfl <;> decide
  · exact (List.mem_append.mp hc).elim (hu' c) (hw.isWhiteSpace c)

theorem reads_alternative :
    alternative.Reads WrittenAlternative fun c => endsAlternative c = true := by
  constructor
  · intro t r a hread
    cases hread
    refine ⟨_, ⟨fun c hc => ?_, Text.isTrimmed_trim _⟩, List.takeWhile_append_dropWhile.symm⟩
    exact endsAlternative_eq_false_iff.mp (by simpa using List.mem_takeWhile_imp hc)
  · intro a s w c r hs hw hc
    obtain ⟨hbody, htrimmed⟩ := hs.append_blank hw
    have hall : ∀ d ∈ s ++ w, (!endsAlternative d) = true := fun d hd => by
      simp [endsAlternative_eq_false_iff.mpr (hbody d hd)]
    have hstop : ∀ d ∈ (c :: r).head?, (!endsAlternative d) = false := by simpa using hc
    rw [← List.append_assoc]
    simp only [alternative, Text.takeWhile_append_of_head? hall hstop,
      Text.dropWhile_append_of_head? hall hstop, Text.trim_eq_iff.mpr htrimmed]

theorem expectArrow_eq_ok_iff {t r : Text} :
    expectArrow t = .ok r ↔ ∃ arrow ∈ [['-', '>'], ['→']], t = arrow ++ r := by
  simp only [List.mem_cons, List.not_mem_nil, or_false, exists_eq_or_imp, exists_eq_left]
  unfold expectArrow
  split
  · rename_i r' hdash
    have ht := expect_eq_ok_iff.mp hdash
    simp [ht]
  · rename_i e hdash
    have hnot : t ≠ ['-', '>'] ++ r := fun ht =>
      absurd (hdash.symm.trans (expect_eq_ok_iff.mpr ht)) (by simp)
    rw [expect_eq_ok_iff, or_iff_right hnot]

/-- An alternative can be read off any text, so there is one after every arrow. -/
theorem separated_alternative_ne_nil (t : Text) : (alternative.separated '|' t).1 ≠ [] :=
  List.cons_ne_nil _ _

theorem reads_head : (nameOf isLeftHandSideChar).Reads (WrittenName MayNameHead)
    fun c => isLeftHandSideChar c = false ∧ isLayout c = false :=
  reads_nameOf (fun _ => isLeftHandSideChar_iff) fun _ hc => hc.1

theorem reads_rule : rule.Reads WrittenRule fun c => c = ',' ∨ c = '}' := by
  constructor
  · intro t r a hread
    obtain ⟨⟨A, t₁⟩, hA, hread⟩ := bind_eq_ok_iff.mp hread
    obtain ⟨t₂, harrow, hread⟩ := bind_eq_ok_iff.mp hread
    cases hread
    obtain ⟨head, hhead, rfl⟩ := reads_head.sound hA
    obtain ⟨arrow, hmem, rfl⟩ := expectArrow_eq_ok_iff.mp harrow
    have hseparated : alternative.separated '|' t₂ = (_, _) := rfl
    obtain ⟨body, hbody, ht₂⟩ := reads_alternative.exists_of_separated hseparated
    refine ⟨head ++ arrow ++ body, ⟨head, arrow, body, hhead, hmem,
      separated_alternative_ne_nil t₂, hbody, rfl⟩, ?_⟩
    rw [List.append_assoc, List.append_assoc, ← ht₂]
  · rintro ⟨A, alternatives⟩ s w c r ⟨head, arrow, body, hhead, hmem, hne, hbody, rfl⟩ hw hc
    have hA : (nameOf isLeftHandSideChar).read (head ++ (arrow ++ (body ++ (w ++ c :: r)))) =
        .ok (A, arrow ++ (body ++ (w ++ c :: r))) := by
      rcases by simpa using hmem with rfl | rfl
      · exact reads_head.complete (w := []) hhead isBlank_nil ⟨rfl, rfl⟩
      · exact reads_head.complete (w := []) hhead isBlank_nil ⟨rfl, rfl⟩
    have halternatives :
        alternative.separated '|' (body ++ (w ++ c :: r)) = (alternatives, c :: r) := by
      refine reads_alternative.separated_append rfl ?_ ?_ hw hne hbody
      · rcases hc with rfl | rfl <;> rfl
      · rcases hc with rfl | rfl <;> decide
    simp only [rule, List.append_assoc, hA, bind, Except.bind,
      expectArrow_eq_ok_iff.mpr ⟨arrow, hmem, rfl⟩, halternatives]
    rfl

/-! ## Sections -/

theorem exists_error_nameOf {isChar : Char → Bool} (hbrace : isChar '}' = false) {w : Text}
    (hw : IsBlank w) (r : Text) : ∃ e, (nameOf isChar).read (w ++ '}' :: r) = .error e := by
  have hskip : skipLayout (w ++ '}' :: r) = '}' :: r := skipLayout_append hw (by simp [isLayout])
  refine ⟨'}' :: r, ?_⟩
  simp [nameOf, hskip, hbrace, Name.ofText?]

theorem exists_error_rule {w : Text} (hw : IsBlank w) (r : Text) :
    ∃ e, rule.read (w ++ '}' :: r) = .error e := by
  obtain ⟨e, he⟩ := exists_error_nameOf (rfl : isLeftHandSideChar '}' = false) hw r
  exact ⟨e, by simp [rule, he, bind, Except.bind]⟩

section

variable {α : Type} {item : Reader α} {form : α → Text → Prop} {stops : Char → Prop}

/-- A list of items is read up to the brace after it; of the blanks before that brace, some may be
left where there is no item. -/
theorem exists_separated_eq (h : item.Reads form stops) (hcomma : stops ',') (hbrace : stops '}')
    (hstuck : ∀ {w : Text}, IsBlank w → ∀ r, ∃ e, item.read (w ++ '}' :: r) = .error e)
    {as : List α} {body w : Text} (hbody : WrittenList form ',' as body) (hw : IsBlank w)
    (r : Text) :
    ∃ w', IsBlank w' ∧ item.separated ',' (body ++ (w ++ '}' :: r)) = (as, w' ++ '}' :: r) := by
  cases as with
  | nil =>
      obtain ⟨parts, hparts, rfl⟩ := hbody
      cases hparts
      obtain ⟨e, he⟩ := hstuck hw r
      exact ⟨w, hw, by simp [separated, he]⟩
  | cons a as =>
      exact ⟨[], isBlank_nil, h.separated_append hcomma hbrace (by decide) hw
        (List.cons_ne_nil a as) hbody⟩

theorem readSection_eq_ok_iff (h : item.Reads form stops) (hcomma : stops ',')
    (hbrace : stops '}')
    (hstuck : ∀ {w : Text}, IsBlank w → ∀ r, ∃ e, item.read (w ++ '}' :: r) = .error e)
    {k : Char} {key : Text} (hk : isLayout k = false) {as : List α} {t r : Text} :
    readSection (k :: key) item t = .ok (as, r) ↔
      ∃ s, WrittenSection (k :: key) form as s ∧ t = s ++ r := by
  constructor
  · intro hread
    obtain ⟨t₁, h₁, hread₁⟩ := bind_eq_ok_iff.mp hread
    obtain ⟨t₂, h₂, hread₂⟩ := bind_eq_ok_iff.mp hread₁
    obtain ⟨t₃, h₃, hread₃⟩ := bind_eq_ok_iff.mp hread₂
    obtain ⟨r', h₄, hlast⟩ := bind_eq_ok_iff.mp hread₃
    obtain ⟨w₁, hw₁, rfl⟩ := (expectAfterLayout_eq_ok_iff hk).mp h₁
    obtain ⟨w₂, hw₂, rfl⟩ := (expectAfterLayout_eq_ok_iff rfl).mp h₂
    obtain ⟨w₃, hw₃, rfl⟩ := (expectAfterLayout_eq_ok_iff rfl).mp h₃
    obtain ⟨w₄, hw₄, hrest⟩ := (expectAfterLayout_eq_ok_iff rfl).mp h₄
    cases hlast
    have hseparated : item.separated ',' t₃ = (_, _) := rfl
    obtain ⟨body, hbody, ht₃⟩ := h.exists_of_separated hseparated
    refine ⟨_, ⟨w₁, w₂, w₃, body, w₄, hw₁, hw₂, hw₃, hw₄, hbody, rfl⟩, ?_⟩
    rw [ht₃, hrest]
    simp only [List.append_assoc]
  · rintro ⟨s, ⟨w₁, w₂, w₃, body, w₄, hw₁, hw₂, hw₃, hw₄, hbody, rfl⟩, rfl⟩
    obtain ⟨w, hw, hitems⟩ := exists_separated_eq h hcomma hbrace hstuck hbody hw₄ r
    have hkey := fun rest => expectAfterLayout_append key hk hw₁ rest
    have hequals := fun rest => expectAfterLayout_append (c := '=') [] rfl hw₂ rest
    have hopen := fun rest => expectAfterLayout_append (c := '{') [] rfl hw₃ rest
    have hclose : expectAfterLayout ['}'] (w ++ '}' :: r) = .ok r :=
      expectAfterLayout_append [] rfl hw r
    have htext : w₁ ++ k :: key ++ w₂ ++ ['='] ++ w₃ ++ ['{'] ++ body ++ w₄ ++ ['}'] ++ r =
        w₁ ++ (k :: key ++ (w₂ ++ (['='] ++ (w₃ ++ (['{'] ++ (body ++ (w₄ ++ '}' :: r))))))) := by
      simp
    rw [htext, readSection]
    simp only [hkey, hequals, hopen, hitems, hclose, bind, Except.bind]
    rfl

end

/-! ## Outlines -/

theorem readSection_names_iff {k : Char} {key : Text} (hk : isLayout k = false) {as : List Name}
    {t r : Text} : readSection (k :: key) (nameOf isNameChar) t = .ok (as, r) ↔
      ∃ s, WrittenSection (k :: key) (WrittenName MayNameSymbol) as s ∧ t = s ++ r :=
  readSection_eq_ok_iff (reads_nameOf (fun _ => isNameChar_iff) fun _ => id) ⟨rfl, rfl⟩ ⟨rfl, rfl⟩
    (exists_error_nameOf rfl) hk

theorem readSection_rules_iff {rules : List (Name × List Text)} {t r : Text} :
    readSection ['P'] rule t = .ok (rules, r) ↔
      ∃ s, WrittenSection ['P'] WrittenRule rules s ∧ t = s ++ r :=
  readSection_eq_ok_iff reads_rule (Or.inl rfl) (Or.inr rfl) exists_error_rule rfl

theorem read_eq_ok_iff {t : Text} {o : Outline} : read t = .ok o ↔ Written o t := by
  constructor
  · intro hread
    obtain ⟨⟨nonTerminals, t₁⟩, h₁, hread₁⟩ := bind_eq_ok_iff.mp hread
    obtain ⟨⟨terminals, t₂⟩, h₂, hread₂⟩ := bind_eq_ok_iff.mp hread₁
    obtain ⟨⟨rules, t₃⟩, h₃, hlast⟩ := bind_eq_ok_iff.mp hread₂
    dsimp only at hlast
    obtain ⟨N, hN, rfl⟩ := (readSection_names_iff rfl).mp h₁
    obtain ⟨T, hT, rfl⟩ := (readSection_names_iff rfl).mp h₂
    obtain ⟨P, hP, rfl⟩ := readSection_rules_iff.mp h₃
    obtain ⟨w, hw, ht₃⟩ := exists_blank t₃
    by_cases hend : skipLayout t₃ = []
    · rw [if_pos hend] at hlast
      cases hlast
      rw [hend, List.append_nil] at ht₃
      exact ⟨N, T, P, w, hN, hT, hP, hw, by simp only [ht₃, List.append_assoc]⟩
    · rw [if_neg hend] at hlast
      exact absurd hlast (by simp [throw, throwThe, MonadExceptOf.throw])
  · rintro ⟨N, T, P, w, hN, hT, hP, hw, rfl⟩
    have hend : skipLayout w = [] := by simpa using skipLayout_append (t := []) hw (by simp)
    have h₁ := (readSection_names_iff (r := T ++ (P ++ w)) rfl).mpr ⟨N, hN, rfl⟩
    have h₂ := (readSection_names_iff (r := P ++ w) rfl).mpr ⟨T, hT, rfl⟩
    have h₃ := (readSection_rules_iff (r := w)).mpr ⟨P, hP, rfl⟩
    rw [List.append_assoc, List.append_assoc, read]
    simp only [h₁, h₂, h₃, hend, bind, Except.bind]
    rfl

/-- The reader accepts a text exactly when it can be taken apart into three sections, and what it
hands out is what stands in them, however the text is taken apart. -/
theorem read_iff_written (t : Text) :
    ((∃ o, read t = .ok o) ↔ ∃ o, Written o t) ∧ (∀ o, Written o t → read t = .ok o) ∧
      ∀ o o', Written o t → Written o' t → o = o' := by
  refine ⟨exists_congr fun _ => read_eq_ok_iff, fun _ => read_eq_ok_iff.mpr, fun o o' h h' => ?_⟩
  exact Except.ok.inj ((read_eq_ok_iff.mpr h).symm.trans (read_eq_ok_iff.mpr h'))

end Outline

end ContextFree
