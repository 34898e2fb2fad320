import ContextFree.Notation.Segmentation

/-!
# How chunks are divided

Dividing a chunk means taking the longest name that begins it and leaves something that can be
divided (`IsOrdered.exists_first`). So it never fails on a chunk that is made of names, and it finds
a single name again. A chunk made of names of one character is found again exactly when no longer
name stands anywhere in it: wherever one does, the division comes upon a longer name no later than
there.
-/

namespace ContextFree

namespace Word

/-- The names of a word without anything between them. -/
def glued (w : Word) : Text := w.flatMap fun x => x.name.chars

@[simp] theorem glued_nil : glued [] = [] := rfl

@[simp] theorem glued_cons (x : Symbol) (w : Word) : glued (x :: w) = x.name.chars ++ glued w :=
  List.flatMap_cons

theorem glued_ne_nil {w : Word} (hne : w ≠ []) : w.glued ≠ [] := by
  cases w with
  | nil => exact absurd rfl hne
  | cons x w => exact List.append_ne_nil_of_left_ne_nil x.name.chars_ne_nil _

theorem exists_eq_singleton {w : Word} {c : Char} (h : w.glued = [c]) :
    ∃ x, w = [x] ∧ x.name.chars = [c] := by
  cases w with
  | nil => exact absurd h (by simp)
  | cons x w =>
      rcases List.append_eq_singleton_iff.mp h with ⟨hx, _⟩ | ⟨hx, hw⟩
      · exact absurd hx x.name.chars_ne_nil
      · refine ⟨x, congrArg (x :: ·) (Decidable.byContradiction fun hne => ?_), hx⟩
        exact glued_ne_nil hne hw

/-- All names in the word have one character. -/
def IsShort (w : Word) : Prop := ∀ x ∈ w, x.name.chars.length = 1

/-- A part of the glued text of such a word belongs to a part of the word. -/
theorem IsShort.exists_append {w : Word} (hw : IsShort w) {s t : Text} (h : glued w = s ++ t) :
    ∃ w₁ w₂, w = w₁ ++ w₂ ∧ glued w₁ = s ∧ glued w₂ = t := by
  induction w generalizing s with
  | nil =>
      obtain ⟨rfl, rfl⟩ := List.append_eq_nil_iff.mp h.symm
      exact ⟨[], [], rfl, rfl, rfl⟩
  | cons x w ih =>
      obtain ⟨hx, hw⟩ := List.forall_mem_cons.mp hw
      obtain ⟨c, hc⟩ := List.length_eq_one_iff.mp hx
      cases s with
      | nil => exact ⟨[], x :: w, rfl, rfl, h⟩
      | cons d s =>
          rw [glued_cons, hc] at h
          obtain ⟨rfl, hrest⟩ := List.cons.inj h
          obtain ⟨w₁, w₂, hsplit, hw₁, hw₂⟩ := ih hw hrest
          exact ⟨x :: w₁, w₂, congrArg (x :: ·) hsplit, by rw [glued_cons, hc, hw₁]; rfl, hw₂⟩

end Word

namespace Vocabulary

/-- The symbols are tried from the longest name to the shortest, and a name belongs to one of them
only. -/
structure IsOrdered (v : Vocabulary) : Prop where
  mem_longestFirst : ∀ {x}, x ∈ v.longestFirst ↔ x ∈ v.symbols
  pairwise_longestFirst :
    v.longestFirst.Pairwise fun x y => y.name.chars.length ≤ x.name.chars.length
  eq_of_name_eq : ∀ {x y}, x ∈ v.symbols → y ∈ v.symbols → x.name = y.name → x = y

theorem mem_symbols_ofNames {N T : List Name} {x : Symbol} :
    x ∈ (ofNames N T).symbols ↔
      match x with
      | .terminal a => a ∈ T
      | .nonTerminal A => A ∈ N ∧ A ∉ T := by
  cases x <;> simp [ofNames]

theorem isOrdered_ofNames (N T : List Name) : (ofNames N T).IsOrdered := by
  refine ⟨List.mem_mergeSort, ?_, fun {x y} hx hy hname => ?_⟩
  · refine (List.pairwise_mergeSort ?_ ?_ _).imp fun h => of_decide_eq_true h
    · intro x y z hxy hyz
      exact decide_eq_true (Nat.le_trans (of_decide_eq_true hyz) (of_decide_eq_true hxy))
    · intro x y
      simpa using Nat.le_total y.name.chars.length x.name.chars.length
  · rw [mem_symbols_ofNames] at hx hy
    cases x <;> cases y <;> simp_all [Symbol.name]

variable {v : Vocabulary} {chunk : Text} {w : Word} {x : Symbol}

/-- The division of a chunk that begins with the symbol, if there is one. -/
def divideAfter (v : Vocabulary) (chunk : Text) (x : Symbol) : Option Word :=
  if x.name.chars <+: chunk then
    (v.divide (chunk.drop x.name.chars.length)).toOption.map (x :: ·)
  else none

theorem divideAfter_eq_some_iff : v.divideAfter chunk x = some w ↔
    ∃ t rest, chunk = x.name.chars ++ t ∧ v.divide t = .ok rest ∧ w = x :: rest := by
  unfold divideAfter
  split
  · rename_i hprefix
    obtain ⟨t, rfl⟩ := hprefix
    cases hrest : v.divide t <;> simp [hrest, Except.toOption, eq_comm]
  · rename_i hprefix
    simp only [reduceCtorEq, false_iff]
    rintro ⟨t, _, rfl, _⟩
    exact hprefix (List.prefix_append _ _)

/-- The table is looked up where the rest of the chunk has its division. -/
theorem divideAmong_cons {c : Char} {t : Text} (xs : List Symbol) (shortest : Text) :
    divideAmong (v.divisions t) (c :: t) (x :: xs) shortest =
      if x.name.chars <+: c :: t then
        match v.divide ((c :: t).drop x.name.chars.length) with
        | .ok w => .ok (x :: w)
        | .error rest => divideAmong (v.divisions t) (c :: t) xs
            (if isShorter rest shortest then rest else shortest)
      else divideAmong (v.divisions t) (c :: t) xs shortest := by
  rw [divideAmong]
  by_cases hprefix : x.name.chars <+: c :: t
  · have hle := hprefix.length_le
    obtain ⟨n, hn⟩ := Nat.exists_eq_succ_of_ne_zero (Nat.ne_of_gt x.name.length_chars_pos)
    rw [hn, List.length_cons] at hle
    have hlater : (v.divisions t).getD (x.name.chars.length - 1) (.error shortest) =
        v.divide ((c :: t).drop x.name.chars.length) := by
      rw [hn, Nat.succ_sub_one, v.getD_divisions (Nat.le_of_succ_le_succ hle),
        Nat.succ_eq_add_one, List.drop_succ_cons]
    cases hrest : v.divide ((c :: t).drop x.name.chars.length) <;>
      simp only [List.isPrefixOf_iff_prefix.mpr hprefix, hprefix, if_true, hlater, hrest]
  · rw [if_neg (by simpa using hprefix), if_neg hprefix]

theorem toOption_divideAmong {c : Char} {t : Text} (xs : List Symbol) (shortest : Text) :
    (divideAmong (v.divisions t) (c :: t) xs shortest).toOption =
      xs.findSome? (v.divideAfter (c :: t)) := by
  induction xs generalizing shortest with
  | nil => rfl
  | cons x xs ih =>
      rw [divideAmong_cons, List.findSome?_cons, divideAfter]
      split
      · cases v.divide ((c :: t).drop x.name.chars.length) with
        | ok w => rfl
        | error rest => exact ih _
      · exact ih shortest

/-- The first name in the order of trial that leaves something that can be divided is taken. -/
theorem toOption_divide (hne : chunk ≠ []) :
    (v.divide chunk).toOption = v.longestFirst.findSome? (v.divideAfter chunk) := by
  cases chunk with
  | nil => exact absurd rfl hne
  | cons c t =>
      rw [divide_cons]
      exact toOption_divideAmong v.longestFirst (c :: t)

/-- Whatever is made of names can be divided, though perhaps into others. -/
theorem IsOrdered.exists_divide (hv : v.IsOrdered) (hw : ∀ x ∈ w, x ∈ v.symbols) :
    ∃ w', v.divide (Word.glued w) = .ok w' := by
  induction w with
  | nil => exact ⟨[], rfl⟩
  | cons x w ih =>
      obtain ⟨hx, hw⟩ := List.forall_mem_cons.mp hw
      obtain ⟨rest, hrest⟩ := ih hw
      have hafter : v.divideAfter (Word.glued (x :: w)) x = some (x :: rest) :=
        divideAfter_eq_some_iff.mpr ⟨_, rest, rfl, hrest, rfl⟩
      have hne : Word.glued (x :: w) ≠ [] := Word.glued_ne_nil (List.cons_ne_nil x w)
      have hsome := toOption_divide (v := v) hne
      cases hdivide : v.divide (Word.glued (x :: w)) with
      | ok w' => exact ⟨w', rfl⟩
      | error e =>
          rw [hdivide, eq_comm] at hsome
          have hnone := List.findSome?_eq_none_iff.mp hsome x (hv.mem_longestFirst.mpr hx)
          exact absurd (hnone.symm.trans hafter) (by simp)

/-- A division begins with a name after which the rest can be divided, and no longer name that
begins the chunk has this property. -/
theorem IsOrdered.exists_first (hv : v.IsOrdered) (hne : chunk ≠ [])
    (hdivide : v.divide chunk = .ok w) :
    ∃ x ∈ v.symbols, ∃ t rest, chunk = x.name.chars ++ t ∧ v.divide t = .ok rest ∧ w = x :: rest ∧
      ∀ y ∈ v.symbols, ∀ t' rest', chunk = y.name.chars ++ t' → v.divide t' = .ok rest' →
        y.name.chars.length ≤ x.name.chars.length := by
  have hsome := toOption_divide (v := v) hne
  rw [hdivide, eq_comm] at hsome
  obtain ⟨before, x, after, hsplit, hx, hbefore⟩ := List.findSome?_eq_some_iff.mp hsome
  obtain ⟨t, rest, hchunk, hrest, hw⟩ := divideAfter_eq_some_iff.mp hx
  have hxmem : x ∈ v.symbols := hv.mem_longestFirst.mp (by simp [hsplit])
  refine ⟨x, hxmem, t, rest, hchunk, hrest, hw, fun y hy t' rest' hchunk' hrest' => ?_⟩
  have hafter := divideAfter_eq_some_iff.mpr ⟨t', rest', hchunk', hrest', rfl⟩
  have hmem := hv.mem_longestFirst.mpr hy
  have hsorted := hv.pairwise_longestFirst
  rw [hsplit] at hmem hsorted
  rcases List.mem_append.mp hmem with hmem | hmem
  · exact absurd ((hbefore y hmem).symm.trans hafter) (by simp)
  · rcases List.mem_cons.mp hmem with rfl | hmem
    · exact Nat.le_refl _
    · exact (List.pairwise_cons.mp (List.pairwise_append.mp hsorted).2.1).1 y hmem

/-- What a chunk is divided into are names that make it up. -/
theorem IsOrdered.flatMap_of_divide (hv : v.IsOrdered) (hdivide : v.divide chunk = .ok w) :
    (∀ x ∈ w, x ∈ v.symbols) ∧ Word.glued w = chunk := by
  induction w generalizing chunk with
  | nil =>
      by_cases hne : chunk = []
      · exact ⟨List.forall_mem_nil _, hne.symm⟩
      · obtain ⟨_, _, _, _, _, _, hw, _⟩ := hv.exists_first hne hdivide
        exact absurd hw (by simp)
  | cons x w ih =>
      have hne : chunk ≠ [] := by
        rintro rfl
        exact absurd (Except.ok.inj hdivide) (by simp)
      obtain ⟨y, hy, t, rest, rfl, hrest, hw, _⟩ := hv.exists_first hne hdivide
      obtain ⟨rfl, rfl⟩ := List.cons.inj hw
      obtain ⟨hmem, hflat⟩ := ih hrest
      exact ⟨List.forall_mem_cons.mpr ⟨hy, hmem⟩, by rw [Word.glued_cons, hflat]⟩

theorem IsOrdered.divide_name (hv : v.IsOrdered) (hx : x ∈ v.symbols) :
    v.divide x.name.chars = .ok [x] := by
  obtain ⟨w, hw⟩ := hv.exists_divide (w := [x]) (List.forall_mem_singleton.mpr hx)
  rw [Word.glued_cons, Word.glued_nil, List.append_nil] at hw
  obtain ⟨y, hy, t, rest, hchars, hrest, rfl, hlongest⟩ := hv.exists_first x.name.chars_ne_nil hw
  have hle := hlongest x hx [] [] (List.append_nil _).symm rfl
  have ht : t = [] := by
    have hlength := congrArg List.length hchars
    rw [List.length_append] at hlength
    exact List.length_eq_zero_iff.mp (by omega)
  subst ht
  cases hrest
  rw [List.append_nil] at hchars
  rw [hw, hv.eq_of_name_eq hx hy (Name.ext hchars)]

/-! ## Names of one character -/

theorem IsOrdered.eq_of_glued_eq (hv : v.IsOrdered) {w w' : Word} (hw : ∀ x ∈ w, x ∈ v.symbols)
    (hw' : ∀ x ∈ w', x ∈ v.symbols) (hshort : w.IsShort) (hshort' : w'.IsShort)
    (h : w.glued = w'.glued) : w = w' := by
  induction w generalizing w' with
  | nil =>
      cases w' with
      | nil => rfl
      | cons y w' => exact absurd (List.append_eq_nil_iff.mp h.symm).1 y.name.chars_ne_nil
  | cons x w ih =>
      cases w' with
      | nil => exact absurd (List.append_eq_nil_iff.mp h).1 x.name.chars_ne_nil
      | cons y w' =>
          obtain ⟨hx, hw⟩ := List.forall_mem_cons.mp hw
          obtain ⟨hy, hw'⟩ := List.forall_mem_cons.mp hw'
          obtain ⟨hxshort, hshort⟩ := List.forall_mem_cons.mp hshort
          obtain ⟨hyshort, hshort'⟩ := List.forall_mem_cons.mp hshort'
          obtain ⟨hchars, hrest⟩ := List.append_inj h (hxshort.trans hyshort.symm)
          rw [hv.eq_of_name_eq hx hy (Name.ext hchars), ih hw hw' hshort hshort' hrest]

theorem IsOrdered.divide_short (hv : v.IsOrdered) (hw : ∀ x ∈ w, x ∈ v.symbols)
    (hshort : w.IsShort)
    (hnone : ∀ y ∈ v.symbols, 2 ≤ y.name.chars.length → ¬ y.name.chars <:+: w.glued) :
    v.divide w.glued = .ok w := by
  obtain ⟨w', hw'⟩ := hv.exists_divide hw
  obtain ⟨hmem, hglued⟩ := hv.flatMap_of_divide hw'
  have hshort' : w'.IsShort := by
    intro x hx
    have hpos := x.name.length_chars_pos
    have hwithin : x.name.chars <:+: w.glued := by
      obtain ⟨before, after, rfl⟩ := List.append_of_mem hx
      rw [← hglued]
      exact ⟨Word.glued before, Word.glued after, by simp [Word.glued]⟩
    exact Nat.le_antisymm
      (Nat.le_of_not_lt fun hlong => hnone x (hmem x hx) hlong hwithin) hpos
  rw [hw', hv.eq_of_glued_eq hmem hw hshort' hshort hglued]

/-- Where a name begins the chunk, what is left after it can be divided as well, so that the name
that is taken is no shorter. -/
theorem IsOrdered.exists_not_shorter (hv : v.IsOrdered) (hw : ∀ x ∈ w, x ∈ v.symbols)
    (hshort : w.IsShort) {y : Symbol} (hy : y ∈ v.symbols) (hbegin : y.name.chars <+: w.glued)
    {w' : Word} (hdivide : v.divide w.glued = .ok w') :
    ∃ x ∈ w', y.name.chars.length ≤ x.name.chars.length := by
  obtain ⟨t, ht⟩ := hbegin
  have hne : w.glued ≠ [] := ht ▸ List.append_ne_nil_of_left_ne_nil y.name.chars_ne_nil t
  obtain ⟨x, _, _, rest, _, _, rfl, hlongest⟩ := hv.exists_first hne hdivide
  obtain ⟨w₁, w₂, hsplit, _, rfl⟩ := hshort.exists_append ht.symm
  obtain ⟨rest', hrest'⟩ := hv.exists_divide (w := w₂) fun x hx =>
    hw x (hsplit ▸ List.mem_append_right w₁ hx)
  exact ⟨x, List.mem_cons_self, hlongest y hy _ rest' ht.symm hrest'⟩

/-- By induction on the word, up to the first place where a longer name is taken or stands. -/
theorem IsOrdered.exists_long_of_infix (hv : v.IsOrdered) (hw : ∀ x ∈ w, x ∈ v.symbols)
    (hshort : w.IsShort) {y : Symbol} (hy : y ∈ v.symbols) (hlong : 2 ≤ y.name.chars.length)
    (hwithin : y.name.chars <:+: w.glued) {w' : Word} (hdivide : v.divide w.glued = .ok w') :
    ∃ x ∈ w', 2 ≤ x.name.chars.length := by
  induction w generalizing w' with
  | nil =>
      have hnil := List.eq_nil_of_infix_nil hwithin
      exact absurd hnil y.name.chars_ne_nil
  | cons z w ih =>
      by_cases hbegin : y.name.chars <+: Word.glued (z :: w)
      · obtain ⟨x, hx, hle⟩ := hv.exists_not_shorter hw hshort hy hbegin hdivide
        exact ⟨x, hx, Nat.le_trans hlong hle⟩
      have hne : Word.glued (z :: w) ≠ [] := Word.glued_ne_nil (List.cons_ne_nil z w)
      obtain ⟨x, _, t, rest, hchunk, hrest, rfl, _⟩ := hv.exists_first hne hdivide
      by_cases hxlong : 2 ≤ x.name.chars.length
      · exact ⟨x, List.mem_cons_self, hxlong⟩
      obtain ⟨_, hw⟩ := List.forall_mem_cons.mp hw
      obtain ⟨hzshort, hshort⟩ := List.forall_mem_cons.mp hshort
      obtain ⟨c, hc⟩ := List.length_eq_one_iff.mp hzshort
      have hxpos := x.name.length_chars_pos
      have ht : t = Word.glued w := by
        have hlength : z.name.chars.length = x.name.chars.length := by omega
        exact (List.append_inj hchunk hlength).2.symm
      rw [Word.glued_cons, hc, List.singleton_append] at hwithin hbegin
      have htail := (List.infix_cons_iff.mp hwithin).resolve_left hbegin
      obtain ⟨x', hx', hx'long⟩ := ih hw hshort htail (ht ▸ hrest)
      exact ⟨x', List.mem_cons_of_mem x hx', hx'long⟩

end Vocabulary

end ContextFree
