import ContextFree.Proofs.Segmentation

/-!
# Division by backtracking

The division of a chunk is what one gets by backtracking: by trying the names that begin the chunk
one after the other, the longest first, with a division of its own of what follows each of them. The
table of the divisions of all suffixes only saves doing this more than once.

A chunk can be divided exactly when it is made of names, and each name of the division is then the
longest one after which this is still so. Where there is no division, the report is the shortest
text that can be left of the chunk after names that begin it (`divide_exact`).
-/

namespace ContextFree

/-- The text is made of names from the list, without anything between them. -/
def Text.Joins (names : List Name) (t : Text) : Prop :=
  ∃ as : List Name, (∀ a ∈ as, a ∈ names) ∧ as.flatMap Name.chars = t

/-- Some text that is made of names begins the chunk and leaves the rest. -/
def Text.Leaves (names : List Name) (chunk rest : Text) : Prop :=
  ∃ t, Text.Joins names t ∧ chunk = t ++ rest

namespace Text

variable {names : List Name} {a : Name} {t chunk rest : Text}

theorem joins_nil (names : List Name) : Joins names [] := ⟨[], List.forall_mem_nil _, rfl⟩

theorem Joins.cons (ha : a ∈ names) (h : Joins names t) : Joins names (a.chars ++ t) := by
  obtain ⟨as, has, rfl⟩ := h
  exact ⟨a :: as, List.forall_mem_cons.mpr ⟨ha, has⟩, rfl⟩

theorem Joins.append_name (ha : a ∈ names) (h : Joins names t) : Joins names (t ++ a.chars) := by
  obtain ⟨as, has, rfl⟩ := h
  refine ⟨as ++ [a], fun b hb => ?_, by simp⟩
  rcases List.mem_append.mp hb with hb | hb
  · exact has b hb
  · exact List.mem_singleton.mp hb ▸ ha

theorem leaves_self (names : List Name) (chunk : Text) : Leaves names chunk chunk :=
  ⟨[], joins_nil names, rfl⟩

theorem Leaves.cons (ha : a ∈ names) (h : Leaves names t rest) :
    Leaves names (a.chars ++ t) rest := by
  obtain ⟨s, hs, rfl⟩ := h
  exact ⟨a.chars ++ s, hs.cons ha, (List.append_assoc _ _ _).symm⟩

theorem Leaves.of_name_append (ha : a ∈ names) (h : Leaves names chunk (a.chars ++ rest)) :
    Leaves names chunk rest := by
  obtain ⟨s, hs, rfl⟩ := h
  exact ⟨s ++ a.chars, hs.append_name ha, (List.append_assoc _ _ _).symm⟩

/-- Either nothing has been taken away, or there is a first name. -/
theorem Leaves.cases (h : Leaves names chunk rest) :
    rest = chunk ∨ ∃ a ∈ names, ∃ t, chunk = a.chars ++ t ∧ Leaves names t rest := by
  obtain ⟨_, ⟨as, has, rfl⟩, rfl⟩ := h
  cases as with
  | nil => exact Or.inl rfl
  | cons a as =>
      obtain ⟨ha, has⟩ := List.forall_mem_cons.mp has
      exact Or.inr ⟨a, ha, _, List.append_assoc _ _ _, _, ⟨as, has, rfl⟩, rfl⟩

end Text

namespace Vocabulary

/-! ## The recursion without a table -/

theorem length_drop_lt {x : Symbol} {chunk : Text} (h : x.name.chars <+: chunk) :
    (chunk.drop x.name.chars.length).length < chunk.length := by
  obtain ⟨t, rfl⟩ := h
  rw [List.drop_left]
  exact x.name.length_lt_append t

/-- Tries the given symbols at the beginning of a chunk, in their order. What follows a symbol is
divided in the same way, with all symbols to choose from. -/
def backtrack (v : Vocabulary) (chunk : Text) (xs : List Symbol) (shortest : Text) :
    Except Text Word :=
  if chunk = [] then .ok []
  else
    match xs with
    | [] => .error shortest
    | x :: xs =>
      if _h : x.name.chars <+: chunk then
        let rest := chunk.drop x.name.chars.length
        match v.backtrack rest v.longestFirst rest with
        | .ok w => .ok (x :: w)
        | .error left =>
          v.backtrack chunk xs (if left.length < shortest.length then left else shortest)
      else v.backtrack chunk xs shortest
termination_by (chunk.length, xs.length)
decreasing_by
  · exact Prod.Lex.left _ _ (length_drop_lt ‹_›)
  · exact Prod.Lex.right _ (Nat.lt_succ_self _)
  · exact Prod.Lex.right _ (Nat.lt_succ_self _)

/-- The division of a chunk by means of the table, with the given symbols for the first place. -/
def divideFirst (v : Vocabulary) (chunk : Text) (xs : List Symbol) (shortest : Text) :
    Except Text Word :=
  match chunk with
  | [] => .ok []
  | c :: t => divideAmong (v.divisions t) (c :: t) xs shortest

variable {v : Vocabulary} {chunk rest : Text} {w : Word} {x : Symbol} {xs : List Symbol}
  {shortest : Text}

theorem divide_eq_divideFirst (v : Vocabulary) (chunk : Text) :
    v.divide chunk = v.divideFirst chunk v.longestFirst chunk := by
  cases chunk <;> rfl

theorem divideFirst_nil (hne : chunk ≠ []) : v.divideFirst chunk [] shortest = .error shortest := by
  cases chunk with
  | nil => exact absurd rfl hne
  | cons c t => rfl

theorem divideFirst_cons (hne : chunk ≠ []) : v.divideFirst chunk (x :: xs) shortest =
    if x.name.chars <+: chunk then
      match v.divide (chunk.drop x.name.chars.length) with
      | .ok w => .ok (x :: w)
      | .error left =>
        v.divideFirst chunk xs (if left.length < shortest.length then left else shortest)
    else v.divideFirst chunk xs shortest := by
  cases chunk with
  | nil => exact absurd rfl hne
  | cons c t =>
      rw [divideFirst, divideAmong_cons]
      simp only [isShorter_iff]
      rfl

theorem divideFirst_eq_backtrack (v : Vocabulary) (chunk : Text) (xs : List Symbol)
    (shortest : Text) : v.divideFirst chunk xs shortest = v.backtrack chunk xs shortest := by
  fun_induction backtrack v chunk xs shortest with
  | case1 xs shortest => rfl
  | case2 chunk shortest hne => exact divideFirst_nil hne
  | case3 chunk shortest hne x xs hprefix rest w hw ih =>
      rw [divideFirst_cons hne, if_pos hprefix, divide_eq_divideFirst, ih, hw]
  | case4 chunk shortest hne x xs hprefix rest left hleft ih ihrest =>
      rw [divideFirst_cons hne, if_pos hprefix, divide_eq_divideFirst, ih, hleft]
      exact ihrest
  | case5 chunk shortest hne x xs hprefix ih =>
      rw [divideFirst_cons hne, if_neg hprefix]
      exact ih

theorem divide_eq_backtrack (v : Vocabulary) (chunk : Text) :
    v.divide chunk = v.backtrack chunk v.longestFirst chunk :=
  (v.divide_eq_divideFirst chunk).trans (v.divideFirst_eq_backtrack chunk _ _)

/-! ## Where there is no division -/

theorem error_of_divideFirst (hne : chunk ≠ [])
    (h : v.divideFirst chunk xs shortest = .error rest) :
    rest.length ≤ shortest.length ∧
      (∀ x ∈ xs, ∀ t, chunk = x.name.chars ++ t →
        ∃ left, v.divide t = .error left ∧ rest.length ≤ left.length) ∧
      (rest = shortest ∨
        ∃ x ∈ xs, ∃ t, chunk = x.name.chars ++ t ∧ v.divide t = .error rest) := by
  induction xs generalizing shortest with
  | nil =>
      rw [divideFirst_nil hne] at h
      obtain rfl := Except.error.inj h
      exact ⟨Nat.le_refl _, List.forall_mem_nil _, Or.inl rfl⟩
  | cons x xs ih =>
      rw [divideFirst_cons hne] at h
      by_cases hprefix : x.name.chars <+: chunk
      · obtain ⟨t, rfl⟩ := hprefix
        rw [if_pos (List.prefix_append _ _), List.drop_left] at h
        cases hleft : v.divide t with
        | ok w => simp [hleft] at h
        | error left =>
            rw [hleft] at h
            obtain ⟨hle, hall, hfrom⟩ := ih h
            have hshorter : rest.length ≤ left.length ∧ rest.length ≤ shortest.length := by
              split at hle <;> omega
            refine ⟨hshorter.2, List.forall_mem_cons.mpr ⟨fun t' heq => ?_, hall⟩, ?_⟩
            · obtain rfl := List.append_cancel_left heq
              exact ⟨left, hleft, hshorter.1⟩
            · rcases hfrom with rfl | ⟨y, hy, hrest⟩
              · split
                · exact Or.inr ⟨x, List.mem_cons_self, t, rfl, hleft⟩
                · exact Or.inl rfl
              · exact Or.inr ⟨y, List.mem_cons_of_mem x hy, hrest⟩
      · rw [if_neg hprefix] at h
        obtain ⟨hle, hall, hfrom⟩ := ih h
        refine ⟨hle, List.forall_mem_cons.mpr ⟨fun t heq => ?_, hall⟩, ?_⟩
        · exact absurd (heq ▸ List.prefix_append _ _) hprefix
        · exact hfrom.imp_right fun ⟨y, hy, hrest⟩ => ⟨y, List.mem_cons_of_mem x hy, hrest⟩

/-! ## Names in place of symbols -/

/-- The end of a division is the division of what it makes up. -/
theorem IsOrdered.divide_glued_of_append (hv : v.IsOrdered) {before after : Word}
    (h : v.divide chunk = .ok (before ++ after)) : v.divide (Word.glued after) = .ok after := by
  induction before generalizing chunk with
  | nil =>
      obtain ⟨_, hglued⟩ := hv.flatMap_of_divide h
      rw [List.nil_append] at h hglued
      rwa [hglued]
  | cons x before ih =>
      have hne : chunk ≠ [] := by
        rintro rfl
        simp at h
      obtain ⟨_, _, t, rest, _, hrest, hword, _⟩ := hv.exists_first hne h
      exact ih ((List.cons.inj hword).2 ▸ hrest)

section

variable {names : List Name} (hnames : ∀ a, a ∈ names ↔ ∃ x ∈ v.symbols, x.name = a)

include hnames

theorem joins_glued (hw : ∀ x ∈ w, x ∈ v.symbols) : Text.Joins names (Word.glued w) := by
  induction w with
  | nil => exact Text.joins_nil names
  | cons x w ih =>
      obtain ⟨hx, hw⟩ := List.forall_mem_cons.mp hw
      exact (ih hw).cons ((hnames x.name).mpr ⟨x, hx, rfl⟩)

theorem exists_glued_of_joins {t : Text} (ht : Text.Joins names t) :
    ∃ w : Word, (∀ x ∈ w, x ∈ v.symbols) ∧ Word.glued w = t := by
  obtain ⟨as, has, rfl⟩ := ht
  induction as with
  | nil => exact ⟨[], List.forall_mem_nil _, rfl⟩
  | cons a as ih =>
      obtain ⟨ha, hrest⟩ := List.forall_mem_cons.mp has
      obtain ⟨w, hw, hglued⟩ := ih hrest
      obtain ⟨x, hx, hname⟩ := (hnames a).mp ha
      refine ⟨x :: w, List.forall_mem_cons.mpr ⟨hx, hw⟩, ?_⟩
      rw [Word.glued_cons, hglued, hname, List.flatMap_cons]

theorem IsOrdered.exists_divide_iff (hv : v.IsOrdered) :
    (∃ w, v.divide chunk = .ok w) ↔ Text.Joins names chunk := by
  constructor
  · rintro ⟨w, hw⟩
    obtain ⟨hmem, rfl⟩ := hv.flatMap_of_divide hw
    exact joins_glued hnames hmem
  · intro hjoins
    obtain ⟨w, hw, rfl⟩ := exists_glued_of_joins hnames hjoins
    exact hv.exists_divide hw

theorem IsOrdered.length_le_of_divide (hv : v.IsOrdered) {before after : Word}
    (h : v.divide chunk = .ok (before ++ x :: after)) {a : Name} (ha : a ∈ names) {t : Text}
    (heq : x.name.chars ++ Word.glued after = a.chars ++ t) (ht : Text.Joins names t) :
    a.chars.length ≤ x.name.chars.length := by
  have hafter := hv.divide_glued_of_append h
  have hne : Word.glued (x :: after) ≠ [] := Word.glued_ne_nil (List.cons_ne_nil x after)
  obtain ⟨y, _, _, _, _, _, hword, hlongest⟩ := hv.exists_first hne hafter
  obtain ⟨rfl, _⟩ := List.cons.inj hword
  obtain ⟨z, hz, rfl⟩ := (hnames a).mp ha
  obtain ⟨w, hw⟩ := (hv.exists_divide_iff hnames).mpr ht
  exact hlongest z hz t w heq hw

/-- By induction on the length of the chunk: what is reported comes from the shortest of the reports
on what follows the names that begin it. -/
theorem IsOrdered.leaves_of_divide (hv : v.IsOrdered) (h : v.divide chunk = .error rest) :
    Text.Leaves names chunk rest ∧
      ∀ rest', Text.Leaves names chunk rest' → rest.length ≤ rest'.length := by
  induction hlength : chunk.length using Nat.strongRecOn generalizing chunk rest with
  | ind n ih =>
      have hne : chunk ≠ [] := by
        rintro rfl
        simp at h
      rw [divide_eq_divideFirst] at h
      obtain ⟨hle, hall, hfrom⟩ := error_of_divideFirst hne h
      have hlt : ∀ (x : Symbol) t, chunk = x.name.chars ++ t → t.length < n := by
        rintro x t rfl
        exact hlength ▸ x.name.length_lt_append t
      refine ⟨?_, fun rest' hrest' => ?_⟩
      · rcases hfrom with rfl | ⟨x, hx, t, hchunk, ht⟩
        · exact Text.leaves_self names _
        · have hname := (hnames x.name).mpr ⟨x, hv.mem_longestFirst.mp hx, rfl⟩
          exact hchunk ▸ (ih _ (hlt x t hchunk) ht rfl).1.cons hname
      · rcases hrest'.cases with rfl | ⟨a, ha, t, hchunk, hrest'⟩
        · exact hle
        · obtain ⟨x, hx, rfl⟩ := (hnames a).mp ha
          obtain ⟨left, hleft, hshorter⟩ := hall x (hv.mem_longestFirst.mpr hx) t hchunk
          exact Nat.le_trans hshorter ((ih _ (hlt x t hchunk) hleft rfl).2 rest' hrest')

end

theorem mem_append_iff_exists_symbol (N T : List Name) (a : Name) :
    a ∈ N ++ T ↔ ∃ x ∈ (ofNames N T).symbols, x.name = a := by
  constructor
  · intro ha
    by_cases hT : a ∈ T
    · exact ⟨.terminal a, mem_symbols_ofNames.mpr hT, rfl⟩
    · exact ⟨.nonTerminal a,
        mem_symbols_ofNames.mpr ⟨(List.mem_append.mp ha).resolve_right hT, hT⟩, rfl⟩
  · rintro ⟨x, hx, rfl⟩
    rw [mem_symbols_ofNames] at hx
    cases x with
    | terminal b => exact List.mem_append_right N hx
    | nonTerminal A => exact List.mem_append_left T hx.1

/-- The division of a chunk is found by backtracking, and there is one exactly when the chunk is
made of names. It makes up the chunk, and each of its names is the longest that begins what remains
there and leaves something made of names. Where there is no division, the shortest text is reported
that names at the beginning of the chunk can leave, and no name begins it. -/
theorem divide_exact (N T : List Name) (chunk : Text) :
    (ofNames N T).divide chunk =
        (ofNames N T).backtrack chunk (ofNames N T).longestFirst chunk ∧
      ((∃ w, (ofNames N T).divide chunk = .ok w) ↔ Text.Joins (N ++ T) chunk) ∧
      (∀ w, (ofNames N T).divide chunk = .ok w →
        (∀ x ∈ w, x ∈ (ofNames N T).symbols) ∧ Word.glued w = chunk ∧
          ∀ before x after, w = before ++ x :: after → ∀ a ∈ N ++ T, ∀ t,
            x.name.chars ++ Word.glued after = a.chars ++ t → Text.Joins (N ++ T) t →
              a.chars.length ≤ x.name.chars.length) ∧
      ∀ rest, (ofNames N T).divide chunk = .error rest →
        Text.Leaves (N ++ T) chunk rest ∧
          (∀ rest', Text.Leaves (N ++ T) chunk rest' → rest.length ≤ rest'.length) ∧
          ∀ a ∈ N ++ T, ¬ a.chars <+: rest := by
  have hv := isOrdered_ofNames N T
  have hnames := mem_append_iff_exists_symbol N T
  refine ⟨divide_eq_backtrack _ chunk, hv.exists_divide_iff hnames, fun w hw => ?_,
    fun rest hrest => ?_⟩
  · obtain ⟨hmem, hglued⟩ := hv.flatMap_of_divide hw
    refine ⟨hmem, hglued, ?_⟩
    rintro before x after rfl a ha t heq ht
    exact hv.length_le_of_divide hnames hw ha heq ht
  · obtain ⟨hleaves, hshortest⟩ := hv.leaves_of_divide hnames hrest
    refine ⟨hleaves, hshortest, fun a ha hprefix => ?_⟩
    -- A name at the beginning could be taken away as well.
    obtain ⟨t, rfl⟩ := hprefix
    have hle := hshortest t (hleaves.of_name_append ha)
    exact Nat.not_le_of_lt (a.length_lt_append t) hle

end Vocabulary

end ContextFree
