import Mathlib.Data.List.Nodup
import Mathlib.Logic.Function.Iterate
import ContextFree.ShortWords
import ContextFree.Proofs.Transformation

/-!
# Which short words are found

What is collected up to a length are the facts that hold up to that length, for all non-terminals
(`mem_facts_iff`). Rounds over the productions, each of which sees what those before it have added,
come to a halt and to the same facts (`exists_sweep_eq`). So the list of short words holds those of
the language, each once, and is in the order that a strict comparison by length and then letter by
letter prescribes; a list in this order is determined by its elements, and normalization leaves it
as it is.
-/

namespace ContextFree

/-! ## The order of short words -/

/-- Shorter, or of the same length and lexicographically smaller. -/
def ShortlexLt (u v : Sentence) : Prop := u.length < v.length ∨ u.length = v.length ∧ u < v

theorem ShortlexLt.asymm {u v : Sentence} (h : ShortlexLt u v) : ¬ ShortlexLt v u := by
  rintro (hlength | ⟨hlength, hlt⟩) <;> rcases h with h | ⟨h, hlt'⟩
  · omega
  · omega
  · omega
  · exact List.lt_asymm hlt hlt'

theorem nodup_of_pairwise_shortlexLt {l : List Sentence} (h : l.Pairwise ShortlexLt) : l.Nodup :=
  h.imp fun hlt heq => (heq ▸ hlt).asymm (heq ▸ hlt)

/-- A list in this order is determined by its elements. -/
theorem eq_of_pairwise_shortlexLt {l m : List Sentence} (hl : l.Pairwise ShortlexLt)
    (hm : m.Pairwise ShortlexLt) (h : ∀ u, u ∈ l ↔ u ∈ m) : l = m := by
  have hperm : l.Perm m := (List.perm_ext_iff_of_nodup (nodup_of_pairwise_shortlexLt hl)
    (nodup_of_pairwise_shortlexLt hm)).mpr h
  exact hperm.eq_of_pairwise (fun _ _ _ _ hlt hgt => absurd hgt hlt.asymm) hl hm

namespace Grammar

theorem shortlex_iff {u v : Sentence} :
    shortlex u v = true ↔ u.length < v.length ∨ u.length = v.length ∧ u ≤ v :=
  decide_eq_true_iff

theorem shortlex_trans (u v w : Sentence) (huv : shortlex u v = true)
    (hvw : shortlex v w = true) : shortlex u w = true := by
  rw [shortlex_iff] at huv hvw ⊢
  rcases huv with huv | ⟨huv, hle⟩ <;> rcases hvw with hvw | ⟨hvw, hle'⟩
  · exact Or.inl (Nat.lt_trans huv hvw)
  · exact Or.inl (hvw ▸ huv)
  · exact Or.inl (huv ▸ hvw)
  · exact Or.inr ⟨huv.trans hvw, Std.le_trans hle hle'⟩

theorem shortlex_total (u v : Sentence) : (shortlex u v || shortlex v u) = true := by
  rw [Bool.or_eq_true, shortlex_iff, shortlex_iff]
  rcases Nat.lt_trichotomy u.length v.length with hlength | hlength | hlength
  · exact Or.inl (Or.inl hlength)
  · exact (Std.le_total (a := u) (b := v)).imp (fun h => Or.inr ⟨hlength, h⟩)
      fun h => Or.inr ⟨hlength.symm, h⟩
  · exact Or.inr (Or.inl hlength)

theorem shortlexLt_of_shortlex {u v : Sentence} (hle : shortlex u v = true) (hne : u ≠ v) :
    ShortlexLt u v := by
  rcases shortlex_iff.mp hle with hlength | ⟨hlength, hle⟩
  · exact Or.inl hlength
  · exact Or.inr ⟨hlength, Std.lt_of_le_of_ne hle hne⟩

theorem pairwise_shortlexLt_mergeSort {l : List Sentence} (hl : l.Nodup) :
    (l.mergeSort shortlex).Pairwise ShortlexLt := by
  have hsorted : (l.mergeSort shortlex).Pairwise fun u v => shortlex u v = true :=
    List.pairwise_mergeSort shortlex_trans shortlex_total l
  have hnodup : (l.mergeSort shortlex).Nodup := (List.mergeSort_perm l shortlex).nodup_iff.mpr hl
  exact hsorted.imp₂ (fun _ _ => shortlexLt_of_shortlex) hnodup

/-! ## Facts -/

variable {g : Grammar} {n : Nat}

theorem spelled_mono {facts facts' : List Fact} (hsub : ∀ f ∈ facts, f ∈ facts') {w : Word}
    {u : Sentence} (h : Spelled facts w u) : Spelled facts' w u := by
  induction h with
  | nil => exact .nil
  | terminal a _ ih => exact ih.terminal a
  | nonTerminal hfact _ ih => exact .nonTerminal (hsub _ hfact) ih

/-- The non-terminal derives the sentence, which is no longer than the bound. -/
def TrueUpTo (g : Grammar) (n : Nat) (f : Fact) : Prop := g.Generates f.1 f.2 ∧ f.2.length ≤ n

theorem yields_of_spelled {facts : List Fact} (hfacts : ∀ f ∈ facts, g.Generates f.1 f.2)
    {w : Word} {u : Sentence} (h : Spelled facts w u) : g.Yields w u := by
  induction h with
  | nil => exact .nil
  | terminal a _ ih => exact ih.terminal a
  | nonTerminal hfact _ ih => exact (generates_iff_yields.mp (hfacts _ hfact)).append ih

theorem trueUpTo_of_spelled {facts : List Fact} (hfacts : ∀ f ∈ facts, g.TrueUpTo n f)
    {p : Production} (hp : p ∈ g.productions) {u : Sentence} (hlength : u.length ≤ n)
    (h : Spelled facts p.rhs u) : g.TrueUpTo n (p.lhs, u) :=
  ⟨generates_iff.mpr ⟨p, hp, rfl, yields_of_spelled (fun f hf => (hfacts f hf).1) h⟩, hlength⟩

/-- Where nothing follows any more, no fact is missing: the parts of a sentence are no longer than
the sentence itself. -/
theorem Yields.spelled {facts : List Fact} (hclosed : ∀ f, g.Follows n facts f → f ∈ facts)
    {w : Word} {u : Sentence} (hy : g.Yields w u) (hlength : u.length ≤ n) :
    Spelled facts w u := by
  induction hy with
  | nil => exact .nil
  | terminal a _ ih => exact (ih (Nat.le_of_succ_le hlength)).terminal a
  | @nonTerminal p w u v hp _ _ ihrhs ih =>
      rw [List.length_append] at hlength
      have hrhs := ihrhs (Nat.le_of_add_right_le hlength)
      have hfact : (p.lhs, u) ∈ facts :=
        hclosed _ ⟨p, hp, rfl, Nat.le_of_add_right_le hlength, hrhs⟩
      exact .nonTerminal hfact (ih (Nat.le_of_add_left_le hlength))

theorem mem_of_trueUpTo {facts : List Fact} (hclosed : ∀ f, g.Follows n facts f → f ∈ facts)
    {f : Fact} (hf : g.TrueUpTo n f) : f ∈ facts := by
  obtain ⟨p, hp, hlhs, hy⟩ := generates_iff.mp hf.1
  exact hclosed f ⟨p, hp, hlhs, hf.2, hy.spelled hclosed hf.2⟩

theorem mem_facts_of_follows {f : Fact} (hf : g.Follows n (g.facts n).toList f) :
    f ∈ g.facts n := by
  obtain ⟨p, hp, hlhs, hlength, hspelled⟩ := hf
  have hmem := mem_facts_of_spelled hp hlength hspelled
  rwa [hlhs] at hmem

theorem mem_facts_iff {f : Fact} : f ∈ g.facts n ↔ g.TrueUpTo n f := by
  constructor
  · exact facts_induction (motive := g.TrueUpTo n)
      (fun _ hp _ hfacts _ hlength h => trueUpTo_of_spelled hfacts hp hlength h) f
  · exact mem_of_trueUpTo fun _ => mem_facts_of_follows

/-! ## Rounds -/

/-- Adds what one production spells with the facts known so far. -/
def spellOut (n : Nat) (known : OrderedSet Fact) (p : Production) : OrderedSet Fact :=
  known.insertAll ((Choices.concatenations n
    (p.rhs.map (.ofSymbol (.ofFacts []) (.ofFacts known.toList)))).map fun u => (p.lhs, u))

/-- A round over the productions: each of them sees what those before it have added. -/
def sweep (g : Grammar) (n : Nat) (known : OrderedSet Fact) : OrderedSet Fact :=
  g.productions.toList.foldl (spellOut n) known

theorem mem_spellOut {known : OrderedSet Fact} {p : Production} {f : Fact} :
    f ∈ spellOut n known p ↔
      f ∈ known ∨ p.lhs = f.1 ∧ f.2.length ≤ n ∧ Spelled known.toList p.rhs f.2 := by
  simp only [spellOut, OrderedSet.mem_insertAll, List.mem_map, Choices.mem_concatenations,
    List.nil_append]
  refine or_congr_right ⟨?_, ?_⟩
  · rintro ⟨u, ⟨hlength, h⟩, rfl⟩
    exact ⟨rfl, hlength, h⟩
  · rintro ⟨hlhs, hlength, h⟩
    exact ⟨f.2, ⟨hlength, h⟩, Prod.ext hlhs rfl⟩

theorem toList_prefix_foldl_spellOut (ps : List Production) (known : OrderedSet Fact) :
    known.toList <+: (ps.foldl (spellOut n) known).toList := by
  induction ps generalizing known with
  | nil => exact List.prefix_rfl
  | cons p ps ih => exact (OrderedSet.toList_prefix_insertAll known _).trans (ih _)

theorem toList_prefix_sweep (g : Grammar) (n : Nat) (known : OrderedSet Fact) :
    known.toList <+: (g.sweep n known).toList :=
  toList_prefix_foldl_spellOut g.productions.toList known

theorem mem_sweep_of_follows {known : OrderedSet Fact} {f : Fact}
    (hf : g.Follows n known.toList f) : f ∈ g.sweep n known := by
  obtain ⟨p, hp, hlhs, hlength, h⟩ := hf
  obtain ⟨before, after, hsplit⟩ := List.append_of_mem (OrderedSet.mem_toList.mpr hp)
  rw [sweep, hsplit, List.foldl_append, List.foldl_cons]
  refine (toList_prefix_foldl_spellOut after _).subset (mem_spellOut.mpr (Or.inr ?_))
  have hgrown := (toList_prefix_foldl_spellOut (n := n) before known).subset
  exact ⟨hlhs, hlength, spelled_mono hgrown h⟩

theorem sweep_induction {motive : Fact → Prop}
    (hstep : ∀ p ∈ g.productions, ∀ facts : List Fact, (∀ f ∈ facts, motive f) →
      ∀ u, u.length ≤ n → Spelled facts p.rhs u → motive (p.lhs, u))
    {known : OrderedSet Fact} (h : ∀ f ∈ known, motive f) : ∀ f ∈ g.sweep n known, motive f := by
  refine List.foldlRecOn (motive := fun s => ∀ f ∈ s, motive f) _ _ h fun s hs p hp f hf => ?_
  rcases mem_spellOut.mp hf with hold | ⟨hlhs, hlength, hspelled⟩
  · exact hs f hold
  · have hnew := hstep p hp s.toList hs f.2 hlength hspelled
    rwa [hlhs] at hnew

theorem trueUpTo_of_mem_iterate_sweep (k : Nat) : ∀ f ∈ (g.sweep n)^[k] ∅, g.TrueUpTo n f := by
  induction k with
  | zero => exact fun f hf => absurd hf (OrderedSet.not_mem_empty f)
  | succ k ih =>
      rw [Function.iterate_succ_apply']
      exact sweep_induction
        (fun _ hp _ hfacts _ hlength h => trueUpTo_of_spelled hfacts hp hlength h) ih

/-- Only so many rounds can add something: what they add is among finitely many facts. -/
theorem exists_sweep_eq (g : Grammar) (n : Nat) :
    ∃ k, g.sweep n ((g.sweep n)^[k] ∅) = (g.sweep n)^[k] ∅ := by
  refine Classical.byContradiction fun hnone => ?_
  have hchanges := not_exists.mp hnone
  have hgrows : ∀ k, k ≤ ((g.sweep n)^[k] ∅).size := by
    intro k
    induction k with
    | zero => exact Nat.zero_le _
    | succ k ih =>
        rw [Function.iterate_succ_apply']
        exact Nat.lt_of_le_of_lt ih
          (OrderedSet.size_lt_of_prefix (g.toList_prefix_sweep n _) (hchanges k))
  have hbound : ((g.sweep n)^[(g.facts n).size + 1] ∅).size ≤ (g.facts n).toList.length :=
    OrderedSet.size_le_of_subset fun f hf =>
      mem_facts_iff.mpr (trueUpTo_of_mem_iterate_sweep _ f hf)
  rw [OrderedSet.length_toList] at hbound
  exact Nat.not_succ_le_self _ (Nat.le_trans (hgrows _) hbound)

theorem mem_iff_of_sweep_eq {k : Nat} (hk : g.sweep n ((g.sweep n)^[k] ∅) = (g.sweep n)^[k] ∅)
    {f : Fact} : f ∈ (g.sweep n)^[k] ∅ ↔ g.TrueUpTo n f :=
  ⟨trueUpTo_of_mem_iterate_sweep k f, mem_of_trueUpTo fun _ hf => hk ▸ mem_sweep_of_follows hf⟩

/-! ## Short words -/

theorem nodup_sentencesOf {facts : List Fact} (hfacts : facts.Nodup) (A : Name) :
    (sentencesOf facts A).Nodup := by
  refine List.Nodup.filterMap (fun f f' u hu hu' => ?_) hfacts
  obtain ⟨hA, hsentence⟩ := Option.ite_none_right_eq_some.mp hu
  obtain ⟨hA', hsentence'⟩ := Option.ite_none_right_eq_some.mp hu'
  exact Prod.ext (hA.trans hA'.symm)
    ((Option.some.inj hsentence).trans (Option.some.inj hsentence').symm)

theorem mem_shortWords_iff {u : Sentence} :
    u ∈ g.shortWords n ↔ g.Language u ∧ u.length ≤ n := by
  rw [shortWords, List.mem_mergeSort, mem_sentencesOf, OrderedSet.mem_toList, mem_facts_iff]
  exact Iff.rfl

theorem pairwise_shortWords (g : Grammar) (n : Nat) :
    (g.shortWords n).Pairwise ShortlexLt :=
  pairwise_shortlexLt_mergeSort (nodup_sentencesOf (g.facts n).nodup g.start)

end Grammar

namespace NormalGrammar

theorem mem_shortWords_iff {c : NormalGrammar} {n : Nat} {u : Sentence} :
    u ∈ c.shortWords n ↔ c.Language u ∧ u.length ≤ n := by
  cases herasable : c.erasable with
  | false => simp [shortWords, Language, herasable, Grammar.mem_shortWords_iff]
  | true =>
      by_cases hu : u = []
      · simp [shortWords, Language, herasable, hu]
      · simp [shortWords, Language, herasable, hu, Grammar.mem_shortWords_iff]

theorem pairwise_shortWords (c : NormalGrammar) (n : Nat) :
    (c.shortWords n).Pairwise ShortlexLt := by
  have hwords := c.withoutEmptyWord.pairwise_shortWords n
  unfold shortWords
  split
  · refine List.pairwise_cons.mpr ⟨fun u hu => ?_, hwords.filter _⟩
    have hne : u ≠ [] := of_decide_eq_true (List.mem_filter.mp hu).2
    exact Or.inl (List.length_pos_iff.mpr hne)
  · exact hwords

end NormalGrammar

namespace Grammar

theorem Reached.shortWords_normalForm {g : Grammar} (hg : g.Reached) (n : Nat) :
    g.normalize.normalForm.shortWords n = g.shortWords n := by
  refine eq_of_pairwise_shortlexLt (NormalGrammar.pairwise_shortWords _ n) (pairwise_shortWords g n)
    fun u => ?_
  rw [NormalGrammar.mem_shortWords_iff, mem_shortWords_iff,
    Normalization.language_normalForm_iff hg.wellFormed.consistent]

/-- Rounds over the productions come to a halt, with the facts that are collected; the short words
are those of the language, in strictly increasing order, also where the empty word is a flag, and
normalization does not change the list. -/
theorem shortWords_exact {g : Grammar} (hg : g.Reached) (n : Nat) :
    (∃ k, g.sweep n ((g.sweep n)^[k] ∅) = (g.sweep n)^[k] ∅ ∧ (g.sweep n)^[k] ∅ ≈ g.facts n) ∧
      (∀ u, u ∈ g.shortWords n ↔ g.Language u ∧ u.length ≤ n) ∧
      (g.shortWords n).Nodup ∧ (g.shortWords n).Pairwise ShortlexLt ∧
      (∀ c : NormalGrammar, (∀ u, u ∈ c.shortWords n ↔ c.Language u ∧ u.length ≤ n) ∧
        (c.shortWords n).Nodup ∧ (c.shortWords n).Pairwise ShortlexLt) ∧
      g.normalize.normalForm.shortWords n = g.shortWords n := by
  obtain ⟨k, hk⟩ := g.exists_sweep_eq n
  refine ⟨⟨k, hk, fun f => (mem_iff_of_sweep_eq hk).trans mem_facts_iff.symm⟩,
    fun _ => mem_shortWords_iff, nodup_of_pairwise_shortlexLt (g.pairwise_shortWords n),
    g.pairwise_shortWords n, fun c => ?_, hg.shortWords_normalForm n⟩
  exact ⟨fun _ => NormalGrammar.mem_shortWords_iff,
    nodup_of_pairwise_shortlexLt (c.pairwise_shortWords n), c.pairwise_shortWords n⟩

theorem shortWords_exact_nested : nested.Reached ∧ [] ∈ nested.shortWords 2 ∧
    [.ofChar 'a', .ofChar 'b'] ∈ nested.shortWords 2 ∧
      nested.normalize.normalForm.shortWords 2 = nested.shortWords 2 := by
  obtain ⟨_, hmem, _, _, _, hsame⟩ := shortWords_exact valid_nested.reached 2
  exact ⟨valid_nested.reached, (hmem _).mpr ⟨language_nested_nil, Nat.zero_le 2⟩,
    (hmem _).mpr ⟨language_nested_brackets, Nat.le_refl 2⟩, hsame⟩

end Grammar

end ContextFree
