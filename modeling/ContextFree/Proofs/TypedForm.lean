import ContextFree.Proofs.Reduced
import ContextFree.Proofs.RoundTrip

/-!
# The typed form loses nothing

A grammar has a typed form when its productions are all normal, and otherwise the first one that is
not is reported. The typed form lists the productions in groups, one for each left-hand side. So the
grammar that it goes back to has the same productions, perhaps in another order, and putting these
in groups again changes nothing (`normalPart_withoutEmptyWord`).

The declared symbols are lost on the way and are read off the productions. For a reduced grammar
these are the same. Hence the typed form of a normalized grammar goes back to the grammar that
normalization ends with, as long as the empty word does not come in (`ofGrammar_exact`).
-/

namespace ContextFree

namespace OrderedMap

variable {κ ν : Type}

theorem toList_keys [Coded κ] (m : OrderedMap κ ν) : m.keys.toList = m.entries.map Prod.fst :=
  OrderedSet.toList_ofList_of_nodup m.nodup_keys

variable [DecidableEq κ]

theorem get?_of_mem {m : OrderedMap κ ν} {e : κ × ν} (he : e ∈ m.entries) :
    m.get? e.1 = some e.2 := by
  cases hfind : m.entries.find? fun e' => e'.1 = e.1 with
  | none =>
      have hne : e.1 ≠ e.1 := by simpa using List.find?_eq_none.mp hfind e he
      exact absurd rfl hne
  | some e' =>
      have hkey : e'.1 = e.1 := by simpa using List.find?_some hfind
      have heq := List.inj_on_of_nodup_map m.nodup_keys (List.mem_of_find?_eq_some hfind) he hkey
      rw [get?, hfind, heq, Option.map_some]

/-- A map is made of its keys and the values there. -/
theorem entries_eq_map_keys [Coded κ] [Inhabited ν] (m : OrderedMap κ ν) :
    m.entries = m.keys.toList.map fun k => (k, (m.get? k).getD default) := by
  have hentry : ∀ e ∈ m.entries, (e.1, (m.get? e.1).getD default) = e := fun e he => by
    rw [get?_of_mem he, Option.getD_some]
  rw [toList_keys, List.map_map]
  exact ((List.map_congr_left hentry).trans (List.map_id' _)).symm

end OrderedMap

/-- The right-hand side is a terminal or a pair of non-terminals. -/
def Production.Normal (p : Production) : Prop :=
  (∃ a, p.rhs = [.terminal a]) ∨ ∃ B C, p.rhs = [.nonTerminal B, .nonTerminal C]

theorem Production.normal_iff {p : Production} : p.Normal ↔ p.isNormal = true := isNormal_iff.symm

/-- Blocks that follow one another are found again by their left-hand sides. -/
theorem filter_blocks {As : List Name} {block : Name → List Production}
    (hblock : ∀ A, ∀ p ∈ block A, p.lhs = A) (hAs : As.Nodup) {A : Name} (hA : A ∈ As) :
    (As.flatMap block).filter (·.lhs = A) = block A := by
  have hother : ∀ Bs : List Name, A ∉ Bs → (Bs.flatMap block).filter (·.lhs = A) = [] := by
    intro Bs hBs
    refine List.filter_eq_nil_iff.mpr fun p hp => ?_
    obtain ⟨B, hB, hpB⟩ := List.mem_flatMap.mp hp
    simpa using fun heq : p.lhs = A => hBs (heq ▸ hblock B p hpB ▸ hB)
  have hself : (block A).filter (·.lhs = A) = block A :=
    List.filter_eq_self.mpr fun p hp => decide_eq_true (hblock A p hp)
  obtain ⟨before, after, rfl⟩ := List.append_of_mem hA
  obtain ⟨hnot, _⟩ := List.nodup_cons.mp (List.nodup_middle.mp hAs)
  obtain ⟨hbefore, hafter⟩ := not_or.mp (mt List.mem_append.mpr hnot)
  rw [List.flatMap_append, List.flatMap_cons, List.filter_append, List.filter_append,
    hother before hbefore, hself, hother after hafter, List.nil_append, List.append_nil]

namespace NormalGrammar

variable {c : NormalGrammar}

/-! ## The productions in groups again -/

def wordsOf (c : NormalGrammar) (A : Name) : OrderedSet NormalWord := (c.rules.get? A).getD ∅

def productionsOf (c : NormalGrammar) (A : Name) : List Production :=
  (c.wordsOf A).toList.map fun v => ⟨A, v.toWord⟩

theorem lhs_of_mem_productionsOf (c : NormalGrammar) :
    ∀ A, ∀ p ∈ c.productionsOf A, p.lhs = A := by
  intro A p hp
  obtain ⟨v, _, rfl⟩ := List.mem_map.mp hp
  rfl

theorem entries_rules (c : NormalGrammar) :
    c.rules.entries = c.rules.keys.toList.map fun A => (A, c.wordsOf A) :=
  c.rules.entries_eq_map_keys

theorem productions_eq_flatMap (c : NormalGrammar) :
    c.productions = c.rules.keys.toList.flatMap c.productionsOf := by
  rw [productions, entries_rules, List.flatMap_map]
  rfl

theorem isNormal_of_mem_productions {p : Production} (hp : p ∈ c.productions) :
    p.isNormal = true := by
  rw [productions_eq_flatMap] at hp
  obtain ⟨A, _, hp⟩ := List.mem_flatMap.mp hp
  obtain ⟨v, _, rfl⟩ := List.mem_map.mp hp
  exact exists_ofWord?_iff.mp ⟨v, NormalWord.ofWord?_eq_some_iff.mpr rfl⟩

theorem nodup_productions (c : NormalGrammar) : c.productions.Nodup := by
  have hinj : ∀ A, Function.Injective fun v : NormalWord => (⟨A, v.toWord⟩ : Production) :=
    fun A v v' heq => NormalWord.toWord_inj (Production.mk.inj heq).2
  rw [productions_eq_flatMap, List.nodup_flatMap]
  refine ⟨fun A _ => (c.wordsOf A).nodup.map (hinj A), c.rules.keys.nodup.imp ?_⟩
  intro A B hne p hpA hpB
  exact hne (c.lhs_of_mem_productionsOf A p hpA ▸ c.lhs_of_mem_productionsOf B p hpB)

theorem toList_productions_withoutEmptyWord (c : NormalGrammar) :
    c.withoutEmptyWord.productions.toList = c.productions :=
  OrderedSet.toList_ofList_of_nodup c.nodup_productions

theorem filterMap_productionsOf (c : NormalGrammar) (A : Name) :
    (c.productionsOf A).filterMap (fun p => NormalWord.ofWord? p.rhs) = (c.wordsOf A).toList := by
  have hword : ∀ v : NormalWord, NormalWord.ofWord? v.toWord = some v := fun v =>
    NormalWord.ofWord?_eq_some_iff.mpr rfl
  rw [productionsOf, List.filterMap_map]
  exact (List.filterMap_congr fun v _ => hword v).trans List.filterMap_some

theorem ofList_heads_productions (hc : ∀ A ∈ c.rules.keys, (c.wordsOf A).toList ≠ []) :
    OrderedSet.ofList (c.productions.map Production.lhs) = c.rules.keys := by
  refine OrderedSet.ext ?_
  have hheads := toList_insertAll_blocks c.lhs_of_mem_productionsOf c.rules.keys.nodup
    fun A _ => OrderedSet.not_mem_empty A
  rw [← productions_eq_flatMap, OrderedSet.toList_empty, List.nil_append] at hheads
  refine hheads.trans (List.filter_eq_self.mpr fun A hA => decide_eq_true ?_)
  exact fun hnil => hc A hA (List.map_eq_nil_iff.mp hnil)

theorem ofList_words_productions {A : Name} (hA : A ∈ c.rules.keys) :
    OrderedSet.ofList ((c.productions.filter (·.lhs = A)).filterMap fun p =>
      NormalWord.ofWord? p.rhs) = c.wordsOf A := by
  rw [productions_eq_flatMap, filter_blocks c.lhs_of_mem_productionsOf c.rules.keys.nodup hA,
    filterMap_productionsOf, OrderedSet.ofList_toList]

/-- Without left-hand sides that have no word, putting the productions in groups again gives the
same groups, in the same order. -/
theorem normalPart_withoutEmptyWord (hc : ∀ A ∈ c.rules.keys, (c.wordsOf A).toList ≠ []) :
    normalPart c.withoutEmptyWord c.erasable = c := by
  have hnormal : c.withoutEmptyWord.productions.toList.filter Production.isNormal =
      c.productions := by
    rw [toList_productions_withoutEmptyWord]
    exact List.filter_eq_self.mpr fun p => isNormal_of_mem_productions
  refine congrArg (NormalGrammar.mk c.start c.erasable) (OrderedMap.ext ?_)
  simp only [hnormal, ofList_heads_productions hc, Grouping.get_ofList,
    OrderedMap.entries_tabulate]
  rw [entries_rules]
  exact List.map_congr_left fun A hA => congrArg (Prod.mk A) (ofList_words_productions hA)

/-! ## There and back -/

variable {g : Grammar}

theorem exists_ofGrammar_iff :
    (∃ c, ofGrammar g = .ok c) ↔ ∀ p ∈ g.productions, p.Normal := by
  simp only [ofGrammar_eq_ok_iff, Production.normal_iff]
  exact ⟨fun ⟨_, _, h⟩ => h, fun h => ⟨_, rfl, h⟩⟩

theorem ofGrammar_eq_error_iff {e : ShapeError} : ofGrammar g = .error e ↔
    ∃ before after, g.productions.toList = before ++ e.production :: after ∧
      (∀ p ∈ before, p.Normal) ∧ ¬ e.production.Normal := by
  obtain ⟨q⟩ := e
  have hfind : ofGrammar g = .error ⟨q⟩ ↔
      g.productions.toList.find? (fun p => !p.isNormal) = some q := by
    unfold ofGrammar
    cases g.productions.toList.find? fun p => !p.isNormal <;> simp
  rw [hfind, List.find?_eq_some_iff_append]
  simp only [Bool.not_not, Bool.not_eq_true', ← Bool.not_eq_true, ← Production.normal_iff]
  constructor
  · exact fun ⟨hq, before, after, hlist, hbefore⟩ => ⟨before, after, hlist, hbefore, hq⟩
  · exact fun ⟨before, after, hlist, hbefore, hq⟩ => ⟨hq, before, after, hlist, hbefore⟩

theorem wordsOf_normalPart_ne_nil {erasable : Bool} :
    ∀ A ∈ (normalPart g erasable).rules.keys, ((normalPart g erasable).wordsOf A).toList ≠ [] := by
  intro A hA hnil
  obtain ⟨p, hp, hnormal, rfl⟩ := mem_keys_normalPart.mp hA
  have hmem : p ∈ (normalPart g erasable).productions :=
    mem_productions_normalPart.mpr ⟨hp, hnormal⟩
  rw [productions_eq_flatMap] at hmem
  obtain ⟨B, _, hpB⟩ := List.mem_flatMap.mp hmem
  have hB := lhs_of_mem_productionsOf _ B p hpB
  rw [← hB, productionsOf, hnil] at hpB
  exact List.not_mem_nil hpB

/-- The typed form goes back to a grammar with the same productions, and this has the same typed
form, in the same order. -/
theorem toGrammar_of_ofGrammar (hc : ofGrammar g = .ok c) : c.toGrammar.start = g.start ∧
    c.toGrammar.productions ≈ g.productions ∧ ofGrammar c.toGrammar = .ok c := by
  obtain ⟨rfl, hnormal⟩ := ofGrammar_eq_ok_iff.mp hc
  rw [toGrammar_of_not_erasable rfl]
  refine ⟨rfl, fun p => ?_, ofGrammar_eq_ok_iff.mpr ⟨?_, fun p hp => ?_⟩⟩
  · rw [mem_productions_withoutEmptyWord, mem_productions_normalPart]
    exact and_iff_left_of_imp (hnormal p)
  · exact (normalPart_withoutEmptyWord wordsOf_normalPart_ne_nil).symm
  · exact isNormal_of_mem_productions (mem_productions_withoutEmptyWord.mp hp)

end NormalGrammar

namespace Grammar

open NormalGrammar

variable {g : Grammar}

/-- Every symbol of a reduced grammar occurs in its productions. -/
theorem Reduced.withoutEmptyWord_equiv (hr : g.Reduced) (hg : g.Valid) (erasable : Bool) :
    (normalPart g erasable).withoutEmptyWord ≈ g := by
  have hproductions : ∀ p, p ∈ (normalPart g erasable).productions ↔ p ∈ g.productions := fun p =>
    mem_productions_normalPart.trans (and_iff_left_of_imp (hr.isNormal p))
  refine ⟨rfl, fun A => ?_, fun a => ?_, fun p => ?_⟩
  · refine mem_nonTerminals.trans ⟨?_, fun hA => ?_⟩
    · rintro (rfl | ⟨p, hp, rfl | hA⟩)
      · exact hg.1
      · exact hg.2.lhs_mem ((hproductions p).mp hp)
      · exact hg.2.declares_of_mem_rhs ((hproductions p).mp hp) hA
    · obtain ⟨u, hu⟩ := hr.productive A hA
      obtain ⟨p, hp, hlhs, _⟩ := generates_iff.mp hu
      exact Or.inr ⟨p, (hproductions p).mpr hp, Or.inl hlhs.symm⟩
  · refine mem_terminals.trans ⟨?_, fun ha => ?_⟩
    · rintro ⟨p, hp, ha⟩
      exact hg.2.declares_of_mem_rhs ((hproductions p).mp hp) ha
    · obtain ⟨p, hp, hap⟩ := hr.used a ha
      exact ⟨p, (hproductions p).mpr hp, hap⟩
  · exact mem_productions_withoutEmptyWord.trans (hproductions p)

/-- Unless the empty word comes in, the typed form goes back to what normalization ends with. -/
theorem Consistent.toGrammar_normalForm_equiv (hg : g.Consistent)
    (hlang : ∃ u, g.Language u ∧ u ≠ []) (hnil : ¬ g.Language []) :
    g.normalize.normalForm.toGrammar ≈ g.normalForm := by
  obtain ⟨u, hu, hne⟩ := hlang
  have hstart : g.normalForm.DeclaresStart :=
    hg.normalForm.mem_nonTerminals_of_generates (hg.language_normalForm_iff.mpr ⟨hu, hne⟩)
  have herasable : g.normalize.normalForm.erasable = false :=
    Bool.eq_false_iff.mpr fun htrue => hnil (derivesEmptyWord_normalize_iff.mp htrue)
  have hequiv := hg.reduced_normalForm.withoutEmptyWord_equiv ⟨hstart, hg.normalForm⟩
    g.normalize.derivesEmptyWord
  rw [toGrammar_of_not_erasable herasable]
  rw [← Normalization.outcome_normalize] at hequiv ⊢
  exact hequiv

end Grammar

namespace NormalGrammar

variable {g : Grammar}

/-- A grammar has a typed form when its productions are normal, and otherwise the first that is not
is reported. Going back gives the same productions, and going there again the same typed form. The
symbols stay the same too where the grammar is the outcome of normalization and the empty word does
not come in. -/
theorem ofGrammar_exact (hg : g.Reached) :
    ((∃ c, ofGrammar g = .ok c) ↔ ∀ p ∈ g.productions, p.Normal) ∧
      (∀ e, ofGrammar g = .error e ↔
        ∃ before after, g.productions.toList = before ++ e.production :: after ∧
          (∀ p ∈ before, p.Normal) ∧ ¬ e.production.Normal) ∧
      (∀ c, ofGrammar g = .ok c → c.toGrammar.start = g.start ∧
        c.toGrammar.productions ≈ g.productions ∧ ofGrammar c.toGrammar = .ok c) ∧
      ((∃ u, g.Language u ∧ u ≠ []) → ¬ g.Language [] →
        g.normalize.normalForm.toGrammar ≈ g.normalForm) :=
  ⟨exists_ofGrammar_iff, fun _ => ofGrammar_eq_error_iff, fun _ => toGrammar_of_ofGrammar,
    hg.wellFormed.consistent.toGrammar_normalForm_equiv⟩

theorem ofGrammar_interleaved : ofGrammar Grammar.interleaved =
    .ok (normalPart Grammar.interleaved false) := rfl

/-- The way there and back changes the order of productions, and no more than that. -/
theorem ofGrammar_exact_interleaved_nested :
    Grammar.interleaved.Reached ∧ Grammar.nested.Reached ∧
      (normalPart Grammar.interleaved false).toGrammar.productions ≈
        Grammar.interleaved.productions ∧
      (normalPart Grammar.interleaved false).toGrammar.productions ≠
        Grammar.interleaved.productions ∧
      Grammar.interleaved.Language [.ofChar 'a'] ∧ ¬ Grammar.interleaved.Language [] ∧
      Grammar.interleaved.normalize.normalForm.toGrammar ≈ Grammar.interleaved.normalForm ∧
      ofGrammar Grammar.nested = .error ⟨⟨.ofChar 'S', []⟩⟩ := by
  have hreached := Grammar.valid_interleaved.reached
  have hnested := Grammar.valid_nested.reached
  obtain ⟨_, _, hback, hnormalize⟩ := ofGrammar_exact hreached
  obtain ⟨_, herror, _⟩ := ofGrammar_exact hnested
  have hword : Grammar.interleaved.Language [.ofChar 'a'] :=
    Grammar.derives_of_mem (p := ⟨.ofChar 'S', [.terminal (.ofChar 'a')]⟩) (by decide)
  have hnil : ¬ Grammar.interleaved.Language [] := fun hlang =>
    hlang.ne_nil Grammar.reduced_interleaved.rhs_ne_nil rfl
  have hfirst : ¬ (⟨.ofChar 'S', []⟩ : Production).Normal := by simp [Production.Normal]
  exact ⟨hreached, hnested, (hback _ ofGrammar_interleaved).2.1, by decide, hword, hnil,
    hnormalize ⟨_, hword, List.cons_ne_nil _ _⟩ hnil,
    (herror _).mpr ⟨[], _, rfl, List.forall_mem_nil _, hfirst⟩⟩

end NormalGrammar

end ContextFree
