import ContextFree.Language
import ContextFree.Proofs.Derivation
import ContextFree.Proofs.NameSupply

/-!
# Into the typed normal form and back

The typed form of a grammar has its normal productions, so that it loses nothing where all of them
are normal. The way back adds a new start symbol where the empty word belongs to the language; the
old non-terminals derive what they did, and the new one derives that and the empty word
(`language_toGrammar_iff`).
-/

namespace ContextFree

namespace NormalGrammar

theorem ofGrammar_of_isNormal {g : Grammar} (hg : ∀ p ∈ g.productions, p.isNormal = true) :
    ofGrammar g = .ok (normalPart g false) := by
  have hnone : (g.productions.toList.find? fun p => !p.isNormal) = none :=
    List.find?_eq_none.mpr fun p hp => by simp [hg p hp]
  rw [ofGrammar, hnone]

theorem exists_ofWord?_iff {p : Production} :
    (∃ v, NormalWord.ofWord? p.rhs = some v) ↔ p.isNormal = true := by
  simp only [NormalWord.ofWord?_eq_some_iff, Production.isNormal_iff]
  constructor
  · rintro ⟨v, hv⟩
    cases v with
    | terminal a => exact Or.inl ⟨a, hv⟩
    | pair B C => exact Or.inr ⟨B, C, hv⟩
  · rintro (⟨a, ha⟩ | ⟨B, C, hBC⟩)
    · exact ⟨.terminal a, ha⟩
    · exact ⟨.pair B C, hBC⟩

theorem mem_keys_normalPart {g : Grammar} {erasable : Bool} {A : Name} :
    A ∈ (normalPart g erasable).rules.keys ↔
      ∃ p ∈ g.productions, p.isNormal = true ∧ p.lhs = A := by
  simp [normalPart, and_assoc]

theorem mem_productions_normalPart {g : Grammar} {erasable : Bool} {p : Production} :
    p ∈ (normalPart g erasable).productions ↔ p ∈ g.productions ∧ p.isNormal = true := by
  simp only [productions, normalPart, OrderedMap.entries_tabulate, List.flatMap_map,
    List.mem_flatMap, List.mem_map, OrderedSet.mem_toList, OrderedSet.mem_ofList,
    List.mem_filterMap, Grouping.get_ofList, List.mem_filter, decide_eq_true_eq]
  constructor
  · rintro ⟨A, _, v, ⟨q, ⟨⟨hq, hnormal⟩, rfl⟩, hv⟩, rfl⟩
    have heq : (⟨q.lhs, v.toWord⟩ : Production) = q :=
      Production.ext rfl (NormalWord.ofWord?_eq_some_iff.mp hv).symm
    rw [heq]
    exact ⟨hq, hnormal⟩
  · rintro ⟨hp, hnormal⟩
    obtain ⟨v, hv⟩ := exists_ofWord?_iff.mpr hnormal
    exact ⟨p.lhs, ⟨p, ⟨hp, hnormal⟩, rfl⟩, v, ⟨p, ⟨⟨hp, hnormal⟩, rfl⟩, hv⟩,
      Production.ext rfl (NormalWord.ofWord?_eq_some_iff.mp hv).symm⟩

variable {c : NormalGrammar}

theorem mem_productions_withoutEmptyWord {p : Production} :
    p ∈ c.withoutEmptyWord.productions ↔ p ∈ c.productions := OrderedSet.mem_ofList

theorem mem_nonTerminals {A : Name} : A ∈ c.nonTerminals ↔
    A = c.start ∨ ∃ p ∈ c.productions, A = p.lhs ∨ .nonTerminal A ∈ p.rhs := by
  simp [nonTerminals]

theorem mem_terminals {a : Name} :
    a ∈ c.terminals ↔ ∃ p ∈ c.productions, .terminal a ∈ p.rhs := by
  simp [terminals]

/-- All that can go wrong with the symbols is that a name is shared. -/
theorem valid_withoutEmptyWord (hc : ∀ a ∈ c.terminals, a ∉ c.nonTerminals) :
    c.withoutEmptyWord.Valid := by
  refine ⟨mem_nonTerminals.mpr (Or.inl rfl), hc, fun p hp x hx => ?_⟩
  have hmem := mem_productions_withoutEmptyWord.mp hp
  rcases List.mem_cons.mp hx with rfl | hx
  · exact mem_nonTerminals.mpr (Or.inr ⟨p, hmem, Or.inl rfl⟩)
  · cases x with
    | terminal a => exact mem_terminals.mpr ⟨p, hmem, hx⟩
    | nonTerminal A => exact mem_nonTerminals.mpr (Or.inr ⟨p, hmem, Or.inr hx⟩)

theorem derives_withoutEmptyWord_iff {g : Grammar} {erasable : Bool}
    (hg : ∀ p ∈ g.productions, p.isNormal = true) {v w : Word} :
    (normalPart g erasable).withoutEmptyWord.Derives v w ↔ g.Derives v w := by
  refine Grammar.derives_congr fun p => ?_
  rw [mem_productions_withoutEmptyWord, mem_productions_normalPart]
  exact and_iff_left_of_imp (hg p)

theorem language_normalPart_iff {g : Grammar} {erasable : Bool}
    (hg : ∀ p ∈ g.productions, p.isNormal = true) {u : Sentence} :
    (normalPart g erasable).Language u ↔ g.Language u ∨ erasable = true ∧ u = [] :=
  or_congr_left (derives_withoutEmptyWord_iff hg)

/-! ## The new start symbol -/

/-- The start symbol that brings in the empty word. -/
def freshStart (c : NormalGrammar) : Name :=
  ((NameSupply.forGrammar c.withoutEmptyWord).primed c.start).1

theorem freshStart_not_mem_names (c : NormalGrammar) :
    c.freshStart ∉ c.withoutEmptyWord.names := fun hmem =>
  (NameSupply.forGrammar c.withoutEmptyWord).primed_not_mem c.start
    (NameSupply.mem_taken_forGrammar.mpr hmem)

theorem toGrammar_of_not_erasable (hc : c.erasable = false) :
    c.toGrammar = c.withoutEmptyWord := by
  simp [toGrammar, hc]

theorem start_toGrammar (hc : c.erasable = true) : c.toGrammar.start = c.freshStart := by
  simp [toGrammar, hc, freshStart]

theorem mem_nonTerminals_toGrammar (hc : c.erasable = true) {A : Name} :
    A ∈ c.toGrammar.nonTerminals ↔ A ∈ c.nonTerminals ∨ A = c.freshStart := by
  simp [toGrammar, hc, freshStart, withoutEmptyWord]

theorem terminals_toGrammar : c.toGrammar.terminals = c.terminals := by
  unfold toGrammar
  split <;> rfl

theorem mem_productions_toGrammar (hc : c.erasable = true) {p : Production} :
    p ∈ c.toGrammar.productions ↔ p ∈ c.productions ∨ p = ⟨c.freshStart, []⟩ ∨
      p = ⟨c.freshStart, [.nonTerminal c.start]⟩ := by
  simp [toGrammar, hc, freshStart, withoutEmptyWord, or_assoc]

theorem valid_toGrammar (hc : ∀ a ∈ c.terminals, a ∉ c.nonTerminals) : c.toGrammar.Valid := by
  have hold := valid_withoutEmptyWord hc
  cases herasable : c.erasable with
  | false => rwa [toGrammar_of_not_erasable herasable]
  | true =>
      have hstart : c.freshStart ∈ c.toGrammar.nonTerminals :=
        (mem_nonTerminals_toGrammar herasable).mpr (Or.inr rfl)
      refine ⟨?_, fun a ha hA => ?_, fun p hp => ?_⟩
      · rw [Grammar.DeclaresStart, start_toGrammar herasable]
        exact hstart
      · rw [terminals_toGrammar] at ha
        rcases (mem_nonTerminals_toGrammar herasable).mp hA with hA | rfl
        · exact hc a ha hA
        · exact c.freshStart_not_mem_names (Grammar.terminal_mem_names ha)
      · have hlift : ∀ x, c.withoutEmptyWord.Declares x → c.toGrammar.Declares x := by
          intro x hx
          cases x with
          | terminal a =>
              rw [Grammar.Declares, terminals_toGrammar]
              exact hx
          | nonTerminal A => exact (mem_nonTerminals_toGrammar herasable).mpr (Or.inl hx)
        rcases (mem_productions_toGrammar herasable).mp hp with hp | rfl | rfl
        · exact fun x hx => hlift x (hold.2.2 p (mem_productions_withoutEmptyWord.mpr hp) x hx)
        · exact List.forall_mem_singleton.mpr hstart
        · exact List.forall_mem_cons.mpr
            ⟨hstart, List.forall_mem_singleton.mpr (hlift (.nonTerminal c.start) hold.1)⟩

theorem derives_toGrammar_iff (hc : c.erasable = true) {v w : Word}
    (hv : ∀ x ∈ v, x.name ∈ c.withoutEmptyWord.names) :
    c.toGrammar.Derives v w ↔ c.withoutEmptyWord.Derives v w := by
  constructor
  · intro hd
    refine hd.of_closed (motive := fun x => x.name ∈ c.withoutEmptyWord.names)
      (fun p hp hlhs => ?_) hv
    rcases (mem_productions_toGrammar hc).mp hp with hp | rfl | rfl
    · have hmem := mem_productions_withoutEmptyWord.mpr hp
      exact ⟨hmem, fun x hx => Grammar.mem_names_of_mem_rhs hmem hx⟩
    · exact absurd hlhs c.freshStart_not_mem_names
    · exact absurd hlhs c.freshStart_not_mem_names
  · exact Grammar.Derives.mono fun p hp => (mem_productions_toGrammar hc).mpr
      (Or.inl (mem_productions_withoutEmptyWord.mp hp))

theorem language_toGrammar_iff {u : Sentence} : c.toGrammar.Language u ↔ c.Language u := by
  cases herasable : c.erasable with
  | false =>
      rw [toGrammar_of_not_erasable herasable]
      exact (language_of_not_erasable herasable u).symm
  | true =>
      have hstart : ∀ x ∈ [Symbol.nonTerminal c.start], x.name ∈ c.withoutEmptyWord.names :=
        List.forall_mem_singleton.mpr c.withoutEmptyWord.start_mem_names
      rw [Grammar.Language, start_toGrammar herasable, Grammar.generates_iff]
      simp only [Language, herasable, true_and]
      constructor
      · rintro ⟨p, hp, hlhs, hy⟩
        rcases (mem_productions_toGrammar herasable).mp hp with hp | rfl | rfl
        · have hmem := mem_productions_withoutEmptyWord.mpr hp
          exact absurd (hlhs ▸ Grammar.lhs_mem_names hmem) c.freshStart_not_mem_names
        · cases hy
          exact Or.inr rfl
        · exact Or.inl ((derives_toGrammar_iff herasable hstart).mp hy.derives)
      · rintro (hlang | rfl)
        · exact ⟨_, (mem_productions_toGrammar herasable).mpr (Or.inr (Or.inr rfl)), rfl,
            Grammar.derives_map_iff.mp ((derives_toGrammar_iff herasable hstart).mpr hlang)⟩
        · exact ⟨_, (mem_productions_toGrammar herasable).mpr (Or.inr (Or.inl rfl)), rfl, .nil⟩

end NormalGrammar

end ContextFree
