import ContextFree.Proofs.ShortWords

/-!
# Back from the typed form

However a grammar came to its typed form, by normalization or because its productions were normal
already, the grammar that the typed form goes back to is valid and has the same language, and so
the same short words. Where the empty word belongs to the language there is a new start symbol. No
right-hand side has it, and all other non-terminals, the old start symbol among them, derive what
they did (`toGrammar_of_reached`).
-/

namespace ContextFree

namespace NormalGrammar

variable {g : Grammar} {c : NormalGrammar}

theorem ofGrammar_eq_ok_iff :
    ofGrammar g = .ok c ↔ c = normalPart g false ∧ ∀ p ∈ g.productions, p.isNormal = true := by
  constructor
  · intro hc
    cases hfind : g.productions.toList.find? fun p => !p.isNormal with
    | some p => simp [ofGrammar, hfind] at hc
    | none =>
        rw [ofGrammar, hfind] at hc
        refine ⟨(Except.ok.inj hc).symm, fun p hp => ?_⟩
        simpa using List.find?_eq_none.mp hfind p hp
  · rintro ⟨rfl, hnormal⟩
    exact ofGrammar_of_isNormal hnormal

/-- The two ways into the typed form. -/
def IsFormOf (c : NormalGrammar) (g : Grammar) : Prop :=
  c = g.normalize.normalForm ∨ ofGrammar g = .ok c

/-- A typed form is the normal part of a well-formed grammar with normal productions only. -/
theorem IsFormOf.exists_normalPart (hc : c.IsFormOf g) (hg : g.WellFormed) :
    ∃ (h : Grammar) (erasable : Bool), h.WellFormed ∧ c = normalPart h erasable := by
  rcases hc with rfl | hc
  · refine ⟨g.normalize.outcome, g.normalize.derivesEmptyWord, ?_, rfl⟩
    rw [Normalization.outcome_normalize]
    exact hg.normalForm
  · exact ⟨g, false, hg, (ofGrammar_eq_ok_iff.mp hc).1⟩

theorem rhs_ne_nil {p : Production} (hp : p ∈ c.productions) : p.rhs ≠ [] := by
  simp only [productions, List.mem_flatMap, List.mem_map] at hp
  obtain ⟨e, _, v, _, rfl⟩ := hp
  cases v <;> exact List.cons_ne_nil _ _

theorem language_nil_iff : c.Language [] ↔ c.erasable = true := by
  have hproductions : ∀ p ∈ c.withoutEmptyWord.productions, p.rhs ≠ [] := fun p hp =>
    rhs_ne_nil (mem_productions_withoutEmptyWord.mp hp)
  constructor
  · rintro (hlang | ⟨herasable, _⟩)
    · exact absurd rfl (hlang.ne_nil hproductions)
    · exact herasable
  · exact fun herasable => Or.inr ⟨herasable, rfl⟩

theorem shortWords_toGrammar (c : NormalGrammar) (n : Nat) :
    c.toGrammar.shortWords n = c.shortWords n := by
  refine eq_of_pairwise_shortlexLt (Grammar.pairwise_shortWords c.toGrammar n)
    (c.pairwise_shortWords n) fun u => ?_
  rw [Grammar.mem_shortWords_iff, mem_shortWords_iff, language_toGrammar_iff]

/-! ## The new start symbol -/

theorem start_toGrammar_not_mem_names (hc : c.erasable = true) :
    c.toGrammar.start ∉ c.withoutEmptyWord.names := by
  rw [start_toGrammar hc]
  exact c.freshStart_not_mem_names

theorem start_toGrammar_not_mem_rhs (hc : c.erasable = true) :
    ∀ p ∈ c.toGrammar.productions, ∀ x ∈ p.rhs, x.name ≠ c.toGrammar.start := by
  have hnew := start_toGrammar_not_mem_names hc
  intro p hp x hx heq
  rcases (mem_productions_toGrammar hc).mp hp with hp | rfl | rfl
  · have hmem := mem_productions_withoutEmptyWord.mpr hp
    exact hnew (heq ▸ Grammar.mem_names_of_mem_rhs hmem hx)
  · exact absurd hx List.not_mem_nil
  · obtain rfl := List.mem_singleton.mp hx
    have hold : c.start = c.toGrammar.start := heq
    exact hnew (hold ▸ c.withoutEmptyWord.start_mem_names)

theorem generates_toGrammar_iff {A : Name} (hA : A ∈ c.nonTerminals) (u : Sentence) :
    c.toGrammar.Generates A u ↔ c.withoutEmptyWord.Generates A u := by
  cases herasable : c.erasable with
  | false => rw [toGrammar_of_not_erasable herasable]
  | true =>
      refine derives_toGrammar_iff herasable (List.forall_mem_singleton.mpr ?_)
      exact Grammar.nonTerminal_mem_names hA

/-- The way back from the typed form gives a valid grammar with the same words. Where the empty word
is one of them, the start symbol is new, and the old non-terminals derive what they did. -/
theorem toGrammar_of_reached (hg : g.Reached) (hc : c.IsFormOf g) :
    c.toGrammar.validate = .ok () ∧
      (∀ u, c.toGrammar.Language u ↔ c.Language u) ∧
      (c.toGrammar.Language [] ↔ c.erasable = true) ∧
      (c.erasable = true →
        c.toGrammar.start ∉ c.withoutEmptyWord.names ∧
          (∀ p ∈ c.toGrammar.productions, ∀ x ∈ p.rhs, x.name ≠ c.toGrammar.start) ∧
          c.start ∈ c.nonTerminals ∧
          ∀ A ∈ c.nonTerminals, ∀ u,
            c.toGrammar.Generates A u ↔ c.withoutEmptyWord.Generates A u) ∧
      ∀ n, c.toGrammar.shortWords n = c.shortWords n := by
  obtain ⟨h, erasable, hh, rfl⟩ := hc.exists_normalPart hg.wellFormed
  refine ⟨Grammar.validate_eq_ok_iff.mpr (valid_toGrammar (not_mem_nonTerminals_normalPart hh)),
    fun _ => language_toGrammar_iff, language_toGrammar_iff.trans language_nil_iff,
    fun herasable => ?_, shortWords_toGrammar _⟩
  exact ⟨start_toGrammar_not_mem_names herasable, start_toGrammar_not_mem_rhs herasable,
    mem_nonTerminals.mpr (Or.inl rfl), fun _ hA => generates_toGrammar_iff hA⟩

theorem toGrammar_of_reached_nested : Grammar.nested.Reached ∧
    Grammar.nested.normalize.normalForm.IsFormOf Grammar.nested ∧
      Grammar.nested.normalize.normalForm.erasable = true ∧
      Grammar.nested.normalize.normalForm.toGrammar.validate = .ok () ∧
      Grammar.nested.normalize.normalForm.toGrammar.Language [] ∧
      Grammar.nested.normalize.normalForm.toGrammar.start ≠
        Grammar.nested.normalize.normalForm.start := by
  have hform : Grammar.nested.normalize.normalForm.IsFormOf Grammar.nested := Or.inl rfl
  have herasable : Grammar.nested.normalize.normalForm.erasable = true :=
    Grammar.derivesEmptyWord_normalize_iff.mpr Grammar.language_nested_nil
  obtain ⟨hvalid, _, hempty, hstart, _⟩ :=
    toGrammar_of_reached Grammar.valid_nested.reached hform
  obtain ⟨hnew, _⟩ := hstart herasable
  refine ⟨Grammar.valid_nested.reached, hform, herasable, hvalid, hempty.mpr herasable, ?_⟩
  intro heq
  exact hnew (heq ▸ Grammar.start_mem_names _)

end NormalGrammar

end ContextFree
