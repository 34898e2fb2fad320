import ContextFree.Derivation
import ContextFree.NormalGrammar

/-!
# The language of a grammar in normal form

The sentences that its productions derive, and the empty word where the flag says so.
-/

namespace ContextFree

namespace NormalGrammar

def Language (c : NormalGrammar) (u : Sentence) : Prop :=
  c.withoutEmptyWord.Language u ∨ c.erasable = true ∧ u = []

theorem language_of_not_erasable {c : NormalGrammar} (h : c.erasable = false) (u : Sentence) :
    c.Language u ↔ c.withoutEmptyWord.Language u := by
  simp [Language, h]

end NormalGrammar

end ContextFree
