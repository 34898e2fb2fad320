import ContextFree.Normalization

/-!
# Transformations

What can be done to a grammar, in any order and as often as one likes: each of the passes by
itself, all of them in a row, or the way into the typed normal form and back.
-/

namespace ContextFree

inductive Transformation where
  | stage (stage : Stage)
  | normalForm
  | roundTrip
  deriving DecidableEq

namespace Transformation

def apply : Transformation → Grammar → Grammar
  | stage s, g => s.apply g
  | normalForm, g => g.normalForm
  | roundTrip, g => g.normalize.normalForm.toGrammar

def notes : Transformation → Grammar → List Note
  | stage s, g => s.notes g
  | normalForm, g => g.normalize.notes
  | roundTrip, g => g.normalize.notes

def applyAll (ts : List Transformation) (g : Grammar) : Grammar :=
  ts.foldl (fun g t => t.apply g) g

@[simp] theorem applyAll_nil (g : Grammar) : applyAll [] g = g := rfl

@[simp] theorem applyAll_cons (t : Transformation) (ts : List Transformation) (g : Grammar) :
    applyAll (t :: ts) g = applyAll ts (t.apply g) := rfl

def notesAll : List Transformation → Grammar → List (List Note)
  | [], _ => []
  | t :: ts, g => t.notes g :: notesAll ts (t.apply g)

end Transformation

/-- A grammar is reached when transformations lead to it from a valid one. -/
def Grammar.Reached (g : Grammar) : Prop :=
  ∃ g₀ ts, g₀.Valid ∧ Transformation.applyAll ts g₀ = g

theorem Grammar.Valid.reached {g : Grammar} (h : g.Valid) : g.Reached := ⟨g, [], h, rfl⟩

theorem Grammar.Reached.apply {g : Grammar} (h : g.Reached) (t : Transformation) :
    (t.apply g).Reached := by
  obtain ⟨g₀, ts, hvalid, rfl⟩ := h
  exact ⟨g₀, ts ++ [t], hvalid, by simp [Transformation.applyAll]⟩

end ContextFree
