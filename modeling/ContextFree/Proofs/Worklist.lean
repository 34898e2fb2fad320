import ContextFree.Proofs.Transformation

/-!
# The search for accessible symbols

The accessible symbols are found with a list of the non-terminals whose productions are still to be
looked at. Terminals are met but never wait, and neither does a symbol that is not declared or has
been met before. So every accessible non-terminal has one turn, cycles or not, and then the list is
empty (`iterate_turn_first`). What has been met by then is what occurs in the words that the start
symbol derives, of whatever length (`accessible_exact`).
-/

namespace ContextFree

namespace Word

theorem nonTerminals_cons (x : Symbol) (w : Word) :
    nonTerminals (x :: w) = x.nonTerminal?.toList ++ nonTerminals w := by
  cases x <;> rfl

theorem nonTerminals_append (v w : Word) :
    nonTerminals (v ++ w) = nonTerminals v ++ nonTerminals w := List.filterMap_append

end Word

namespace Grammar

/-- A search under way: the symbols that have been met, and the non-terminals among them whose
productions have not been looked at. -/
structure Worklist where
  met : OrderedSet Symbol
  todo : List Name

namespace Worklist

/-- Comes upon a symbol; one that is not declared or not new is passed over. -/
def meet (g : Grammar) (w : Worklist) (x : Symbol) : Worklist :=
  if g.Declares x ∧ x ∉ w.met then ⟨w.met.insert x, w.todo ++ x.nonTerminal?.toList⟩ else w

/-- Looks at the productions of the first non-terminal on the list. -/
def turn (g : Grammar) : Worklist → Worklist
  | ⟨met, []⟩ => ⟨met, []⟩
  | ⟨met, A :: todo⟩ => ((g.productionsOf A).flatMap Production.rhs).foldl (meet g) ⟨met, todo⟩

def first (g : Grammar) : Worklist :=
  if g.DeclaresStart then ⟨.ofList [.nonTerminal g.start], [g.start]⟩ else ⟨∅, []⟩

variable {g : Grammar}

theorem foldl_meet (w : Word) (met : OrderedSet Symbol) (todo : List Name) :
    w.foldl (meet g) ⟨met, todo⟩ = ⟨met.insertAll (w.filter fun x => g.Declares x),
      todo ++ Word.nonTerminals (met.insertNew (w.filter fun x => g.Declares x)).2⟩ := by
  induction w generalizing met todo with
  | nil => simp [OrderedSet.insertNew, Word.nonTerminals]
  | cons x w ih =>
      by_cases hdecl : g.Declares x
      · by_cases hmet : x ∈ met
        · simp [meet, hdecl, hmet, ih, OrderedSet.insertNew, OrderedSet.insert_of_mem]
        · simp [meet, hdecl, hmet, ih, OrderedSet.insertNew, Word.nonTerminals_cons]
      · simp [meet, hdecl, ih]

/-! ## With terminals in the queue -/

/-- What a search in which terminals wait for their turn, too, has come to. -/
def ofSearch (s : OrderedSet.Search Symbol) : Worklist := ⟨s.met, Word.nonTerminals s.waiting⟩

/-- Nothing is done when it is the turn of a terminal; otherwise the turns are the same. -/
theorem iterate_turn_ofSearch (index : g.Index) (met : OrderedSet Symbol) (x : Symbol)
    (waiting : Word) : (turn g)^[(Word.nonTerminals [x]).length] (ofSearch ⟨met, x :: waiting⟩) =
      ofSearch (.turn index.successors ⟨met, x :: waiting⟩) := by
  cases x with
  | terminal a =>
      have hturn : .turn index.successors ⟨met, .terminal a :: waiting⟩ =
          (⟨met, waiting⟩ : OrderedSet.Search Symbol) := by
        simp [OrderedSet.Search.turn, Index.successors, OrderedSet.insertNew]
      rw [hturn]
      rfl
  | nonTerminal A =>
      change List.foldl (meet g) ⟨met, Word.nonTerminals waiting⟩ _ = _
      rw [foldl_meet]
      simp [ofSearch, OrderedSet.Search.turn, Index.successors, Word.nonTerminals_append]

/-- Where the symbols met are those that have had their turns and those that wait, one turn more
hands one symbol on from the second to the first. -/
theorem exists_turn (index : g.Index) (s : OrderedSet.Search Symbol) {done : Word}
    (hmet : s.met.toList = done ++ s.waiting) :
    ∃ moved, (s.turn index.successors).met.toList =
        done ++ moved ++ (s.turn index.successors).waiting ∧
      (turn g)^[(Word.nonTerminals moved).length] (ofSearch s) =
        ofSearch (s.turn index.successors) := by
  obtain ⟨met, _ | ⟨x, waiting⟩⟩ := s
  · exact ⟨[], by rwa [List.append_nil], rfl⟩
  · refine ⟨[x], ?_, iterate_turn_ofSearch index met x waiting⟩
    change (met.insertAll (index.successors x)).toList = _
    rw [OrderedSet.toList_insertAll, hmet]
    simp [OrderedSet.Search.turn]

theorem exists_iterate_turn (index : g.Index) (start : OrderedSet Symbol) (n : Nat) :
    ∃ done, ((OrderedSet.Search.turn index.successors)^[n] ⟨start, start.toList⟩).met.toList =
        done ++ ((OrderedSet.Search.turn index.successors)^[n] ⟨start, start.toList⟩).waiting ∧
      (turn g)^[(Word.nonTerminals done).length] (ofSearch ⟨start, start.toList⟩) =
        ofSearch ((OrderedSet.Search.turn index.successors)^[n] ⟨start, start.toList⟩) := by
  induction n with
  | zero => exact ⟨[], rfl, rfl⟩
  | succ n ih =>
      obtain ⟨done, hmet, hdone⟩ := ih
      obtain ⟨moved, hmet', hmoved⟩ := exists_turn index _ hmet
      rw [Function.iterate_succ_apply']
      refine ⟨done ++ moved, hmet', ?_⟩
      rw [Word.nonTerminals_append, List.length_append, Nat.add_comm, Function.iterate_add_apply,
        hdone, hmoved]

theorem ofSearch_declaredStart (g : Grammar) :
    ofSearch ⟨g.declaredStart, g.declaredStart.toList⟩ = first g := by
  unfold first declaredStart
  split
  · rw [OrderedSet.toList_ofList_of_nodup (by simp)]
    rfl
  · rfl

/-- Every accessible non-terminal has one turn, and after that the search is over. -/
theorem iterate_turn_first (g : Grammar) :
    (turn g)^[(Word.nonTerminals g.accessible.toList).length] (first g) = ⟨g.accessible, []⟩ := by
  have hsearch : (OrderedSet.Search.turn g.index.successors)^[g.accessible.size]
      ⟨g.declaredStart, g.declaredStart.toList⟩ = ⟨g.accessible, []⟩ := by
    unfold accessible
    exact OrderedSet.iterate_turn_reachable _ _
  obtain ⟨done, hmet, hturns⟩ := exists_iterate_turn g.index g.declaredStart g.accessible.size
  rw [hsearch, ofSearch_declaredStart] at hturns
  rw [hsearch, List.append_nil] at hmet
  rw [hmet, hturns]
  rfl

end Worklist

variable {g : Grammar}

theorem accessible_eq_empty (hstart : ¬ g.DeclaresStart) : g.accessible = ∅ := by
  refine OrderedSet.ext (List.eq_nil_iff_forall_not_mem.mpr fun x hx => ?_)
  exact hstart (mem_accessible_iff_chain.mp hx).1

/-- The search ends when each accessible non-terminal has had its turn. With a declared start symbol
it has met the symbols that occur in the words that the start symbol derives, each once, and without
one it meets nothing. -/
theorem accessible_exact (hg : g.Reached) :
    (Worklist.turn g)^[(Word.nonTerminals g.accessible.toList).length] (.first g) =
        ⟨g.accessible, []⟩ ∧
      g.accessible.toList.Nodup ∧
      (g.DeclaresStart → ∀ x, x ∈ g.accessible ↔ ∃ w, g.Derives [.nonTerminal g.start] w ∧ x ∈ w) ∧
      (¬ g.DeclaresStart → g.accessible = ∅) := by
  refine ⟨Worklist.iterate_turn_first g, g.accessible.nodup, fun hstart x => ?_,
    accessible_eq_empty⟩
  rw [hg.wellFormed.consistent.mem_accessible_iff, and_iff_right hstart]
  constructor
  · rintro ⟨pre, post, hd⟩
    exact ⟨_, hd, List.mem_append_right pre List.mem_cons_self⟩
  · rintro ⟨w, hd, hx⟩
    obtain ⟨pre, post, rfl⟩ := List.append_of_mem hx
    exact ⟨pre, post, hd⟩

/-- From `S` there is a way to itself and to `b`, but none to `c`; and where only the empty word can
be derived, the start symbol gets lost. -/
theorem accessible_exact_nested_silent : nested.Reached ∧ nested.DeclaresStart ∧
    .terminal (.ofChar 'b') ∈ nested.accessible ∧ .terminal (.ofChar 'c') ∉ nested.accessible ∧
      silent.epsilonFree.productivePart.Reached ∧
      ¬ silent.epsilonFree.productivePart.DeclaresStart ∧
      silent.epsilonFree.productivePart.accessible = ∅ := by
  have hdecl : nested.DeclaresStart := valid_nested.1
  obtain ⟨_, _, hnested, _⟩ := accessible_exact valid_nested.reached
  have hlost : silent.epsilonFree.productivePart.Reached :=
    ⟨silent, [.stage .epsilonFree, .stage .productive], valid_silent, rfl⟩
  obtain ⟨_, _, _, hempty⟩ := accessible_exact hlost
  have hundeclared : ¬ silent.epsilonFree.productivePart.DeclaresStart := by
    intro hstart
    obtain ⟨u, hu⟩ := exists_generates_of_mem_productivePart hstart
    obtain ⟨hlang, hne⟩ := generates_epsilonFree_iff.mp (generates_productivePart_iff.mp hu)
    exact hne (language_silent hlang)
  have hbrackets : nested.Derives [.nonTerminal (.ofChar 'S')]
      [.terminal (.ofChar 'a'), .nonTerminal (.ofChar 'S'), .nonTerminal (.ofChar 'S'),
        .terminal (.ofChar 'b')] :=
    derives_of_mem (p := ⟨.ofChar 'S', _⟩) (by decide)
  have hclosed : ∀ p ∈ nested.productions.toList,
      (Symbol.nonTerminal p.lhs).name ∉ [.ofChar 'B', .ofChar 'C', .ofChar 'c'] →
        ∀ x ∈ p.rhs, x.name ∉ [.ofChar 'B', .ofChar 'C', .ofChar 'c'] := by decide
  have hfar : .terminal (.ofChar 'c') ∉ nested.accessible := by
    intro hmem
    obtain ⟨w, hd, hc⟩ := (hnested hdecl _).mp hmem
    have hall := hd.forall_mem
      (motive := fun x => x.name ∉ [.ofChar 'B', .ofChar 'C', .ofChar 'c']) hclosed (by decide)
    exact hall _ hc (by decide)
  exact ⟨valid_nested.reached, hdecl, (hnested hdecl _).mpr ⟨_, hbrackets, by simp⟩, hfar, hlost,
    hundeclared, hempty hundeclared⟩

end Grammar

end ContextFree
