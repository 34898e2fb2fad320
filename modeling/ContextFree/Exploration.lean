import ContextFree.OrderedSet

/-!
# Exploration

Adds to a set what follows from its elements, round after round, until nothing new follows. A round
is given the elements that the round before has added and a summary of those that came earlier; it
has to name only what follows with the help of at least one of the new ones, for the rest is there
already. The summary takes in the elements one by one, in their order. The elements that can ever
arrive are confined to a finite list, so the process ends; the list is only a bound for the argument
and is never computed.

Where each element has followers of its own (`reachable`), this is a breadth-first search: elements
are listed in the order in which they are met.
-/

namespace ContextFree

namespace OrderedSet

variable {α σ : Type} [Coded α] {p : α → Prop}

def explore (absorb : σ → α → σ) (init : σ) (step : σ → List α → List α)
    (finite : ∃ l : List α, ∀ a, p a → a ∈ l)
    (within : ∀ old fresh : List α, (∀ a ∈ old ++ fresh, p a) →
      ∀ b ∈ step (old.foldl absorb init) fresh, p b)
    (known : OrderedSet α) (hknown : ∀ a ∈ known, p a) (summary : σ) (fresh : List α)
    (hlist : ∃ old, known.toList = old ++ fresh ∧ summary = old.foldl absorb init) :
    OrderedSet α :=
  match fresh with
  | [] => known
  | a :: l =>
    let r := known.insertNew (step summary (a :: l))
    explore absorb init step finite within r.1
      (by
        obtain ⟨old, hold, rfl⟩ := hlist
        have hall : ∀ c ∈ old ++ a :: l, p c := fun c hc => hknown c (mem_toList.mp (hold ▸ hc))
        intro b hb
        rw [fst_insertNew, mem_insertAll] at hb
        exact hb.elim (hknown b) (within old (a :: l) hall b))
      ((a :: l).foldl absorb summary) r.2
      (by
        obtain ⟨old, hold, rfl⟩ := hlist
        exact ⟨old ++ a :: l, by rw [fst_insertNew, toList_insertAll, hold],
          List.foldl_append.symm⟩)
termination_by (finite.choose.length - known.size, fresh.length)
decreasing_by
  have hsize : (known.insertNew (step summary (a :: l))).1.size =
      known.size + (known.insertNew (step summary (a :: l))).2.length := by
    rw [fst_insertNew, ← length_toList, toList_insertAll, List.length_append, length_toList]
  have hbound : (known.insertNew (step summary (a :: l))).1.size ≤ finite.choose.length := by
    obtain ⟨old, hold, rfl⟩ := hlist
    have hall : ∀ c ∈ old ++ a :: l, p c := fun c hc => hknown c (mem_toList.mp (hold ▸ hc))
    refine size_le_of_subset fun b hb => finite.choose_spec b ?_
    rw [fst_insertNew, mem_insertAll] at hb
    exact hb.elim (hknown b) (within old (a :: l) hall b)
  rcases Nat.eq_zero_or_pos (known.insertNew (step summary (a :: l))).2.length with hnone | hsome
  · rw [hsize, hnone]
    exact Prod.Lex.right _ (Nat.succ_pos l.length)
  · exact Prod.Lex.left _ _ (by omega)

section

variable {absorb : σ → α → σ} {init : σ} {step : σ → List α → List α}
  {finite : ∃ l : List α, ∀ a, p a → a ∈ l}
  {within : ∀ old fresh : List α, (∀ a ∈ old ++ fresh, p a) →
    ∀ b ∈ step (old.foldl absorb init) fresh, p b}

theorem toList_prefix_explore (known : OrderedSet α) (hknown : ∀ a ∈ known, p a) (summary : σ)
    (fresh : List α)
    (hlist : ∃ old, known.toList = old ++ fresh ∧ summary = old.foldl absorb init) :
    known.toList <+:
      (explore absorb init step finite within known hknown summary fresh hlist).toList := by
  fun_induction explore absorb init step finite within known hknown summary fresh hlist with
  | case1 known hknown summary hlist => exact List.prefix_rfl
  | case2 known hknown summary a l hlist r _ ih =>
      refine List.IsPrefix.trans ?_ ih
      rw [fst_insertNew]
      exact toList_prefix_insertAll known _

/-- What holds of the first elements and is handed on by every step holds of all that is found. -/
theorem explore_induction {motive : α → Prop}
    (hstep : ∀ old fresh : List α, (∀ a ∈ old ++ fresh, motive a) →
      ∀ b ∈ step (old.foldl absorb init) fresh, motive b)
    (known : OrderedSet α) (hknown : ∀ a ∈ known, p a) (summary : σ) (fresh : List α)
    (hlist : ∃ old, known.toList = old ++ fresh ∧ summary = old.foldl absorb init)
    (h : ∀ a ∈ known, motive a) :
    ∀ a ∈ explore absorb init step finite within known hknown summary fresh hlist, motive a := by
  fun_induction explore absorb init step finite within known hknown summary fresh hlist with
  | case1 known hknown summary hlist => exact h
  | case2 known hknown summary a l hlist r _ ih =>
      obtain ⟨old, hold, rfl⟩ := hlist
      have hall : ∀ c ∈ old ++ a :: l, motive c := fun c hc => h c (mem_toList.mp (hold ▸ hc))
      apply ih
      intro b hb
      rw [fst_insertNew, mem_insertAll] at hb
      exact hb.elim (h b) (hstep old (a :: l) hall b)

/-- Nothing is left out: when a step names all that follows from a list but did not follow without
the new elements at its end, then what follows from all that is found is found. -/
theorem mem_explore_of_follows (follows : List α → α → Prop)
    (hstep : ∀ (old fresh : List α) (b : α), follows (old ++ fresh) b →
      follows old b ∨ b ∈ step (old.foldl absorb init) fresh)
    (known : OrderedSet α) (hknown : ∀ a ∈ known, p a) (summary : σ) (fresh : List α)
    (hlist : ∃ old, known.toList = old ++ fresh ∧ summary = old.foldl absorb init)
    (hold : ∀ old, known.toList = old ++ fresh → ∀ b, follows old b → b ∈ known) :
    ∀ b, follows (explore absorb init step finite within known hknown summary fresh hlist).toList
        b → b ∈ explore absorb init step finite within known hknown summary fresh hlist := by
  fun_induction explore absorb init step finite within known hknown summary fresh hlist with
  | case1 known hknown summary hlist => exact hold known.toList (List.append_nil _).symm
  | case2 known hknown summary a l hlist r _ ih =>
      refine ih fun old hr b hb => ?_
      rw [fst_insertNew, toList_insertAll, List.append_cancel_right_eq] at hr
      rw [fst_insertNew, mem_insertAll]
      obtain ⟨older, hknownList, rfl⟩ := hlist
      rw [← hr, hknownList] at hb
      exact (hstep older (a :: l) b hb).imp (hold older hknownList b) id

end

/-- The elements reached from those of a set by any number of steps to a follower. -/
def reachable (next : α → List α) (finite : ∃ l : List α, ∀ a, p a → a ∈ l)
    (within : ∀ a, p a → ∀ b ∈ next a, p b) (start : OrderedSet α)
    (hstart : ∀ a ∈ start, p a) : OrderedSet α :=
  explore (fun _ _ => ()) () (fun _ fresh => fresh.flatMap next) finite
    (fun _ _ h b hb =>
      have ⟨a, ha, hab⟩ := List.mem_flatMap.mp hb
      within a (h a (List.mem_append_right _ ha)) b hab)
    start hstart () start.toList ⟨[], rfl, rfl⟩

section

variable {next : α → List α} {finite : ∃ l : List α, ∀ a, p a → a ∈ l}
  {within : ∀ a, p a → ∀ b ∈ next a, p b}

theorem toList_prefix_reachable (start : OrderedSet α) (hstart : ∀ a ∈ start, p a) :
    start.toList <+: (reachable next finite within start hstart).toList :=
  toList_prefix_explore _ _ _ _ _

/-- What holds of the first elements and is handed on to followers holds of all that is found. -/
theorem reachable_induction {motive : α → Prop}
    (hnext : ∀ a, motive a → ∀ b ∈ next a, motive b)
    (start : OrderedSet α) (hstart : ∀ a ∈ start, p a) (h : ∀ a ∈ start, motive a) :
    ∀ a ∈ reachable next finite within start hstart, motive a := by
  refine explore_induction (fun _ _ hall b hb => ?_) _ _ _ _ _ h
  obtain ⟨a, ha, hab⟩ := List.mem_flatMap.mp hb
  exact hnext a (hall a (List.mem_append_right _ ha)) b hab

theorem next_mem_reachable (start : OrderedSet α) (hstart : ∀ a ∈ start, p a) :
    ∀ a ∈ reachable next finite within start hstart, ∀ b ∈ next a,
      b ∈ reachable next finite within start hstart := by
  intro a ha b hb
  refine mem_explore_of_follows (fun l b => ∃ a ∈ l, b ∈ next a)
    (fun old fresh c hc => ?_) start hstart () start.toList _ ?_ b ⟨a, ha, hb⟩
  · obtain ⟨d, hd, hcd⟩ := hc
    rcases List.mem_append.mp hd with hd | hd
    · exact Or.inl ⟨d, hd, hcd⟩
    · exact Or.inr (List.mem_flatMap.mpr ⟨d, hd, hcd⟩)
  · rintro old hold c ⟨d, hd, _⟩
    rw [List.self_eq_append_left.mp hold] at hd
    exact absurd hd List.not_mem_nil

end

end OrderedSet

end ContextFree
