import Mathlib.Logic.Function.Iterate
import Mathlib.Logic.Relation
import ContextFree.Exploration

/-!
# What an exploration reaches

The elements that a breadth-first search finds are those that some chain of followers leads to, and
they are listed by the lengths of the shortest such chains (`pairwise_reachable`). A search that
keeps a queue and looks at one element at a time finds the same ones in the same order, and it is
over when each of them has had its turn (`iterate_turn_reachable`).
-/

namespace ContextFree

/-- A chain of `n` steps of the relation leads from `a` to the other element. -/
inductive Chain {α : Type} (r : α → α → Prop) (a : α) : Nat → α → Prop where
  | refl : Chain r a 0 a
  | tail {n : Nat} {b c : α} (h : Chain r a n b) (hstep : r b c) : Chain r a (n + 1) c

theorem exists_chain_iff {α : Type} {r : α → α → Prop} {a b : α} :
    (∃ n, Chain r a n b) ↔ Relation.ReflTransGen r a b := by
  constructor
  · rintro ⟨n, h⟩
    induction h with
    | refl => exact .refl
    | tail _ hstep ih => exact ih.tail hstep
  · intro h
    induction h with
    | refl => exact ⟨0, .refl⟩
    | tail _ hstep ih =>
        obtain ⟨n, hn⟩ := ih
        exact ⟨n + 1, hn.tail hstep⟩

namespace OrderedSet

variable {α : Type} [Coded α] {p : α → Prop} {next : α → List α}
  {finite : ∃ l : List α, ∀ a, p a → a ∈ l} {within : ∀ a, p a → ∀ b ∈ next a, p b}

theorem mem_reachable_iff (start : OrderedSet α) (hstart : ∀ a ∈ start, p a) {b : α} :
    b ∈ reachable next finite within start hstart ↔
      ∃ a ∈ start, Relation.ReflTransGen (fun a b => b ∈ next a) a b := by
  constructor
  · refine reachable_induction
      (motive := fun b => ∃ a ∈ start, Relation.ReflTransGen (fun a b => b ∈ next a) a b)
      (fun c hc d hd => ?_) start hstart (fun a ha => ⟨a, ha, .refl⟩) b
    obtain ⟨a, ha, hchain⟩ := hc
    exact ⟨a, ha, hchain.tail hd⟩
  · rintro ⟨a, ha, hchain⟩
    induction hchain with
    | refl => exact (toList_prefix_reachable start hstart).subset ha
    | tail _ hnext ih => exact next_mem_reachable start hstart _ ih _ hnext

/-! ## One element at a time -/

/-- A search under way: what has been met, and what of it waits for its turn. -/
structure Search (α : Type) [Coded α] where
  met : OrderedSet α
  waiting : List α

/-- The first element of the queue has its turn: those of its followers that are new join the
queue. -/
def Search.turn (next : α → List α) : Search α → Search α
  | ⟨met, []⟩ => ⟨met, []⟩
  | ⟨met, a :: waiting⟩ => ⟨met.insertAll (next a), waiting ++ (met.insertNew (next a)).2⟩

theorem snd_insertNew_append (s : OrderedSet α) (l m : List α) :
    (s.insertNew (l ++ m)).2 = (s.insertNew l).2 ++ ((s.insertAll l).insertNew m).2 := by
  have hlist := (s.insertAll l).toList_insertAll m
  rw [← insertAll_append, toList_insertAll, toList_insertAll, List.append_assoc] at hlist
  exact List.append_cancel_left hlist

/-- When the first ones in the queue have had their turns, their followers are at its end. -/
theorem Search.iterate_turn_append (met : OrderedSet α) (l m : List α) :
    (Search.turn next)^[l.length] ⟨met, l ++ m⟩ =
      ⟨met.insertAll (l.flatMap next), m ++ (met.insertNew (l.flatMap next)).2⟩ := by
  induction l generalizing met m with
  | nil => simp [insertNew]
  | cons a l ih =>
      rw [List.length_cons, Function.iterate_succ_apply, List.cons_append, turn,
        List.append_assoc, ih, List.flatMap_cons, insertAll_append, snd_insertNew_append,
        List.append_assoc]

/-- A round of the exploration is as many turns as there are elements that the round before has
added. -/
theorem exists_iterate_turn_explore
    {within : ∀ old fresh : List α, (∀ a ∈ old ++ fresh, p a) → ∀ b ∈ fresh.flatMap next, p b}
    (known : OrderedSet α) (hknown : ∀ a ∈ known, p a) (summary : Unit) (fresh : List α)
    (hlist : ∃ old, known.toList = old ++ fresh ∧ summary = old.foldl (fun _ _ => ()) ()) :
    ∀ old, known.toList = old ++ fresh →
      let found := explore (fun _ _ => ()) () (fun _ fresh => fresh.flatMap next) finite within
        known hknown summary fresh hlist
      ∃ n, old.length + n = found.size ∧ (Search.turn next)^[n] ⟨known, fresh⟩ = ⟨found, []⟩ := by
  fun_induction explore (fun _ _ => ()) () (fun _ fresh => fresh.flatMap next) finite within known
    hknown summary fresh hlist with
  | case1 known hknown summary hlist =>
      intro old hold
      refine ⟨0, ?_, rfl⟩
      rw [← length_toList, hold, List.append_nil, Nat.add_zero]
  | case2 known hknown summary a l hlist r _ ih =>
      intro old hold
      have hround : (Search.turn next)^[(a :: l).length] ⟨known, a :: l⟩ = ⟨r.1, r.2⟩ := by
        have happend := @Search.iterate_turn_append α _ next known (a :: l) []
        rwa [List.append_nil, List.nil_append, ← fst_insertNew] at happend
      have hnext : r.1.toList = old ++ a :: l ++ r.2 := by
        rw [fst_insertNew, toList_insertAll, hold]
      obtain ⟨n, hsize, hrest⟩ := ih _ hnext
      refine ⟨n + (a :: l).length, ?_, ?_⟩
      · rw [← hsize, List.length_append]
        omega
      · rw [Function.iterate_add_apply, hround, hrest]

/-- Every element that can be reached has one turn, and after that the search is over. -/
theorem iterate_turn_reachable (start : OrderedSet α) (hstart : ∀ a ∈ start, p a) :
    (Search.turn next)^[(reachable next finite within start hstart).size] ⟨start, start.toList⟩ =
      ⟨reachable next finite within start hstart, []⟩ := by
  obtain ⟨n, hsize, hn⟩ :=
    exists_iterate_turn_explore start hstart () start.toList ⟨[], rfl, rfl⟩ [] rfl
  rw [List.length_nil, Nat.zero_add] at hsize
  exact hsize ▸ hn

/-! ## Nearest first -/

/-- `n` steps to a follower lead to the element from one of those at the start. -/
def ReachedIn (next : α → List α) (start : OrderedSet α) (n : Nat) (b : α) : Prop :=
  ∃ a ∈ start, Chain (fun a b => b ∈ next a) a n b

/-- No more steps are needed to `b` than to `c`. -/
def NoFarther (next : α → List α) (start : OrderedSet α) (b c : α) : Prop :=
  ∀ n, ReachedIn next start n c → ∃ m ≤ n, ReachedIn next start m b

/-- A search after `n` rounds: known is what at most `n` steps lead to, nearest first. The last
round has added elements that `n` steps lead to, and the followers of all others are known. -/
structure Layered (next : α → List α) (start : OrderedSet α) (n : Nat) (known : OrderedSet α)
    (fresh : List α) : Prop where
  pairwise : known.toList.Pairwise (NoFarther next start)
  mem_iff : ∀ b, b ∈ known ↔ ∃ m ≤ n, ReachedIn next start m b
  reachedIn : ∀ b ∈ fresh, ReachedIn next start n b
  next_mem : ∀ a ∈ known, a ∈ fresh ∨ ∀ b ∈ next a, b ∈ known

section

variable {start known : OrderedSet α} {fresh : List α} {n : Nat} {b c : α}

theorem reachedIn_zero_iff : ReachedIn next start 0 b ↔ b ∈ start := by
  constructor
  · rintro ⟨a, ha, hchain⟩
    cases hchain with
    | refl => exact ha
  · exact fun hb => ⟨b, hb, .refl⟩

theorem reachedIn_succ_iff :
    ReachedIn next start (n + 1) b ↔ ∃ a, ReachedIn next start n a ∧ b ∈ next a := by
  constructor
  · rintro ⟨a, ha, hchain⟩
    cases hchain with
    | tail hchain hstep => exact ⟨_, ⟨a, ha, hchain⟩, hstep⟩
  · rintro ⟨c, ⟨a, ha, hchain⟩, hstep⟩
    exact ⟨a, ha, hchain.tail hstep⟩

theorem not_mem_of_mem_insertNew {s : OrderedSet α} {l : List α} (hb : b ∈ (s.insertNew l).2) :
    b ∉ s := by
  have hnodup := (s.insertAll l).nodup
  rw [toList_insertAll] at hnodup
  exact fun hs => (List.nodup_append.mp hnodup).2.2 b hs b hb rfl

theorem layered_start (next : α → List α) (start : OrderedSet α) :
    Layered next start 0 start start.toList where
  pairwise := List.pairwise_of_forall_mem_list fun _ hb _ _ _ _ =>
    ⟨0, Nat.zero_le _, reachedIn_zero_iff.mpr hb⟩
  mem_iff b := by simp [reachedIn_zero_iff]
  reachedIn _ hb := reachedIn_zero_iff.mpr hb
  next_mem _ ha := Or.inl ha

/-- What was known before a round and what it adds are what one step more leads to. -/
theorem Layered.mem_insertAll_iff (h : Layered next start n known fresh) (b : α) :
    b ∈ known.insertAll (fresh.flatMap next) ↔ ∃ m ≤ n + 1, ReachedIn next start m b := by
  rw [mem_insertAll]
  constructor
  · rintro (hb | hb)
    · obtain ⟨m, hm, hreached⟩ := (h.mem_iff b).mp hb
      exact ⟨m, Nat.le_succ_of_le hm, hreached⟩
    · obtain ⟨a, ha, hnext⟩ := List.mem_flatMap.mp hb
      exact ⟨n + 1, Nat.le_refl _, reachedIn_succ_iff.mpr ⟨a, h.reachedIn a ha, hnext⟩⟩
  · rintro ⟨m, hm, hreached⟩
    rcases Nat.le_succ_iff.mp hm with hm | rfl
    · exact Or.inl ((h.mem_iff b).mpr ⟨m, hm, hreached⟩)
    · -- The last step but one leads to an element of the last round, or what follows is not new.
      obtain ⟨a, ha, hnext⟩ := reachedIn_succ_iff.mp hreached
      rcases h.next_mem a ((h.mem_iff a).mpr ⟨n, Nat.le_refl n, ha⟩) with hfresh | hclosed
      · exact Or.inr (List.mem_flatMap.mpr ⟨a, hfresh, hnext⟩)
      · exact Or.inl (hclosed b hnext)

/-- No shorter way leads to what a round adds. -/
theorem Layered.lt_of_reachedIn (h : Layered next start n known fresh)
    (hc : c ∈ (known.insertNew (fresh.flatMap next)).2) {m : Nat}
    (hreached : ReachedIn next start m c) : n < m := by
  by_contra hle
  exact not_mem_of_mem_insertNew hc ((h.mem_iff c).mpr ⟨m, Nat.le_of_not_lt hle, hreached⟩)

theorem Layered.noFarther (h : Layered next start n known fresh)
    (hb : b ∈ known.insertAll (fresh.flatMap next))
    (hc : c ∈ (known.insertNew (fresh.flatMap next)).2) : NoFarther next start b c := by
  intro m hreached
  obtain ⟨k, hk, hreachedb⟩ := (h.mem_insertAll_iff b).mp hb
  exact ⟨k, Nat.le_trans hk (h.lt_of_reachedIn hc hreached), hreachedb⟩

/-- A round takes the search one step farther. -/
theorem Layered.round (h : Layered next start n known fresh) :
    Layered next start (n + 1) (known.insertAll (fresh.flatMap next))
      (known.insertNew (fresh.flatMap next)).2 := by
  have hknown : ∀ b ∈ known, b ∈ known.insertAll (fresh.flatMap next) := fun b hb =>
    mem_insertAll.mpr (Or.inl hb)
  have hfollowers : ∀ b ∈ fresh.flatMap next, b ∈ known.insertAll (fresh.flatMap next) :=
    fun b hb => mem_insertAll.mpr (Or.inr hb)
  have hadded : ∀ b ∈ (known.insertNew (fresh.flatMap next)).2,
      b ∈ known.insertAll (fresh.flatMap next) := fun b hb =>
    hfollowers b ((sublist_insertNew known _).subset hb)
  refine ⟨?_, h.mem_insertAll_iff, fun c hc => ?_, fun a ha => ?_⟩
  · rw [toList_insertAll, List.pairwise_append]
    exact ⟨h.pairwise,
      List.pairwise_of_forall_mem_list fun b hb c hc => h.noFarther (hadded b hb) hc,
      fun b hb c hc => h.noFarther (hknown b hb) hc⟩
  · obtain ⟨m, hm, hreached⟩ := (h.mem_insertAll_iff c).mp (hadded c hc)
    exact Nat.le_antisymm hm (h.lt_of_reachedIn hc hreached) ▸ hreached
  · -- Elements known before the round have had their turn by now, if not earlier.
    rw [← mem_toList, toList_insertAll, List.mem_append] at ha
    rcases ha with ha | ha
    · rcases h.next_mem a ha with hfresh | hclosed
      · exact Or.inr fun b hb => hfollowers b (List.mem_flatMap.mpr ⟨a, hfresh, hb⟩)
      · exact Or.inr fun b hb => hknown b (hclosed b hb)
    · exact Or.inl ha

theorem pairwise_explore
    {within : ∀ old fresh : List α, (∀ a ∈ old ++ fresh, p a) → ∀ b ∈ fresh.flatMap next, p b}
    (known : OrderedSet α) (hknown : ∀ a ∈ known, p a) (summary : Unit) (fresh : List α)
    (hlist : ∃ old, known.toList = old ++ fresh ∧ summary = old.foldl (fun _ _ => ()) ()) :
    ∀ n, Layered next start n known fresh →
      (explore (fun _ _ => ()) () (fun _ fresh => fresh.flatMap next) finite within known hknown
        summary fresh hlist).toList.Pairwise (NoFarther next start) := by
  fun_induction explore (fun _ _ => ()) () (fun _ fresh => fresh.flatMap next) finite within known
    hknown summary fresh hlist with
  | case1 known hknown summary hlist => exact fun _ h => h.pairwise
  | case2 known hknown summary a l hlist r _ ih =>
      intro n h
      refine ih (n + 1) ?_
      rw [fst_insertNew]
      exact h.round

/-- Elements are listed in the order of the numbers of steps that they take at least. -/
theorem pairwise_reachable (hstart : ∀ a ∈ start, p a) :
    (reachable next finite within start hstart).toList.Pairwise (NoFarther next start) :=
  pairwise_explore start hstart () start.toList _ 0 (layered_start next start)

end

end OrderedSet

end ContextFree
