import ContextFree.Proofs.Exploration
import ContextFree.Proofs.Generating

/-!
# Rounds over the productions

The generating non-terminals are those that rounds over all productions come to, and in the same
order, where each production sees what those before it in the round have added
(`exists_iterate_scan_eq`). The agenda has the productions that can still add something, each for
the round and the place at which it would be looked at; between them a round passes over productions
that add nothing. Every round but the last adds something, so that there are no more of them than
there are elements to be found.
-/

namespace ContextFree

namespace Grouping

variable {κ α : Type} [Coded κ] [DecidableEq κ]

theorem get_foldr_push (l : List (κ × α)) (k : κ) :
    (l.foldr (fun e t => t.push e.1 e.2) ⟨.empty⟩ : Grouping κ α).get k =
      (l.filter (·.1 = k)).map Prod.snd := by
  induction l with
  | nil => simp [get]
  | cons e l ih =>
      rw [List.foldr_cons, get_push, ih]
      by_cases h : e.1 = k
      · simp [h]
      · simp [h, Ne.symm h]

end Grouping

namespace OrderedSet

variable {α : Type} [Coded α]

/-- Where steps only add, no more of them are needed than there are elements added. -/
theorem exists_iterate_eq_of_grows {f : OrderedSet α → OrderedSet α}
    (hgrow : ∀ s, s.toList <+: (f s).toList) {s t : OrderedSet α} {n : Nat} (hn : f^[n] s = t) :
    ∃ k, s.size + k ≤ t.size ∧ f^[k] s = t := by
  induction n generalizing s with
  | zero => exact ⟨0, hn ▸ Nat.le_refl s.size, hn⟩
  | succ n ih =>
      obtain ⟨k, hsize, hk⟩ := ih hn
      by_cases hsame : f s = s
      · rw [hsame] at hsize hk
        exact ⟨k, hsize, hk⟩
      · have hlt := size_lt_of_prefix (hgrow s) hsame
        exact ⟨k + 1, by omega, hk⟩

end OrderedSet

namespace Grammar

variable {g : Grammar} {letter : Name → Bool}

/-- Adds the left-hand side of a production that is covered, where it is not known yet. -/
def discover (letter : Name → Bool) (known : OrderedSet Name) (p : Production) : OrderedSet Name :=
  if adds letter known p then known.insert p.lhs else known

/-- A round over the productions: each of them sees what those before it have added. -/
def scan (g : Grammar) (letter : Name → Bool) (known : OrderedSet Name) : OrderedSet Name :=
  g.productions.toList.foldl (discover letter) known

theorem discover_of_adds {known : OrderedSet Name} {p : Production}
    (h : adds letter known p = true) : discover letter known p = known.insert p.lhs := if_pos h

theorem toList_prefix_discover (known : OrderedSet Name) (p : Production) :
    known.toList <+: (discover letter known p).toList := by
  unfold discover
  split
  · exact OrderedSet.toList_prefix_insert known p.lhs
  · exact List.prefix_rfl

theorem toList_prefix_scan (g : Grammar) (letter : Name → Bool) (known : OrderedSet Name) :
    known.toList <+: (g.scan letter known).toList :=
  List.foldlRecOn (motive := fun s => known.toList <+: s.toList) _ _ List.prefix_rfl
    fun s h p _ => h.trans (toList_prefix_discover s p)

theorem foldl_discover_eq_self {known : OrderedSet Name} {ps : List Production}
    (h : ∀ p ∈ ps, ¬ adds letter known p = true) : ps.foldl (discover letter) known = known := by
  induction ps with
  | nil => rfl
  | cons p ps ih =>
      obtain ⟨hp, hps⟩ := List.forall_mem_cons.mp h
      rw [List.foldl_cons, discover, if_neg hp, ih hps]

/-- The generating non-terminals are closed under rounds. -/
theorem scan_generating (g : Grammar) (letter : Name → Bool) :
    g.scan letter (g.generating letter) = g.generating letter := by
  refine foldl_discover_eq_self fun p hp hadds => ?_
  obtain ⟨hnew, hcovered⟩ := adds_iff.mp hadds
  exact hnew (lhs_mem_generating hp hcovered)

/-! ## Places -/

theorem map_production_placed (g : Grammar) :
    g.placed.map Placed.production = g.productions.toList := by
  rw [placed, List.map_map]
  change g.productions.toList.attach.zipIdx.map (Subtype.val ∘ Prod.fst) = _
  rw [← List.map_map, List.zipIdx_map_fst, List.attach_map_subtype_val]

theorem pairwise_place_placed (g : Grammar) : g.placed.Pairwise fun q r => q.place < r.place := by
  have hplaces : g.placed.map Placed.place =
      List.range' 0 g.productions.toList.attach.length := by
    rw [placed, List.map_map]
    exact List.zipIdx_map_snd 0 _
  have hrange : (g.placed.map Placed.place).Pairwise (· < ·) := hplaces ▸ List.pairwise_lt_range'
  exact List.pairwise_map.mp hrange

theorem mem_placed_of_mem_uses {A : Name} {q : g.Placed} (h : q ∈ g.uses.get A) :
    q ∈ g.placed := by
  rw [uses, Grouping.get_foldr_push] at h
  obtain ⟨e, he, rfl⟩ := List.mem_map.mp h
  obtain ⟨r, hr, hmem⟩ := List.mem_flatMap.mp (List.mem_filter.mp he).1
  obtain ⟨_, _, rfl⟩ := List.mem_map.mp hmem
  exact hr

theorem pairwise_place_uses (g : Grammar) (A : Name) :
    (g.uses.get A).Pairwise fun q r => q.place ≤ r.place := by
  rw [uses, Grouping.get_foldr_push, List.pairwise_map]
  refine List.Pairwise.filter _ (List.pairwise_flatMap.mpr ⟨fun q _ => ?_, ?_⟩)
  · -- A production is listed once for each of its non-terminals, always with the same place.
    exact List.pairwise_map.mpr (List.pairwise_of_forall fun _ _ => Nat.le_refl q.place)
  · refine (pairwise_place_placed g).imp fun {q r} hlt e he e' he' => ?_
    obtain ⟨_, _, rfl⟩ := List.mem_map.mp he
    obtain ⟨_, _, rfl⟩ := List.mem_map.mp he'
    exact Nat.le_of_lt hlt

theorem pairwise_place_merge {l m : List g.Placed} (hl : l.Pairwise fun q r => q.place ≤ r.place)
    (hm : m.Pairwise fun q r => q.place ≤ r.place) :
    (l.merge m fun q r => q.place ≤ r.place).Pairwise fun q r => q.place ≤ r.place := by
  have hmerge := @List.pairwise_merge _ (fun q r : g.Placed => decide (q.place ≤ r.place))
    (fun q r s hqr hrs => decide_eq_true (Nat.le_trans (of_decide_eq_true hqr)
      (of_decide_eq_true hrs)))
    (fun q r => by simpa using Nat.le_total q.place r.place) l m
    (hl.imp decide_eq_true) (hm.imp decide_eq_true)
  exact hmerge.imp of_decide_eq_true

/-- A place among those that are still ahead divides them by their places. -/
theorem exists_split_of_suffix {rest : List g.Placed} (hrest : rest <:+ g.placed) {q : g.Placed}
    (hq : q ∈ rest) : ∃ before after, rest = before ++ q :: after ∧ after <:+ g.placed ∧
      (∀ r ∈ before, r.place < q.place) ∧ (∀ r ∈ after, q.place < r.place) ∧
        ∀ r ∈ g.placed, q.place < r.place → r ∈ after := by
  obtain ⟨before, after, rfl⟩ := List.append_of_mem hq
  obtain ⟨passed, hplaced⟩ := hrest
  have hsplit : g.placed = (passed ++ before) ++ q :: after := by
    rw [← hplaced, List.append_assoc]
  have hsorted := g.pairwise_place_placed
  rw [hsplit, List.pairwise_append, List.pairwise_cons] at hsorted
  obtain ⟨_, ⟨hafter, _⟩, hbefore⟩ := hsorted
  have hbehind : ∀ r ∈ passed ++ before, r.place < q.place := fun r hr =>
    hbefore r hr q List.mem_cons_self
  refine ⟨before, after, rfl, ⟨passed ++ before ++ [q], by simp [hsplit]⟩,
    fun r hr => hbehind r (List.mem_append_right passed hr), hafter, fun r hr hlt => ?_⟩
  rw [hsplit] at hr
  rcases List.mem_append.mp hr with hr | hr
  · exact absurd hlt (Nat.lt_asymm (hbehind r hr))
  · rcases List.mem_cons.mp hr with rfl | hr
    · exact absurd hlt (Nat.lt_irrefl _)
    · exact hr

/-! ## The agenda -/

/-- What the rest of a round comes to. -/
def discoverAll (letter : Name → Bool) (known : OrderedSet Name) (rest : List g.Placed) :
    OrderedSet Name :=
  (rest.map Placed.production).foldl (discover letter) known

theorem discoverAll_placed (known : OrderedSet Name) :
    discoverAll letter known g.placed = g.scan letter known := by
  rw [discoverAll, map_production_placed, scan]

/-- A round passes over what adds nothing. -/
theorem discoverAll_append_cons {known : OrderedSet Name} {before after : List g.Placed}
    {q : g.Placed} (hbefore : ∀ r ∈ before, ¬ adds letter known r.production = true)
    (hadds : adds letter known q.production = true) :
    discoverAll letter known (before ++ q :: after) =
      discoverAll letter (known.insert q.production.lhs) after := by
  have hpassed : (before.map Placed.production).foldl (discover letter) known = known := by
    refine foldl_discover_eq_self fun p hp => ?_
    obtain ⟨r, hr, rfl⟩ := List.mem_map.mp hp
    exact hbefore r hr
  rw [discoverAll, List.map_append, List.foldl_append, hpassed, List.map_cons, List.foldl_cons,
    discover_of_adds hadds, discoverAll]

/-- The agenda at a point of a round at which it has still to look at `rest`: whatever adds
something waits for its turn, in this round if its place is ahead. -/
structure Agenda (letter : Name → Bool) (known : OrderedSet Name)
    (now later rest : List g.Placed) : Prop where
  rest_suffix : rest <:+ g.placed
  sorted_now : now.Pairwise fun q r => q.place ≤ r.place
  sorted_later : later.Pairwise fun q r => q.place ≤ r.place
  mem_placed : ∀ q ∈ later, q ∈ g.placed
  mem_rest : ∀ q ∈ now, q.production.lhs ∉ known → q ∈ rest
  mem_now : ∀ q ∈ rest, adds letter known q.production = true → q ∈ now
  mem_now_or_later : ∀ q ∈ g.placed, adds letter known q.production = true → q ∈ now ∨ q ∈ later

section

variable {known : OrderedSet Name} {now later rest : List g.Placed} {q : g.Placed}

theorem agenda_first (g : Grammar) (letter : Name → Bool) :
    Agenda letter ∅ (g.placed.filter fun q => adds letter ∅ q.production) [] g.placed where
  rest_suffix := List.suffix_rfl
  sorted_now := (g.pairwise_place_placed.imp Nat.le_of_lt).filter _
  sorted_later := .nil
  mem_placed _ hq := absurd hq List.not_mem_nil
  mem_rest _ hq _ := (List.mem_filter.mp hq).1
  mem_now _ hq hadds := List.mem_filter.mpr ⟨hq, hadds⟩
  mem_now_or_later _ hq hadds := Or.inl (List.mem_filter.mpr ⟨hq, hadds⟩)

/-- Where nothing waits for this round any more, what is left of it adds nothing. -/
theorem Agenda.discoverAll_eq_self (h : Agenda letter known [] later rest) :
    discoverAll letter known rest = known := by
  refine foldl_discover_eq_self fun p hp hadds => ?_
  obtain ⟨q, hq, rfl⟩ := List.mem_map.mp hp
  exact List.not_mem_nil (h.mem_now q hq hadds)

theorem Agenda.nextRound (h : Agenda letter known [] later rest) :
    Agenda letter known later [] g.placed where
  rest_suffix := List.suffix_rfl
  sorted_now := h.sorted_later
  sorted_later := .nil
  mem_placed _ hq := absurd hq List.not_mem_nil
  mem_rest q hq _ := h.mem_placed q hq
  mem_now q hq hadds := (h.mem_now_or_later q hq hadds).resolve_left List.not_mem_nil
  mem_now_or_later q hq hadds :=
    Or.inl ((h.mem_now_or_later q hq hadds).resolve_left List.not_mem_nil)

theorem mem_of_mem_cons_of_adds {r : g.Placed} (hr : r ∈ q :: now)
    (hadds : adds letter known r.production = true)
    (hnot : ¬ adds letter known q.production = true) : r ∈ now := by
  rcases List.mem_cons.mp hr with rfl | hr
  · exact absurd hadds hnot
  · exact hr

/-- What does not add anything need not wait. -/
theorem Agenda.skip (h : Agenda letter known (q :: now) later rest)
    (hnot : ¬ adds letter known q.production = true) : Agenda letter known now later rest where
  rest_suffix := h.rest_suffix
  sorted_now := h.sorted_now.of_cons
  sorted_later := h.sorted_later
  mem_placed := h.mem_placed
  mem_rest r hr := h.mem_rest r (List.mem_cons_of_mem q hr)
  mem_now r hr hadds := mem_of_mem_cons_of_adds (h.mem_now r hr hadds) hadds hnot
  mem_now_or_later r hr hadds := (h.mem_now_or_later r hr hadds).imp_left fun hnow =>
    mem_of_mem_cons_of_adds hnow hadds hnot

theorem adds_or_mem_rhs_of_adds_insert {found : Name} {p : Production}
    (h : adds letter (known.insert found) p = true) :
    adds letter known p = true ∨ .nonTerminal found ∈ p.rhs := by
  obtain ⟨hnew, hcovered⟩ := adds_iff.mp h
  obtain ⟨hletter, hnonTerminals⟩ := all_covers_iff.mp hcovered
  refine Decidable.or_iff_not_imp_right.mpr fun hnot => adds_iff.mpr ⟨fun hold => ?_, ?_⟩
  · exact hnew (OrderedSet.mem_insert_of_mem hold)
  · refine all_covers_iff.mpr ⟨hletter, fun A hA => ?_⟩
    exact (OrderedSet.mem_insert.mp (hnonTerminals A hA)).resolve_right fun heq => hnot (heq ▸ hA)

theorem not_adds_insert_lhs (p : Production) :
    ¬ adds letter (known.insert p.lhs) p = true :=
  fun h => (adds_iff.mp h).1 (OrderedSet.mem_insert_self _ _)

/-- The productions that add something when `found` is known, and did not before. -/
theorem mem_concerned {found : Name} {r : g.Placed} (hr : r ∈ g.placed)
    (hnew : adds letter (known.insert found) r.production = true)
    (hold : ¬ adds letter known r.production = true) :
    r ∈ (g.uses.get found).filter fun r => adds letter (known.insert found) r.production :=
  List.mem_filter.mpr ⟨mem_get_uses hr ((adds_or_mem_rhs_of_adds_insert hnew).resolve_left hold),
    hnew⟩

/-- The first production that waits is the next one to add something. -/
theorem Agenda.exists_split (h : Agenda letter known (q :: now) later rest)
    (hadds : adds letter known q.production = true) :
    ∃ before after, rest = before ++ q :: after ∧ after <:+ g.placed ∧
      (∀ r ∈ before, r ∉ q :: now) ∧ (∀ r ∈ after, q.place < r.place) ∧
        ∀ r ∈ g.placed, q.place < r.place → r ∈ after := by
  have hrest : q ∈ rest := h.mem_rest q List.mem_cons_self (adds_iff.mp hadds).1
  obtain ⟨before, after, rfl, hsuffix, hbefore, hafter, hahead⟩ :=
    exists_split_of_suffix h.rest_suffix hrest
  refine ⟨before, after, rfl, hsuffix, fun r hr hwaits => ?_, hafter, hahead⟩
  rcases List.mem_cons.mp hwaits with rfl | hnow
  · exact Nat.lt_irrefl _ (hbefore r hr)
  · exact Nat.not_le_of_lt (hbefore r hr) ((List.pairwise_cons.mp h.sorted_now).1 r hnow)

/-- When it has done so, the round goes on behind it, and what comes to be covered waits for this
round or for the next. -/
theorem Agenda.exists_step (h : Agenda letter known (q :: now) later rest)
    (hadds : adds letter known q.production = true) :
    let known' := known.insert q.production.lhs
    let concerned := (g.uses.get q.production.lhs).filter fun r => adds letter known' r.production
    ∃ after, discoverAll letter known rest = discoverAll letter known' after ∧
      Agenda letter known'
        (now.merge (concerned.filter fun r => q.place < r.place) fun r s => r.place ≤ s.place)
        (later.merge (concerned.filter fun r => r.place ≤ q.place) fun r s => r.place ≤ s.place)
        after := by
  intro known' concerned
  obtain ⟨before, after, rfl, hsuffix, hbefore, hafter, hahead⟩ := h.exists_split hadds
  have hpassed : ∀ r ∈ before, ¬ adds letter known r.production = true := fun r hr hr' =>
    hbefore r hr (h.mem_now r (List.mem_append_left _ hr) hr')
  have hconcerned : concerned.Pairwise fun r s => r.place ≤ s.place :=
    (g.pairwise_place_uses _).filter _
  have hplaced : ∀ r ∈ concerned, r ∈ g.placed := fun r hr =>
    mem_placed_of_mem_uses (List.mem_filter.mp hr).1
  have hdone : ¬ adds letter known' q.production = true := not_adds_insert_lhs q.production
  refine ⟨after, discoverAll_append_cons hpassed hadds,
    { rest_suffix := hsuffix
      sorted_now := pairwise_place_merge h.sorted_now.of_cons (hconcerned.filter _)
      sorted_later := pairwise_place_merge h.sorted_later (hconcerned.filter _)
      mem_placed := fun r hr => ?placed
      mem_rest := fun r hr hunknown => ?rest
      mem_now := fun r hr hnew => ?now
      mem_now_or_later := fun r hr hnew => ?waits }⟩
  case placed =>
    rcases List.mem_merge.mp hr with hr | hr
    · exact h.mem_placed r hr
    · exact hplaced r (List.mem_filter.mp hr).1
  case rest =>
    -- What waited before is not behind `q`, for the agenda goes by place.
    rcases List.mem_merge.mp hr with hr | hr
    · have hold : r.production.lhs ∉ known := fun hold =>
        hunknown (OrderedSet.mem_insert_of_mem hold)
      rcases List.mem_append.mp (h.mem_rest r (List.mem_cons_of_mem q hr) hold) with hr' | hr'
      · exact absurd (List.mem_cons_of_mem q hr) (hbefore r hr')
      · refine (List.mem_cons.mp hr').resolve_left fun heq => hunknown ?_
        exact OrderedSet.mem_insert.mpr (Or.inr (heq ▸ rfl))
    · obtain ⟨hr, hlt⟩ := List.mem_filter.mp hr
      exact hahead r (hplaced r hr) (of_decide_eq_true hlt)
  case now =>
    have hr' : r ∈ before ++ q :: after := List.mem_append_right _ (List.mem_cons_of_mem q hr)
    by_cases hold : adds letter known r.production = true
    · exact List.mem_merge.mpr
        (Or.inl (mem_of_mem_cons_of_adds (h.mem_now r hr' hold) hnew hdone))
    · have hmem := mem_concerned (h.rest_suffix.subset hr') hnew hold
      have hplace := decide_eq_true (hafter r hr)
      exact List.mem_merge.mpr (Or.inr (List.mem_filter.mpr ⟨hmem, hplace⟩))
  case waits =>
    simp only [List.mem_merge, List.mem_filter, decide_eq_true_eq]
    by_cases hold : adds letter known r.production = true
    · rcases h.mem_now_or_later r hr hold with hnow | hlater
      · exact Or.inl (Or.inl (mem_of_mem_cons_of_adds hnow hnew hdone))
      · exact Or.inr (Or.inl hlater)
    · have hmem : r ∈ concerned := mem_concerned hr hnew hold
      rcases Nat.lt_or_ge q.place r.place with hlt | hge
      · exact Or.inl (Or.inr ⟨hmem, hlt⟩)
      · exact Or.inr (Or.inr ⟨hmem, hge⟩)

end

/-- The agenda comes to what the rest of the round and some further rounds come to. -/
theorem exists_iterate_scan_generatingFrom (known : OrderedSet Name)
    (hknown : ∀ A ∈ known, A ∈ g.heads) (now later : List g.Placed) :
    ∀ rest, Agenda letter known now later rest →
      ∃ n, (g.scan letter)^[n] (discoverAll letter known rest) =
        generatingFrom letter g.uses known hknown now later := by
  -- Only where the agenda takes up what waits for the next round does a round of the scan begin.
  fun_induction generatingFrom letter g.uses known hknown now later with
  | case1 known hknown => exact fun rest h => ⟨0, h.discoverAll_eq_self⟩
  | case2 known hknown q later ih =>
      intro rest h
      obtain ⟨n, hn⟩ := ih g.placed h.nextRound
      refine ⟨n + 1, ?_⟩
      rw [h.discoverAll_eq_self, Function.iterate_succ_apply, ← discoverAll_placed, hn]
  | case3 known hknown later q now hadds found concerned ih =>
      intro rest h
      obtain ⟨after, heq, hstep⟩ := h.exists_step hadds
      rw [heq]
      exact ih after hstep
  | case4 known hknown later q now hadds ih => exact fun rest h => ih rest (h.skip hadds)

/-- Rounds over the productions come to the generating non-terminals, and each of them but the last
adds one at least. -/
theorem exists_iterate_scan_eq (g : Grammar) (letter : Name → Bool) :
    ∃ n ≤ (g.generating letter).size, (g.scan letter)^[n] ∅ = g.generating letter := by
  obtain ⟨n, hn⟩ := exists_iterate_scan_generatingFrom ∅
    (fun A hA => absurd hA (OrderedSet.not_mem_empty A)) _ _ g.placed (agenda_first g letter)
  have hrounds : (g.scan letter)^[n + 1] ∅ = g.generating letter := by
    rw [Function.iterate_succ_apply, ← discoverAll_placed, hn, generating]
  obtain ⟨k, hsize, hk⟩ :=
    OrderedSet.exists_iterate_eq_of_grows (g.toList_prefix_scan letter) hrounds
  exact ⟨k, Nat.le_of_add_left_le hsize, hk⟩

/-- Rounds in which a production counts when all its symbols are known to derive the empty word come
to a halt, and what they have found are the non-terminals that derive it, each once. -/
theorem nullable_exact (g : Grammar) :
    (∃ n ≤ g.nullable.size, (g.scan fun _ => false)^[n] ∅ = g.nullable) ∧
      g.scan (fun _ => false) g.nullable = g.nullable ∧
      g.nullable.toList.Nodup ∧ ∀ A, A ∈ g.nullable ↔ g.Derives [.nonTerminal A] [] :=
  ⟨g.exists_iterate_scan_eq _, g.scan_generating _, g.nullable.nodup, fun _ => mem_nullable_iff⟩

/-- Rounds in which terminals count as they are come to a halt, and what they have found are the
non-terminals that derive some sentence, each once. -/
theorem productive_exact (g : Grammar) :
    (∃ n ≤ g.productive.size, (g.scan fun _ => true)^[n] ∅ = g.productive) ∧
      g.scan (fun _ => true) g.productive = g.productive ∧
      g.productive.toList.Nodup ∧
      ∀ A, A ∈ g.productive ↔ ∃ u : Sentence, g.Derives [.nonTerminal A] (u.map .terminal) :=
  ⟨g.exists_iterate_scan_eq _, g.scan_generating _, g.productive.nodup, fun _ => mem_productive_iff⟩

end Grammar

end ContextFree
