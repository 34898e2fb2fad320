import ContextFree.BinaryForm
import ContextFree.Proofs.Derivation

/-!
# Rounds towards binary form

Three moves of a round add to it: it puts out a production, it introduces a proxy, or it links the
next non-terminal of a chain. So a round only grows (`Leads.grows`), and a grammar that has all that
a round puts out derives the right-hand side of every production that went in
(`derives_of_output_subset`). As to the number of rounds, the first one does all the work
(`equiv_productions_settle`).
-/

namespace ContextFree

namespace Production

theorem exists_pair_of_isBinary {p : Production} (hp : p.isBinary = true)
    (hlength : 2 ≤ p.rhs.length) : ∃ B C, p.rhs = [.nonTerminal B, .nonTerminal C] := by
  rcases isBinary_iff.mp hp with ⟨a, ha⟩ | hpair | ⟨B, hB⟩
  · simp [ha] at hlength
  · exact hpair
  · simp [hB] at hlength

theorem isBinary_append_terminal {A a : Name} {v w : Word}
    (hlength : 2 ≤ (v ++ .terminal a :: w).length) :
    (⟨A, v ++ .terminal a :: w⟩ : Production).isBinary = false := by
  refine Bool.eq_false_iff.mpr fun hbinary => ?_
  obtain ⟨B, C, hpair⟩ := exists_pair_of_isBinary hbinary hlength
  have hmem : Symbol.terminal a ∈ [Symbol.nonTerminal B, .nonTerminal C] := by
    rw [← hpair]
    simp
  simp at hmem

end Production

namespace BinaryForm

namespace Round

/-! ## Growth -/

/-- Nothing is taken back, and a proxy that comes in does so with its production. -/
structure Grows (r s : Round) : Prop where
  nonTerminals : ∀ A ∈ r.nonTerminals, A ∈ s.nonTerminals
  proxies : ∀ e ∈ r.proxies, e ∈ s.proxies
  output : ∀ p ∈ r.output, p ∈ s.output
  backed : ∀ e ∈ s.proxies, e ∈ r.proxies ∨ ⟨e.2, [.terminal e.1]⟩ ∈ s.output

theorem Grows.refl (r : Round) : r.Grows r :=
  ⟨fun _ h => h, fun _ h => h, fun _ h => h, fun _ h => Or.inl h⟩

theorem Grows.trans {r s t : Round} (h : r.Grows s) (k : s.Grows t) : r.Grows t where
  nonTerminals A hA := k.nonTerminals A (h.nonTerminals A hA)
  proxies e he := k.proxies e (h.proxies e he)
  output p hp := k.output p (h.output p hp)
  backed e he := by
    rcases k.backed e he with hs | ht
    · exact (h.backed e hs).imp id (k.output _)
    · exact Or.inr ht

theorem Grows.withNotes {r s : Round} (h : r.Grows s) {notes : List Note} :
    r.Grows { s with notes := notes } := ⟨h.nonTerminals, h.proxies, h.output, h.backed⟩

theorem grows_emit (r : Round) (p : Production) : r.Grows (r.emit p) where
  nonTerminals _ hA := hA
  proxies _ he := he
  output _ hp := OrderedSet.mem_insert_of_mem hp
  backed _ he := Or.inl he

theorem grows_introduce (r : Round) (a : Name) : r.Grows (r.introduce a) where
  nonTerminals _ hA := OrderedSet.mem_insert_of_mem hA
  proxies _ he := List.mem_cons_of_mem _ he
  output _ hp := OrderedSet.mem_insert_of_mem hp
  backed e he := by
    rcases List.mem_cons.mp he with rfl | he
    · exact Or.inr (OrderedSet.mem_insert_self _ _)
    · exact Or.inl he

theorem grows_link (r : Round) (A B : Name) : r.Grows (r.link A B) where
  nonTerminals _ hC := OrderedSet.mem_insert_of_mem hC
  proxies _ he := he
  output _ hp := OrderedSet.mem_insert_of_mem hp
  backed _ he := Or.inl he

variable {r s : Round} {ps : List Production}

theorem Leads.grows (hrun : r.Leads ps s) : r.Grows s := by
  induction hrun with
  | done r => exact .refl r
  | keep _ _ ih => exact (grows_emit _ _).trans ih
  | drop _ ih => exact (Grows.refl _).withNotes.trans ih
  | exchange _ _ _ ih => exact ih
  | introduce _ _ _ ih => exact (grows_introduce _ _).trans ih
  | link _ ih => exact (grows_link _ _ _).trans ih
  | note _ _ _ ih => exact (Grows.refl _).withNotes.trans ih

theorem Leads.mem_output (hrun : r.Leads ps s) {p : Production} (hp : p ∈ ps)
    (hbinary : p.isBinary = true) : p ∈ s.output := by
  induction hrun with
  | done r => exact absurd hp List.not_mem_nil
  | keep _ hrun ih =>
      rcases List.mem_cons.mp hp with rfl | hp
      · exact hrun.grows.output p (OrderedSet.mem_insert_self _ _)
      · exact ih hp
  | drop _ ih =>
      rcases List.mem_cons.mp hp with rfl | hp
      · exact absurd hbinary nofun
      · exact ih hp
  | exchange hlength _ _ ih | introduce hlength _ _ ih =>
      rcases List.mem_cons.mp hp with rfl | hp
      · simp [Production.isBinary_append_terminal hlength] at hbinary
      · exact ih (List.mem_cons_of_mem _ hp)
  | link _ ih =>
      rcases List.mem_cons.mp hp with rfl | hp
      · exact absurd hbinary nofun
      · exact ih (List.mem_cons_of_mem _ hp)
  | note _ _ _ ih => exact ih hp

/-! ## What comes out derives what went in -/

/-- The grammar has what the round puts out, and the productions of all proxies. -/
structure Within (r : Round) (h : Grammar) : Prop where
  output : ∀ p ∈ r.output, p ∈ h.productions
  proxies : ∀ e ∈ r.proxies, ⟨e.2, [.terminal e.1]⟩ ∈ h.productions

variable {h : Grammar}

theorem derives_exchange {a B : Name} (hB : ⟨B, [.terminal a]⟩ ∈ h.productions) {v w : Word} :
    h.Derives (v ++ .nonTerminal B :: w) (v ++ .terminal a :: w) := by
  have hd := (Grammar.derives_of_mem hB).context v w
  simpa using hd

theorem Leads.derives (hrun : r.Leads ps s) (hin : s.Within h) :
    ∀ p ∈ ps, p.rhs ≠ [] → h.Derives [.nonTerminal p.lhs] p.rhs := by
  induction hrun with
  | done r => exact List.forall_mem_nil _
  | keep _ hrun ih =>
      have hmem := hrun.grows.output _ (OrderedSet.mem_insert_self _ _)
      exact List.forall_mem_cons.mpr
        ⟨fun _ => Grammar.derives_of_mem (hin.output _ hmem), ih hin⟩
  | drop _ ih => exact List.forall_mem_cons.mpr ⟨fun hne => absurd rfl hne, ih hin⟩
  | exchange _ hB hrun ih =>
      obtain ⟨hhead, hps⟩ := List.forall_mem_cons.mp (ih hin)
      have hproxy := hin.proxies _ (hrun.grows.proxies _ hB)
      exact List.forall_mem_cons.mpr
        ⟨fun _ => (hhead (by simp)).trans (derives_exchange hproxy), hps⟩
  | introduce _ _ hrun ih =>
      obtain ⟨hhead, hps⟩ := List.forall_mem_cons.mp (ih hin)
      have hproxy := hin.proxies _ (hrun.grows.proxies _ List.mem_cons_self)
      exact List.forall_mem_cons.mpr
        ⟨fun _ => (hhead (by simp)).trans (derives_exchange hproxy), hps⟩
  | @link _ _ A B _ _ _ _ hrun ih =>
      obtain ⟨hhead, hps⟩ := List.forall_mem_cons.mp (ih hin)
      have hmem := hrun.grows.output _ (OrderedSet.mem_insert_self _ _)
      have htail := (Grammar.Derives.refl (u := [.nonTerminal B])).append
        (hhead (List.cons_ne_nil _ _))
      exact List.forall_mem_cons.mpr
        ⟨fun _ => (Grammar.derives_of_mem (hin.output _ hmem)).trans htail, hps⟩
  | note _ _ _ ih => exact ih hin

theorem filter_eq_of_mem_knownProxies {ps : List Production} {e : Name × Name}
    (he : e ∈ knownProxies ps) : ps.filter (·.lhs = e.2) = [⟨e.2, [.terminal e.1]⟩] := by
  obtain ⟨A, _, hA⟩ := List.mem_filterMap.mp he
  rw [Grouping.get_ofList] at hA
  split at hA
  · rename_i p hfilter
    obtain ⟨a, hsingle, rfl⟩ := Option.map_eq_some_iff.mp hA
    have hlhs : p ∈ ps.filter (·.lhs = A) := hfilter ▸ List.mem_singleton.mpr rfl
    have hp : p = ⟨A, [.terminal a]⟩ := Production.ext
      (of_decide_eq_true (List.mem_filter.mp hlhs).2)
      (Production.singleTerminal?_eq_some_iff.mp hsingle)
    rw [hfilter, hp]
  · exact absurd hA (by simp)

section

variable {supply : NameSupply} {N : OrderedSet Name} {ps : List Production}
  (hout : ∀ p ∈ (run supply N ps).output, p ∈ h.productions)

include hout

theorem within_of_output_subset : (run supply N ps).Within h := by
  refine ⟨hout, fun e he => hout _ ?_⟩
  -- A proxy known from the start has its production among those that went in.
  rcases (leads_foldl _ ps).grows.backed e he with hknown | hnew
  · have hfilter := filter_eq_of_mem_knownProxies hknown
    have hmem : ⟨e.2, [.terminal e.1]⟩ ∈ ps.filter (·.lhs = e.2) := by
      rw [hfilter]
      exact List.mem_singleton.mpr rfl
    exact (leads_foldl _ ps).mem_output (List.mem_filter.mp hmem).1 rfl
  · exact hnew

theorem derives_of_output_subset {p : Production} (hp : p ∈ ps) (hne : p.rhs ≠ []) :
    h.Derives [.nonTerminal p.lhs] p.rhs :=
  (leads_foldl _ ps).derives (within_of_output_subset hout) p hp hne

end

/-! ## How many rounds -/

theorem nonTerminals_run_of_isBinary {supply : NameSupply} {N : OrderedSet Name}
    {ps : List Production} (hps : ∀ p ∈ ps, p.isBinary = true) :
    (run supply N ps).nonTerminals = N := by
  rw [run, foldl_process_of_isBinary _ hps]

end Round

section

variable (supply : NameSupply) (N : OrderedSet Name) (s : OrderedSet Production)
  (notes : List Note) (rounds : Nat)

theorem settle_of_isBinary (hs : ∀ p ∈ s, p.isBinary = true) :
    (settle supply N s notes rounds).productions = s ∧
      (settle supply N s notes rounds).nonTerminals = N := by
  rw [settle, dif_pos (Round.run_equiv_self hs)]
  exact ⟨rfl, Round.nonTerminals_run_of_isBinary hs⟩

/-- All rounds together come to the same as the first one. -/
theorem equiv_productions_settle :
    (settle supply N s notes rounds).productions ≈ (Round.run supply N s.toList).output ∧
      (settle supply N s notes rounds).nonTerminals =
        (Round.run supply N s.toList).nonTerminals := by
  rw [settle]
  split
  · rename_i hsame
    exact ⟨Setoid.symm hsame, rfl⟩
  · obtain ⟨hproductions, hnonTerminals⟩ := settle_of_isBinary
      (Round.run supply N s.toList).supply (Round.run supply N s.toList).nonTerminals
      (Round.run supply N s.toList).output (notes ++ (Round.run supply N s.toList).notes)
      (rounds + 1) fun _ hp => Round.isBinary_of_mem_run hp
    rw [hproductions, hnonTerminals]
    exact ⟨Setoid.refl _, rfl⟩

end

end BinaryForm

end ContextFree
