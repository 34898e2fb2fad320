import Mathlib
import ContextFree.Proofs.RoundOutput

/-!
# How much binary form adds

The first round does all the work, and a second one changes nothing. What a round adds to the
non-terminals can be counted: every link of a chain is new, and so is the proxy of every terminal
that is to have one and has none yet. The moves of a round each add one or none (`Adds`), which
takes as much from what is still asked for, and the counts of moves that follow one another add up.
The outcome is an exact number (`binaryForm_growth`).
-/

namespace ContextFree

namespace Production

/-- The terminals for which a production is to have proxies, if it is to be taken apart. -/
def exchanged (p : Production) : List Name :=
  if 2 ≤ p.rhs.length then Word.terminals p.rhs else []

theorem mem_exchanged {p : Production} {a : Name} :
    a ∈ p.exchanged ↔ 2 ≤ p.rhs.length ∧ .terminal a ∈ p.rhs := by
  unfold exchanged
  split <;> simp [*]

theorem exchanged_map_nonTerminal (A : Name) (Bs : List Name) :
    exchanged ⟨A, Bs.map .nonTerminal⟩ = [] := by
  refine List.eq_nil_iff_forall_not_mem.mpr fun a ha => ?_
  simpa using (mem_exchanged.mp ha).2

theorem exchanged_of_isBinary {p : Production} (hp : p.isBinary = true) :
    p.exchanged = [] ∧ p.rhs.length ≤ 2 := by
  rcases isBinary_iff.mp hp with ⟨a, ha⟩ | ⟨B, C, hBC⟩ | ⟨B, hB⟩
  · simp [exchanged, ha]
  · simp [exchanged, hBC, Word.terminals, Symbol.terminal?]
  · simp [exchanged, hB]

end Production

namespace BinaryForm

namespace Round

/-- The terminals that have a proxy. -/
def served (r : Round) : Finset Name := (r.proxies.map Prod.fst).toFinset

theorem mem_served {r : Round} {a : Name} : a ∈ r.served ↔ ∃ A, (a, A) ∈ r.proxies := by
  simp [served]

/-- The supply will not hand out a non-terminal of the round. -/
def Supplied (r : Round) : Prop := ∀ A ∈ r.nonTerminals, A ∈ r.supply.taken

/-- From one round to the other the given terminals come to have proxies, and there are so many
links. -/
structure Adds (asked : List Name) (links : Nat) (r s : Round) : Prop where
  supplied : s.Supplied
  taken : ∀ A ∈ r.supply.taken, A ∈ s.supply.taken
  kept : r.nonTerminals.toList <+: s.nonTerminals.toList
  fresh : ∀ A ∈ s.nonTerminals, A ∈ r.nonTerminals ∨ A ∉ r.supply.taken
  served : s.served = r.served ∪ asked.toFinset
  size : s.nonTerminals.size + r.served.card = r.nonTerminals.size + s.served.card + links

variable {r s t : Round} {asked asked' : List Name} {links links' : Nat}

theorem Adds.refl (h : r.Supplied) : Adds [] 0 r r :=
  ⟨h, fun _ hA => hA, List.prefix_rfl, fun _ hA => Or.inl hA, by simp, rfl⟩

theorem Adds.trans (h : Adds asked links r s) (k : Adds asked' links' s t) :
    Adds (asked ++ asked') (links + links') r t where
  supplied := k.supplied
  taken A hA := k.taken A (h.taken A hA)
  kept := h.kept.trans k.kept
  fresh A hA := by
    rcases k.fresh A hA with hs | hnew
    · exact h.fresh A hs
    · exact Or.inr fun htaken => hnew (h.taken A htaken)
  served := by rw [k.served, h.served, List.toFinset_append, Finset.union_assoc]
  size := by
    have hsize := h.size
    have ksize := k.size
    omega

theorem Adds.withNotes (h : Adds asked links r s) (notes : List Note) :
    Adds asked links r { s with notes := notes } :=
  ⟨h.supplied, h.taken, h.kept, h.fresh, h.served, h.size⟩

/-! ## Moves -/

theorem adds_emit (h : r.Supplied) (p : Production) : Adds [] 0 r (r.emit p) :=
  ⟨h, fun _ hA => hA, List.prefix_rfl, fun _ hA => Or.inl hA, by simp [emit, Round.served], rfl⟩

/-- Both kinds of new non-terminals are handed out by the supply. -/
theorem Supplied.insert (h : r.Supplied) {X : Name} (hX : X ∉ r.supply.taken) :
    r.nonTerminals.toList <+: (r.nonTerminals.insert X).toList ∧
      (r.nonTerminals.insert X).size = r.nonTerminals.size + 1 ∧
      (∀ A ∈ r.nonTerminals.insert X, A ∈ r.nonTerminals ∨ A ∉ r.supply.taken) ∧
      ∀ A ∈ r.nonTerminals.insert X, A ∈ r.supply.taken.insert X := by
  refine ⟨OrderedSet.toList_prefix_insert _ X, ?_, ?_, ?_⟩
  · exact OrderedSet.size_insert_of_not_mem fun hmem => hX (h X hmem)
  · exact OrderedSet.forall_mem_insert.mpr ⟨fun _ hA => Or.inl hA, Or.inr hX⟩
  · exact OrderedSet.forall_mem_insert.mpr
      ⟨fun A hA => OrderedSet.mem_insert_of_mem (h A hA), OrderedSet.mem_insert_self _ _⟩

theorem adds_introduce (h : r.Supplied) {a : Name} (ha : a ∉ r.served) :
    Adds [a] 0 r (r.introduce a) := by
  obtain ⟨hkept, hsize, hfresh, hsupplied⟩ := h.insert (r.supply.proxy_not_mem a)
  have hserved : (r.introduce a).served = insert a r.served := by
    simp [introduce, Round.served]
  refine ⟨hsupplied, fun A hA => OrderedSet.mem_insert_of_mem hA, hkept, hfresh, ?_, ?_⟩
  · rw [hserved, List.toFinset_cons, List.toFinset_nil, Finset.union_insert, Finset.union_empty]
  · rw [hserved, Finset.card_insert_of_notMem ha]
    simp only [introduce]
    omega

theorem adds_link (h : r.Supplied) (A B : Name) : Adds [] 1 r (r.link A B) := by
  obtain ⟨hkept, hsize, hfresh, hsupplied⟩ := h.insert r.supply.intermediate_not_mem
  have hserved : (r.link A B).served = r.served := rfl
  refine ⟨hsupplied, fun C hC => OrderedSet.mem_insert_of_mem hC, hkept, hfresh, ?_, ?_⟩
  · simp [hserved]
  · rw [hserved]
    simp only [link]
    omega

/-! ## What a round adds -/

theorem Adds.congr (h : Adds asked links r s) (hasked : r.served ∪ asked.toFinset =
    r.served ∪ asked'.toFinset) : Adds asked' links r s :=
  ⟨h.supplied, h.taken, h.kept, h.fresh, h.served.trans hasked, h.size⟩

/-- Once a terminal has its proxy, all that is left of the production is still asked for. -/
theorem Adds.exchange {A a B : Name} {v w : Word} {ps : List Production} (h : Adds [a] 0 r s)
    (hlength : 2 ≤ (v ++ .terminal a :: w).length)
    (k : Adds ((⟨A, v ++ .nonTerminal B :: w⟩ :: ps).flatMap Production.exchanged)
      ((⟨A, v ++ .nonTerminal B :: w⟩ :: ps).map fun p => p.rhs.length - 2).sum s t) :
    Adds ((⟨A, v ++ .terminal a :: w⟩ :: ps).flatMap Production.exchanged)
      ((⟨A, v ++ .terminal a :: w⟩ :: ps).map fun p => p.rhs.length - 2).sum r t := by
  have hlinks : 0 + ((⟨A, v ++ .nonTerminal B :: w⟩ :: ps).map fun p => p.rhs.length - 2).sum =
      ((⟨A, v ++ .terminal a :: w⟩ :: ps).map fun p => p.rhs.length - 2).sum := by simp
  have hasked : ([a] ++ (⟨A, v ++ .nonTerminal B :: w⟩ :: ps).flatMap
      Production.exchanged).toFinset =
        ((⟨A, v ++ .terminal a :: w⟩ :: ps).flatMap Production.exchanged).toFinset := by
    have htwo : 2 ≤ v.length + (w.length + 1) := by simpa using hlength
    ext b
    simp [Production.mem_exchanged, htwo, or_assoc, or_left_comm]
  rw [← hlinks]
  exact (h.trans k).congr (congrArg (r.served ∪ ·) hasked)

/-- A link for every non-terminal but the last two, and a proxy for every terminal. -/
theorem Leads.adds {ps : List Production} (hrun : r.Leads ps s) (h : r.Supplied) :
    Adds (ps.flatMap Production.exchanged) (ps.map fun p => p.rhs.length - 2).sum r s := by
  induction hrun with
  | done r => exact .refl h
  | @keep r _ p _ hbinary _ ih =>
      obtain ⟨hexchanged, hlength⟩ := Production.exchanged_of_isBinary hbinary
      have hemit := adds_emit h p
      rw [List.flatMap_cons, List.map_cons, List.sum_cons, hexchanged,
        Nat.sub_eq_zero_of_le hlength]
      exact hemit.trans (ih hemit.supplied)
  | @drop r _ A _ _ ih =>
      have hdrop := (Adds.refl h).withNotes (r.notes ++ [.drops ⟨A, []⟩])
      exact hdrop.trans (ih hdrop.supplied)
  | @exchange r _ _ a B _ _ _ hlength hB _ ih =>
      have hserved : r.served ∪ ([] : List Name).toFinset = r.served ∪ [a].toFinset := by
        simp [mem_served.mpr ⟨B, hB⟩]
      exact ((Adds.refl h).congr hserved).exchange hlength (ih h)
  | introduce hlength hnew _ ih =>
      have hintroduce := adds_introduce h fun ha => (mem_served.mp ha).elim hnew
      exact hintroduce.exchange hlength (ih hintroduce.supplied)
  | @link r _ A B C D Bs _ _ ih =>
      have hlink := adds_link h A B
      have hlength : (B :: C :: D :: Bs).length - 2 = 1 + ((C :: D :: Bs).length - 2) := by
        simp only [List.length_cons]
        omega
      have hrest := ih hlink.supplied
      rw [List.flatMap_cons, Production.exchanged_map_nonTerminal, List.map_cons, List.sum_cons,
        List.length_map] at hrest ⊢
      rw [hlength, Nat.add_assoc]
      exact hlink.trans hrest
  | @note r _ _ p q _ ih =>
      have hnote := (Adds.refl h).withNotes (r.notes ++ [.yields p q])
      have hrest := hnote.trans (ih hnote.supplied)
      rwa [List.nil_append, Nat.zero_add] at hrest

theorem mem_knownProxies_iff {ps : List Production} {a A : Name} :
    (a, A) ∈ knownProxies ps ↔ ps.filter (·.lhs = A) = [⟨A, [.terminal a]⟩] := by
  refine ⟨filter_eq_of_mem_knownProxies, fun honly => ?_⟩
  have hmem : ⟨A, [.terminal a]⟩ ∈ ps.filter (·.lhs = A) := honly ▸ List.mem_singleton.mpr rfl
  refine List.mem_filterMap.mpr ⟨A, ?_, ?_⟩
  · rw [OrderedSet.mem_toList, OrderedSet.mem_ofList]
    exact List.mem_map.mpr ⟨_, (List.mem_filter.mp hmem).1, rfl⟩
  · rw [Grouping.get_ofList, honly]
    rfl

/-! ## Rounds -/

/-- The next round, over what this one puts out. -/
def next (r : Round) : Round := run r.supply r.nonTerminals r.output.toList

theorem next_of_allBinary (h : r.AllBinary) : r.next.output = r.output ∧
    r.next.nonTerminals = r.nonTerminals ∧ r.next.supply = r.supply := by
  rw [next, run, foldl_process_of_isBinary _ h]
  exact ⟨OrderedSet.ofList_toList r.output, rfl, rfl⟩

end Round

theorem rounds_settle_le (supply : NameSupply) (N : OrderedSet Name) (s : OrderedSet Production)
    (notes : List Note) (rounds : Nat) : (settle supply N s notes rounds).rounds ≤ rounds + 2 := by
  rw [settle]
  split
  · exact Nat.le_succ _
  · rw [settle, dif_pos (Round.run_equiv_self fun _ hp => Round.isBinary_of_mem_run hp)]

end BinaryForm

namespace Grammar

variable {g : Grammar}

/-- What the first round begins with. -/
def roundStart (g : Grammar) : BinaryForm.Round :=
  ⟨.forGrammar g, g.nonTerminals, BinaryForm.Round.knownProxies g.productions.toList, ∅, []⟩

def firstRound (g : Grammar) : BinaryForm.Round :=
  .run (.forGrammar g) g.nonTerminals g.productions.toList

theorem mem_served_roundStart {a : Name} :
    a ∈ g.roundStart.served ↔ ∃ A, g.productionsOf A = [⟨A, [.terminal a]⟩] :=
  BinaryForm.Round.mem_served.trans
    (exists_congr fun _ => BinaryForm.Round.mem_knownProxies_iff)

theorem adds_firstRound (g : Grammar) :
    BinaryForm.Round.Adds (g.productions.toList.flatMap Production.exchanged)
      (g.productions.toList.map fun p => p.rhs.length - 2).sum g.roundStart g.firstRound :=
  (BinaryForm.Round.leads_foldl _ _).adds fun _ hA =>
    NameSupply.mem_taken_forGrammar.mpr (nonTerminal_mem_names hA)

theorem exists_size_nonTerminals_binaryForm (g : Grammar) : ∃ unserved : Finset Name,
    (∀ a, a ∈ unserved ↔
      (∃ p ∈ g.productions, 2 ≤ p.rhs.length ∧ .terminal a ∈ p.rhs) ∧
        ¬ ∃ A, g.productionsOf A = [⟨A, [.terminal a]⟩]) ∧
      g.binaryForm.nonTerminals.size = g.nonTerminals.size + unserved.card +
        (g.productions.toList.map fun p => p.rhs.length - 2).sum := by
  let asked := (g.productions.toList.flatMap Production.exchanged).toFinset
  refine ⟨asked \ g.roundStart.served, fun a => ?_, ?_⟩
  · simp only [asked, Finset.mem_sdiff, List.mem_toFinset, List.mem_flatMap,
      Production.mem_exchanged, mem_served_roundStart, OrderedSet.mem_toList]
  · have hadds := g.adds_firstRound
    have hsize := hadds.size
    have hcard : (asked \ g.roundStart.served).card + g.roundStart.served.card =
        g.firstRound.served.card := by
      rw [hadds.served, Finset.union_comm]
      exact Finset.card_sdiff_add_card asked g.roundStart.served
    have hstart : g.roundStart.nonTerminals.size = g.nonTerminals.size := rfl
    have hend : g.binaryForm.nonTerminals = g.firstRound.nonTerminals := nonTerminals_binaryForm
    rw [hend]
    omega

/-- Binary form takes no more than two rounds, of which the second changes nothing. To the
non-terminals, which stay in front, it adds one for each terminal that needs a proxy and has none,
and for each production with more than two symbols on the right two less than these are. The names
of those that it adds are all new. -/
theorem binaryForm_growth (g : Grammar) :
    g.binaryOutcome.rounds ≤ 2 ∧
      (g.firstRound.next.output = g.firstRound.output ∧
        g.firstRound.next.nonTerminals = g.firstRound.nonTerminals ∧
        g.firstRound.next.supply = g.firstRound.supply) ∧
      (g.binaryForm.productions ≈ g.firstRound.output ∧
        g.binaryForm.nonTerminals = g.firstRound.nonTerminals) ∧
      g.nonTerminals.toList <+: g.binaryForm.nonTerminals.toList ∧
      (∃ unserved : Finset Name,
        (∀ a, a ∈ unserved ↔
          (∃ p ∈ g.productions, 2 ≤ p.rhs.length ∧ .terminal a ∈ p.rhs) ∧
            ¬ ∃ A, g.productionsOf A = [⟨A, [.terminal a]⟩]) ∧
        g.binaryForm.nonTerminals.size = g.nonTerminals.size + unserved.card +
          (g.productions.toList.map fun p => p.rhs.length - 2).sum) ∧
      ∀ A ∈ g.binaryForm.nonTerminals, A ∉ g.nonTerminals → A ∉ g.names := by
  have hsecond := BinaryForm.Round.next_of_allBinary (r := g.firstRound)
    fun _ hp => BinaryForm.Round.isBinary_of_mem_run hp
  have hsettle := BinaryForm.equiv_productions_settle (.forGrammar g) g.nonTerminals
    g.productions [] 0
  have hadds := g.adds_firstRound
  have hend : g.binaryForm.nonTerminals = g.firstRound.nonTerminals := nonTerminals_binaryForm
  refine ⟨BinaryForm.rounds_settle_le _ _ _ _ 0, hsecond, hsettle, hend ▸ hadds.kept,
    g.exists_size_nonTerminals_binaryForm, fun A hA hnew hmem => ?_⟩
  rcases hadds.fresh A (hend ▸ hA) with hold | hfree
  · exact hnew hold
  · exact hfree (NameSupply.mem_taken_forGrammar.mpr hmem)

/-- Proxies for `a` and `b`, while `C` serves for `c`, and two links. -/
example : nested.binaryForm.nonTerminals.size = nested.nonTerminals.size + 2 + 2 := by cbv

end Grammar

end ContextFree
