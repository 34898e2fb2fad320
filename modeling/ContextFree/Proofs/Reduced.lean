import Mathlib.Data.List.Nodup
import ContextFree.Proofs.Normalization

/-!
# Reduced grammars

A grammar is reduced when its productions are normal and no symbol is useless. Normalization leads
to reduced grammars, and on a reduced grammar each of its passes does nothing, but for the removal
of unit productions: it puts the productions of each non-terminal next to each other, in the order
in which the non-terminals first occur on the left. Grammars that come out of normalization are in
this order already. Hence a second normalization changes nothing at all, and the grammars that a
first one leaves as they are, up to order, are the reduced ones (`normalForm_fixpoint`).
-/

namespace ContextFree

/-! ## Productions in groups -/

/-- The productions for each non-terminal follow one another. -/
def Grouped (ps : List Production) : Prop :=
  ∃ As : List Name, As.Nodup ∧ ps = As.flatMap fun A => ps.filter (·.lhs = A)

section

variable {As : List Name} {block : Name → List Production}

theorem grouped_of_sublist (hblock : ∀ A, ∀ p ∈ block A, p.lhs = A) (hAs : As.Nodup)
    {ps : List Production} (hsub : ps.Sublist (As.flatMap block)) : Grouped ps := by
  refine ⟨As, hAs, ?_⟩
  induction As generalizing ps with
  | nil => simpa using hsub
  | cons A As ih =>
      obtain ⟨hA, hAs⟩ := List.nodup_cons.mp hAs
      obtain ⟨qs, rs, rfl, hqs, hrs⟩ := List.sublist_append_iff.mp hsub
      have hlhs : ∀ p ∈ qs, p.lhs = A := fun p hp => hblock A p (hqs.subset hp)
      have hlhs' : ∀ p ∈ rs, p.lhs ∈ As := by
        intro p hp
        obtain ⟨B, hB, hpB⟩ := List.mem_flatMap.mp (hrs.subset hp)
        exact hblock B p hpB ▸ hB
      have hfirst : (qs ++ rs).filter (·.lhs = A) = qs := by
        have hnone : rs.filter (·.lhs = A) = [] := List.filter_eq_nil_iff.mpr fun p hp => by
          simpa using fun heq : p.lhs = A => hA (heq ▸ hlhs' p hp)
        rw [List.filter_append, hnone, List.append_nil]
        exact List.filter_eq_self.mpr fun p hp => decide_eq_true (hlhs p hp)
      have hrest : ∀ B ∈ As, (qs ++ rs).filter (·.lhs = B) = rs.filter (·.lhs = B) := by
        intro B hB
        have hnone : qs.filter (·.lhs = B) = [] := List.filter_eq_nil_iff.mpr fun p hp => by
          simpa using fun heq : p.lhs = B => hA (hlhs p hp ▸ heq ▸ hB)
        rw [List.filter_append, hnone, List.nil_append]
      rw [List.flatMap_cons, hfirst, List.flatMap_congr hrest, ← ih hAs hrs]

/-- The left-hand sides of blocks that follow one another are met in the order of the blocks. -/
theorem toList_insertAll_blocks (hblock : ∀ A, ∀ p ∈ block A, p.lhs = A) (hAs : As.Nodup)
    {s : OrderedSet Name} (hs : ∀ A ∈ As, A ∉ s) :
    (s.insertAll ((As.flatMap block).map Production.lhs)).toList =
      s.toList ++ As.filter fun A => block A ≠ [] := by
  induction As generalizing s with
  | nil => simp
  | cons A As ih =>
      obtain ⟨hA, hAs⟩ := List.nodup_cons.mp hAs
      obtain ⟨hAnew, hnew⟩ := List.forall_mem_cons.mp hs
      rw [List.flatMap_cons, List.map_append, OrderedSet.insertAll_append]
      cases hempty : block A with
      | nil => simpa [hempty] using ih hAs hnew
      | cons p ps =>
          have hp : p.lhs = A := hblock A p (hempty ▸ List.mem_cons_self)
          have hps : (s.insert A).insertAll (ps.map Production.lhs) = s.insert A := by
            refine OrderedSet.insertAll_of_subset fun B hB => ?_
            obtain ⟨q, hq, rfl⟩ := List.mem_map.mp hB
            have hqA : q.lhs = A := hblock A q (hempty ▸ List.mem_cons_of_mem p hq)
            exact OrderedSet.mem_insert.mpr (Or.inr hqA)
          have hnew' : ∀ B ∈ As, B ∉ s.insert A := by
            intro B hB hmem
            rcases OrderedSet.mem_insert.mp hmem with hold | rfl
            · exact hnew B hB hold
            · exact hA hB
          rw [List.map_cons, OrderedSet.insertAll_cons, hp, hps, ih hAs hnew',
            OrderedSet.toList_insert_of_not_mem hAnew]
          simp [hempty]

theorem flatMap_filter_ne_nil :
    (As.filter fun A => block A ≠ []).flatMap block = As.flatMap block := by
  induction As with
  | nil => rfl
  | cons A As ih =>
      cases hempty : block A with
      | nil => simpa [hempty] using ih
      | cons p ps => simpa [hempty] using ih

end

theorem lhs_of_mem_filter (ps : List Production) :
    ∀ A, ∀ p ∈ ps.filter (·.lhs = A), p.lhs = A :=
  fun _ _ hp => of_decide_eq_true (List.mem_filter.mp hp).2

theorem Grouped.sublist {ps qs : List Production} (h : Grouped ps) (hsub : qs.Sublist ps) :
    Grouped qs := by
  obtain ⟨As, hAs, hblocks⟩ := h
  rw [hblocks] at hsub
  exact grouped_of_sublist (lhs_of_mem_filter ps) hAs hsub

/-- Productions in groups stay as they are when they are put together by left-hand side. -/
theorem Grouped.flatMap_heads {ps : List Production} (h : Grouped ps) :
    ((OrderedSet.ofList (ps.map Production.lhs)).toList.flatMap fun A =>
      ps.filter (·.lhs = A)) = ps := by
  obtain ⟨As, hAs, hblocks⟩ := h
  have hheads := toList_insertAll_blocks (lhs_of_mem_filter ps) hAs fun A _ =>
    OrderedSet.not_mem_empty A
  rw [← hblocks, OrderedSet.toList_empty, List.nil_append] at hheads
  rw [OrderedSet.ofList, hheads, flatMap_filter_ne_nil, ← hblocks]

namespace Grammar

variable {g : Grammar}

/-! ## Passes that do nothing -/

theorem variants_of_not_optional {optional : Symbol → Bool} {w : Word}
    (hw : ∀ x ∈ w, optional x = false) : variants optional w = [w] := by
  induction w with
  | nil => rfl
  | cons x w ih =>
      obtain ⟨hx, hw⟩ := List.forall_mem_cons.mp hw
      simp [variants, ih hw, hx]

theorem epsilonFree_eq_self (hg : ∀ p ∈ g.productions, p.rhs ≠ []) : g.epsilonFree = g := by
  have hnullable : ∀ x, covers (fun _ => false) g.nullable x = false := by
    intro x
    refine Bool.eq_false_iff.mpr fun hx => ?_
    obtain ⟨A, _, hA⟩ := covers_nullable_iff.mp hx
    exact hA.ne_nil hg rfl
  have hvariants : ∀ p ∈ g.productions.toList, epsilonVariants g.nullable p = [p] := by
    intro p hp
    have hne : p.rhs ≠ [] := hg p hp
    simp [epsilonVariants, variants_of_not_optional fun x _ => hnullable x, hne]
  have hstay : (g.productions.toList.filter fun p => !p.isErasing) = g.productions.toList :=
    List.filter_eq_self.mpr fun p hp => by simpa [Production.isErasing] using hg p hp
  have hproductions : g.epsilonReplacements.flatMap Prod.snd = g.productions.toList := by
    rw [epsilonReplacements, hstay, List.flatMap_map, List.flatMap_congr hvariants,
      List.flatMap_singleton']
  rw [epsilonFree, hproductions, OrderedSet.ofList_toList]

theorem productions_unitFree (g : Grammar) : g.unitFree.productions =
    .ofList ((OrderedSet.ofList g.heads).toList.flatMap fun A =>
      (g.index.unitCopies A (g.index.unitClosure A)).map Prod.snd) := by
  rw [unitFree, unitClosures, OrderedMap.entries_tabulate, List.flatMap_map]

theorem UnitDerives.eq_of_no_unit (hg : ∀ p ∈ g.productions, ∀ B, p.rhs ≠ [.nonTerminal B])
    {A B : Name} (h : g.UnitDerives A B) : A = B := by
  rcases h.cases_head with heq | ⟨C, hstep, _⟩
  · exact heq
  · exact absurd rfl (hg _ hstep C)

/-- Without unit productions, nothing but the non-terminal itself is in its closure. -/
theorem toList_unitClosure_of_no_unit (hg : ∀ p ∈ g.productions, ∀ B, p.rhs ≠ [.nonTerminal B])
    (A : Name) : (g.index.unitClosure A).toList = [A] := by
  have hmem : ∀ B, B ∈ (g.index.unitClosure A).toList ↔ B ∈ [A] := by
    intro B
    rw [OrderedSet.mem_toList, Index.mem_unitClosure_iff, List.mem_singleton]
    exact ⟨fun hB => (hB.eq_of_no_unit hg).symm, fun heq => heq ▸ .refl⟩
  exact List.perm_singleton.mp ((List.perm_ext_iff_of_nodup (OrderedSet.nodup _)
    (List.nodup_singleton A)).mpr hmem)

theorem unitFree_equiv_self (hg : ∀ p ∈ g.productions, ∀ B, p.rhs ≠ [.nonTerminal B]) :
    g.unitFree ≈ g := by
  refine ⟨rfl, Setoid.refl _, Setoid.refl _, fun p => ?_⟩
  rw [mem_productions_unitFree]
  constructor
  · rintro ⟨_, B, hB, hp⟩
    rwa [← hB.eq_of_no_unit hg] at hp
  · exact fun hp => ⟨hg p hp, p.lhs, .refl, hp⟩

/-- Without unit productions, a non-terminal takes over its own productions and no other. -/
theorem map_snd_unitCopies_of_no_unit
    (hg : ∀ p ∈ g.productions, ∀ B, p.rhs ≠ [.nonTerminal B]) (A : Name) :
    (g.index.unitCopies A (g.index.unitClosure A)).map Prod.snd = g.productionsOf A := by
  have hproper : g.index.properProductionsOf A = g.productionsOf A := by
    rw [Index.properProductionsOf, Index.productionsOf_eq]
    refine List.filter_eq_self.mpr fun p hp => decide_eq_true ?_
    exact Option.eq_none_iff_forall_ne_some.mpr fun B hB =>
      hg p (mem_productionsOf.mp hp).1 B (Production.unitTarget?_eq_some_iff.mp hB)
  have hcopy : ∀ p ∈ g.productionsOf A, (⟨A, p.rhs⟩ : Production) = p := fun p hp =>
    Production.ext (mem_productionsOf.mp hp).2.symm rfl
  rw [Index.unitCopies, toList_unitClosure_of_no_unit hg, List.flatMap_singleton, hproper,
    List.map_map]
  exact (List.map_congr_left hcopy).trans (List.map_id' _)

theorem productions_unitFree_of_no_unit
    (hg : ∀ p ∈ g.productions, ∀ B, p.rhs ≠ [.nonTerminal B]) : g.unitFree.productions =
      .ofList ((OrderedSet.ofList g.heads).toList.flatMap g.productionsOf) := by
  simp only [productions_unitFree, map_snd_unitCopies_of_no_unit hg]

theorem unitFree_eq_self (hg : ∀ p ∈ g.productions, ∀ B, p.rhs ≠ [.nonTerminal B])
    (hgroups : Grouped g.productions.toList) : g.unitFree = g := by
  have hproductions : g.unitFree.productions = g.productions := by
    rw [productions_unitFree_of_no_unit hg]
    exact (congrArg OrderedSet.ofList hgroups.flatMap_heads).trans (OrderedSet.ofList_toList _)
  change { g with productions := g.unitFree.productions } = g
  rw [hproductions]

theorem terminalsIn_eq_self {ps : List Production}
    (hused : ∀ a ∈ g.terminals, ∃ p ∈ ps, .terminal a ∈ p.rhs) : g.terminalsIn ps = g.terminals :=
  OrderedSet.filter_eq_self fun a ha => by simpa using hused a ha

theorem Consistent.restrict_eq_self (hg : g.Consistent) {keep : Name → Bool}
    (hkeep : ∀ A ∈ g.nonTerminals, keep A = true)
    (hused : ∀ a ∈ g.terminals, ∃ p ∈ g.productions, .terminal a ∈ p.rhs) :
    g.restrict keep = g := by
  have hproductions : (g.productions.filter fun p =>
      keep p.lhs && (Word.nonTerminals p.rhs).all keep) = g.productions := by
    refine OrderedSet.filter_eq_self fun p hp => ?_
    rw [Bool.and_eq_true, List.all_eq_true]
    exact ⟨hkeep p.lhs (hg.lhs_mem hp), fun A hA =>
      hkeep A (hg.declares_of_mem_rhs hp (Word.mem_nonTerminals.mp hA))⟩
  have hnonTerminals : g.nonTerminals.filter keep = g.nonTerminals :=
    OrderedSet.filter_eq_self hkeep
  rw [Grammar.restrict, hproductions, hnonTerminals, terminalsIn_eq_self hused]

theorem Consistent.productivePart_eq_self (hg : g.Consistent)
    (hproductive : ∀ A ∈ g.nonTerminals, ∃ u, g.Generates A u)
    (hused : ∀ a ∈ g.terminals, ∃ p ∈ g.productions, .terminal a ∈ p.rhs) :
    g.productivePart = g :=
  hg.restrict_eq_self (fun A hA => decide_eq_true (mem_productive_iff.mpr (hproductive A hA)))
    hused

theorem binaryForm_eq_self (hg : ∀ p ∈ g.productions, p.isBinary = true)
    (hused : ∀ a ∈ g.terminals, ∃ p ∈ g.productions, p.rhs = [.terminal a]) :
    g.binaryForm = g := by
  obtain ⟨hproductions, hnonTerminals⟩ := BinaryForm.settle_of_isBinary (.forGrammar g)
    g.nonTerminals g.productions [] 0 hg
  have hsingle : ∀ a ∈ g.terminals,
      ∃ p ∈ g.productions.toList.filter fun p => p.singleTerminal?.isSome,
        .terminal a ∈ p.rhs := by
    intro a ha
    obtain ⟨p, hp, hrhs⟩ := hused a ha
    have hsome := Option.isSome_iff_exists.mpr ⟨a, Production.singleTerminal?_eq_some_iff.mpr hrhs⟩
    exact ⟨p, List.mem_filter.mpr ⟨hp, hsome⟩, hrhs ▸ List.mem_singleton.mpr rfl⟩
  rw [binaryForm, binaryOutcome, hproductions, hnonTerminals, terminalsIn_eq_self hsingle]

/-- Only from a declared start symbol is there a way to a declared non-terminal. -/
theorem Consistent.declaresStart_of_reaches (hg : g.Consistent) {A : Name}
    (hA : A ∈ g.nonTerminals) (hreaches : g.Reaches (.nonTerminal A)) : g.DeclaresStart := by
  by_contra hstart
  obtain ⟨pre, post, hd⟩ := hreaches
  have hall := hd.forall_mem (motive := (· = .nonTerminal g.start))
    (fun p hp hlhs => absurd (Symbol.nonTerminal.inj hlhs) (hg.lhs_ne_start hstart p hp))
    (List.forall_mem_singleton.mpr rfl)
  have hAstart := Symbol.nonTerminal.inj (hall _ (List.mem_append_right pre List.mem_cons_self))
  exact hstart (show g.start ∈ g.nonTerminals from hAstart ▸ hA)

theorem Consistent.accessiblePart_eq_self (hg : g.Consistent)
    (haccessible : ∀ A ∈ g.nonTerminals, g.Reaches (.nonTerminal A))
    (hused : ∀ a ∈ g.terminals, ∃ p ∈ g.productions, .terminal a ∈ p.rhs) :
    g.accessiblePart = g := by
  refine hg.restrict_eq_self (fun A hA => decide_eq_true ?_) hused
  have hreaches := haccessible A hA
  exact hg.mem_accessible_iff.mpr ⟨hg.declaresStart_of_reaches hA hreaches, hreaches⟩

/-! ## Order after the removal of unit productions -/

/-- Each closure is passed on to its own left-hand side, so that the copies come in groups. -/
theorem grouped_unitFree (g : Grammar) : Grouped g.unitFree.productions.toList := by
  rw [productions_unitFree]
  refine grouped_of_sublist (fun A p hp => ?_) (OrderedSet.nodup _)
    (OrderedSet.toList_ofList_sublist _)
  simp only [Index.unitCopies, List.mem_map, List.mem_flatMap] at hp
  obtain ⟨c, ⟨B, _, q, _, rfl⟩, rfl⟩ := hp
  rfl

/-- What comes after the last removal of unit productions takes productions out and no more. -/
theorem grouped_normalForm (g : Grammar) : Grouped g.normalForm.productions.toList := by
  obtain ⟨h, heq⟩ : ∃ h : Grammar, g.normalForm = h.unitFree.productivePart.accessiblePart :=
    ⟨_, rfl⟩
  refine h.grouped_unitFree.sublist ?_
  rw [heq]
  simp only [accessiblePart, productivePart, restrict, OrderedSet.toList_filter]
  exact List.filter_sublist.trans List.filter_sublist

/-! ## Reduced grammars -/

/-- The productions are of the two normal shapes, and every declared symbol is of use. -/
structure Reduced (g : Grammar) : Prop where
  normal : ∀ p ∈ g.productions,
    (∃ a, p.rhs = [.terminal a]) ∨ ∃ B C, p.rhs = [.nonTerminal B, .nonTerminal C]
  productive : ∀ A ∈ g.nonTerminals, ∃ u, g.Generates A u
  accessible : ∀ A ∈ g.nonTerminals, g.Reaches (.nonTerminal A)
  used : ∀ a ∈ g.terminals, ∃ p ∈ g.productions, .terminal a ∈ p.rhs

namespace Reduced

theorem isNormal (hr : g.Reduced) : ∀ p ∈ g.productions, p.isNormal = true := fun p hp =>
  Production.isNormal_iff.mpr (hr.normal p hp)

theorem rhs_ne_nil (hr : g.Reduced) : ∀ p ∈ g.productions, p.rhs ≠ [] := by
  intro p hp hnil
  rcases hr.normal p hp with ⟨a, ha⟩ | ⟨B, C, hBC⟩
  · simp [hnil] at ha
  · simp [hnil] at hBC

theorem rhs_ne_unit (hr : g.Reduced) : ∀ p ∈ g.productions, ∀ B, p.rhs ≠ [.nonTerminal B] := by
  intro p hp B hB
  rcases hr.normal p hp with ⟨a, ha⟩ | ⟨C, D, hCD⟩
  · simp [hB] at ha
  · simp [hB] at hCD

theorem of_equiv {h : Grammar} (hr : g.Reduced) (heq : g ≈ h) : h.Reduced := by
  obtain ⟨hstart, hN, hT, hP⟩ := equiv_iff.mp heq
  have hderives : ∀ {v w : Word}, g.Derives v w → h.Derives v w :=
    Derives.mono fun p hp => (hP p).mp hp
  constructor
  · exact fun p hp => hr.normal p ((hP p).mpr hp)
  · intro A hA
    obtain ⟨u, hu⟩ := hr.productive A ((hN A).mpr hA)
    exact ⟨u, hderives hu⟩
  · intro A hA
    obtain ⟨pre, post, hd⟩ := hr.accessible A ((hN A).mpr hA)
    exact ⟨pre, post, hstart ▸ hderives hd⟩
  · intro a ha
    obtain ⟨p, hp, hap⟩ := hr.used a ((hT a).mpr ha)
    exact ⟨p, (hP p).mp hp, hap⟩

theorem productivePart_eq_self (hr : g.Reduced) (hg : g.Consistent) : g.productivePart = g :=
  hg.productivePart_eq_self hr.productive hr.used

theorem accessiblePart_eq_self (hr : g.Reduced) (hg : g.Consistent) : g.accessiblePart = g :=
  hg.accessiblePart_eq_self hr.accessible hr.used

theorem binaryForm_eq_self (hr : g.Reduced) : g.binaryForm = g := by
  refine Grammar.binaryForm_eq_self (fun p hp => ?_) fun a ha => ?_
  · rw [Production.isBinary, hr.isNormal p hp, Bool.true_or]
  · obtain ⟨p, hp, hap⟩ := hr.used a ha
    refine ⟨p, hp, ?_⟩
    rcases hr.normal p hp with ⟨b, hb⟩ | ⟨B, C, hBC⟩
    · rw [hb, List.mem_singleton] at hap
      rw [hb, hap]
    · simp [hBC] at hap

theorem unitFree (hr : g.Reduced) : g.unitFree.Reduced :=
  hr.of_equiv (Setoid.symm (unitFree_equiv_self hr.rhs_ne_unit))

/-- On a reduced grammar, all that normalization does is to put its productions in groups. -/
theorem normalForm_eq (hr : g.Reduced) (hg : g.Consistent) : g.normalForm = g.unitFree := by
  have hepsilonFree := epsilonFree_eq_self hr.rhs_ne_nil
  have hu := hr.unitFree
  have hunitFree := unitFree_eq_self hu.rhs_ne_unit g.grouped_unitFree
  have hproductive := hu.productivePart_eq_self hg.unitFree
  have haccessible := hu.accessiblePart_eq_self hg.unitFree
  have hbinary := hu.binaryForm_eq_self
  rw [normalForm, Stage.sequence]
  simp only [List.foldl_cons, List.foldl_nil, Stage.apply, hepsilonFree, hproductive, haccessible,
    hbinary, hunitFree]

end Reduced

theorem Consistent.reduced_normalForm (hg : g.Consistent) : g.normalForm.Reduced := by
  obtain ⟨h, hh, heq⟩ := hg.exists_normalForm_eq
  refine ⟨fun p hp => Production.isNormal_iff.mp (isNormal_of_mem_normalForm hp), ?_, ?_, ?_⟩
  · rw [heq]
    exact fun A hA => exists_generates_of_mem_accessiblePart (hh.restrict _)
      (fun _ => exists_generates_of_mem_productivePart) hA
  · rw [heq]
    exact fun A hA => (hh.restrict _).reaches_accessiblePart hA
  · rw [heq]
    exact fun a ha => (mem_terminals_restrict.mp ha).2

theorem Consistent.normalForm_normalForm (hg : g.Consistent) :
    g.normalForm.normalForm = g.normalForm := by
  have hr := hg.reduced_normalForm
  rw [hr.normalForm_eq hg.normalForm, unitFree_eq_self hr.rhs_ne_unit g.grouped_normalForm]

theorem Consistent.normalForm_equiv_self_iff (hg : g.Consistent) :
    g.normalForm ≈ g ↔ g.Reduced := by
  constructor
  · exact fun heq => hg.reduced_normalForm.of_equiv heq
  · intro hr
    rw [hr.normalForm_eq hg]
    exact unitFree_equiv_self hr.rhs_ne_unit

/-- Normalizing twice is the same as normalizing once, down to the order of symbols and productions;
and the grammars that normalization leaves as they are, up to order, are the reduced ones. -/
theorem normalForm_fixpoint (hg : g.Valid) :
    g.normalForm.normalForm = g.normalForm ∧ (g.normalForm ≈ g ↔ g.Reduced) :=
  ⟨hg.2.normalForm_normalForm, hg.2.normalForm_equiv_self_iff⟩

/-- Reduced, but with a production of `A` between those of `S`. -/
def interleaved : Grammar where
  nonTerminals := .ofList [.ofChar 'S', .ofChar 'A']
  terminals := .ofList [.ofChar 'a']
  start := .ofChar 'S'
  productions := .ofList
    [⟨.ofChar 'S', [.nonTerminal (.ofChar 'A'), .nonTerminal (.ofChar 'A')]⟩,
      ⟨.ofChar 'A', [.terminal (.ofChar 'a')]⟩, ⟨.ofChar 'S', [.terminal (.ofChar 'a')]⟩]

theorem valid_interleaved : interleaved.Valid := validate_eq_ok_iff.mp rfl

theorem reduced_interleaved : interleaved.Reduced := by
  have hS : ∃ u, interleaved.Generates (.ofChar 'S') u :=
    ⟨[.ofChar 'a'], derives_of_mem (p := ⟨.ofChar 'S', [.terminal (.ofChar 'a')]⟩) (by decide)⟩
  have hA : ∃ u, interleaved.Generates (.ofChar 'A') u :=
    ⟨[.ofChar 'a'], derives_of_mem (p := ⟨.ofChar 'A', [.terminal (.ofChar 'a')]⟩) (by decide)⟩
  have hreaches : interleaved.Reaches (.nonTerminal (.ofChar 'A')) :=
    ⟨[], [.nonTerminal (.ofChar 'A')], derives_of_mem (p := ⟨.ofChar 'S', _⟩) (by decide)⟩
  have hN : ∀ {A}, A ∈ interleaved.nonTerminals → A = .ofChar 'S' ∨ A = .ofChar 'A' := by
    simp [interleaved]
  have hnormal : ∀ p ∈ interleaved.productions.toList, p.isNormal = true := by decide
  have hused : ∀ a ∈ interleaved.terminals.toList,
      ∃ p ∈ interleaved.productions.toList, .terminal a ∈ p.rhs := by decide
  refine ⟨fun p hp => Production.isNormal_iff.mp (hnormal p hp), ?_, ?_, hused⟩
  · intro A hmem
    rcases hN hmem with rfl | rfl
    · exact hS
    · exact hA
  · intro A hmem
    rcases hN hmem with rfl | rfl
    · exact reaches_start _
    · exact hreaches

theorem normalForm_fixpoint_interleaved_nested : interleaved.Valid ∧ nested.Valid ∧
    interleaved.normalForm ≈ interleaved ∧ interleaved.normalForm ≠ interleaved ∧
      nested.normalForm.normalForm = nested.normalForm ∧ ¬ nested.normalForm ≈ nested := by
  obtain ⟨_, hfixpoint⟩ := normalForm_fixpoint valid_interleaved
  obtain ⟨hnested, hnot⟩ := normalForm_fixpoint valid_nested
  refine ⟨valid_interleaved, valid_nested, hfixpoint.mpr reduced_interleaved, ?_, hnested, ?_⟩
  · rw [reduced_interleaved.normalForm_eq valid_interleaved.2]
    intro heq
    have hproductions := productions_unitFree_of_no_unit reduced_interleaved.rhs_ne_unit
    rw [heq] at hproductions
    exact absurd hproductions (by decide)
  · intro heq
    exact (hnot.mp heq).rhs_ne_nil ⟨.ofChar 'S', []⟩ (by decide) rfl

end Grammar

end ContextFree
