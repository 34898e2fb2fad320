import ContextFree.NameSupply
import ContextFree.Note

/-!
# Binary form

Every right-hand side becomes a terminal, a non-terminal or a pair of non-terminals. A terminal in
a right-hand side of two or more symbols is replaced by a proxy, a non-terminal whose only
production derives that terminal; after that, a right-hand side of more than two non-terminals is
taken apart into a chain of pairs through intermediate non-terminals. ε-productions are dropped.

A round takes its productions apart move by move (`Round.Leads`), and what holds of a round is
proved by induction over these moves. Rounds are repeated until one of them changes nothing. Each
round leaves only productions of the wanted shapes (`isBinary_of_mem_run`), and a round changes
nothing where all productions have them already (`run_equiv_self`), so the process ends.
-/

namespace ContextFree

/-- Whether the right-hand side is a terminal, a non-terminal or a pair of non-terminals. -/
def Production.isBinary (p : Production) : Bool := p.isNormal || p.unitTarget?.isSome

theorem Production.isBinary_iff {p : Production} : p.isBinary = true ↔
    (∃ a, p.rhs = [.terminal a]) ∨ (∃ B C, p.rhs = [.nonTerminal B, .nonTerminal C]) ∨
      ∃ B, p.rhs = [.nonTerminal B] := by
  rw [isBinary, Bool.or_eq_true, isNormal_iff, Option.isSome_iff_exists, or_assoc]
  simp only [unitTarget?_eq_some_iff]

theorem Production.two_le_length_rhs {p : Production} (hbinary : p.isBinary = false)
    (hne : p.rhs ≠ []) : 2 ≤ p.rhs.length := by
  obtain ⟨A, w⟩ := p
  match w, hbinary, hne with
  | [], _, hne => exact absurd rfl hne
  | [.terminal _], hbinary, _ => exact absurd hbinary nofun
  | [.nonTerminal _], hbinary, _ => exact absurd hbinary nofun
  | _ :: _ :: _, _, _ => simp

namespace BinaryForm

/-- A round, under way. -/
structure Round where
  supply : NameSupply
  nonTerminals : OrderedSet Name
  /-- The terminals that have a proxy, each with it. -/
  proxies : List (Name × Name)
  output : OrderedSet Production
  notes : List Note

namespace Round

/-- The proxy of a terminal, a new one where there is none yet. -/
def proxyOf (r : Round) (a : Name) : Name × Round :=
  match r.proxies.lookup a with
  | some A => (A, r)
  | none =>
    let (A, supply) := r.supply.proxy a
    (A, { supply := supply
          nonTerminals := r.nonTerminals.insert A
          proxies := (a, A) :: r.proxies
          output := r.output.insert ⟨A, [.terminal a]⟩
          notes := r.notes ++ [.introduces A a] })

/-- A word with proxies in the place of its terminals. -/
def replaceTerminals (r : Round) : Word → List Name × Round
  | [] => ([], r)
  | .nonTerminal A :: w =>
    let (As, r) := r.replaceTerminals w
    (A :: As, r)
  | .terminal a :: w =>
    let (A, r) := r.proxyOf a
    let (As, r) := r.replaceTerminals w
    (A :: As, r)

/-- Adds productions by which `A` derives the given non-terminals in a row, and says which of them
is the last. -/
def chain (r : Round) (A : Name) : List Name → Production × Round
  | B :: C :: D :: rest =>
    let (X, supply) := r.supply.intermediate
    let r := { r with
      supply := supply
      nonTerminals := r.nonTerminals.insert X
      output := r.output.insert ⟨A, [.nonTerminal B, .nonTerminal X]⟩ }
    r.chain X (C :: D :: rest)
  | Bs =>
    let q : Production := ⟨A, Bs.map .nonTerminal⟩
    (q, { r with output := r.output.insert q })

def process (r : Round) (p : Production) : Round :=
  if p.isBinary then { r with output := r.output.insert p }
  else if p.isErasing then { r with notes := r.notes ++ [.drops p] }
  else
    let (As, r) := r.replaceTerminals p.rhs
    let (q, r) := r.chain p.lhs As
    { r with notes := r.notes ++ [.yields p q] }

/-- The terminals that a non-terminal stands for already: its only production derives it. -/
def knownProxies (ps : List Production) : List (Name × Name) :=
  let byHead := Grouping.ofList Production.lhs ps
  (OrderedSet.ofList (ps.map Production.lhs)).toList.filterMap fun A =>
    match byHead.get A with
    | [p] => p.singleTerminal?.map fun a => (a, A)
    | _ => none

def run (supply : NameSupply) (nonTerminals : OrderedSet Name) (ps : List Production) : Round :=
  ps.foldl process ⟨supply, nonTerminals, knownProxies ps, ∅, []⟩

/-! ## Moves -/

def emit (r : Round) (p : Production) : Round := { r with output := r.output.insert p }

def introduce (r : Round) (a : Name) : Round :=
  let A := (r.supply.proxy a).1
  { supply := (r.supply.proxy a).2
    nonTerminals := r.nonTerminals.insert A
    proxies := (a, A) :: r.proxies
    output := r.output.insert ⟨A, [.terminal a]⟩
    notes := r.notes ++ [.introduces A a] }

/-- Brings in a non-terminal that is to derive what comes after `B`. -/
def link (r : Round) (A B : Name) : Round :=
  let X := r.supply.intermediate.1
  { r with
    supply := r.supply.intermediate.2
    nonTerminals := r.nonTerminals.insert X
    output := r.output.insert ⟨A, [.nonTerminal B, .nonTerminal X]⟩ }

/-- A round goes from `r` to its end `s`, move by move, with the given productions still to be dealt
with. One that is being taken apart stands first, as far as it has been changed by then. -/
inductive Leads : Round → List Production → Round → Prop where
  | done (r : Round) : Leads r [] r
  | keep {r s : Round} {p : Production} {ps : List Production} (hp : p.isBinary = true)
    (h : Leads (r.emit p) ps s) : Leads r (p :: ps) s
  | drop {r s : Round} {A : Name} {ps : List Production}
    (h : Leads { r with notes := r.notes ++ [.drops ⟨A, []⟩] } ps s) : Leads r (⟨A, []⟩ :: ps) s
  /-- A terminal has a proxy. -/
  | exchange {r s : Round} {A a B : Name} {v w : Word} {ps : List Production}
    (hlength : 2 ≤ (v ++ .terminal a :: w).length) (hB : (a, B) ∈ r.proxies)
    (h : Leads r (⟨A, v ++ .nonTerminal B :: w⟩ :: ps) s) :
    Leads r (⟨A, v ++ .terminal a :: w⟩ :: ps) s
  /-- A terminal is given a proxy. -/
  | introduce {r s : Round} {A a : Name} {v w : Word} {ps : List Production}
    (hlength : 2 ≤ (v ++ .terminal a :: w).length) (hnew : ∀ B, (a, B) ∉ r.proxies)
    (h : Leads (r.introduce a) (⟨A, v ++ .nonTerminal (r.supply.proxy a).1 :: w⟩ :: ps) s) :
    Leads r (⟨A, v ++ .terminal a :: w⟩ :: ps) s
  | link {r s : Round} {A B C D : Name} {Bs : List Name} {ps : List Production}
    (h : Leads (r.link A B)
      (⟨r.supply.intermediate.1, (C :: D :: Bs).map .nonTerminal⟩ :: ps) s) :
    Leads r (⟨A, (B :: C :: D :: Bs).map .nonTerminal⟩ :: ps) s
  | note {r s : Round} {ps : List Production} (p q : Production)
    (h : Leads { r with notes := r.notes ++ [.yields p q] } ps s) : Leads r ps s

theorem proxyOf_cases (r : Round) (a : Name) :
    (∃ A, (a, A) ∈ r.proxies ∧ r.proxyOf a = (A, r)) ∨
      (∀ A, (a, A) ∉ r.proxies) ∧ r.proxyOf a = ((r.supply.proxy a).1, r.introduce a) := by
  unfold proxyOf
  split
  · rename_i A hlookup
    obtain ⟨_, _, hsplit, _⟩ := List.lookup_eq_some_iff.mp hlookup
    exact Or.inl ⟨A, hsplit ▸ List.mem_append_right _ List.mem_cons_self, rfl⟩
  · rename_i hnone
    refine Or.inr ⟨fun A hA => ?_, rfl⟩
    exact absurd (List.lookup_eq_none_iff.mp hnone _ hA) (by simp)

theorem leads_of_replaceTerminals {r s : Round} {A : Name} {v w : Word} {ps : List Production}
    (hlength : 2 ≤ (v ++ w).length)
    (h : Leads (r.replaceTerminals w).2
      (⟨A, v ++ (r.replaceTerminals w).1.map Symbol.nonTerminal⟩ :: ps) s) :
    Leads r (⟨A, v ++ w⟩ :: ps) s := by
  induction w generalizing r v with
  | nil => exact h
  | cons x w ih =>
      -- What has been gone through is put behind `v`.
      have hbehind : ∀ B, 2 ≤ (v ++ [Symbol.nonTerminal B] ++ w).length := by
        simpa using fun _ => hlength
      cases x with
      | nonTerminal B =>
          have hrest := ih (v := v ++ [.nonTerminal B]) (hbehind B)
            (by simpa [replaceTerminals] using h)
          simpa using hrest
      | terminal a =>
          rcases r.proxyOf_cases a with ⟨B, hB, heq⟩ | ⟨hnew, heq⟩
          · have hrest := ih (v := v ++ [.nonTerminal B]) (hbehind B)
              (by simpa [replaceTerminals, heq] using h)
            exact .exchange hlength hB (by simpa using hrest)
          · have hrest := ih (v := v ++ [.nonTerminal (r.supply.proxy a).1]) (hbehind _)
              (by simpa [replaceTerminals, heq] using h)
            exact .introduce hlength hnew (by simpa using hrest)

theorem leads_of_chain {r s : Round} {A : Name} {Bs : List Name} {ps : List Production}
    (hBs : Bs ≠ []) (h : Leads (r.chain A Bs).2 ps s) :
    Leads r (⟨A, Bs.map .nonTerminal⟩ :: ps) s := by
  induction Bs generalizing r A with
  | nil => exact absurd rfl hBs
  | cons B Bs ih =>
      cases Bs with
      | nil => exact .keep rfl h
      | cons C Bs =>
          cases Bs with
          | nil => exact .keep rfl h
          | cons D Bs => exact .link (ih (List.cons_ne_nil C _) h)

theorem length_replaceTerminals (r : Round) (w : Word) :
    (r.replaceTerminals w).1.length = w.length := by
  induction w generalizing r with
  | nil => rfl
  | cons x w ih =>
      cases x with
      | terminal a => exact congrArg Nat.succ (ih (r.proxyOf a).2)
      | nonTerminal A => exact congrArg Nat.succ (ih r)

theorem leads_of_process {r s : Round} {p : Production} {ps : List Production}
    (h : Leads (r.process p) ps s) : Leads r (p :: ps) s := by
  unfold process at h
  split at h
  · exact .keep ‹_› h
  · rename_i hbinary
    split at h
    · rename_i herasing
      have hp : p = ⟨p.lhs, []⟩ := Production.ext rfl (Production.isErasing_iff.mp herasing)
      rw [hp] at h ⊢
      exact .drop h
    · rename_i herasing
      have hlength : 2 ≤ p.rhs.length := Production.two_le_length_rhs
        (Bool.eq_false_iff.mpr hbinary) fun hnil => herasing (Production.isErasing_iff.mpr hnil)
      have hne : (r.replaceTerminals p.rhs).1 ≠ [] := by
        rw [← List.length_pos_iff, length_replaceTerminals]
        exact Nat.lt_of_lt_of_le Nat.zero_lt_two hlength
      exact leads_of_replaceTerminals (v := []) hlength (leads_of_chain hne (.note _ _ h))

theorem leads_foldl (r : Round) (ps : List Production) : r.Leads ps (ps.foldl process r) := by
  induction ps generalizing r with
  | nil => exact .done r
  | cons p ps ih => exact leads_of_process (ih (r.process p))

/-! ## What a round puts out -/

def AllBinary (r : Round) : Prop := ∀ p ∈ r.output, p.isBinary = true

theorem Leads.allBinary {r s : Round} {ps : List Production} (h : r.Leads ps s)
    (hr : r.AllBinary) : s.AllBinary := by
  induction h with
  | done r => exact hr
  | keep hp _ ih => exact ih (OrderedSet.forall_mem_insert.mpr ⟨hr, hp⟩)
  | drop _ ih => exact ih hr
  | exchange _ _ _ ih => exact ih hr
  | introduce _ _ _ ih => exact ih (OrderedSet.forall_mem_insert.mpr ⟨hr, rfl⟩)
  | link _ ih => exact ih (OrderedSet.forall_mem_insert.mpr ⟨hr, rfl⟩)
  | note _ _ _ ih => exact ih hr

theorem isBinary_of_mem_run {supply : NameSupply} {N : OrderedSet Name} {ps : List Production}
    {p : Production} (hp : p ∈ (run supply N ps).output) : p.isBinary = true :=
  (leads_foldl _ ps).allBinary (fun q hq => absurd hq (OrderedSet.not_mem_empty q)) p hp

theorem foldl_process_of_isBinary (r : Round) {ps : List Production}
    (h : ∀ p ∈ ps, p.isBinary = true) :
    ps.foldl process r = { r with output := r.output.insertAll ps } := by
  induction ps generalizing r with
  | nil => rfl
  | cons p ps ih =>
      have hp : r.process p = { r with output := r.output.insert p } := by
        simp [process, h p List.mem_cons_self]
      rw [List.foldl_cons, hp, ih _ fun q hq => h q (List.mem_cons_of_mem p hq)]
      rfl

/-- Where all productions have the wanted shapes already, a round changes nothing. -/
theorem run_equiv_self {supply : NameSupply} {N : OrderedSet Name} {s : OrderedSet Production}
    (h : ∀ p ∈ s, p.isBinary = true) : (run supply N s.toList).output ≈ s := by
  unfold run
  rw [foldl_process_of_isBinary _ h]
  intro p
  simp [OrderedSet.not_mem_empty]

end Round

structure Outcome where
  nonTerminals : OrderedSet Name
  productions : OrderedSet Production
  notes : List Note
  /-- How many rounds there were, the one that changed nothing included. -/
  rounds : Nat

def pending (s : OrderedSet Production) : List Production :=
  s.toList.filter fun p => !p.isBinary

/-- Goes through rounds until one of them changes nothing. -/
def settle (supply : NameSupply) (nonTerminals : OrderedSet Name) (s : OrderedSet Production)
    (notes : List Note) (rounds : Nat) : Outcome :=
  let r := Round.run supply nonTerminals s.toList
  if _h : r.output ≈ s then ⟨r.nonTerminals, s, notes ++ r.notes, rounds + 1⟩
  else settle r.supply r.nonTerminals r.output (notes ++ r.notes) (rounds + 1)
termination_by (pending s).length
decreasing_by
  have hchanged : ¬ (Round.run supply nonTerminals s.toList).output ≈ s := by assumption
  have hafter : pending (Round.run supply nonTerminals s.toList).output = [] := by
    rw [pending, List.filter_eq_nil_iff]
    intro p hp
    simp [Round.isBinary_of_mem_run hp]
  have hbefore : pending s ≠ [] := by
    intro hnil
    rw [pending, List.filter_eq_nil_iff] at hnil
    exact hchanged (Round.run_equiv_self fun p hp => by simpa using hnil p hp)
  change (pending (Round.run supply nonTerminals s.toList).output).length < _
  rw [hafter]
  exact List.length_pos_iff.mpr hbefore

end BinaryForm

namespace Grammar

def binaryOutcome (g : Grammar) : BinaryForm.Outcome :=
  BinaryForm.settle (.forGrammar g) g.nonTerminals g.productions [] 0

/-- The grammar in binary form; of the terminals, those remain that are a right-hand side. -/
def binaryForm (g : Grammar) : Grammar :=
  let outcome := g.binaryOutcome
  { nonTerminals := outcome.nonTerminals
    terminals := g.terminalsIn
      (outcome.productions.toList.filter fun p => p.singleTerminal?.isSome)
    start := g.start
    productions := outcome.productions }

end Grammar

end ContextFree
