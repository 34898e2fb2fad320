import ContextFree.NameSupply

/-!
# Fresh names are fresh

The candidates of each kind are pairwise different, so the name that a supply hands out was not
taken before. From then on it is.
-/

namespace ContextFree

theorem Text.decimal_inj {m n : Nat} (h : decimal m = decimal n) : m = n := by
  have hdigits := congrArg (fun t => Nat.ofDigitChars 10 t 0) h
  simpa only [decimal, Nat.ofDigitChars_ten_toDigits] using hdigits

namespace NameSupply

theorem intermediateCandidate_inj (j k : Nat)
    (h : intermediateCandidate j = intermediateCandidate k) : j = k := by
  have hchars := congrArg Name.chars h
  exact Text.decimal_inj (List.cons.inj hchars).2

theorem primedCandidate_inj (A : Name) (j k : Nat)
    (h : primedCandidate A j = primedCandidate A k) : j = k := by
  have hlength := congrArg (fun B : Name => B.chars.length) h
  simpa [primedCandidate] using hlength

theorem proxyCandidate_inj (a : Name) (j k : Nat)
    (h : proxyCandidate a j = proxyCandidate a k) : j = k := by
  have hchars := congrArg (fun B : Name => B.chars) h
  cases j with
  | zero =>
      cases k with
      | zero => rfl
      | succ k => simp [proxyCandidate] at hchars
  | succ j =>
      cases k with
      | zero => simp [proxyCandidate] at hchars
      | succ k =>
          simp only [proxyCandidate, List.cons.injEq, List.append_cancel_left_eq,
            true_and] at hchars
          rw [Text.decimal_inj hchars]

variable (supply : NameSupply)

theorem proxy_not_mem (a : Name) : (supply.proxy a).1 ∉ supply.taken :=
  firstFree_not_mem (proxyCandidate_inj a) 0

theorem primed_not_mem (A : Name) : (supply.primed A).1 ∉ supply.taken :=
  firstFree_not_mem (primedCandidate_inj A) 0

theorem intermediate_not_mem : supply.intermediate.1 ∉ supply.taken :=
  firstFree_not_mem intermediateCandidate_inj supply.counter

theorem taken_proxy (a : Name) :
    (supply.proxy a).2.taken = supply.taken.insert (supply.proxy a).1 := rfl

theorem taken_intermediate :
    supply.intermediate.2.taken = supply.taken.insert supply.intermediate.1 := rfl

theorem mem_taken_forGrammar {g : Grammar} {A : Name} :
    A ∈ (forGrammar g).taken ↔ A ∈ g.names := OrderedSet.mem_ofList

end NameSupply

namespace Grammar

variable {g : Grammar}

theorem mem_names_iff {A : Name} : A ∈ g.names ↔ A ∈ g.nonTerminals ∨ A ∈ g.terminals ∨
    A = g.start ∨ ∃ p ∈ g.productions, A = p.lhs ∨ ∃ x ∈ p.rhs, A = x.name := by
  simp [names, eq_comm]

theorem nonTerminal_mem_names {A : Name} (hA : A ∈ g.nonTerminals) : A ∈ g.names :=
  mem_names_iff.mpr (Or.inl hA)

theorem terminal_mem_names {a : Name} (ha : a ∈ g.terminals) : a ∈ g.names :=
  mem_names_iff.mpr (Or.inr (Or.inl ha))

theorem start_mem_names (g : Grammar) : g.start ∈ g.names :=
  mem_names_iff.mpr (Or.inr (Or.inr (Or.inl rfl)))

theorem lhs_mem_names {p : Production} (hp : p ∈ g.productions) : p.lhs ∈ g.names :=
  mem_names_iff.mpr (Or.inr (Or.inr (Or.inr ⟨p, hp, Or.inl rfl⟩)))

theorem mem_names_of_mem_rhs {p : Production} (hp : p ∈ g.productions) {x : Symbol}
    (hx : x ∈ p.rhs) : x.name ∈ g.names :=
  mem_names_iff.mpr (Or.inr (Or.inr (Or.inr ⟨p, hp, Or.inr ⟨x, hx, rfl⟩⟩)))

end Grammar

end ContextFree
