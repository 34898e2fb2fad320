import ContextFree.Grammar

/-!
# Fresh names

A supply hands out names that are not taken yet: by the grammar it was made for, or by the supply
itself earlier. Each kind of name is a sequence of candidates, of which the first free one is used.
Among one more candidate than there are taken names, pairwise different, one is free, so the search
is bounded by the number of taken names.
-/

namespace ContextFree

structure NameSupply where
  taken : OrderedSet Name
  /-- The number that the next intermediate name tries first. -/
  counter : Nat

namespace NameSupply

def forGrammar (g : Grammar) : NameSupply := ⟨.ofList g.names, 1⟩

/-- The least index from `i` on, among the next `bound`, whose candidate is not taken, or
`i + bound` if there is none. -/
def firstFree (taken : OrderedSet Name) (candidate : Nat → Name) : Nat → Nat → Nat
  | 0, i => i
  | bound + 1, i =>
    if candidate i ∈ taken then firstFree taken candidate bound (i + 1) else i

theorem mem_of_lt_firstFree {taken : OrderedSet Name} {candidate : Nat → Name} {bound i j : Nat}
    (hi : i ≤ j) (hj : j < firstFree taken candidate bound i) : candidate j ∈ taken := by
  induction bound generalizing i with
  | zero =>
      unfold firstFree at hj
      omega
  | succ bound ih =>
      unfold firstFree at hj
      split at hj
      · rename_i hmem
        rcases Nat.eq_or_lt_of_le hi with rfl | hlt
        · exact hmem
        · exact ih hlt hj
      · omega

theorem firstFree_free_or_eq (taken : OrderedSet Name) (candidate : Nat → Name) (bound i : Nat) :
    candidate (firstFree taken candidate bound i) ∉ taken ∨
      firstFree taken candidate bound i = i + bound := by
  induction bound generalizing i with
  | zero => exact Or.inr rfl
  | succ bound ih =>
      unfold firstFree
      split
      · rcases ih (i + 1) with hfree | hend
        · exact Or.inl hfree
        · right
          omega
      · exact Or.inl ‹_›

/-- When the candidates are pairwise different, the one that is found is free. -/
theorem firstFree_not_mem {taken : OrderedSet Name} {candidate : Nat → Name}
    (hinj : ∀ j k, candidate j = candidate k → j = k) (i : Nat) :
    candidate (firstFree taken candidate taken.size i) ∉ taken := by
  rcases firstFree_free_or_eq taken candidate taken.size i with hfree | hend
  · exact hfree
  · intro hmem
    have hnodup : ((List.range (taken.size + 1)).map fun k => candidate (i + k)).Nodup := by
      rw [List.nodup_iff_pairwise_ne, List.pairwise_map]
      exact List.nodup_range.imp fun hne heq => hne (by
        have hidx := hinj _ _ heq
        omega)
    have hsubset : ((List.range (taken.size + 1)).map fun k => candidate (i + k)) ⊆
        taken.toList := by
      intro a ha
      obtain ⟨k, hk, rfl⟩ := List.mem_map.mp ha
      rw [List.mem_range] at hk
      rcases Nat.lt_or_ge k taken.size with hlt | hge
      · exact mem_of_lt_firstFree (Nat.le_add_right i k) (by rw [hend]; omega)
      · have hk' : k = taken.size := by omega
        rw [hk', ← hend]
        exact hmem
    have hlength := hnodup.length_le_of_subset hsubset
    rw [List.length_map, List.length_range, OrderedSet.length_toList] at hlength
    exact Nat.not_succ_le_self _ hlength

def reserve (supply : NameSupply) (name : Name) : NameSupply :=
  { supply with taken := supply.taken.insert name }

def pick (supply : NameSupply) (candidate : Nat → Name) : Name × NameSupply :=
  let name := candidate (firstFree supply.taken candidate supply.taken.size 0)
  (name, supply.reserve name)

/-- The names `T_a`, `T_a_0`, `T_a_1`, … that can stand for a terminal `a`; of its characters only
ASCII letters and digits are used. -/
def proxyCandidate (a : Name) : Nat → Name
  | 0 => ⟨'T' :: '_' :: a.chars.filter Char.isAlphanum, List.cons_ne_nil _ _⟩
  | k + 1 =>
    ⟨'T' :: '_' :: (a.chars.filter Char.isAlphanum ++ '_' :: Text.decimal k),
      List.cons_ne_nil _ _⟩

/-- The names `X0`, `X1`, `X2`, … -/
def intermediateCandidate (k : Nat) : Name :=
  ⟨'X' :: Text.decimal k, List.cons_ne_nil _ _⟩

/-- The names `A'`, `A''`, … -/
def primedCandidate (A : Name) (k : Nat) : Name :=
  ⟨A.chars ++ List.replicate (k + 1) '\x27', by simp⟩

/-- A non-terminal that is to derive just the terminal `a`. -/
def proxy (supply : NameSupply) (a : Name) : Name × NameSupply :=
  supply.pick (proxyCandidate a)

def primed (supply : NameSupply) (A : Name) : Name × NameSupply :=
  supply.pick (primedCandidate A)

/-- The next free `X<n>`; no number is tried twice. -/
def intermediate (supply : NameSupply) : Name × NameSupply :=
  let k := firstFree supply.taken intermediateCandidate supply.taken.size supply.counter
  let name := intermediateCandidate k
  (name, { supply.reserve name with counter := k + 1 })

inductive Request where
  | proxy (a : Name)
  | primed (A : Name)
  | intermediate
  deriving DecidableEq

def answer (supply : NameSupply) : Request → Name × NameSupply
  | .proxy a => supply.proxy a
  | .primed A => supply.primed A
  | .intermediate => supply.intermediate

/-- The names that answer requests made one after the other. -/
def answerAll : NameSupply → List Request → List Name
  | _, [] => []
  | supply, request :: requests =>
    let (name, supply) := supply.answer request
    name :: supply.answerAll requests

end NameSupply

end ContextFree
