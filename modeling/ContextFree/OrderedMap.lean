import ContextFree.Grouping
import ContextFree.OrderedSet

/-!
# Ordered maps

A finite map that lists its keys in a fixed order, each key once. Like ordered sets, two maps are
equal when they list the same entries in the same order, and equivalent (`≈`) when they have the
same keys with equivalent values.
-/

namespace ContextFree

structure OrderedMap (κ ν : Type) where
  entries : List (κ × ν)
  nodup_keys : (entries.map Prod.fst).Nodup
  deriving DecidableEq

namespace OrderedMap

variable {κ ν : Type}

theorem ext {m n : OrderedMap κ ν} (h : m.entries = n.entries) : m = n := by
  cases m
  cases n
  simp_all

def keys [Coded κ] (m : OrderedMap κ ν) : OrderedSet κ := .ofList (m.entries.map Prod.fst)

/-- The map that gives each key of a set the value of a function there. -/
def tabulate [Coded κ] (keys : OrderedSet κ) (f : κ → ν) : OrderedMap κ ν where
  entries := keys.toList.map fun k => (k, f k)
  nodup_keys := by
    rw [List.map_map]
    exact (List.map_id keys.toList).symm ▸ keys.nodup

@[simp] theorem entries_tabulate [Coded κ] (keys : OrderedSet κ) (f : κ → ν) :
    (tabulate keys f).entries = keys.toList.map fun k => (k, f k) := rfl

@[simp] theorem keys_tabulate [Coded κ] (ks : OrderedSet κ) (f : κ → ν) :
    (tabulate ks f).keys = ks := by
  simp [keys, tabulate, Function.comp_def]

def get? [DecidableEq κ] (m : OrderedMap κ ν) (k : κ) : Option ν :=
  (m.entries.find? fun e => e.1 = k).map Prod.snd

theorem get?_tabulate [DecidableEq κ] [Coded κ] (ks : OrderedSet κ) (f : κ → ν) (k : κ) :
    (tabulate ks f).get? k = if k ∈ ks then some (f k) else none := by
  have hlist : ∀ l : List κ, ((l.map fun k => (k, f k)).find? fun e => e.1 = k).map Prod.snd =
      if k ∈ l then some (f k) else none := by
    intro l
    induction l with
    | nil => simp
    | cons a l ih =>
        by_cases h : a = k
        · simp [h]
        · have hka : k ≠ a := fun e => h e.symm
          simpa [List.find?_cons, h, hka] using ih
  rw [get?, entries_tabulate, hlist]
  by_cases h : k ∈ ks <;> simp [h]

/-- Maps are equivalent when they have the same keys and equivalent values at each of them. -/
def Equivalent [Setoid ν] (m n : OrderedMap κ ν) : Prop :=
  (∀ e ∈ m.entries, ∃ e' ∈ n.entries, e'.1 = e.1 ∧ e.2 ≈ e'.2) ∧
    ∀ e ∈ n.entries, ∃ e' ∈ m.entries, e'.1 = e.1 ∧ e.2 ≈ e'.2

instance [Setoid ν] : Setoid (OrderedMap κ ν) where
  r := Equivalent
  iseqv :=
    { refl := fun m => ⟨fun e he => ⟨e, he, rfl, Setoid.refl _⟩,
        fun e he => ⟨e, he, rfl, Setoid.refl _⟩⟩
      symm := fun h => ⟨h.2, h.1⟩
      trans := by
        have step : ∀ {a b c : OrderedMap κ ν},
            (∀ e ∈ a.entries, ∃ e' ∈ b.entries, e'.1 = e.1 ∧ e.2 ≈ e'.2) →
            (∀ e ∈ b.entries, ∃ e' ∈ c.entries, e'.1 = e.1 ∧ e.2 ≈ e'.2) →
            ∀ e ∈ a.entries, ∃ e' ∈ c.entries, e'.1 = e.1 ∧ e.2 ≈ e'.2 := by
          intro a b c hab hbc e he
          obtain ⟨e', he', hk, hv⟩ := hab e he
          obtain ⟨e'', he'', hk', hv'⟩ := hbc e' he'
          exact ⟨e'', he'', hk'.trans hk, Setoid.trans hv hv'⟩
        intro a b c h k
        exact ⟨step h.1 k.1, step k.2 h.2⟩ }

/-- Whether one map has all keys of the other, with equivalent values. -/
def agrees [Coded κ] [Setoid ν] [∀ a b : ν, Decidable (a ≈ b)] (m n : OrderedMap κ ν) : Bool :=
  let byKey := Grouping.ofList Prod.fst n.entries
  m.entries.all fun e => (byKey.get e.1).any fun e' => decide (e.2 ≈ e'.2)

theorem agrees_iff [Coded κ] [DecidableEq κ] [Setoid ν] [∀ a b : ν, Decidable (a ≈ b)]
    {m n : OrderedMap κ ν} : m.agrees n = true ↔
      ∀ e ∈ m.entries, ∃ e' ∈ n.entries, e'.1 = e.1 ∧ e.2 ≈ e'.2 := by
  simp [agrees]

instance [Coded κ] [DecidableEq κ] [Setoid ν] [∀ a b : ν, Decidable (a ≈ b)]
    (m n : OrderedMap κ ν) : Decidable (m ≈ n) :=
  decidable_of_iff ((m.agrees n && n.agrees m) = true) (by
    rw [Bool.and_eq_true, agrees_iff, agrees_iff]
    rfl)

end OrderedMap

end ContextFree
