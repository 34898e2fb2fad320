import ContextFree.Text.Basic

/-!
# Codes

A type is coded when each of its values has a code that no other value shares: a nonempty list of
numbers, under which the value can be looked up. Where several texts go into one code, each of
them is closed by a mark that no character has, so that the code can be taken apart again.
-/

namespace ContextFree

class Coded (α : Type) where
  code : α → List Nat
  code_ne_nil : ∀ a, code a ≠ []
  eq_of_code_eq : ∀ {a b : α}, code a = code b → a = b

namespace Coded

variable {α : Type}

theorem code_inj [Coded α] {a b : α} : code a = code b ↔ a = b :=
  ⟨eq_of_code_eq, fun h => h ▸ rfl⟩

/-- The numbers of a character, none of them a mark: its own for an ASCII character, and otherwise
its block and its place in the block, so that few numbers compete for one place in a code. -/
def character (c : Char) : List Nat :=
  if c.toNat < 128 then [c.toNat + 2] else [c.toNat / 128 + 130, c.toNat % 128]

theorem exists_character_eq_cons (c : Char) : ∃ n l, character c = n :: l ∧ 2 ≤ n := by
  unfold character
  split
  · exact ⟨_, _, rfl, Nat.le_add_left 2 _⟩
  · exact ⟨_, _, rfl, by omega⟩

theorem character_append_inj {c c' : Char} {l l' : List Nat}
    (h : character c ++ l = character c' ++ l') : c = c' ∧ l = l' := by
  suffices hnat : c.toNat = c'.toNat ∧ l = l' from
    ⟨Char.toNat_inj.mp hnat.1, hnat.2⟩
  unfold character at h
  split at h <;> split at h <;> obtain ⟨hfirst, hrest⟩ := List.cons.inj h
  · exact ⟨Nat.add_right_cancel hfirst, hrest⟩
  · omega
  · omega
  · obtain ⟨hsecond, hrest⟩ := List.cons.inj hrest
    exact ⟨by omega, hrest⟩

/-- The numbers of the characters of a text and a mark after them. -/
def closed (t : Text) (mark : Bool) : List Nat :=
  match t with
  | [] => [mark.toNat]
  | c :: t => character c ++ closed t mark

theorem closed_ne_nil (t : Text) (mark : Bool) : closed t mark ≠ [] := by
  cases t with
  | nil => exact List.cons_ne_nil _ _
  | cons c t =>
      obtain ⟨n, l, hc, _⟩ := exists_character_eq_cons c
      rw [closed, hc]
      exact List.cons_ne_nil _ _

/-- A text and its mark can be read off a code that they begin. -/
theorem closed_append_inj {t t' : Text} {mark mark' : Bool} {l l' : List Nat}
    (h : closed t mark ++ l = closed t' mark' ++ l') : t = t' ∧ mark = mark' ∧ l = l' := by
  have hmarks : ∀ {mark : Bool} {c : Char} {k k' : List Nat},
      mark.toNat :: k ≠ character c ++ k' := by
    intro mark c k k' heq
    obtain ⟨n, _, hc, hn⟩ := exists_character_eq_cons c
    rw [hc] at heq
    have hmark : mark.toNat = n := (List.cons.inj heq).1
    have hle := mark.toNat_le
    omega
  induction t generalizing t' with
  | nil =>
      cases t' with
      | nil =>
          obtain ⟨hnat, hl⟩ := List.cons.inj h
          have hmark : mark = mark' := by
            revert hnat
            cases mark <;> cases mark' <;> decide
          exact ⟨rfl, hmark, hl⟩
      | cons c' t' =>
          rw [closed, closed, List.append_assoc] at h
          exact absurd h hmarks
  | cons c t ih =>
      rw [closed, List.append_assoc] at h
      cases t' with
      | nil => exact absurd h.symm hmarks
      | cons c' t' =>
          rw [closed, List.append_assoc] at h
          obtain ⟨rfl, hrest⟩ := character_append_inj h
          obtain ⟨rfl, hmark, hl⟩ := ih hrest
          exact ⟨rfl, hmark, hl⟩

/-- A list is determined by the row of the codes of its elements, if each can be read off. -/
theorem eq_of_flatMap_eq {f : α → List Nat} (hne : ∀ a, f a ≠ [])
    (hinj : ∀ {a b l l'}, f a ++ l = f b ++ l' → a = b ∧ l = l') {as bs : List α}
    (h : as.flatMap f = bs.flatMap f) : as = bs := by
  induction as generalizing bs with
  | nil =>
      cases bs with
      | nil => rfl
      | cons b bs =>
          rw [List.flatMap_nil, List.flatMap_cons] at h
          exact absurd (List.append_eq_nil_iff.mp h.symm).1 (hne b)
  | cons a as ih =>
      cases bs with
      | nil =>
          rw [List.flatMap_nil, List.flatMap_cons] at h
          exact absurd (List.append_eq_nil_iff.mp h).1 (hne a)
      | cons b bs =>
          rw [List.flatMap_cons, List.flatMap_cons] at h
          obtain ⟨rfl, hrest⟩ := hinj h
          rw [ih hrest]

end Coded

instance : Coded Text where
  code t := Coded.closed t false
  code_ne_nil t := Coded.closed_ne_nil t false
  eq_of_code_eq h := (Coded.closed_append_inj (congrArg (· ++ ([] : List Nat)) h)).1

end ContextFree
