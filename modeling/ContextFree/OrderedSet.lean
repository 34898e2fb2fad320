import ContextFree.Coded
import ContextFree.Trie

/-!
# Ordered sets

A finite set that remembers the order in which its elements first arrived. Two of them are equal
when they list the same elements in the same order, and equivalent (`≈`) when they have the same
elements. The view of a set is its list of elements; besides, a set holds an index of the codes of
its elements, by which membership is decided without going through the list.
-/

namespace ContextFree

variable {α : Type} [Coded α]

def indexOf : List α → Trie Unit
  | [] => .empty
  | a :: l => (indexOf l).update (fun _ => ()) (Coded.code a)

theorem isSome_find?_indexOf {l : List α} {a : α} :
    ((indexOf l).find? (Coded.code a)).isSome = true ↔ a ∈ l := by
  induction l with
  | nil => simp [indexOf]
  | cons b l ih =>
      rw [indexOf, Trie.find?_update (Coded.code_ne_nil b), List.mem_cons, ← ih]
      by_cases h : a = b
      · simp [h]
      · have hcode : Coded.code a ≠ Coded.code b := fun e => h (Coded.eq_of_code_eq e)
        simp [h, hcode]

structure OrderedSet (α : Type) [Coded α] where
  /-- The elements, the one that arrived last first. -/
  newestFirst : List α
  nodup_newestFirst : newestFirst.Nodup
  index : Trie Unit
  index_eq : index = indexOf newestFirst

namespace OrderedSet

/-- The elements in the order in which they arrived. -/
def toList (s : OrderedSet α) : List α := s.newestFirst.reverse

theorem nodup (s : OrderedSet α) : s.toList.Nodup :=
  List.pairwise_reverse.mpr (s.nodup_newestFirst.imp Ne.symm)

theorem ext {s t : OrderedSet α} (h : s.toList = t.toList) : s = t := by
  have hnewest : s.newestFirst = t.newestFirst := List.reverse_inj.mp h
  have hindex : s.index = t.index := by rw [s.index_eq, t.index_eq, hnewest]
  cases s
  cases t
  simp_all

instance [DecidableEq α] : DecidableEq (OrderedSet α) := fun s t =>
  decidable_of_iff (s.newestFirst = t.newestFirst)
    ⟨fun h => ext (congrArg List.reverse h), fun h => h ▸ rfl⟩

instance : EmptyCollection (OrderedSet α) := ⟨⟨[], List.nodup_nil, .empty, rfl⟩⟩

instance : Inhabited (OrderedSet α) := ⟨∅⟩

instance : Membership α (OrderedSet α) := ⟨fun s a => a ∈ s.toList⟩

@[simp] theorem mem_toList {s : OrderedSet α} {a : α} : a ∈ s.toList ↔ a ∈ s := Iff.rfl

@[simp] theorem toList_empty : (∅ : OrderedSet α).toList = [] := rfl

theorem not_mem_empty (a : α) : a ∉ (∅ : OrderedSet α) := List.not_mem_nil

def contains (s : OrderedSet α) (a : α) : Bool := (s.index.find? (Coded.code a)).isSome

theorem contains_iff {s : OrderedSet α} {a : α} : s.contains a = true ↔ a ∈ s := by
  rw [contains, s.index_eq, isSome_find?_indexOf, ← mem_toList, toList, List.mem_reverse]

instance (a : α) (s : OrderedSet α) : Decidable (a ∈ s) := decidable_of_iff _ contains_iff

def size (s : OrderedSet α) : Nat := s.newestFirst.length

@[simp] theorem length_toList (s : OrderedSet α) : s.toList.length = s.size :=
  List.length_reverse

/-- Sets are equivalent when they have the same elements, in whatever order. -/
instance : Setoid (OrderedSet α) where
  r s t := ∀ a, a ∈ s ↔ a ∈ t
  iseqv := ⟨fun _ _ => Iff.rfl, fun h a => (h a).symm, fun h k a => (h a).trans (k a)⟩

theorem equiv_iff {s t : OrderedSet α} : s ≈ t ↔ ∀ a, a ∈ s ↔ a ∈ t := Iff.rfl

def isSubset (s t : OrderedSet α) : Bool := s.toList.all t.contains

theorem isSubset_iff {s t : OrderedSet α} : s.isSubset t = true ↔ ∀ a ∈ s, a ∈ t := by
  simp [isSubset, contains_iff]

instance (s t : OrderedSet α) : Decidable (s ≈ t) :=
  decidable_of_iff ((s.isSubset t && t.isSubset s) = true) (by
    rw [Bool.and_eq_true, isSubset_iff, isSubset_iff]
    exact ⟨fun h a => ⟨h.1 a, h.2 a⟩, fun h => ⟨fun a => (h a).1, fun a => (h a).2⟩⟩)

theorem size_le_of_subset {s : OrderedSet α} {l : List α} (h : ∀ a ∈ s, a ∈ l) :
    s.size ≤ l.length :=
  s.length_toList ▸ s.nodup.length_le_of_subset fun a ha => h a ha

def filter (p : α → Bool) (s : OrderedSet α) : OrderedSet α :=
  ⟨s.newestFirst.filter p, List.filter_sublist.nodup s.nodup_newestFirst, _, rfl⟩

@[simp] theorem toList_filter (p : α → Bool) (s : OrderedSet α) :
    (s.filter p).toList = s.toList.filter p := List.filter_reverse.symm

theorem filter_eq_self {p : α → Bool} {s : OrderedSet α} (h : ∀ a ∈ s, p a = true) :
    s.filter p = s := ext (by rw [toList_filter, List.filter_eq_self.mpr h])

theorem mem_filter {p : α → Bool} {s : OrderedSet α} {a : α} :
    a ∈ s.filter p ↔ a ∈ s ∧ p a = true := by
  rw [← mem_toList, toList_filter, List.mem_filter, mem_toList]

theorem nodup_cons {s : OrderedSet α} {a : α} (h : a ∉ s) : (a :: s.newestFirst).Nodup :=
  List.nodup_cons.mpr ⟨fun ha => h (List.mem_reverse.mpr ha), s.nodup_newestFirst⟩

theorem update_index_eq (s : OrderedSet α) (a : α) :
    s.index.update (fun _ => ()) (Coded.code a) = indexOf (a :: s.newestFirst) := by
  rw [s.index_eq, indexOf]

/-- Adds an element at the end; an element already present keeps its place. -/
def insert (s : OrderedSet α) (a : α) : OrderedSet α :=
  if h : a ∈ s then s
  else
    ⟨a :: s.newestFirst, nodup_cons h, s.index.update (fun _ => ()) (Coded.code a),
      s.update_index_eq a⟩

theorem insert_of_mem {s : OrderedSet α} {a : α} (h : a ∈ s) : s.insert a = s := by
  simp [insert, h]

theorem toList_insert_of_not_mem {s : OrderedSet α} {a : α} (h : a ∉ s) :
    (s.insert a).toList = s.toList ++ [a] := by
  simp [insert, h, toList]

theorem size_insert_of_not_mem {s : OrderedSet α} {a : α} (h : a ∉ s) :
    (s.insert a).size = s.size + 1 := by
  simp only [← length_toList, toList_insert_of_not_mem h, List.length_append,
    List.length_singleton]

@[simp] theorem mem_insert {s : OrderedSet α} {a b : α} : b ∈ s.insert a ↔ b ∈ s ∨ b = a := by
  by_cases h : a ∈ s
  · rw [insert_of_mem h]
    exact ⟨Or.inl, fun hb => hb.elim id fun e => e ▸ h⟩
  · rw [← mem_toList, toList_insert_of_not_mem h]
    simp

theorem mem_insert_self (s : OrderedSet α) (a : α) : a ∈ s.insert a := mem_insert.mpr (Or.inr rfl)

theorem mem_insert_of_mem {s : OrderedSet α} {a b : α} (h : b ∈ s) : b ∈ s.insert a :=
  mem_insert.mpr (Or.inl h)

theorem forall_mem_insert {s : OrderedSet α} {a : α} {P : α → Prop} :
    (∀ b ∈ s.insert a, P b) ↔ (∀ b ∈ s, P b) ∧ P a := by
  simp [or_imp, forall_and]

theorem toList_prefix_insert (s : OrderedSet α) (a : α) :
    s.toList <+: (s.insert a).toList := by
  by_cases h : a ∈ s
  · simp only [insert_of_mem h, List.prefix_rfl]
  · rw [toList_insert_of_not_mem h]
    exact List.prefix_append _ _

def insertAll (s : OrderedSet α) (l : List α) : OrderedSet α := l.foldl insert s

@[simp] theorem insertAll_nil (s : OrderedSet α) : s.insertAll [] = s := rfl

@[simp] theorem insertAll_cons (s : OrderedSet α) (a : α) (l : List α) :
    s.insertAll (a :: l) = (s.insert a).insertAll l := rfl

theorem insertAll_append (s : OrderedSet α) (l m : List α) :
    s.insertAll (l ++ m) = (s.insertAll l).insertAll m := List.foldl_append

@[simp] theorem mem_insertAll {s : OrderedSet α} {l : List α} {a : α} :
    a ∈ s.insertAll l ↔ a ∈ s ∨ a ∈ l := by
  induction l generalizing s with
  | nil => simp
  | cons b l ih => simp [ih, or_assoc]

theorem insertAll_of_subset {s : OrderedSet α} {l : List α} (h : ∀ a ∈ l, a ∈ s) :
    s.insertAll l = s := by
  induction l with
  | nil => rfl
  | cons a l ih =>
      obtain ⟨ha, hl⟩ := List.forall_mem_cons.mp h
      rw [insertAll_cons, insert_of_mem ha, ih hl]

theorem toList_prefix_insertAll (s : OrderedSet α) (l : List α) :
    s.toList <+: (s.insertAll l).toList := by
  induction l generalizing s with
  | nil => exact List.prefix_rfl
  | cons a l ih => exact (toList_prefix_insert s a).trans (ih _)

theorem toList_insertAll_of_nodup {s : OrderedSet α} {l : List α} (hl : l.Nodup)
    (hnew : ∀ a ∈ l, a ∉ s) : (s.insertAll l).toList = s.toList ++ l := by
  induction l generalizing s with
  | nil => simp
  | cons a l ih =>
      obtain ⟨ha, hl⟩ := List.nodup_cons.mp hl
      have hnew' : ∀ b ∈ l, b ∉ s.insert a := by
        intro b hb hmem
        rcases mem_insert.mp hmem with hold | rfl
        · exact hnew b (List.mem_cons_of_mem a hb) hold
        · exact ha hb
      rw [insertAll_cons, ih hl hnew', toList_insert_of_not_mem (hnew a List.mem_cons_self),
        List.append_assoc, List.singleton_append]

theorem size_lt_of_prefix {s t : OrderedSet α} (h : s.toList <+: t.toList) (hne : t ≠ s) :
    s.size < t.size := by
  have hle : s.size ≤ t.size := by simpa only [length_toList] using h.length_le
  refine Nat.lt_of_le_of_ne hle fun heq => hne (ext (h.eq_of_length ?_).symm)
  simpa only [length_toList] using heq

/-- Adds the elements of a list, and tells which of them are new, in their order. -/
def insertNew (s : OrderedSet α) : List α → OrderedSet α × List α
  | [] => (s, [])
  | a :: l =>
    if a ∈ s then s.insertNew l
    else
      let (t, fresh) := (s.insert a).insertNew l
      (t, a :: fresh)

@[simp] theorem fst_insertNew (s : OrderedSet α) (l : List α) :
    (s.insertNew l).1 = s.insertAll l := by
  induction l generalizing s with
  | nil => rfl
  | cons a l ih =>
      by_cases h : a ∈ s
      · simp [insertNew, h, ih, insert_of_mem h]
      · simp [insertNew, h, ih]

theorem toList_insertAll (s : OrderedSet α) (l : List α) :
    (s.insertAll l).toList = s.toList ++ (s.insertNew l).2 := by
  induction l generalizing s with
  | nil => simp [insertNew]
  | cons a l ih =>
      by_cases h : a ∈ s
      · simp [insertNew, h, ih, insert_of_mem h]
      · simp [insertNew, h, ih, toList_insert_of_not_mem h]

theorem sublist_insertNew (s : OrderedSet α) (l : List α) : (s.insertNew l).2.Sublist l := by
  induction l generalizing s with
  | nil => exact List.Sublist.refl []
  | cons a l ih =>
      by_cases h : a ∈ s
      · simpa [insertNew, h] using (ih s).cons a
      · simpa [insertNew, h] using (ih (s.insert a)).cons_cons a

/-- The elements of a list at their first occurrences. -/
def ofList (l : List α) : OrderedSet α := (∅ : OrderedSet α).insertAll l

@[simp] theorem mem_ofList {l : List α} {a : α} : a ∈ ofList l ↔ a ∈ l := by
  simp [ofList, not_mem_empty]

theorem toList_ofList_of_nodup {l : List α} (h : l.Nodup) : (ofList l).toList = l := by
  rw [ofList, toList_insertAll_of_nodup h fun a _ => not_mem_empty a, toList_empty,
    List.nil_append]

theorem toList_ofList_sublist (l : List α) : (ofList l).toList.Sublist l := by
  rw [ofList, toList_insertAll, toList_empty, List.nil_append]
  exact sublist_insertNew ∅ l

@[simp] theorem ofList_toList (s : OrderedSet α) : ofList s.toList = s :=
  ext (toList_ofList_of_nodup s.nodup)

end OrderedSet

end ContextFree
