import Mathlib.Data.List.Basic
import Mathlib.Order.Lattice

/-!
# Finite sets kept in iteration order

A set is the list of its elements in the order an iteration visits them.
`insert` puts an element at its place in that order, so two sets built from the
same elements are the same list; the order itself comes from `Ord`.

Only membership is needed to reason about the operations: every lemma below
says which elements the result has.  The order matters to a caller that takes
the *first* element with some property (`find?`).
-/

namespace Jadren

open List

/-- A finite set, as the list of its elements in increasing order. -/
structure OrderedSet (α : Type) where
  elems : List α
  deriving DecidableEq, Repr

namespace OrderedSet

variable {α : Type}

instance : Membership α (OrderedSet α) := ⟨fun s a => a ∈ s.elems⟩

instance [DecidableEq α] (a : α) (s : OrderedSet α) : Decidable (a ∈ s) :=
  inferInstanceAs (Decidable (a ∈ s.elems))

variable {a : α} {s : OrderedSet α}

theorem mem_def : a ∈ s ↔ a ∈ s.elems := Iff.rfl

def empty : OrderedSet α := ⟨[]⟩

instance : EmptyCollection (OrderedSet α) := ⟨empty⟩

@[simp] theorem not_mem_empty (a : α) : a ∉ (∅ : OrderedSet α) := not_mem_nil

/-- The position of a new element: before the first larger one. -/
def insertSorted [DecidableEq α] [Ord α] (a : α) : List α → List α
  | [] => [a]
  | b :: rest =>
      if a = b then b :: rest
      else if (compare a b).isLT then a :: b :: rest
      else b :: insertSorted a rest

def insert [DecidableEq α] [Ord α] (a : α) (s : OrderedSet α) : OrderedSet α :=
  ⟨insertSorted a s.elems⟩

/-- Keeps the elements that satisfy a test. -/
def retain (keep : α → Bool) (s : OrderedSet α) : OrderedSet α := ⟨s.elems.filter keep⟩

/-- Adds every element of a list. -/
def extend [DecidableEq α] [Ord α] (s : OrderedSet α) (added : List α) : OrderedSet α :=
  added.foldl (fun current a => current.insert a) s

def union [DecidableEq α] [Ord α] (s t : OrderedSet α) : OrderedSet α := s.extend t.elems

def inter [DecidableEq α] (s t : OrderedSet α) : OrderedSet α :=
  s.retain fun a => decide (a ∈ t)

def erase [DecidableEq α] (a : α) (s : OrderedSet α) : OrderedSet α :=
  s.retain fun b => decide (b ≠ a)

def any (test : α → Bool) (s : OrderedSet α) : Bool := s.elems.any test

/-- The first element, in iteration order, that satisfies a test. -/
def find? (test : α → Bool) (s : OrderedSet α) : Option α := s.elems.find? test

def ofList [DecidableEq α] [Ord α] (elems : List α) : OrderedSet α :=
  (∅ : OrderedSet α).extend elems

variable {b : α} {l : List α}

theorem mem_insertSorted [DecidableEq α] [Ord α] : b ∈ insertSorted a l ↔ b = a ∨ b ∈ l := by
  induction l with
  | nil => simp [insertSorted]
  | cons c rest ih =>
      unfold insertSorted
      split
      · rename_i heq
        subst heq
        simp
      · split
        · simp
        · simp only [mem_cons, ih]
          tauto

@[simp] theorem mem_insert [DecidableEq α] [Ord α] :
    b ∈ s.insert a ↔ b = a ∨ b ∈ s := mem_insertSorted

@[simp] theorem mem_retain {keep : α → Bool} :
    a ∈ s.retain keep ↔ a ∈ s ∧ keep a = true := mem_filter

@[simp] theorem mem_extend [DecidableEq α] [Ord α] {added : List α} :
    a ∈ s.extend added ↔ a ∈ s ∨ a ∈ added := by
  unfold extend
  induction added generalizing s with
  | nil => simp
  | cons b rest ih =>
      rw [foldl_cons, ih, mem_insert, mem_cons]
      tauto

@[simp] theorem mem_union [DecidableEq α] [Ord α] {t : OrderedSet α} :
    a ∈ s.union t ↔ a ∈ s ∨ a ∈ t := mem_extend

@[simp] theorem mem_inter [DecidableEq α] {t : OrderedSet α} : a ∈ s.inter t ↔ a ∈ s ∧ a ∈ t := by
  simp [inter]

@[simp] theorem mem_erase [DecidableEq α] : b ∈ s.erase a ↔ b ∈ s ∧ b ≠ a := by
  simp [erase]

@[simp] theorem mem_ofList [DecidableEq α] [Ord α] {elems : List α} :
    a ∈ ofList elems ↔ a ∈ elems := by
  simp [ofList]

/-- A new element is put somewhere between the old ones. -/
theorem perm_insertSorted [DecidableEq α] [Ord α] (h : a ∉ l) :
    (insertSorted a l).Perm (a :: l) := by
  induction l with
  | nil => exact List.Perm.refl _
  | cons b rest ih =>
      rw [mem_cons, not_or] at h
      unfold insertSorted
      rw [if_neg h.1]
      split
      · exact List.Perm.refl _
      · exact ((ih h.2).cons b).trans (List.Perm.swap a b rest)

/-- An element that a filter removes may as well not be inserted. -/
theorem retain_insert [DecidableEq α] [Ord α] {keep : α → Bool} (s : OrderedSet α)
    (h : keep a = false) : (s.insert a).retain keep = s.retain keep := by
  suffices hlist : (insertSorted a s.elems).filter keep = s.elems.filter keep by
    rw [retain, insert, hlist, retain]
  generalize s.elems = elems
  induction elems with
  | nil => simp [insertSorted, h]
  | cons b rest ih =>
      unfold insertSorted
      split
      · rfl
      · split
        · simp [h]
        · simp [filter_cons, ih]

theorem erase_erase [DecidableEq α] (s : OrderedSet α) (a : α) :
    (s.erase a).erase a = s.erase a := by
  simp [erase, retain, filter_filter]

variable {test : α → Bool}

theorem any_eq_false : s.any test = false ↔ ∀ a ∈ s, test a = false := by
  simp [any, List.any_eq_false, mem_def]

/-- An element found satisfies the test and is in the set. -/
theorem find?_some (h : s.find? test = some a) : a ∈ s ∧ test a = true :=
  ⟨mem_of_find?_eq_some h, List.find?_some h⟩

theorem find?_none (h : s.find? test = none) : ∀ a ∈ s, test a = false := by
  intro a ha
  simpa using find?_eq_none.mp h a ha

/-- A set loses an element whenever an intersection changes it. -/
theorem length_inter_lt [DecidableEq α] {t : OrderedSet α} (h : s.inter t ≠ s) :
    (s.inter t).elems.length < s.elems.length := by
  apply lt_of_le_of_ne (length_filter_le _ _)
  intro hlength
  apply h
  have hfilter := length_filter_eq_length_iff.mp hlength
  rw [inter, OrderedSet.retain, filter_eq_self.mpr hfilter]

/-! ## Sorted sets -/

theorem insertSorted_of_forall_lt [LinearOrder α] (h : ∀ b ∈ l, b < a) :
    insertSorted a l = l ++ [a] := by
  induction l with
  | nil => rfl
  | cons b rest ih =>
      have hlt : b < a := h b (mem_cons_self ..)
      have hcompare : compare a b = .gt := compare_gt_iff_gt.mpr hlt
      rw [insertSorted, if_neg hlt.ne', if_neg (by simp [hcompare]),
        ih fun c hc => h c (mem_cons_of_mem b hc), cons_append]

theorem sorted_insertSorted [LinearOrder α] (hsorted : l.Pairwise (· < ·)) :
    (insertSorted a l).Pairwise (· < ·) := by
  induction l with
  | nil => exact pairwise_singleton _ _
  | cons b rest ih =>
      obtain ⟨hhead, hrest⟩ := pairwise_cons.mp hsorted
      unfold insertSorted
      split_ifs with heq hlt
      · exact hsorted
      · rw [Ordering.isLT_iff_eq_lt, compare_lt_iff_lt] at hlt
        refine pairwise_cons.mpr ⟨fun c hc => ?_, hsorted⟩
        rcases mem_cons.mp hc with rfl | hc
        · exact hlt
        · exact hlt.trans (hhead c hc)
      · rw [Ordering.isLT_iff_eq_lt, compare_lt_iff_lt] at hlt
        refine pairwise_cons.mpr ⟨fun c hc => ?_, ih hrest⟩
        rcases mem_insertSorted.mp hc with rfl | hc
        · exact lt_of_le_of_ne (not_lt.mp hlt) (Ne.symm heq)
        · exact hhead c hc

/-- An element that is there is not inserted again. -/
theorem insertSorted_of_mem [LinearOrder α] (hsorted : l.Pairwise (· < ·)) (ha : a ∈ l) :
    insertSorted a l = l := by
  induction l with
  | nil => cases ha
  | cons b rest ih =>
      rw [pairwise_cons] at hsorted
      obtain rfl | hrest := mem_cons.mp ha
      · rw [insertSorted, if_pos rfl]
      · have hlt : b < a := hsorted.1 a hrest
        have hcompare : compare a b = .gt := compare_gt_iff_gt.mpr hlt
        rw [insertSorted, if_neg hlt.ne', if_neg (by simp [hcompare]), ih hsorted.2 hrest]

/-- A sorted set gains nothing from elements it has. -/
theorem extend_of_subset [LinearOrder α] (hsorted : s.elems.Pairwise (· < ·)) {added : List α}
    (hadded : ∀ a ∈ added, a ∈ s) : s.extend added = s := by
  induction added with
  | nil => rfl
  | cons a rest ih =>
      have hinsert : s.insert a = s :=
        congrArg OrderedSet.mk (insertSorted_of_mem hsorted (hadded a (mem_cons_self ..)))
      show (s.insert a).extend rest = s
      rw [hinsert]
      exact ih fun b hb => hadded b (mem_cons_of_mem a hb)

/-- The order of a lawful comparison. -/
abbrev linearOrderOfOrd [DecidableEq α] [Ord α] [Std.TransOrd α] [Std.LawfulEqOrd α] :
    LinearOrder α where
  le a b := (compare a b).isLE
  lt a b := compare a b = .lt
  le_refl _ := Std.ReflOrd.isLE_rfl
  le_trans _ _ _ := Std.TransOrd.isLE_trans
  lt_iff_le_not_ge a b := by
    rw [Std.OrientedOrd.eq_swap (a := b)]
    cases compare a b <;> decide
  le_antisymm _ _ h h' := Std.compare_eq_iff_eq.mp (Std.OrientedCmp.isLE_antisymm h h')
  le_total a b := by
    rw [Std.OrientedOrd.eq_swap (a := b)]
    cases compare a b <;> decide
  toDecidableLE _ _ := instDecidableEqBool _ _
  toDecidableEq := inferInstance
  toDecidableLT _ _ := instDecidableEqOrdering _ _
  compare_eq_compareOfLessAndEq a b := by
    show compare a b = if compare a b = .lt then .lt else if a = b then .eq else .gt
    simp only [← Std.compare_eq_iff_eq]
    cases compare a b <;> rfl

/-- A set in order whose elements are among those of a list. -/
structure SortedIn [LT α] (carrier : List α) (s : OrderedSet α) : Prop where
  sorted : s.elems.Pairwise (· < ·)
  within : ∀ a ∈ s, a ∈ carrier

theorem sortedIn_empty [LT α] (carrier : List α) : SortedIn carrier ∅ := ⟨.nil, by simp⟩

namespace SortedIn

variable [LinearOrder α] {carrier : List α} {t : OrderedSet α}

theorem retain (h : SortedIn carrier s) (keep : α → Bool) : SortedIn carrier (s.retain keep) :=
  ⟨h.sorted.filter keep, fun a ha => h.within a (mem_retain.mp ha).1⟩

theorem insert (h : SortedIn carrier s) (ha : a ∈ carrier) : SortedIn carrier (s.insert a) where
  sorted := sorted_insertSorted h.sorted
  within b hb := by
    obtain rfl | hb := mem_insert.mp hb
    · exact ha
    · exact h.within b hb

theorem extend {added : List α} (h : SortedIn carrier s) (hadded : ∀ a ∈ added, a ∈ carrier) :
    SortedIn carrier (s.extend added) := by
  induction added generalizing s with
  | nil => exact h
  | cons a rest ih =>
      exact ih (h.insert (hadded a (mem_cons_self ..))) fun b hb =>
        hadded b (mem_cons_of_mem a hb)

/-- A union that changes a set leaves out fewer elements of the list. -/
theorem length_filter_union_lt (h : SortedIn carrier s) (h' : SortedIn carrier t)
    (hne : s.union t ≠ s) :
    (carrier.filter (· ∉ s.union t)).length < (carrier.filter (· ∉ s)).length := by
  obtain ⟨a, hnew, hold⟩ : ∃ a ∈ t, a ∉ s := by
    by_contra! hsame
    exact hne (extend_of_subset h.sorted hsame)
  have hfilter : carrier.filter (· ∉ s.union t) =
      (carrier.filter (· ∉ s)).filter (· ∉ t) := by
    rw [filter_filter]
    exact filter_congr fun b _ => by simp [Bool.and_comm]
  rw [hfilter, length_filter_lt_length_iff_exists]
  exact ⟨a, mem_filter.mpr ⟨h'.within a hnew, by simpa using hold⟩, by simpa using hnew⟩

end SortedIn

end OrderedSet

end Jadren
