import Mathlib.Algebra.BigOperators.Group.Finset.Basic

/-!
# Search with a stack

The top of a stack is taken off; if it is new, it is noted and what comes next to it is pushed.
Only finitely many elements have something next to them, so the search ends with an empty stack
(`measure` is enough fuel), and then what has been noted is closed: it contains all that a chain
from the start leads to (`mem_search_of_chain`).
-/

namespace Jadren.Search

open List

variable {α : Type*} [DecidableEq α] (next : α → List α)

/-- What is reached from a stack, in addition to what has been reached. -/
def search : ℕ → List α → List α → List α
  | 0, _, reached => reached
  | _ + 1, [], reached => reached
  | fuel + 1, a :: pending, reached =>
      if a ∈ reached then search fuel pending reached
      else search fuel ((next a).reverse ++ pending) (a :: reached)

/-- The number of elements that may still be taken off the stack. -/
def measure (nodes : Finset α) (pending reached : List α) : ℕ :=
  pending.length + ∑ a ∈ nodes.filter (· ∉ reached), (next a).length

variable {next} {nodes : Finset α}

/-- What is noted for the first time exchanges its place on the stack for what is next to it. -/
theorem measure_cons (hnodes : ∀ a ∉ nodes, next a = []) {a : α} {reached : List α}
    (hnew : a ∉ reached) (pending : List α) :
    measure next nodes ((next a).reverse ++ pending) (a :: reached) + 1 =
      measure next nodes (a :: pending) reached := by
  have hsum : (next a).length + ∑ x ∈ nodes.filter (· ∉ a :: reached), (next x).length =
      ∑ x ∈ nodes.filter (· ∉ reached), (next x).length := by
    have hfilter : nodes.filter (· ∉ a :: reached) = (nodes.filter (· ∉ reached)).erase a := by
      ext x
      simp only [Finset.mem_filter, Finset.mem_erase, mem_cons, not_or]
      tauto
    rw [hfilter]
    by_cases hmem : a ∈ nodes
    · have hmem' : a ∈ nodes.filter (· ∉ reached) := Finset.mem_filter.mpr ⟨hmem, hnew⟩
      exact Finset.add_sum_erase _ (fun x => (next x).length) hmem'
    · have habsent : a ∉ nodes.filter (· ∉ reached) :=
        fun h => hmem (Finset.mem_filter.mp h).1
      rw [Finset.erase_eq_of_notMem habsent, hnodes a hmem, length_nil, Nat.zero_add]
  simp only [measure, length_append, length_reverse, length_cons]
  omega

/-- With enough fuel, all that was noted or on the stack is noted, and what is noted is closed. -/
theorem search_closed (hnodes : ∀ a ∉ nodes, next a = []) {fuel : ℕ} {pending reached : List α}
    (hfuel : measure next nodes pending reached ≤ fuel)
    (hclosed : ∀ a ∈ reached, ∀ b ∈ next a, b ∈ reached ∨ b ∈ pending) :
    (∀ a, a ∈ reached ∨ a ∈ pending → a ∈ search next fuel pending reached) ∧
      ∀ a ∈ search next fuel pending reached, ∀ b ∈ next a,
        b ∈ search next fuel pending reached := by
  induction fuel generalizing pending reached with
  | zero =>
      have hempty : pending = [] := by
        unfold measure at hfuel
        exact length_eq_zero_iff.mp (by omega)
      subst hempty
      simpa [search] using hclosed
  | succ fuel ih =>
      cases pending with
      | nil => simpa [search] using hclosed
      | cons a pending =>
          -- an element that was noted is dropped; any other is noted, and its targets pushed
          by_cases hold : a ∈ reached
          · have hsmaller : measure next nodes pending reached ≤ fuel := by
              simp only [measure, length_cons] at hfuel ⊢
              omega
            rw [search, if_pos hold]
            obtain ⟨hincluded, hresult⟩ := ih hsmaller fun x hx b hb => by
              rcases hclosed x hx b hb with hb | hb
              · exact .inl hb
              · rcases mem_cons.mp hb with rfl | hb
                · exact .inl hold
                · exact .inr hb
            refine ⟨fun x hx => hincluded x ?_, hresult⟩
            rcases hx with hx | hx
            · exact .inl hx
            · rcases mem_cons.mp hx with rfl | hx
              · exact .inl hold
              · exact .inr hx
          · have hsmaller : measure next nodes ((next a).reverse ++ pending) (a :: reached) ≤
                fuel := by
              have hmeasure := measure_cons hnodes hold pending
              omega
            rw [search, if_neg hold]
            obtain ⟨hincluded, hresult⟩ := ih hsmaller fun x hx b hb => by
              rcases mem_cons.mp hx with rfl | hx
              · -- what is next to the element was pushed
                exact .inr (mem_append_left _ (mem_reverse.mpr hb))
              · rcases hclosed x hx b hb with hb | hb
                · exact .inl (mem_cons_of_mem _ hb)
                · rcases mem_cons.mp hb with rfl | hb
                  · exact .inl mem_cons_self
                  · exact .inr (mem_append_right _ hb)
            refine ⟨fun x hx => hincluded x ?_, hresult⟩
            rcases hx with hx | hx
            · exact .inl (mem_cons_of_mem _ hx)
            · rcases mem_cons.mp hx with rfl | hx
              · exact .inl mem_cons_self
              · exact .inr (mem_append_right _ hx)

/-- **A search reaches all that a chain from its start leads to.** -/
theorem mem_search_of_chain (hnodes : ∀ a ∉ nodes, next a = []) {fuel : ℕ} {start a : α}
    (hfuel : measure next nodes [start] [] ≤ fuel)
    (hchain : Relation.ReflTransGen (fun a b => b ∈ next a) start a) :
    a ∈ search next fuel [start] [] := by
  obtain ⟨hincluded, hclosed⟩ := search_closed hnodes hfuel fun x hx => by cases hx
  induction hchain with
  | refl => exact hincluded start (.inr mem_cons_self)
  | tail _ hnext ih => exact hclosed _ ih _ hnext

end Jadren.Search
