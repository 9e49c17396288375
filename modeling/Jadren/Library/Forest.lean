import Mathlib.Data.List.Nodup
import Mathlib.Order.Lattice

/-!
# Forests of child lists

Every node has a list of children.  In a forest a node stands once in one list at most, and a
child has a higher rank than its parent.

A traversal comes to a node before its children and to these in their order.  It comes to
the descendants of the nodes where it starts (`Visits.mem_iff`), and to none of them twice
(`Visits.nodup`).
-/

namespace Jadren

variable {ι : Type*}

/-- `i` is `a` or below it. -/
def Descends (children : ι → List ι) (a i : ι) : Prop :=
  Relation.ReflTransGen (fun p c => c ∈ children p) a i

structure Forest (children : ι → List ι) (rank : ι → ℕ) : Prop where
  nodup : ∀ p, (children p).Nodup
  unique : ∀ p q c, c ∈ children p → c ∈ children q → p = q
  rank_lt : ∀ p c, c ∈ children p → rank p < rank c

/-- Nothing is below both. -/
def Apart (children : ι → List ι) (a b : ι) : Prop :=
  ∀ i, ¬ (Descends children a i ∧ Descends children b i)

namespace Forest

variable {children : ι → List ι} {rank : ι → ℕ} {a b c i p : ι}

variable (h : Forest children rank)
include h

theorem rank_le (hai : Descends children a i) : rank a ≤ rank i := by
  induction hai with
  | refl => exact le_rfl
  | tail _ hc ih => exact ih.trans (h.rank_lt _ _ hc).le

/-- What is above a node is a chain. -/
theorem total (ha : Descends children a i)
    (hb : Descends children b i) : Descends children a b ∨ Descends children b a := by
  have hright : Relator.RightUnique (Function.swap fun p c => c ∈ children p) :=
    fun c p q hp hq => h.unique p q c hp hq
  rcases Relation.ReflTransGen.total_of_right_unique hright ha.swap hb.swap with hba | hab
  · exact .inr hba.swap
  · exact .inl hab.swap

theorem not_descends_sibling (ha : a ∈ children p)
    (hb : b ∈ children p) (hne : a ≠ b) : ¬ Descends children a b := by
  intro hab
  rcases hab.cases_tail with rfl | ⟨q, haq, hbq⟩
  · exact hne rfl
  · obtain rfl := h.unique q p b hbq hb
    exact absurd (h.rank_le haq) (not_le.mpr (h.rank_lt q a ha))

theorem apart (ha : a ∈ children p) (hb : b ∈ children p)
    (hne : a ≠ b) : Apart children a b := by
  intro i hi
  rcases h.total hi.1 hi.2 with hab | hba
  · exact h.not_descends_sibling ha hb hne hab
  · exact h.not_descends_sibling hb ha hne.symm hba

theorem pairwise_apart (p : ι) :
    (children p).Pairwise (Apart children) := by
  refine List.Pairwise.imp_of_mem ?_ (h.nodup p)
  intro a b ha hb hne
  exact h.apart ha hb hne

theorem not_descends_parent (hc : c ∈ children p) :
    ¬ Descends children c p :=
  fun hcp => absurd (h.rank_le hcp) (not_le.mpr (h.rank_lt p c hc))

omit h

section Insert

variable [DecidableEq ι]

theorem mem_insert {q : ι} : i ∈ Function.update children p (children p ++ [c]) q ↔
    i ∈ children q ∨ q = p ∧ i = c := by
  by_cases hq : q = p
  · subst hq
    simp
  · simp [hq]

/-- A node that stands in no list becomes the last child of another. -/
theorem insert (h : Forest children rank) (hfresh : ∀ q, c ∉ children q)
    (hrank : rank p < rank c) :
    Forest (Function.update children p (children p ++ [c])) rank where
  nodup q := by
    by_cases hq : q = p
    · subst hq
      rw [Function.update_self, List.nodup_append_comm, List.singleton_append, List.nodup_cons]
      exact ⟨hfresh q, h.nodup q⟩
    · rw [Function.update_of_ne hq]
      exact h.nodup q
  unique q r i hq hr := by
    rcases mem_insert.mp hq with hq | ⟨hqp, hqi⟩
    · rcases mem_insert.mp hr with hr | ⟨-, hri⟩
      · exact h.unique q r i hq hr
      · exact absurd hq (hri ▸ hfresh q)
    · rcases mem_insert.mp hr with hr | ⟨hrp, -⟩
      · exact absurd hr (hqi ▸ hfresh r)
      · rw [hqp, hrp]
  rank_lt q i hi := by
    rcases mem_insert.mp hi with hi | ⟨rfl, rfl⟩
    · exact h.rank_lt q i hi
    · exact hrank

theorem descends_insert (h : Descends children a i) :
    Descends (Function.update children p (children p ++ [c])) a i := by
  have hmono : ∀ q i, i ∈ children q → i ∈ Function.update children p (children p ++ [c]) q :=
    fun q i hi => mem_insert.mpr (.inl hi)
  exact Relation.ReflTransGen.mono hmono a i h

end Insert

end Forest

/-- The nodes to which a traversal from the given nodes comes, in its order. -/
inductive Visits (children : ι → List ι) : List ι → List ι → Prop
  | nil : Visits children [] []
  | cons {i : ι} {rest below others : List ι} (hbelow : Visits children (children i) below)
      (hothers : Visits children rest others) : Visits children (i :: rest) (i :: (below ++ others))

namespace Visits

variable {children : ι → List ι} {rank : ι → ℕ} {starts visited : List ι} {i : ι}

theorem single {below : List ι} (h : Visits children (children i) below) :
    Visits children [i] (i :: below) := by
  have hall := Visits.cons h .nil
  rwa [List.append_nil] at hall

theorem append {starts' visited' : List ι} (h : Visits children starts visited)
    (h' : Visits children starts' visited') :
    Visits children (starts ++ starts') (visited ++ visited') := by
  induction h with
  | nil => exact h'
  | cons hbelow _ _ ih =>
      rw [List.cons_append, List.cons_append, List.append_assoc]
      exact .cons hbelow ih

theorem mem_iff (h : Visits children starts visited) :
    i ∈ visited ↔ ∃ a ∈ starts, Descends children a i := by
  induction h with
  | nil => simp
  | @cons a rest below others _ _ ihbelow ihothers =>
      have hroot : Descends children a i ↔ i = a ∨ ∃ c ∈ children a, Descends children c i := by
        constructor
        · intro hi
          rcases hi.cases_head with rfl | ⟨c, hc, hi⟩
          · exact .inl rfl
          · exact .inr ⟨c, hc, hi⟩
        · intro hi
          obtain rfl | ⟨c, hc, hi⟩ := hi
          · exact .refl
          · exact .head hc hi
      rw [List.mem_cons, List.mem_append, ihbelow, ihothers, ← or_assoc, ← hroot]
      simp

/-- A traversal of a forest from nodes that are apart comes to no node twice. -/
theorem nodup (hforest : Forest children rank) (h : Visits children starts visited)
    (hstarts : starts.Pairwise (Apart children)) : visited.Nodup := by
  induction h with
  | nil => exact List.nodup_nil
  | @cons a rest below others hbelow hothers ihbelow ihothers =>
      obtain ⟨hapart, hrest⟩ := List.pairwise_cons.mp hstarts
      have hdown : ∀ i ∈ below, Descends children a i := by
        intro i hi
        obtain ⟨c, hc, hci⟩ := hbelow.mem_iff.mp hi
        exact .head hc hci
      have hside : ∀ i ∈ others, ¬ Descends children a i := by
        intro i hi hai
        obtain ⟨b, hb, hbi⟩ := hothers.mem_iff.mp hi
        exact hapart b hb i ⟨hai, hbi⟩
      have hself : a ∉ below := by
        intro ha
        obtain ⟨c, hc, hca⟩ := hbelow.mem_iff.mp ha
        exact hforest.not_descends_parent hc hca
      refine List.nodup_cons.mpr ⟨?_, List.nodup_append'.mpr ⟨ihbelow (hforest.pairwise_apart a),
        ihothers hrest, ?_⟩⟩
      · intro ha
        rcases List.mem_append.mp ha with ha | ha
        · exact hself ha
        · exact hside a ha .refl
      · intro i hi hi'
        exact hside i hi' (hdown i hi)

end Visits

end Jadren
