import Jadren.Library.Intervals
import Jadren.Syntax.Tree
import Mathlib.Data.List.Range

/-!
# Nesting the spans

After the checks the spans are non-empty intervals of one file, in the order of `Intervals`.  The
stack holds the node that was read last and the nodes around it (`Upto`), so the node that is
left on top for the next one is its parent, and the nodes that are popped end before it starts.
The pass fails exactly if the family is not laminar.
-/

namespace Jadren.Syntax

open List

/-- Spans that the checks have let through: of the file of the root, inside it, not empty, and
each listed after those that may contain it. -/
structure Prepared (root : Span) (nodes : List NodeSpec) : Prop where
  source : ∀ node ∈ nodes, node.span.source = root.source
  inRoot : ∀ node ∈ nodes, root.start ≤ node.span.start ∧ node.span.stop ≤ root.stop
  nonempty : ∀ node ∈ nodes, node.span.start < node.span.stop
  sorted : nodes.Pairwise fun a b => a.span.start ≤ b.span.start ∧
    (a.span.start = b.span.start → b.span.stop < a.span.stop)

variable {root : Span} {nodes : List NodeSpec}

def Prepared.intervals (h : Prepared root nodes) : Intervals nodes.length ℕ where
  start i := (spanAt nodes i).start
  stop i := (spanAt nodes i).stop
  nonempty i := h.nonempty _ (get_mem nodes i)
  sorted i j hij := pairwise_iff_get.mp h.sorted i j hij

namespace Prepared

variable (h : Prepared root nodes) {p c index : Fin nodes.length}

include h in
theorem source_eq (p c : Fin nodes.length) : (spanAt nodes p).source = (spanAt nodes c).source := by
  unfold spanAt
  rw [h.source _ (get_mem nodes p), h.source _ (get_mem nodes c)]

theorem strictlyContains_iff (hpc : p < c) :
    strictlyContains (spanAt nodes p) (spanAt nodes c) = true ↔ h.intervals.Encloses p c := by
  have hsort := h.intervals.sorted p c hpc
  have hp := h.intervals.nonempty p
  have hc := h.intervals.nonempty c
  simp only [strictlyContains, h.source_eq p c, Intervals.Encloses, intervals, hpc,
    beq_self_eq_true, Bool.true_and, Bool.and_eq_true, Bool.or_eq_true, decide_eq_true_eq, true_and]
      at hsort hp hc ⊢
  omega

theorem spansOverlap_iff (hpc : p < c) :
    spansOverlap (spanAt nodes p) (spanAt nodes c) = true ↔
      h.intervals.start c < h.intervals.stop p := by
  have hsort := h.intervals.sorted p c hpc
  have hc := h.intervals.nonempty c
  simp only [spansOverlap, h.source_eq p c, intervals, beq_self_eq_true, Bool.true_and,
    Bool.and_eq_true, decide_eq_true_eq] at hsort hc ⊢
  omega

end Prepared

/-! ### The stack -/

/-- The popped nodes are apart from the next one, and the node that is left on top contains it. -/
theorem popStack_eq_ok {index : Fin nodes.length} {stack stack' : List (Fin nodes.length)}
    (h : popStack nodes index stack = .ok stack') :
    ∃ popped, stack = popped ++ stack' ∧
      (∀ q ∈ popped, strictlyContains (spanAt nodes q) (spanAt nodes index) = false ∧
        spansOverlap (spanAt nodes q) (spanAt nodes index) = false) ∧
      ∀ p ∈ stack'.head?, strictlyContains (spanAt nodes p) (spanAt nodes index) = true := by
  induction stack with
  | nil =>
      obtain rfl : [] = stack' := by simpa [popStack] using h
      exact ⟨[], rfl, by simp, by simp⟩
  | cons parent rest ih =>
      simp only [popStack] at h
      split at h
      next hcontains =>
        obtain rfl : parent :: rest = stack' := by simpa using h
        exact ⟨[], rfl, by simp, by simpa using hcontains⟩
      next hcontains =>
        split at h
        · cases h
        next hoverlap =>
          obtain ⟨popped, rfl, hpopped, hhead⟩ := ih h
          refine ⟨parent :: popped, rfl, forall_mem_cons.mpr ⟨?_, hpopped⟩, hhead⟩
          exact ⟨Bool.eq_false_iff.mpr hcontains, Bool.eq_false_iff.mpr hoverlap⟩

theorem popStack_eq_error {index : Fin nodes.length} {stack : List (Fin nodes.length)}
    {e : SyntaxBuildError} (h : popStack nodes index stack = .error e) :
    ∃ q ∈ stack, strictlyContains (spanAt nodes q) (spanAt nodes index) = false ∧
      spansOverlap (spanAt nodes q) (spanAt nodes index) = true := by
  induction stack with
  | nil => simp [popStack] at h
  | cons parent rest ih =>
      simp only [popStack] at h
      split at h
      · cases h
      next hcontains =>
        split at h
        next hoverlap => exact ⟨parent, mem_cons_self, by simpa using hcontains, hoverlap⟩
        next =>
          obtain ⟨q, hq, hcross⟩ := ih h
          exact ⟨q, mem_cons_of_mem parent hq, hcross⟩

/-- What is known when the nodes before `k` have been nested. -/
structure Upto {n : ℕ} (I : Intervals n ℕ) (k : ℕ) (nesting : Nesting n) : Prop where
  laminar : ∀ p c, p < c → c.val < k → I.Encloses p c ∨ I.stop p ≤ I.start c
  stack_mem : ∀ q, q ∈ nesting.stack ↔ ∃ last : Fin n, last.val + 1 = k ∧
    (q = last ∨ I.Encloses q last)
  stack_sorted : nesting.stack.Pairwise (· > ·)
  children_mem : ∀ p c, c ∈ nesting.directChildren p ↔ c.val < k ∧ I.IsParent p c
  children_sorted : ∀ p, (nesting.directChildren p).Pairwise (· < ·)
  root_mem : ∀ c, c ∈ nesting.rootChildren ↔ c.val < k ∧ I.IsRoot c
  root_sorted : nesting.rootChildren.Pairwise (· < ·)

theorem Upto.empty {n : ℕ} (I : Intervals n ℕ) : Upto I 0 (Nesting.empty n) := by
  constructor <;> simp [Nesting.empty]

namespace Upto

variable {n : ℕ} {I : Intervals n ℕ} {nesting : Nesting n} {index p q : Fin n}

theorem of_mem_stack (h : Upto I index nesting) (hq : q ∈ nesting.stack) : q < index := by
  obtain ⟨last, hlast, rfl | hq⟩ := (h.stack_mem q).mp hq
  · exact Fin.lt_def.mpr (by omega)
  · exact hq.1.trans (Fin.lt_def.mpr (by omega))

/-- A node that has been taken off the stack ends before the last one starts. -/
theorem stop_le (h : Upto I index nesting) (hq : q < index) (hmem : q ∉ nesting.stack) :
    I.stop q ≤ I.start index := by
  have hpos : index.val - 1 + 1 = index.val := by have := Fin.lt_def.mp hq; omega
  obtain ⟨last, hlast⟩ : ∃ last : Fin n, last.val + 1 = index :=
    ⟨⟨index.val - 1, by have := index.isLt; omega⟩, hpos⟩
  have hne : q ≠ last := fun he => hmem ((h.stack_mem q).mpr ⟨last, hlast, .inl he⟩)
  have hlt : q < last :=
    lt_of_le_of_ne (Fin.le_def.mpr (by have := Fin.lt_def.mp hq; omega)) hne
  rcases h.laminar q last hlt (by omega) with henc | hstop
  · exact absurd ((h.stack_mem q).mpr ⟨last, hlast, .inr henc⟩) hmem
  · exact hstop.trans (Intervals.start_le (Fin.le_def.mpr (by omega)))

/-- Every node around the next one is on the stack. -/
theorem mem_stack_of_encloses (h : Upto I index nesting) (hq : I.Encloses q index) :
    q ∈ nesting.stack := by
  by_contra hmem
  exact absurd (h.stop_le hq.1 hmem) (not_le.mpr hq.start_lt_stop)

/-- Of two nodes on the stack the lower one encloses the upper one. -/
theorem stack_encloses (h : Upto I index nesting) (hp : p ∈ nesting.stack)
    (hq : q ∈ nesting.stack) (hqp : q < p) : I.Encloses q p := by
  rcases h.laminar q p hqp (h.of_mem_stack hp) with henc | hstop
  · exact henc
  · obtain ⟨last, hlast, hq'⟩ := (h.stack_mem q).mp hq
    obtain ⟨last', hlast', hp'⟩ := (h.stack_mem p).mp hp
    obtain rfl : last = last' := Fin.ext (by omega)
    -- both are around the node read last
    have hple : p ≤ last := by rcases hp' with rfl | hp'; exacts [le_rfl, hp'.1.le]
    rcases hq' with rfl | hq'
    · exact absurd (hple.trans_lt hqp) (lt_irrefl _)
    · have hlt : I.stop q < I.stop q :=
        calc I.stop q ≤ I.start p := hstop
          _ ≤ I.start last := Intervals.start_le hple
          _ < I.stop q := hq'.start_lt_stop
      exact absurd hlt (lt_irrefl _)

end Upto

namespace Nesting

variable {n : ℕ} (nesting : Nesting n) (index : Fin n) (stack : List (Fin n)) {p : Fin n}

theorem push_directChildren (p : Fin n) :
    (nesting.push index stack).directChildren p =
      nesting.directChildren p ++ if stack.head? = some p then [index] else [] := by
  cases stack with
  | nil => simp [push]
  | cons parent =>
      rcases eq_or_ne parent p with rfl | hne
      · simp [push]
      · simp [push, hne, Function.update_of_ne hne.symm]

theorem push_rootChildren :
    (nesting.push index stack).rootChildren =
      nesting.rootChildren ++ if stack = [] then [index] else [] := by
  cases stack <;> simp [push]

end Nesting

theorem pairwise_append_last {n : ℕ} {index : Fin n} {xs : List (Fin n)} {P : Prop} [Decidable P]
    (hxs : xs.Pairwise (· < ·)) (hlt : ∀ c ∈ xs, c.val < index.val) :
    (xs ++ if P then [index] else []).Pairwise (· < ·) := by
  refine pairwise_append.mpr ⟨hxs, by split <;> simp, fun c hc d hd => ?_⟩
  obtain rfl : d = index := by
    split at hd
    · exact mem_singleton.mp hd
    · exact absurd hd not_mem_nil
  exact Fin.lt_def.mpr (hlt c hc)

section Step

variable (h : Prepared root nodes) {index : Fin nodes.length} {nesting : Nesting nodes.length}
  {stack : List (Fin nodes.length)}

/-- After popping exactly the nodes around the next one are left. -/
theorem mem_popStack_iff (hupto : Upto h.intervals index nesting)
    (hpop : popStack nodes index nesting.stack = .ok stack) (q : Fin nodes.length) :
    q ∈ stack ↔ h.intervals.Encloses q index := by
  obtain ⟨popped, hstack, hpopped, hhead⟩ := popStack_eq_ok hpop
  constructor
  · intro hq
    cases stack with
    | nil => exact absurd hq not_mem_nil
    | cons p =>
        have hp : p ∈ nesting.stack := by simp [hstack]
        have htop : h.intervals.Encloses p index :=
          (h.strictlyContains_iff (hupto.of_mem_stack hp)).mp (hhead p rfl)
        rcases mem_cons.mp hq with rfl | hrest
        · exact htop
        · have hsorted := (hstack ▸ hupto.stack_sorted).sublist (sublist_append_right _ _)
          have hlt : q < p := (pairwise_cons.mp hsorted).1 q hrest
          exact (hupto.stack_encloses hp (by simp [hstack, hrest]) hlt).trans htop
  · intro hq
    have hmem := hupto.mem_stack_of_encloses hq
    rw [hstack] at hmem
    rcases mem_append.mp hmem with hmem | hmem
    · have hcontains := (h.strictlyContains_iff hq.1).mpr hq
      rw [(hpopped q hmem).1] at hcontains
      exact absurd hcontains (by decide)
    · exact hmem

/-- Every earlier node contains the next one or ends before it. -/
theorem laminar_of_popStack (hupto : Upto h.intervals index nesting)
    (hpop : popStack nodes index nesting.stack = .ok stack) {q : Fin nodes.length}
    (hq : q < index) :
    h.intervals.Encloses q index ∨ h.intervals.stop q ≤ h.intervals.start index := by
  by_cases hstack : q ∈ stack
  · exact .inl ((mem_popStack_iff h hupto hpop q).mp hstack)
  refine .inr ?_
  by_cases hmem : q ∈ nesting.stack
  · obtain ⟨popped, hsplit, hpopped, -⟩ := popStack_eq_ok hpop
    rw [hsplit] at hmem
    have hout := (hpopped q ((mem_append.mp hmem).resolve_right hstack)).2
    rwa [← Bool.not_eq_true, h.spansOverlap_iff hq, not_lt] at hout
  · exact hupto.stop_le hq hmem

theorem Upto.push (hupto : Upto h.intervals index nesting)
    (hpop : popStack nodes index nesting.stack = .ok stack) :
    Upto h.intervals (index.val + 1) (nesting.push index stack) := by
  have hmem := mem_popStack_iff h hupto hpop
  have hsorted : stack.Pairwise (· > ·) := by
    obtain ⟨popped, hstack, -, -⟩ := popStack_eq_ok hpop
    exact (hstack ▸ hupto.stack_sorted).sublist (sublist_append_right _ _)
  have hnew : (nesting.push index stack).stack = index :: stack := by
    cases stack <;> rfl
  -- the top of the stack is the parent, and without one the node is a root
  have hparent : ∀ p, stack.head? = some p ↔ h.intervals.IsParent p index := by
    intro p
    cases stack with
    | nil => simpa using fun hp : h.intervals.IsParent p index => (hmem p).mpr hp.1
    | cons top =>
        have htop : h.intervals.IsParent top index := by
          refine ⟨(hmem top).mp mem_cons_self, fun q hq => ?_⟩
          rcases mem_cons.mp ((hmem q).mpr hq) with rfl | hrest
          · exact le_rfl
          · exact ((pairwise_cons.mp hsorted).1 q hrest).le
        rw [head?_cons, Option.some.injEq]
        exact ⟨fun he => he ▸ htop, fun hp => htop.unique hp⟩
  have hroot : stack = [] ↔ h.intervals.IsRoot index := by
    rw [eq_nil_iff_forall_not_mem]
    exact forall_congr' fun q => not_congr (hmem q)
  have hlast : ∀ c : Fin nodes.length, c.val < index.val + 1 ↔ c.val < index.val ∨ c = index := by
    intro c
    rw [Nat.lt_succ_iff_lt_or_eq, Fin.ext_iff]
  refine ⟨?_, ?_, ?_, ?_, ?_, ?_, ?_⟩
  · intro p c hpc hc
    rcases (hlast c).mp hc with hc | rfl
    · exact hupto.laminar p c hpc hc
    · exact laminar_of_popStack h hupto hpop hpc
  · intro q
    rw [hnew, mem_cons, hmem q]
    constructor
    · exact fun hq => ⟨index, rfl, hq⟩
    · rintro ⟨last, hlast, hq⟩
      obtain rfl : last = index := Fin.ext (by omega)
      exact hq
  · rw [hnew, pairwise_cons]
    exact ⟨fun q hq => ((hmem q).mp hq).1, hsorted⟩
  · intro p c
    rw [Nesting.push_directChildren, mem_append, hupto.children_mem, hlast, or_and_right,
      mem_ite_nil_right, mem_singleton, hparent]
    refine or_congr Iff.rfl ⟨?_, ?_⟩
    · rintro ⟨hp, rfl⟩
      exact ⟨rfl, hp⟩
    · rintro ⟨rfl, hp⟩
      exact ⟨hp, rfl⟩
  · intro p
    rw [Nesting.push_directChildren]
    exact pairwise_append_last (hupto.children_sorted p) fun c hc =>
      ((hupto.children_mem p c).mp hc).1
  · intro c
    rw [Nesting.push_rootChildren, mem_append, hupto.root_mem, hlast, or_and_right,
      mem_ite_nil_right, mem_singleton, hroot]
    refine or_congr Iff.rfl ⟨?_, ?_⟩
    · rintro ⟨hr, rfl⟩
      exact ⟨rfl, hr⟩
    · rintro ⟨rfl, hr⟩
      exact ⟨hr, rfl⟩
  · rw [Nesting.push_rootChildren]
    exact pairwise_append_last hupto.root_sorted fun c hc => ((hupto.root_mem c).mp hc).1

/-- Where the stack cannot be popped the family is not laminar. -/
theorem not_laminar_of_popStack (hupto : Upto h.intervals index nesting) {e : SyntaxBuildError}
    (hpop : popStack nodes index nesting.stack = .error e) : ¬ h.intervals.Laminar := by
  obtain ⟨q, hq, hcontains, hoverlap⟩ := popStack_eq_error hpop
  have hlt := hupto.of_mem_stack hq
  rw [← Bool.not_eq_true, h.strictlyContains_iff hlt] at hcontains
  rw [h.spansOverlap_iff hlt] at hoverlap
  intro hlaminar
  rcases hlaminar q index hlt with henc | hstop
  · exact hcontains henc
  · exact absurd hoverlap (not_lt.mpr hstop)

/-- The loop from `k` on: it ends with everything nested, or meets crossing nodes. -/
theorem foldlM_nestStep {k : ℕ} {indices : List (Fin nodes.length)}
    (hupto : Upto h.intervals k nesting)
    (hindices : indices.map Fin.val = range' k indices.length)
    (hend : k + indices.length = nodes.length) :
    (∃ nested, indices.foldlM (nestStep nodes) nesting = .ok nested ∧
        Upto h.intervals nodes.length nested) ∨
      (∃ e, indices.foldlM (nestStep nodes) nesting = .error e) ∧ ¬ h.intervals.Laminar := by
  induction indices generalizing k nesting with
  | nil =>
      obtain rfl : k = nodes.length := hend
      exact .inl ⟨nesting, rfl, hupto⟩
  | cons index indices ih =>
      rw [map_cons, length_cons, range'_succ] at hindices
      obtain ⟨rfl, hrest⟩ := cons.inj hindices
      rw [foldlM_cons]
      cases hpop : popStack nodes index nesting.stack with
      | error e =>
          refine .inr ⟨⟨e, ?_⟩, not_laminar_of_popStack h hupto hpop⟩
          simp only [nestStep, hpop]
          rfl
      | ok stack =>
          have hstep : nestStep nodes nesting index = .ok (nesting.push index stack) := by
            simp only [nestStep, hpop]
            rfl
          rw [hstep]
          exact ih (hupto.push h hpop) hrest (by rw [length_cons] at hend; omega)

end Step

/-- The spans are nested exactly if they are laminar, each under its parent. -/
theorem nest_cases (h : Prepared root nodes) :
    (∃ nesting, nest nodes = .ok nesting ∧ Upto h.intervals nodes.length nesting) ∨
      (∃ e, nest nodes = .error e) ∧ ¬ h.intervals.Laminar := by
  refine foldlM_nestStep h (Upto.empty h.intervals) ?_ (by simp)
  simp [range_eq_range']

theorem Upto.isLaminar {n : ℕ} {I : Intervals n ℕ} {nesting : Nesting n} (h : Upto I n nesting) :
    I.Laminar := fun p c hpc => h.laminar p c hpc c.isLt

end Jadren.Syntax
