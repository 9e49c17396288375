import Jadren.Jir.Accepted

/-!
# The two dominator computations

The verifier and the optimizer each compute dominator sets from the predecessors of the blocks,
with a loop that runs until a sweep over the blocks changes nothing.  The one intersects the sets
of the predecessors beginning with the first, the other beginning with all blocks.

Both loops end with the same sets.  A block in the set of a block lies on every path to it, and
the other way around when every block is reachable: the blocks that lie on every path are never
removed, since a predecessor that no path leads to is the only reason to remove one.
-/

namespace Jadren.Jir

open Dominance (Path Reachable)
open List

/-- The predecessors of each block, which are blocks themselves. -/
structure FlowGraph where
  predecessors : List (List ℕ)
  bound : ∀ incoming ∈ predecessors, ∀ predecessor ∈ incoming, predecessor < predecessors.length

/-- The dominators of the verifier. -/
def dominators (fuel blockCount : ℕ) (predecessors : List (List ℕ)) :
    Option (List (Finset ℕ)) :=
  if blockCount = 0 then some []
  else
    Dominance.sweeps (Function.refineDominators fun block => predecessors.getD block []) blockCount
      fuel ({0} :: replicate (blockCount - 1) (Finset.range blockCount))

/-- What the optimizer computes for a block. -/
def nextDominators (predecessors : List (List ℕ)) (dominators : List (Finset ℕ)) (block : ℕ) :
    Finset ℕ :=
  insert block
    (if predecessors.getD block [] = [] then ∅
    else
      (predecessors.getD block []).foldl
        (fun next predecessor => next ∩ dominators.getD predecessor ∅)
        (Finset.range predecessors.length))

/-- The dominators of the optimizer. -/
def computeDominators (fuel : ℕ) (predecessors : List (List ℕ)) : Option (List (Finset ℕ)) :=
  Dominance.sweeps (nextDominators predecessors) predecessors.length fuel
    ((replicate predecessors.length (Finset.range predecessors.length)).set 0 {0})

namespace FlowGraph

variable (g : FlowGraph)

def count : ℕ := g.predecessors.length

/-- The predecessors of a block. -/
def incoming (block : ℕ) : List ℕ := g.predecessors.getD block []

def Edge (source target : ℕ) : Prop := source ∈ g.incoming target

/-- The blocks that every path from the entry to a block goes through, the block included. -/
def OnEveryPath (d block : ℕ) : Prop :=
  ∀ visited, Path g.Edge visited block → d ∈ visited ∨ d = block

variable {g}

variable {block : ℕ}

theorem incoming_lt {p : ℕ} (h : p ∈ g.incoming block) : p < g.count := by
  by_cases hlt : block < g.predecessors.length
  · have hget : g.incoming block = g.predecessors[block] := by
      simp [incoming, getD_eq_getElem?_getD, hlt]
    exact g.bound _ (getElem_mem hlt) p (hget ▸ h)
  · simp [incoming, getD_eq_getElem?_getD, getElem?_eq_none (not_lt.mp hlt)] at h

theorem incoming_eq_nil (h : g.count ≤ block) : g.incoming block = [] := by
  have hlen : g.predecessors.length ≤ block := h
  simp [incoming, getD_eq_getElem?_getD, getElem?_eq_none hlen]

/-- A reachable block other than the entry has a predecessor, and its predecessors are blocks. -/
theorem exists_incoming (hreach : Reachable g.Edge block) (hne : block ≠ 0) :
    g.incoming block ≠ [] := by
  obtain ⟨visited, path⟩ := hreach
  cases path with
  | entry => exact absurd rfl hne
  | step path hedge => exact ne_nil_of_mem hedge

/-! ## The loops -/

/-- What the sets are at every stage of the loops. -/
structure Stage (g : FlowGraph) (sets : List (Finset ℕ)) : Prop where
  length : sets.length = g.count
  range : ∀ block, sets.getD block ∅ ⊆ Finset.range g.count

variable {sets : List (Finset ℕ)}

theorem getD_set {other : ℕ} {refined : Finset ℕ} :
    (sets.set block refined).getD other ∅ =
      if other = block ∧ block < sets.length then refined else sets.getD other ∅ := by
  by_cases hsame : other = block
  · subst hsame
    by_cases hlt : other < sets.length <;> simp [getD_eq_getElem?_getD, hlt]
  · simp [getD_eq_getElem?_getD, hsame, Ne.symm hsame]

theorem Stage.refine (h : g.Stage sets) (hlt : block < g.count) :
    Function.refineDominators g.incoming sets block ⊆ Finset.range g.count := by
  intro d hd
  obtain rfl | ⟨hne, hall⟩ := Function.mem_refineDominators.mp hd
  · exact Finset.mem_range.mpr hlt
  · obtain ⟨p, hp⟩ := exists_mem_of_ne_nil _ hne
    exact h.range p (hall p hp)

theorem Stage.set (h : g.Stage sets) (hlt : block < g.count) :
    g.Stage (sets.set block (Function.refineDominators g.incoming sets block)) where
  length := by rw [length_set, h.length]
  range other := by
    rw [getD_set]
    split
    · exact h.refine hlt
    · exact h.range other

/-- Beginning with all blocks makes no difference among sets of blocks. -/
theorem Stage.next_eq (h : g.Stage sets) :
    Function.refineDominators g.incoming sets block = nextDominators g.predecessors sets block := by
  rw [Function.refineDominators, nextDominators]
  show _ = insert block (if g.incoming block = [] then ∅ else
    (g.incoming block).foldl _ (Finset.range g.count))
  cases g.incoming block with
  | nil => rfl
  | cons first rest =>
      have hfirst : Finset.range g.count ∩ sets.getD first ∅ = sets.getD first ∅ :=
        Finset.inter_eq_right.mpr (h.range first)
      rw [if_neg (cons_ne_nil first rest), foldl_cons, hfirst]

theorem stage_candidates (hcount : 0 < g.count) : g.Stage (Dominance.candidates g.count) where
  length := by
    simp only [Dominance.candidates, length_cons, length_replicate]
    omega
  range block := by
    cases block with
    | zero =>
        intro d hd
        obtain rfl : d = 0 := by simpa [Dominance.candidates] using hd
        exact Finset.mem_range.mpr hcount
    | succ =>
        simp only [Dominance.candidates, getD_eq_getElem?_getD, getElem?_cons_succ,
          getElem?_replicate]
        split <;> simp

/-- The sets the optimizer begins with are those of the verifier. -/
theorem set_replicate (hcount : 0 < g.count) :
    (replicate g.count (Finset.range g.count)).set 0 {0} = Dominance.candidates g.count := by
  obtain ⟨n, hn⟩ : ∃ n, g.count = n + 1 := ⟨g.count - 1, by omega⟩
  rw [hn, replicate_succ, set_cons_zero]
  rfl

/-- The two loops make the same sweeps. -/
theorem computeDominators_eq (g : FlowGraph) (fuel : ℕ) (hfuel : 0 < fuel) :
    computeDominators fuel g.predecessors = dominators fuel g.count g.predecessors := by
  by_cases hcount : g.count = 0
  · obtain ⟨more, rfl⟩ : ∃ more, fuel = more + 1 := ⟨fuel - 1, by omega⟩
    have hnil : g.predecessors = [] := length_eq_zero_iff.mp hcount
    rw [dominators, if_pos hcount, computeDominators, hnil]
    rfl
  · have hpos : 0 < g.count := by omega
    rw [dominators, if_neg hcount, computeDominators]
    show Dominance.sweeps _ g.count fuel _ = Dominance.sweeps _ g.count fuel
      (Dominance.candidates g.count)
    rw [← set_replicate hpos]
    refine (Dominance.sweeps_congr (P := g.Stage) ?_ ?_ fuel ?_).symm
    · exact fun sets block _ hlt h => h.set hlt
    · exact fun sets block _ _ h => h.next_eq
    · show g.Stage ((replicate g.count (Finset.range g.count)).set 0 {0})
      rw [set_replicate hpos]
      exact stage_candidates hpos

/-- The loop of the verifier ends, in sets that it would leave alone. -/
theorem exists_dominators (hcount : 0 < g.count) :
    ∃ sets, (∃ enough, ∀ fuel ≥ enough, dominators fuel g.count g.predecessors = some sets) ∧
      sets.length = g.count ∧ sets.getD 0 ∅ = {0} ∧
      ∀ block, 0 < block → block < g.count →
        Function.refineDominators g.incoming sets block = sets.getD block ∅ := by
  have hrange : ∀ block, 0 < block → block < g.count →
      Function.refineDominators g.incoming (Dominance.candidates g.count) block ⊆
        Finset.range g.count :=
    fun block _ hlt => Function.refineDominators_range hlt
  obtain ⟨href, hfix⟩ := @Dominance.refine_dominators (Function.refineDominators g.incoming)
    g.count Function.refineDominators_mono hrange hcount
  have hloop := (Dominance.refining_candidates hrange hcount).sweeps_eq
    Function.refineDominators_mono (Nat.lt_succ_of_le (Dominance.size_candidates hcount))
  refine ⟨_, ⟨g.count * g.count + 1, fun fuel hfuel => ?_⟩, href.length, href.entry, hfix⟩
  rw [dominators, if_neg (Nat.ne_of_gt hcount)]
  exact Dominance.sweeps_mono hfuel hloop

/-! ## What the sets mean -/

variable {d : ℕ}

/-- A block in a set that the loop leaves alone lies on every path. -/
theorem onEveryPath_of_mem (hentry : sets.getD 0 ∅ = {0})
    (hfix : ∀ block, 0 < block → block < g.count →
      Function.refineDominators g.incoming sets block = sets.getD block ∅)
    (hd : d ∈ sets.getD block ∅) : g.OnEveryPath d block := by
  intro visited path
  refine @Dominance.mem_of_closed g.Edge (fun block => sets.getD block ∅) ?_ ?_ visited block d
    path hd
  · intro e he
    rw [hentry] at he
    exact Finset.mem_singleton.mp he
  · intro source target e hedge he
    obtain rfl | hpos := Nat.eq_zero_or_pos target
    · rw [hentry] at he
      exact .inl (Finset.mem_singleton.mp he)
    · have hlt : target < g.count := by
        by_contra hout
        have hnil := incoming_eq_nil (not_lt.mp hout)
        exact absurd (hnil ▸ hedge : source ∈ []) not_mem_nil
      rw [← hfix target hpos hlt] at he
      exact (Function.mem_refineDominators.mp he).imp_right fun h => h.2 source hedge

/-- What lies on every path to a block lies on every path to its predecessors. -/
theorem OnEveryPath.of_edge {source target : ℕ} (h : g.OnEveryPath d target)
    (hedge : g.Edge source target) (hne : d ≠ target) : g.OnEveryPath d source := by
  intro visited path
  have hmem := (h _ (path.step hedge)).resolve_right hne
  exact (mem_append.mp hmem).imp_right mem_singleton.mp

/-- Only blocks lie on the paths to a reachable block. -/
theorem OnEveryPath.lt_count (h : g.OnEveryPath d block) (hreach : Reachable g.Edge block)
    (hblock : block < g.count) : d < g.count := by
  have hvisited : ∀ (visited : List ℕ) (target : ℕ), Path g.Edge visited target →
      ∀ b ∈ visited, b < g.count := by
    intro visited target path
    induction path with
    | entry => exact fun b hb => absurd hb not_mem_nil
    | step path hedge ih =>
        intro b hb
        obtain hb | hb := mem_append.mp hb
        · exact ih b hb
        · obtain rfl := mem_singleton.mp hb
          exact incoming_lt hedge
  obtain ⟨visited, path⟩ := hreach
  obtain hmem | rfl := h visited path
  · exact hvisited visited block path d hmem
  · exact hblock

/-- With every block reachable, no block that lies on every path is ever removed. -/
theorem mem_of_onEveryPath (hall : ∀ block < g.count, Reachable g.Edge block) {fuel : ℕ}
    (hcount : 0 < g.count) (hsets : dominators fuel g.count g.predecessors = some sets)
    (hblock : block < g.count) (h : g.OnEveryPath d block) : d ∈ sets.getD block ∅ := by
  rw [dominators, if_neg (Nat.ne_of_gt hcount)] at hsets
  refine Dominance.sweeps_invariant (P := fun sets => sets.length = g.count ∧
    ∀ block < g.count, ∀ d, g.OnEveryPath d block → d ∈ sets.getD block ∅) ?_ ?_ hsets |>.2
      block hblock d h
  · intro sets block hpos hlt hkept
    refine ⟨by rw [length_set, hkept.1], fun other hother d hd => ?_⟩
    rw [getD_set]
    split
    · rename_i hsame
      obtain rfl := hsame.1
      -- what is not the block itself lies on every path to its predecessors
      refine Function.mem_refineDominators.mpr ?_
      by_cases heq : d = other
      · exact .inl heq
      · refine .inr ⟨exists_incoming (hall other hlt) (Nat.ne_of_gt hpos), fun p hp => ?_⟩
        exact hkept.2 p (incoming_lt hp) d (hd.of_edge hp heq)
    · exact hkept.2 other hother d hd
  · refine ⟨(stage_candidates hcount).length, fun block hlt d hd => ?_⟩
    cases block with
    | zero =>
        obtain hmem | rfl := hd [] .entry
        · exact absurd hmem not_mem_nil
        · exact Finset.mem_singleton_self 0
    | succ block =>
        have hmem := Finset.mem_range.mpr (hd.lt_count (hall _ hlt) hlt)
        have hn : block < g.count - 1 := by omega
        simpa [getD_eq_getElem?_getD, hn] using hmem

/-- Both loops end with the same sets.  The set of a reachable block has only blocks on every path
to it, and it has all of them when every block is reachable. -/
theorem dominators_exact (g : FlowGraph) :
    ∃ sets, (∃ enough, ∀ fuel ≥ enough,
        dominators fuel g.count g.predecessors = some sets ∧
          computeDominators fuel g.predecessors = some sets) ∧
      sets.length = g.count ∧
      (∀ block < g.count, Reachable g.Edge block →
        ∀ d ∈ sets.getD block ∅, d < g.count ∧ g.OnEveryPath d block) ∧
      ((∀ block < g.count, Reachable g.Edge block) →
        ∀ block < g.count, ∀ d, g.OnEveryPath d block → d ∈ sets.getD block ∅) := by
  obtain hzero | hcount := Nat.eq_zero_or_pos g.count
  · refine ⟨[], ⟨1, fun fuel hfuel => ?_⟩, hzero.symm, fun block hlt => ?_, fun _ block hlt => ?_⟩
    · have hloop : dominators fuel g.count g.predecessors = some [] := by
        rw [dominators, if_pos hzero]
      exact ⟨hloop, computeDominators_eq g fuel hfuel ▸ hloop⟩
    · omega
    · omega
  · obtain ⟨sets, ⟨enough, hloop⟩, hlength, hentry, hfix⟩ := exists_dominators hcount
    refine ⟨sets, ⟨enough + 1, fun fuel hfuel => ?_⟩, hlength, fun block hlt hreach d hd => ?_,
      fun hall block hlt d hd => ?_⟩
    · have hsets := hloop fuel (by omega)
      exact ⟨hsets, computeDominators_eq g fuel (by omega) ▸ hsets⟩
    · have hpath := onEveryPath_of_mem hentry hfix hd
      exact ⟨hpath.lt_count hreach hlt, hpath⟩
    · exact mem_of_onEveryPath hall hcount (hloop enough le_rfl) hlt hd

end FlowGraph

/-! ## Functions -/

namespace Function

variable (f : Function)

/-- The blocks of a function and their predecessors. -/
def flowGraph : FlowGraph where
  predecessors := (List.range f.blocks.length).map f.predecessors
  bound incoming hincoming predecessor hmem := by
    obtain ⟨block, -, rfl⟩ := mem_map.mp hincoming
    obtain ⟨source, hsource, -⟩ := mem_predecessors.mp hmem
    rw [length_map, length_range]
    exact (List.getElem?_eq_some_iff.mp hsource).1

variable {f}

theorem flowGraph_incoming {block : ℕ} (h : block < f.blocks.length) :
    f.flowGraph.incoming block = f.predecessors block := by
  simp [FlowGraph.incoming, flowGraph, getD_eq_getElem?_getD, h]

/-- The dominators that the checks of a function use are those the loops end with. -/
theorem dominators_flowGraph (f : Function) :
    ∃ enough, ∀ fuel ≥ enough,
      Jir.dominators fuel f.blocks.length f.flowGraph.predecessors = some f.dominators := by
  by_cases hcount : f.blocks.length = 0
  · exact ⟨0, fun fuel _ => by rw [Jir.dominators, if_pos hcount, dominators, if_pos hcount]⟩
  · have hpos : 0 < f.blocks.length := by omega
    have hrange : ∀ block, 0 < block → block < f.blocks.length →
        refineDominators f.predecessors (Dominance.candidates f.blocks.length) block ⊆
          Finset.range f.blocks.length :=
      fun block _ hlt => refineDominators_range hlt
    have hloop := (Dominance.refining_candidates hrange hpos).sweeps_eq
      refineDominators_mono (Nat.lt_succ_of_le (Dominance.size_candidates hpos))
    refine ⟨f.blocks.length * f.blocks.length + 1, fun fuel hfuel => ?_⟩
    rw [Jir.dominators, if_neg hcount, dominators, if_neg hcount]
    refine Eq.trans ?_ (Dominance.sweeps_mono hfuel hloop)
    refine Dominance.sweeps_congr (P := fun _ => True) ?_ ?_ fuel trivial
    · exact fun _ _ _ _ _ => trivial
    · intro sets block _ hlt _
      have hsame : f.flowGraph.predecessors.getD block [] = f.predecessors block :=
        flowGraph_incoming hlt
      rw [refineDominators, refineDominators, hsame]

end Function

end Jadren.Jir
