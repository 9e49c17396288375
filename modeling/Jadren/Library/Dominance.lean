import Mathlib.Algebra.Order.BigOperators.Group.List
import Mathlib.Data.Finset.Card
import Mathlib.Tactic.Ring

/-!
# Dominance in a control-flow graph

Blocks are numbers and the entry is block `0`.  A point is a position inside a
block.  `Precedes p q` says that control passes `p` before it is at `q`, on
every path from the entry: either the block of `p` was left before, or `p` lies
earlier in the block of `q`.  On reachable points this is a strict order, and it
is the only fact about definitions and uses that arguments about SSA need.

The second half is the iterative computation of dominator sets: all blocks but
the entry start with every block as a candidate, and sweeps over the blocks
refine the candidates in place until a sweep changes nothing.  The refinement is
a parameter; it has to be monotone.  `refine_dominators` says that the sweeps
end in sets the refinement leaves alone, and `mem_of_closed` that sets closed in
this way contain only blocks that lie on every path.
-/

namespace Jadren.Dominance

open List

/-! ## Paths and points -/

section Paths

variable {edge : ℕ → ℕ → Prop}

/-- A path from the entry to a block, with the blocks left on the way. -/
inductive Path (edge : ℕ → ℕ → Prop) : List ℕ → ℕ → Prop
  | entry : Path edge [] 0
  | step {visited : List ℕ} {b t : ℕ} (path : Path edge visited b) (hedge : edge b t) :
      Path edge (visited ++ [b]) t

/-- A block some path leads to. -/
def Reachable (edge : ℕ → ℕ → Prop) (b : ℕ) : Prop := ∃ visited, Path edge visited b

theorem Reachable.step {b t : ℕ} (hreach : Reachable edge b) (hedge : edge b t) :
    Reachable edge t := by
  obtain ⟨visited, path⟩ := hreach
  exact ⟨visited ++ [b], path.step hedge⟩

/-- A path is also a path to each block it leaves, and a shorter one. -/
theorem Path.before {visited : List ℕ} {b d : ℕ} (path : Path edge visited b)
    (hd : d ∈ visited) :
    ∃ earlier, Path edge earlier d ∧ earlier.length < visited.length ∧ earlier ⊆ visited := by
  induction path with
  | entry => simp at hd
  | @step visited b t path hedge ih =>
      rcases mem_append.mp hd with hold | hlast
      · obtain ⟨earlier, hpath, hlen, hsub⟩ := ih hold
        refine ⟨earlier, hpath, by simp; omega, fun x hx => ?_⟩
        exact mem_append_left _ (hsub hx)
      · obtain rfl : d = b := by simpa using hlast
        exact ⟨visited, path, by simp, fun x hx => mem_append_left _ hx⟩

/-- The part of a path up to its first arrival at the target. -/
theorem Path.first_arrival {visited : List ℕ} {b : ℕ} (path : Path edge visited b) :
    ∃ earlier, Path edge earlier b ∧ b ∉ earlier ∧ earlier ⊆ visited := by
  induction hlen : visited.length using Nat.strong_induction_on generalizing visited with
  | _ n ih =>
      by_cases hb : b ∈ visited
      · -- the path already passed `b`: go on with the shorter path to that arrival
        obtain ⟨shorter, hpath, hlt, hsub⟩ := path.before hb
        obtain ⟨earlier, hearlier, hfresh, hsub'⟩ := ih shorter.length (by omega) hpath rfl
        exact ⟨earlier, hearlier, hfresh, fun x hx => hsub (hsub' hx)⟩
      · exact ⟨visited, path, hb, fun x hx => hx⟩

/-- A position in a block. -/
abbrev Point := ℕ × ℕ

/-- On every path from the entry, control passes `p` before it is at `q`. -/
def Precedes (edge : ℕ → ℕ → Prop) (p q : Point) : Prop :=
  ∀ visited, Path edge visited q.1 → p.1 ∈ visited ∨ p.1 = q.1 ∧ p.2 < q.2

namespace Precedes

variable {p q r : Point}

theorem trans (hpq : Precedes edge p q) (hqr : Precedes edge q r) : Precedes edge p r := by
  intro visited path
  rcases hqr visited path with hq | ⟨hblock, hindex⟩
  · obtain ⟨earlier, hpath, _, hsub⟩ := path.before hq
    rcases hpq earlier hpath with hp | ⟨hsame, _⟩
    · exact .inl (hsub hp)
    · exact .inl (hsame ▸ hq)
  · rcases hpq visited (hblock ▸ path) with hp | ⟨hsame, hindex'⟩
    · exact .inl hp
    · exact .inr ⟨hsame.trans hblock, by omega⟩

variable {b : ℕ}

theorem same_block {i j : ℕ} (hij : i < j) : Precedes edge (b, i) (b, j) :=
  fun _ _ => .inr ⟨rfl, hij⟩

/-- In one reachable block, what precedes lies earlier. -/
theorem index_lt (h : Precedes edge p q) (hreach : Reachable edge q.1) (hblock : p.1 = q.1) :
    p.2 < q.2 := by
  obtain ⟨visited, path⟩ := hreach
  obtain ⟨earlier, hpath, hfresh, _⟩ := path.first_arrival
  rcases h earlier hpath with hp | ⟨_, hindex⟩
  · exact absurd (hblock ▸ hp) hfresh
  · exact hindex

theorem irrefl (hreach : Reachable edge p.1) : ¬ Precedes edge p p :=
  fun h => lt_irrefl _ (h.index_lt hreach rfl)

theorem asymm (hpq : Precedes edge p q) (hreach : Reachable edge q.1) : ¬ Precedes edge q p :=
  fun hqp => irrefl hreach (hqp.trans hpq)

/-- What precedes a reachable point is itself reachable. -/
theorem reachable (h : Precedes edge p q) (hreach : Reachable edge q.1) :
    Reachable edge p.1 := by
  obtain ⟨visited, path⟩ := hreach
  rcases h visited path with hp | ⟨hblock, _⟩
  · obtain ⟨earlier, hpath, _, _⟩ := path.before hp
    exact ⟨earlier, hpath⟩
  · exact hblock ▸ ⟨visited, path⟩

/-- Going back over an edge: what precedes the start of the target precedes the
end of the source. -/
theorem of_edge {t i : ℕ} (h : Precedes edge p (t, 0)) (hedge : edge b t) (hi : p.1 = b → p.2 < i) :
    Precedes edge p (b, i) := by
  intro visited path
  rcases h (visited ++ [b]) (path.step hedge) with hp | ⟨_, hindex⟩
  · rcases mem_append.mp hp with hold | hlast
    · exact .inl hold
    · have hblock : p.1 = b := by simpa using hlast
      exact .inr ⟨hblock, hi hblock⟩
  · exact absurd hindex (Nat.not_lt_zero _)

/-- What precedes a point precedes the point before, unless it is that point. -/
theorem of_succ {n : ℕ} (h : Precedes edge p (b, n + 1)) (hne : p ≠ (b, n)) :
    Precedes edge p (b, n) := by
  intro visited path
  rcases h visited path with hp | ⟨hblock, hindex⟩
  · exact .inl hp
  · have hindex' : p.2 ≠ n := fun heq => hne (Prod.ext hblock heq)
    exact .inr ⟨hblock, lt_of_le_of_ne (Nat.lt_succ_iff.mp hindex) hindex'⟩

end Precedes

/-! ## Dominator sets -/

/-- Sets that only shrink along edges contain only blocks on every path. -/
theorem mem_of_closed {dom : ℕ → Finset ℕ} (hentry : ∀ d ∈ dom 0, d = 0)
    (hedge : ∀ {b t d}, edge b t → d ∈ dom t → d = t ∨ d ∈ dom b)
    {visited : List ℕ} {b d : ℕ} (path : Path edge visited b) (hd : d ∈ dom b) :
    d ∈ visited ∨ d = b := by
  induction path with
  | entry => exact .inr (hentry d hd)
  | @step visited b t path hstep ih =>
      rcases hedge hstep hd with rfl | hbefore
      · exact .inr rfl
      · rcases ih hbefore with hold | rfl
        · exact .inl (mem_append_left _ hold)
        · exact .inl (by simp)

end Paths

/-! ## Refining dominator sets until nothing changes -/

section Refine

variable (next : List (Finset ℕ) → ℕ → Finset ℕ) (count : ℕ)

/-- Refines the set of one block, noting whether it changed. -/
def visit (state : List (Finset ℕ) × Bool) (block : ℕ) : List (Finset ℕ) × Bool :=
  let refined := next state.1 block
  if refined = state.1.getD block ∅ then state else (state.1.set block refined, true)

/-- One sweep over the blocks other than the entry. -/
def sweep (sets : List (Finset ℕ)) : List (Finset ℕ) × Bool :=
  (range' 1 (count - 1)).foldl (visit next) (sets, false)

/-- Sweeps until one changes nothing. -/
def settle : ℕ → List (Finset ℕ) → List (Finset ℕ)
  | 0, sets => sets
  | fuel + 1, sets =>
      let swept := sweep next count sets
      if swept.2 then settle fuel swept.1 else swept.1

/-- The entry dominates itself; every block may dominate the others. -/
def candidates : List (Finset ℕ) := {0} :: replicate (count - 1) (Finset.range count)

/-- The refined sets.  Each sweep but the last removes a candidate, so the
number of sweeps is bounded by the number of candidates. -/
def dominators : List (Finset ℕ) := settle next count (count * count + 1) (candidates count)

/-- One list of sets is contained in another. -/
def Contained (sets sets' : List (Finset ℕ)) : Prop :=
  ∀ block, sets.getD block ∅ ⊆ sets'.getD block ∅

/-- What every stage of the refinement satisfies. -/
structure Refining (sets : List (Finset ℕ)) : Prop where
  length : sets.length = count
  entry : sets.getD 0 ∅ = {0}
  deflates : ∀ block, 0 < block → block < count → next sets block ⊆ sets.getD block ∅

/-- The number of candidates left. -/
def size (sets : List (Finset ℕ)) : ℕ := (sets.map Finset.card).sum

variable {next count}

variable {sets : List (Finset ℕ)} {block : ℕ} {refined : Finset ℕ}

theorem contained_set (h : refined ⊆ sets.getD block ∅) :
    Contained (sets.set block refined) sets := by
  intro other
  by_cases hother : other = block
  · subst hother
    by_cases hlt : other < sets.length
    · simpa [getD_eq_getElem?_getD, hlt] using h
    · simp [getD_eq_getElem?_getD, hlt]
  · simp [getD_eq_getElem?_getD, Ne.symm hother]

theorem size_set_lt (hlt : block < sets.length) (h : refined ⊂ sets.getD block ∅) :
    size (sets.set block refined) < size sets := by
  have hget : sets.getD block ∅ = sets[block] := by simp [getD_eq_getElem?_getD, hlt]
  have hcard : refined.card < sets[block].card := Finset.card_lt_card (hget ▸ h)
  have hsplit : size sets =
      size (sets.take block) + (sets[block].card + size (sets.drop (block + 1))) := by
    have happend : ∀ first second : List (Finset ℕ),
        size (first ++ second) = size first + size second := by simp [size]
    calc size sets = size (sets.take block ++ sets.drop block) := by rw [take_append_drop]
      _ = size (sets.take block) + size (sets.drop block) := happend _ _
      _ = size (sets.take block) + (sets[block].card + size (sets.drop (block + 1))) := by
        rw [drop_eq_getElem_cons hlt]; rfl
  have hset : sets.set block refined = sets.take block ++ refined :: sets.drop (block + 1) := by
    rw [set_eq_take_append_cons_drop, if_pos hlt]
  calc size (sets.set block refined)
      = size (sets.take block) + (refined.card + size (sets.drop (block + 1))) := by
        rw [hset]; simp [size]
    _ < size (sets.take block) + (sets[block].card + size (sets.drop (block + 1))) := by omega
    _ = size sets := hsplit.symm

section

variable (hmono : ∀ {sets sets'}, Contained sets sets' →
  ∀ block, next sets block ⊆ next sets' block)
include hmono

variable {sets : List (Finset ℕ)}

/-- A block's set may be replaced by its refinement. -/
theorem Refining.set (h : Refining next count sets) {block : ℕ} (hpos : 0 < block)
    (hlt : block < count) : Refining next count (sets.set block (next sets block)) := by
  have hless := contained_set (h.deflates block hpos hlt)
  refine ⟨by simp [h.length], ?_, fun other hother hother' => ?_⟩
  · simpa [getD_eq_getElem?_getD, Nat.ne_of_gt hpos] using h.entry
  · refine (hmono hless other).trans ?_
    by_cases hsame : other = block
    · subst hsame
      simp [getD_eq_getElem?_getD, h.length, hother']
    · simpa [getD_eq_getElem?_getD, Ne.symm hsame] using h.deflates other hother hother'

/-- What a list of visits leaves: it removes a candidate or changes nothing. -/
theorem Refining.foldl (flag : Bool) {blocks : List ℕ}
    (hblocks : ∀ block ∈ blocks, 0 < block ∧ block < count) (h : Refining next count sets) :
    Refining next count (blocks.foldl (visit next) (sets, flag)).1 ∧
      size (blocks.foldl (visit next) (sets, flag)).1 ≤ size sets ∧
      (flag = true → (blocks.foldl (visit next) (sets, flag)).2 = true) ∧
      ((blocks.foldl (visit next) (sets, flag)).2 = true →
        flag = true ∨ size (blocks.foldl (visit next) (sets, flag)).1 < size sets) ∧
      ((blocks.foldl (visit next) (sets, flag)).2 = false →
        (blocks.foldl (visit next) (sets, flag)).1 = sets ∧
          ∀ block ∈ blocks, next sets block = sets.getD block ∅) := by
  induction blocks generalizing sets flag with
  | nil => simp [h]
  | cons block rest ih =>
      obtain ⟨hpos, hlt⟩ := hblocks block (by simp)
      have hrest : ∀ other ∈ rest, 0 < other ∧ other < count := fun other hother =>
        hblocks other (mem_cons_of_mem _ hother)
      rw [foldl_cons]
      by_cases hsame : next sets block = sets.getD block ∅
      · have hvisit : visit next (sets, flag) block = (sets, flag) := by simp [visit, hsame]
        rw [hvisit]
        obtain ⟨href, hsize, hflag, htrue, hfalse⟩ := ih flag hrest h
        refine ⟨href, hsize, hflag, htrue, fun hquiet => ?_⟩
        obtain ⟨heq, hall⟩ := hfalse hquiet
        exact ⟨heq, by simpa using ⟨hsame, hall⟩⟩
      · have hvisit : visit next (sets, flag) block = (sets.set block (next sets block), true) := by
          simp only [visit, hsame, if_false]
        rw [hvisit]
        have hstrict : next sets block ⊂ sets.getD block ∅ :=
          lt_of_le_of_ne (h.deflates block hpos hlt) hsame
        have hshrink := size_set_lt (h.length ▸ hlt) hstrict
        obtain ⟨href, hsize, hflag, _, _⟩ := ih true hrest (h.set hmono hpos hlt)
        have hchanged := hflag rfl
        exact ⟨href, by omega, fun _ => hchanged, fun _ => .inr (by omega),
          fun hquiet => by simp [hchanged] at hquiet⟩

/-- Enough sweeps reach sets that the refinement leaves alone. -/
theorem Refining.settle {fuel : ℕ} (h : Refining next count sets) (hfuel : size sets < fuel) :
    Refining next count (settle next count fuel sets) ∧
      ∀ block, 0 < block → block < count → next (settle next count fuel sets) block =
        (settle next count fuel sets).getD block ∅ := by
  induction fuel generalizing sets with
  | zero => omega
  | succ fuel ih =>
      have hblocks : ∀ block ∈ range' 1 (count - 1), 0 < block ∧ block < count := by
        intro block hblock
        have := mem_range'_1.mp hblock
        omega
      obtain ⟨href, hsize, _, htrue, hfalse⟩ :=
        h.foldl hmono false hblocks
      unfold Dominance.settle
      by_cases hswept : (sweep next count sets).2 = true
      · simp only [hswept, if_true]
        have hless : size (sweep next count sets).1 < size sets := by
          rcases htrue hswept with hflag | hless
          · cases hflag
          · exact hless
        exact ih href (by omega)
      · simp only [hswept, if_false, Bool.false_eq_true]
        obtain ⟨heq, hall⟩ := hfalse (Bool.eq_false_of_not_eq_true hswept)
        have heq' : (sweep next count sets).1 = sets := heq
        rw [heq']
        exact ⟨h, fun block hpos hlt => hall block (mem_range'_1.mpr (by omega))⟩

end

theorem size_candidates (hcount : 0 < count) : size (candidates count) ≤ count * count := by
  have hsum : size (candidates count) = 1 + (count - 1) * count := by
    simp [size, candidates]
  obtain ⟨n, rfl⟩ : ∃ n, count = n + 1 := ⟨count - 1, by omega⟩
  rw [hsum]
  calc 1 + (n + 1 - 1) * (n + 1) ≤ (n + 1) + n * (n + 1) := by
        rw [Nat.add_sub_cancel]; omega
    _ = (n + 1) * (n + 1) := by ring

theorem refining_candidates
    (hrange : ∀ block, 0 < block → block < count →
      next (candidates count) block ⊆ Finset.range count) (hcount : 0 < count) :
    Refining next count (candidates count) := by
  refine ⟨?_, ?_, ?_⟩
  · simp only [candidates, length_cons, length_replicate]
    omega
  · rfl
  · intro block hpos hlt
    have hget : (candidates count).getD block ∅ = Finset.range count := by
      obtain ⟨n, rfl⟩ : ∃ n, block = n + 1 := ⟨block - 1, by omega⟩
      have hn : n < count - 1 := by omega
      simp [candidates, getD_eq_getElem?_getD, hn]
    rw [hget]
    exact hrange block hpos hlt

/-- **The refinement ends** in sets that it leaves alone. -/
theorem refine_dominators
    (hmono : ∀ {sets sets'}, Contained sets sets' → ∀ block, next sets block ⊆ next sets' block)
    (hrange : ∀ block, 0 < block → block < count →
      next (candidates count) block ⊆ Finset.range count) (hcount : 0 < count) :
    Refining next count (dominators next count) ∧
      ∀ block, 0 < block → block < count →
        next (dominators next count) block = (dominators next count).getD block ∅ :=
  Refining.settle hmono (refining_candidates hrange hcount)
    (Nat.lt_succ_of_le (size_candidates hcount))

/-! ### The loop that stops at a quiet sweep -/

variable (next count) in
/-- Sweeps until one changes nothing; `none` when the fuel runs out before. -/
def sweeps : ℕ → List (Finset ℕ) → Option (List (Finset ℕ))
  | 0, _ => none
  | fuel + 1, sets =>
      let swept := sweep next count sets
      if swept.2 then sweeps fuel swept.1 else some swept.1

variable {fuel : ℕ}

/-- With enough fuel the loop stops by itself. -/
theorem Refining.sweeps_eq
    (hmono : ∀ {sets sets'}, Contained sets sets' → ∀ block, next sets block ⊆ next sets' block)
    (h : Refining next count sets) (hfuel : size sets < fuel) :
    sweeps next count fuel sets = some (Dominance.settle next count fuel sets) := by
  induction fuel generalizing sets with
  | zero => omega
  | succ fuel ih =>
      have hblocks : ∀ block ∈ range' 1 (count - 1), 0 < block ∧ block < count := by
        intro block hblock
        have := mem_range'_1.mp hblock
        omega
      obtain ⟨href, -, -, htrue, -⟩ := h.foldl hmono false hblocks
      unfold sweeps Dominance.settle
      by_cases hswept : (sweep next count sets).2 = true
      · simp only [hswept, if_true]
        have hless : size (sweep next count sets).1 < size sets :=
          (htrue hswept).resolve_left Bool.false_ne_true
        exact ih href (by omega)
      · simp only [hswept, if_false, Bool.false_eq_true]

variable {result : List (Finset ℕ)}

/-- More fuel does not change what the loop returns. -/
theorem sweeps_mono {fuel' : ℕ} (hle : fuel ≤ fuel')
    (h : sweeps next count fuel sets = some result) :
    sweeps next count fuel' sets = some result := by
  induction fuel generalizing fuel' sets with
  | zero => cases h
  | succ fuel ih =>
      obtain ⟨more, rfl⟩ : ∃ more, fuel' = more + 1 := ⟨fuel' - 1, by omega⟩
      rw [sweeps] at h ⊢
      split at h
      · rename_i hswept
        rw [if_pos hswept]
        exact ih (by omega) h
      · rename_i hswept
        rw [if_neg hswept]
        exact h

variable {P : List (Finset ℕ) → Prop} {state : List (Finset ℕ) × Bool}

variable (hset : ∀ sets block, 0 < block → block < count → P sets →
  P (sets.set block (next sets block)))
include hset

theorem visit_invariant (hpos : 0 < block) (hlt : block < count)
    (h : P state.1) : P (visit next state block).1 := by
  simp only [visit]
  split
  · exact h
  · exact hset _ _ hpos hlt h

/-- A property of the sets that every refinement of a block keeps. -/
theorem foldl_visit_invariant {blocks : List ℕ}
    (hblocks : ∀ block ∈ blocks, 0 < block ∧ block < count) (h : P state.1) :
    P (blocks.foldl (visit next) state).1 := by
  induction blocks generalizing state with
  | nil => exact h
  | cons block rest ih =>
      obtain ⟨⟨hpos, hlt⟩, hrest⟩ := forall_mem_cons.mp hblocks
      exact ih hrest (visit_invariant hset hpos hlt h)

omit hset

theorem mem_sweep (h : block ∈ range' 1 (count - 1)) : 0 < block ∧ block < count := by
  have hrange := mem_range'_1.mp h
  omega

include hset

theorem sweeps_invariant (h : P sets)
    (hresult : sweeps next count fuel sets = some result) : P result := by
  induction fuel generalizing sets with
  | zero => cases hresult
  | succ fuel ih =>
      have hswept : P (sweep next count sets).1 :=
        foldl_visit_invariant hset (fun _ => mem_sweep) h
      rw [sweeps] at hresult
      split at hresult
      · exact ih hswept hresult
      · obtain rfl := Option.some.inj hresult
        exact hswept

/-- Two refinements that agree where the loop comes by make the same loop. -/
theorem sweeps_congr {next' : List (Finset ℕ) → ℕ → Finset ℕ}
    (hsame : ∀ sets block, 0 < block → block < count → P sets →
      next sets block = next' sets block) (fuel : ℕ) (h : P sets) :
    sweeps next count fuel sets = sweeps next' count fuel sets := by
  have hfold : ∀ (blocks : List ℕ) (state : List (Finset ℕ) × Bool),
      (∀ block ∈ blocks, 0 < block ∧ block < count) → P state.1 →
        blocks.foldl (visit next) state = blocks.foldl (visit next') state := by
    intro blocks
    induction blocks with
    | nil => exact fun _ _ _ => rfl
    | cons block rest ih =>
        intro state hblocks h
        obtain ⟨⟨hpos, hlt⟩, hrest⟩ := forall_mem_cons.mp hblocks
        have hvisit : visit next state block = visit next' state block := by
          unfold visit
          rw [hsame _ _ hpos hlt h]
        rw [foldl_cons, foldl_cons, ← hvisit]
        exact ih _ hrest (visit_invariant hset hpos hlt h)
  induction fuel generalizing sets with
  | zero => rfl
  | succ fuel ih =>
      have hsweep : sweep next count sets = sweep next' count sets :=
        hfold _ _ (fun _ => mem_sweep) h
      rw [sweeps, sweeps, ← hsweep]
      split
      · exact ih (foldl_visit_invariant hset (fun _ => mem_sweep) h)
      · rfl

end Refine

end Jadren.Dominance
