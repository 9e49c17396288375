import Jadren.Library.Fixpoint
import Jadren.Library.Flow
import Mathlib.Data.Finset.Union
import Mathlib.Data.Set.Lattice

/-!
# Liveness

A variable is live at a position of a control-flow graph if some path from there uses it
before an action gives it another value (`Live`).  An analysis does not follow paths: it solves
the *backward equations*, an entry set and an exit set for each block, where a block is summed up
by the variables it uses first and the variables it kills.

`solve` sweeps over the blocks, from the last to the first, until a sweep changes nothing.  An
entry that a sweep has renewed is what the next block of the same sweep sees, so a sweep is not
one application of an operator; but every visit keeps the sets rising and below each solution,
and so the loop ends, on every graph, in the least solution (`exists_solve`).
-/

namespace Jadren.Liveness

open List

variable {α ν : Type}

/-! ## Paths -/

/-- What an action does to the variables: it uses some, and then kills some. -/
structure Effects (α ν : Type) where
  uses : α → Set ν
  kills : α → Set ν

variable (E : Effects α ν) (G : Flow.Graph α)

/-- Some path from the position uses the variable before it kills it. -/
inductive Live (x : ν) : ℕ → ℕ → Prop
  | use {b i : ℕ} {action : α} (hat : G.At b i action) (huse : x ∈ E.uses action) : Live x b i
  | step {b i : ℕ} {action : α} (hat : G.At b i action) (hkeep : x ∉ E.kills action)
      (rest : Live x b (i + 1)) : Live x b i
  | edge {b t : ℕ} {block : Flow.Block α} (hblock : G.blocks[b]? = some block)
      (htarget : t ∈ block.successors) (rest : Live x t 0) : Live x b block.body.length

namespace Effects

/-- The variables needed before an action, given those needed after it. -/
def before (action : α) (live : Set ν) : Set ν := E.uses action ∪ (live \ E.kills action)

/-- The variables needed before some actions, given those needed after them. -/
def through (actions : List α) (live : Set ν) : Set ν := actions.foldr E.before live

@[simp] theorem through_nil (live : Set ν) : E.through [] live = live := rfl

@[simp] theorem through_cons (action : α) (rest : List α) (live : Set ν) :
    E.through (action :: rest) live = E.before action (E.through rest live) := rfl

theorem through_append (front back : List α) (live : Set ν) :
    E.through (front ++ back) live = E.through front (E.through back live) :=
  foldr_append

theorem through_mono (actions : List α) {live live' : Set ν} (h : live ⊆ live') :
    E.through actions live ⊆ E.through actions live' := by
  induction actions with
  | nil => exact h
  | cons action rest ih => exact Set.union_subset_union_right _ (Set.sdiff_subset_sdiff_left ih)

/-- What some actions need is what they use first, and what is needed after them unless one of
them kills it. -/
theorem through_eq (actions : List α) (live : Set ν) :
    E.through actions live =
      E.through actions ∅ ∪ (live \ {x | ∃ action ∈ actions, x ∈ E.kills action}) := by
  induction actions with
  | nil => simp
  | cons action rest ih =>
      rw [through_cons, through_cons, ih]
      ext x
      simp only [before, Set.mem_union, Set.mem_sdiff, Set.mem_ofPred_eq,
        exists_mem_cons_iff, not_or]
      tauto

end Effects

/-- Sets for the block entries that are closed under going backward over a block. -/
def Effects.Closed (inputs : ℕ → Set ν) : Prop :=
  ∀ {b : ℕ} {block : Flow.Block α}, G.blocks[b]? = some block →
    ∀ {x : ν}, (x ∈ E.through block.body {y | ∃ t ∈ block.successors, y ∈ inputs t}) → x ∈ inputs b

variable {E G}

theorem Live.exists_block {x : ν} {b i : ℕ} (h : Live E G x b i) :
    ∃ block, G.blocks[b]? = some block := by
  cases h with
  | use hat | step hat =>
      obtain ⟨block, hblock, _⟩ := hat
      exact ⟨block, hblock⟩
  | edge hblock => exact ⟨_, hblock⟩

/-- **Closed sets hold all that is live**: at each position the variables needed there. -/
theorem Live.mem_through {inputs : ℕ → Set ν} (closed : E.Closed G inputs) {x : ν} {b i : ℕ}
    (h : Live E G x b i) {block : Flow.Block α} (hblock : G.blocks[b]? = some block) :
    x ∈ E.through (block.body.drop i) {y | ∃ t ∈ block.successors, y ∈ inputs t} := by
  have hhead : ∀ {b i action} {block : Flow.Block α}, G.At b i action →
      G.blocks[b]? = some block → block.body.drop i = action :: block.body.drop (i + 1) := by
    intro b i action block hat hblock
    obtain ⟨block', hblock', haction⟩ := hat
    obtain rfl := Option.some.inj (hblock.symm.trans hblock')
    exact drop_eq_getElem?_toList_append.trans (by rw [haction]; rfl)
  induction h generalizing block with
  | use hat huse =>
      rw [hhead hat hblock]
      exact .inl huse
  | step hat hkeep _ ih =>
      rw [hhead hat hblock]
      exact .inr ⟨ih hblock, hkeep⟩
  | @edge b t block' hblock' htarget rest ih =>
      obtain rfl := Option.some.inj (hblock.symm.trans hblock')
      rw [drop_length]
      obtain ⟨target, hnext⟩ := rest.exists_block
      exact ⟨t, htarget, closed hnext (by simpa using ih hnext)⟩

/-! ## Backward equations -/

/-- For each block the variables it uses first, those it kills, and where control may go. -/
structure Equations (ν : Type) where
  count : ℕ
  uses : ℕ → Finset ν
  kills : ℕ → Finset ν
  successors : ℕ → List ℕ

/-- Sets for the entries and the exits of the blocks. -/
structure State (ν : Type) where
  input : List (Finset ν)
  output : List (Finset ν)

def State.empty (count : ℕ) : State ν := ⟨replicate count ∅, replicate count ∅⟩

namespace Equations

variable (Q : Equations ν)

/-- Sets for the entries and the exits that satisfy the equations. -/
structure Solves (inputs outputs : ℕ → Set ν) : Prop where
  output : ∀ b < Q.count, outputs b = {x | ∃ t ∈ Q.successors b, x ∈ inputs t}
  input : ∀ b < Q.count, inputs b = (Q.uses b : Set ν) ∪ (outputs b \ (Q.kills b : Set ν))

/-- Sets that are closed under the equations, from the right to the left. -/
structure Bounds (inputs outputs : ℕ → Set ν) : Prop where
  output : ∀ b < Q.count, ∀ t ∈ Q.successors b, inputs t ⊆ outputs b
  input : ∀ b < Q.count, (Q.uses b : Set ν) ∪ (outputs b \ (Q.kills b : Set ν)) ⊆ inputs b

variable {Q} in
variable {inputs outputs : ℕ → Set ν}

theorem Solves.bounds (h : Q.Solves inputs outputs) : Q.Bounds inputs outputs where
  output b hb t ht x hx := by
    rw [h.output b hb]
    exact ⟨t, ht, hx⟩
  input b hb := (h.input b hb).ge

variable [DecidableEq ν]

def outputOf (b : ℕ) (s : State ν) : Finset ν :=
  (Q.successors b).toFinset.biUnion fun t => s.input.getD t ∅

def inputOf (b : ℕ) (output : Finset ν) : Finset ν := Q.uses b ∪ (output \ Q.kills b)

/-- The sets of one block are renewed. -/
def renew (b : ℕ) (s : State ν) : State ν :=
  ⟨s.input.set b (Q.inputOf b (Q.outputOf b s)), s.output.set b (Q.outputOf b s)⟩

/-- The flag is raised if a set is another than before. -/
def visit (current : State ν × Bool) (b : ℕ) : State ν × Bool :=
  let output := Q.outputOf b current.1
  if current.1.output.getD b ∅ ≠ output ∨ current.1.input.getD b ∅ ≠ Q.inputOf b output then
    (Q.renew b current.1, true)
  else current

/-- One visit of each block, the last block first. -/
def sweep (s : State ν) : State ν × Bool := (range Q.count).reverse.foldl Q.visit (s, false)

def round (s : State ν) : State ν ⊕ State ν :=
  if (Q.sweep s).2 then .inl (Q.sweep s).1 else .inr (Q.sweep s).1

/-- Sweeps until nothing changes. -/
def solve (fuel : ℕ) : Option (State ν) := Loop.run Q.round fuel (State.empty Q.count)

/-! ### What a visit keeps -/

variable {Q} {s s' : State ν} {b : ℕ} {flag : Bool}

/-- The sets of a state are parts of given ones. -/
def Within (s : State ν) (inputs outputs : ℕ → Set ν) : Prop :=
  ∀ b, (s.input.getD b ∅ : Set ν) ⊆ inputs b ∧ (s.output.getD b ∅ : Set ν) ⊆ outputs b

/-- Every set is a part of what the equations make of the state. -/
structure Rising (Q : Equations ν) (s : State ν) : Prop where
  input_length : s.input.length = Q.count
  output_length : s.output.length = Q.count
  output : ∀ b < Q.count, s.output.getD b ∅ ⊆ Q.outputOf b s
  input : ∀ b < Q.count, s.input.getD b ∅ ⊆ Q.inputOf b (Q.outputOf b s)

/-- The sets of a state as the equations see them. -/
def Stable (Q : Equations ν) (s : State ν) (b : ℕ) : Prop :=
  s.output.getD b ∅ = Q.outputOf b s ∧ s.input.getD b ∅ = Q.inputOf b (Q.outputOf b s)

def size (s : State ν) : ℕ := Fixpoint.size s.input + Fixpoint.size s.output

theorem visit_cases (s : State ν) (flag : Bool) (b : ℕ) :
    (Q.visit (s, flag) b = (s, flag) ∧ Stable Q s b) ∨
      (¬ Stable Q s b ∧ Q.visit (s, flag) b = (Q.renew b s, true)) := by
  unfold visit
  by_cases hstable : Stable Q s b
  · exact .inl ⟨if_neg (by rw [not_or, not_not, not_not]; exact hstable), hstable⟩
  · refine .inr ⟨hstable, if_pos ?_⟩
    by_contra hsame
    rw [not_or, not_not, not_not] at hsame
    exact hstable hsame

variable {xs : List (Finset ν)}

omit [DecidableEq ν] in
theorem getD_set {c : ℕ} {x : Finset ν} (hb : b < xs.length) :
    (xs.set b x).getD c ∅ = if c = b then x else xs.getD c ∅ := by
  rw [getD_eq_getElem?_getD, getElem?_set]
  by_cases hc : c = b
  · subst hc
    simp [hb]
  · rw [if_neg (Ne.symm hc), if_neg hc, getD_eq_getElem?_getD]

theorem Within.visit (h : Within s inputs outputs) (bounds : Q.Bounds inputs outputs)
    (hb : b < Q.count) (hlength : s.input.length = Q.count) (hlength' : s.output.length = Q.count) :
    Within (Q.visit (s, flag) b).1 inputs outputs := by
  obtain ⟨heq, _⟩ | ⟨_, heq⟩ := visit_cases (Q := Q) s flag b
  · rw [heq]
    exact h
  · have houtput : (Q.outputOf b s : Set ν) ⊆ outputs b := by
      intro x hx
      obtain ⟨t, ht, hx⟩ := Finset.mem_biUnion.mp hx
      exact bounds.output b hb t (mem_toFinset.mp ht) ((h t).1 hx)
    have hinput : (Q.inputOf b (Q.outputOf b s) : Set ν) ⊆ inputs b := by
      refine subset_trans ?_ (bounds.input b hb)
      rw [inputOf, Finset.coe_union, Finset.coe_sdiff]
      exact Set.union_subset_union_right _ (Set.sdiff_subset_sdiff_left houtput)
    rw [heq]
    intro c
    dsimp only [renew]
    rw [getD_set (by omega), getD_set (by omega)]
    by_cases hc : c = b
    · subst hc
      rw [if_pos rfl, if_pos rfl]
      exact ⟨hinput, houtput⟩
    · rw [if_neg hc, if_neg hc]
      exact h c

theorem outputOf_mono (h : ∀ t, s.input.getD t ∅ ⊆ s'.input.getD t ∅) (b : ℕ) :
    Q.outputOf b s ⊆ Q.outputOf b s' :=
  Finset.biUnion_mono fun t _ => h t

theorem inputOf_mono {output output' : Finset ν} (h : output ⊆ output') (b : ℕ) :
    Q.inputOf b output ⊆ Q.inputOf b output' :=
  Finset.union_subset_union_right (Finset.sdiff_subset_sdiff h (Finset.Subset.refl _))

omit [DecidableEq ν] in
theorem below_set {x : Finset ν} (h : xs.getD b ∅ ⊆ x) : Fixpoint.Below xs (xs.set b x) := by
  induction xs generalizing b with
  | nil => exact .nil
  | cons first rest ih =>
      cases b with
      | zero => exact .cons h (Fixpoint.below_refl rest)
      | succ => exact .cons (Finset.Subset.refl _) (ih h)

omit [DecidableEq ν] in
theorem getD_of_below {ys : List (Finset ν)} (h : Fixpoint.Below xs ys) (b : ℕ) :
    xs.getD b ∅ ⊆ ys.getD b ∅ := by
  induction h generalizing b with
  | nil => exact Finset.Subset.refl _
  | cons hsubset _ ih =>
      cases b with
      | zero => exact hsubset
      | succ b => exact ih b

section

variable (h : Rising Q s) (hb : b < Q.count)

include h hb

theorem Rising.below_renew :
    Fixpoint.Below s.input (Q.renew b s).input ∧ Fixpoint.Below s.output (Q.renew b s).output :=
  ⟨below_set (h.input b hb), below_set (h.output b hb)⟩

/-- What a block is renewed to can only be short of what the renewed sets call for. -/
theorem Rising.renew : Rising Q (Q.renew b s) := by
  have hinputs := getD_of_below (h.below_renew hb).1
  refine ⟨by simpa [Equations.renew] using h.input_length,
    by simpa [Equations.renew] using h.output_length, ?_, ?_⟩
  · intro c hc
    have hout : Q.outputOf c s ⊆ Q.outputOf c (Q.renew b s) := outputOf_mono hinputs c
    rw [Equations.renew, getD_set (by rw [h.output_length]; exact hb)]
    by_cases heq : c = b
    · rw [if_pos heq, ← heq]
      exact heq ▸ hout
    · rw [if_neg heq]
      exact (h.output c hc).trans hout
  · intro c hc
    have hin : Q.inputOf c (Q.outputOf c s) ⊆ Q.inputOf c (Q.outputOf c (Q.renew b s)) :=
      inputOf_mono (outputOf_mono hinputs c) c
    rw [Equations.renew, getD_set (by rw [h.input_length]; exact hb)]
    by_cases heq : c = b
    · rw [if_pos heq, ← heq]
      exact heq ▸ hin
    · rw [if_neg heq]
      exact (h.input c hc).trans hin

/-- Renewing a block adds a member, unless its sets satisfy the equations. -/
theorem Rising.size_lt (hchanged : ¬ Stable Q s b) : size s < size (Q.renew b s) := by
  obtain ⟨hinput, houtput⟩ := h.below_renew hb
  by_cases hsame : s.input = (Q.renew b s).input
  · by_cases hsame' : s.output = (Q.renew b s).output
    · refine absurd ⟨?_, ?_⟩ hchanged
      · conv_lhs => rw [hsame', Equations.renew]
        rw [getD_set (by rw [h.output_length]; exact hb), if_pos rfl]
      · conv_lhs => rw [hsame, Equations.renew]
        rw [getD_set (by rw [h.input_length]; exact hb), if_pos rfl]
    · exact Nat.add_lt_add_of_le_of_lt hinput.size_le (houtput.size_lt hsame')
  · exact Nat.add_lt_add_of_lt_of_le (hinput.size_lt hsame) houtput.size_le

end

/-! ### Sweeps -/

/-- What a number of visits come to: a state that is no smaller, and that is the same state only
if the sets of all visited blocks satisfy the equations. -/
theorem visits_spec {blocks : List ℕ} (hblocks : ∀ b ∈ blocks, b < Q.count) (h : Rising Q s)
    (flag : Bool) :
    Rising Q (blocks.foldl Q.visit (s, flag)).1 ∧
      ((blocks.foldl Q.visit (s, flag) = (s, flag) ∧ ∀ b ∈ blocks, Stable Q s b) ∨
        ((blocks.foldl Q.visit (s, flag)).2 = true ∧
          size s < size (blocks.foldl Q.visit (s, flag)).1)) := by
  induction blocks generalizing s flag with
  | nil => exact ⟨h, .inl ⟨rfl, fun b hb => nomatch hb⟩⟩
  | cons b rest ih =>
      obtain ⟨hb, hrest⟩ := forall_mem_cons.mp hblocks
      rw [foldl_cons]
      obtain ⟨heq, hstable⟩ | ⟨hchanged, heq⟩ := visit_cases (Q := Q) s flag b
      · rw [heq]
        obtain ⟨hrising, hsame | hmore⟩ := ih hrest h flag
        · exact ⟨hrising, .inl ⟨hsame.1, forall_mem_cons.mpr ⟨hstable, hsame.2⟩⟩⟩
        · exact ⟨hrising, .inr hmore⟩
      · rw [heq]
        have hlt := h.size_lt hb hchanged
        obtain ⟨hrising, hsame | hmore⟩ := ih hrest (h.renew hb) true
        · rw [hsame.1] at hrising ⊢
          exact ⟨hrising, .inr ⟨rfl, hlt⟩⟩
        · exact ⟨hrising, .inr ⟨hmore.1, hlt.trans hmore.2⟩⟩

theorem sweep_spec (h : Rising Q s) :
    Rising Q (Q.sweep s).1 ∧
      ((Q.sweep s = (s, false) ∧ ∀ b < Q.count, Stable Q s b) ∨
        ((Q.sweep s).2 = true ∧ size s < size (Q.sweep s).1)) := by
  have hmem (b : ℕ) : b ∈ (range Q.count).reverse ↔ b < Q.count := by simp
  obtain ⟨hrising, hcases⟩ := visits_spec (fun b hb => (hmem b).mp hb) h false
  refine ⟨hrising, hcases.imp_left fun hsame => ⟨hsame.1, fun b hb => ?_⟩⟩
  exact hsame.2 b ((hmem b).mpr hb)

theorem Within.sweep (h : Within s inputs outputs) (bounds : Q.Bounds inputs outputs)
    (rising : Rising Q s) : Within (Q.sweep s).1 inputs outputs := by
  suffices hvisits : ∀ (blocks : List ℕ) (s : State ν) (flag : Bool),
      (∀ b ∈ blocks, b < Q.count) → Rising Q s → Within s inputs outputs →
        Within (blocks.foldl Q.visit (s, flag)).1 inputs outputs from
    hvisits _ s false (by simp) rising h
  intro blocks
  induction blocks with
  | nil => exact fun s flag _ _ h => h
  | cons b rest ih =>
      intro s flag hblocks rising h
      obtain ⟨hb, hrest⟩ := forall_mem_cons.mp hblocks
      have hvisited : Within (Q.visit (s, flag) b).1 inputs outputs :=
        h.visit bounds hb rising.input_length rising.output_length
      have hrising : Rising Q ([b].foldl Q.visit (s, flag)).1 :=
        (visits_spec (by simpa using hb) rising flag).1
      exact ih _ _ hrest hrising hvisited

/-! ### The loop -/

omit [DecidableEq ν] in
theorem getD_empty (count b : ℕ) : (replicate count (∅ : Finset ν)).getD b ∅ = ∅ := by
  rw [getD_eq_getElem?_getD, getElem?_replicate]
  split <;> rfl

theorem rising_empty : Rising Q (State.empty Q.count) where
  input_length := length_replicate
  output_length := length_replicate
  output b _ := by
    rw [State.empty, getD_empty]
    exact Finset.empty_subset _
  input b _ := by
    rw [State.empty, getD_empty]
    exact Finset.empty_subset _

omit [DecidableEq ν] in
theorem within_empty (inputs outputs : ℕ → Set ν) :
    Within (State.empty Q.count) inputs outputs := by
  intro b
  rw [State.empty, getD_empty, Finset.coe_empty]
  exact ⟨Set.empty_subset _, Set.empty_subset _⟩

/-- The variables that a state can ever hold. -/
def support (Q : Equations ν) : Finset ν := (Finset.range Q.count).biUnion Q.uses

theorem bounds_support : Q.Bounds (fun _ => support Q) (fun _ => support Q) where
  output _ _ _ _ := Set.Subset.refl _
  input b hb := by
    apply Set.union_subset
    · exact Finset.coe_subset.mpr (Finset.subset_biUnion_of_mem Q.uses (Finset.mem_range.mpr hb))
    · exact Set.sdiff_subset

omit [DecidableEq ν] in
theorem size_le_of_subset {bound : Finset ν} (h : ∀ b, xs.getD b ∅ ⊆ bound) :
    Fixpoint.size xs ≤ xs.length * bound.card := by
  induction xs with
  | nil => exact Nat.zero_le _
  | cons x rest ih =>
      have hhead : x.card ≤ bound.card := Finset.card_le_card (h 0)
      have hrest := ih fun b => h (b + 1)
      rw [length_cons, Nat.succ_mul, Nat.add_comm]
      exact Nat.add_le_add hhead hrest

theorem size_le_of_within (h : Within s (fun _ => support Q) (fun _ => support Q))
    (rising : Rising Q s) : size s ≤ 2 * (Q.count * (support Q).card) := by
  have hinput := size_le_of_subset fun b => Finset.coe_subset.mp (h b).1
  have houtput := size_le_of_subset fun b => Finset.coe_subset.mp (h b).2
  rw [rising.input_length] at hinput
  rw [rising.output_length] at houtput
  calc size s
      ≤ Q.count * (support Q).card + Q.count * (support Q).card := Nat.add_le_add hinput houtput
    _ = 2 * (Q.count * (support Q).card) := (Nat.two_mul _).symm

/-- The sets satisfy the equations, and are parts of all sets that are closed under them. -/
structure Least (Q : Equations ν) (s : State ν) : Prop where
  rising : Rising Q s
  stable : ∀ b < Q.count, Stable Q s b
  within : ∀ inputs outputs, Q.Bounds inputs outputs → Within s inputs outputs

theorem exists_run {fuel : ℕ} (rising : Rising Q s)
    (hwithin : ∀ inputs outputs, Q.Bounds inputs outputs → Within s inputs outputs)
    (hfuel : 2 * (Q.count * (support Q).card) - size s < fuel) :
    ∃ s', Loop.run Q.round fuel s = some s' ∧ Least Q s' := by
  induction fuel generalizing s with
  | zero => exact absurd hfuel (Nat.not_lt_zero _)
  | succ fuel ih =>
      unfold Loop.run round
      obtain ⟨hrising, ⟨hsame, hstable⟩ | ⟨hchanged, hlt⟩⟩ := sweep_spec rising
      · rw [hsame]
        exact ⟨s, rfl, rising, hstable, hwithin⟩
      · rw [if_pos hchanged]
        have hswept : ∀ inputs outputs, Q.Bounds inputs outputs →
            Within (Q.sweep s).1 inputs outputs :=
          fun inputs outputs bounds => (hwithin inputs outputs bounds).sweep bounds rising
        have hle := size_le_of_within (hswept _ _ bounds_support) hrising
        exact ih hrising hswept (by omega)

/-- **The loop ends**, on every graph, with the least sets that satisfy the equations. -/
theorem exists_solve (Q : Equations ν) :
    ∃ enough s, (∀ fuel ≥ enough, Q.solve fuel = some s) ∧ Least Q s := by
  let bound := 2 * (Q.count * (support Q).card)
  have hrun : ∀ fuel > bound, ∃ s, Q.solve fuel = some s ∧ Least Q s := by
    intro fuel hfuel
    exact exists_run rising_empty (fun inputs outputs _ => within_empty inputs outputs) (by omega)
  obtain ⟨s, hs, hleast⟩ := hrun (bound + 1) (Nat.lt_succ_self bound)
  refine ⟨bound + 1, s, fun fuel hfuel => ?_, hleast⟩
  obtain ⟨s', hs', _⟩ := hrun fuel hfuel
  rw [hs', (Loop.Ends.of_run hs').unique (Loop.Ends.of_run hs)]

theorem Least.solves (least : Least Q s) :
    Q.Solves (fun b => s.input.getD b ∅) (fun b => s.output.getD b ∅) where
  output b hb := by
    ext x
    rw [(least.stable b hb).1]
    simp [outputOf]
  input b hb := by
    rw [(least.stable b hb).2, ← (least.stable b hb).1, inputOf, Finset.coe_union,
      Finset.coe_sdiff]

/-! ### Equations of a graph -/

/-- The equations of a graph: its blocks, summed up. -/
structure Summarizes (Q : Equations ν) (E : Effects α ν) (G : Flow.Graph α) : Prop where
  count : Q.count = G.blocks.length
  uses : ∀ {b block}, G.blocks[b]? = some block → (Q.uses b : Set ν) = E.through block.body ∅
  kills : ∀ {b block}, G.blocks[b]? = some block →
    (Q.kills b : Set ν) = {x | ∃ action ∈ block.body, x ∈ E.kills action}
  successors : ∀ {b block}, G.blocks[b]? = some block → Q.successors b = block.successors

namespace Summarizes

variable {E : Effects α ν} {G : Flow.Graph α}

variable {block : Flow.Block α}

omit [DecidableEq ν] in
theorem lt_count (sums : Summarizes Q E G) {b : ℕ} (hblock : G.blocks[b]? = some block) :
    b < Q.count :=
  sums.count ▸ (List.getElem?_eq_some_iff.mp hblock).1

omit [DecidableEq ν] in
/-- Going backward over a block is the right side of its equation. -/
theorem through_body (sums : Summarizes Q E G) {b : ℕ} (hblock : G.blocks[b]? = some block)
    (live : Set ν) :
    E.through block.body live = (Q.uses b : Set ν) ∪ (live \ (Q.kills b : Set ν)) := by
  rw [E.through_eq, sums.uses hblock, sums.kills hblock]

omit [DecidableEq ν] in
/-- Solutions are closed under going backward. -/
theorem closed (sums : Summarizes Q E G) {inputs outputs : ℕ → Set ν}
    (bounds : Q.Bounds inputs outputs) : E.Closed G inputs := by
  intro b block hblock x hx
  rw [sums.through_body hblock] at hx
  apply bounds.input b (sums.lt_count hblock)
  refine hx.imp_right fun hkept => ⟨?_, hkept.2⟩
  obtain ⟨t, ht, hx⟩ := hkept.1
  exact bounds.output b (sums.lt_count hblock) t (by rwa [sums.successors hblock]) hx

omit [DecidableEq ν] in
/-- The live variables are such sets themselves. -/
theorem bounds_live (sums : Summarizes Q E G) :
    Q.Bounds (fun b => {x | Live E G x b 0})
      (fun b => {x | ∃ t ∈ Q.successors b, Live E G x t 0}) where
  output b _ t ht x hx := ⟨t, ht, hx⟩
  input b hb := by
    obtain ⟨block, hblock⟩ : ∃ block, G.blocks[b]? = some block :=
      ⟨_, getElem?_eq_getElem (sums.count ▸ hb)⟩
    rw [← sums.through_body hblock, sums.successors hblock]
    -- from the end of the block to its beginning
    suffices hsuffix : ∀ n i, block.body.length - i = n → i ≤ block.body.length →
        E.through (block.body.drop i) {x | ∃ t ∈ block.successors, Live E G x t 0} ⊆
          {x | Live E G x b i} from
      hsuffix _ 0 rfl (Nat.zero_le _)
    intro n
    induction n with
    | zero =>
        intro i hn hi x hx
        obtain rfl : i = block.body.length := by omega
        rw [drop_length] at hx
        obtain ⟨t, ht, hlive⟩ := hx
        exact .edge hblock ht hlive
    | succ n ih =>
        intro i hn hi x hx
        have hlt : i < block.body.length := by omega
        rw [drop_eq_getElem_cons hlt] at hx
        have hat : G.At b i block.body[i] := ⟨block, hblock, getElem?_eq_getElem hlt⟩
        rcases hx with huse | ⟨hrest, hkeep⟩
        · exact Live.use hat huse
        · exact Live.step hat hkeep (ih (i + 1) (by omega) hlt hrest)

end Summarizes

/-- **What the loop computes are the live variables.** -/
theorem Least.mem_input_iff {E : Effects α ν} {G : Flow.Graph α} (least : Least Q s)
    (sums : Summarizes Q E G) {b : ℕ} {x : ν} :
    x ∈ s.input.getD b ∅ ↔ Live E G x b 0 := by
  constructor
  · intro hx
    exact (least.within _ _ sums.bounds_live b).1 hx
  · intro hlive
    obtain ⟨block, hblock⟩ := hlive.exists_block
    have hclosed : E.Closed G fun b => (s.input.getD b ∅ : Set ν) :=
      sums.closed least.solves.bounds
    exact hclosed hblock (by simpa using hlive.mem_through hclosed hblock)

end Equations

end Jadren.Liveness
