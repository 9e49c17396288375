import Mathlib.Data.List.Chain
import Mathlib.Data.List.TakeWhile
import Mathlib.Data.Set.Insert

/-!
# Depth-first search of a graph whose nodes have names

A search goes along the targets of a node one after another.  It keeps the nodes
whose targets it is still following, the stack, and the nodes it has finished, and
it compares nodes by their names: a target with the name of a node on the stack is
taken for a cycle, a target with the name of a finished node has to be that node.

A search succeeds exactly when the part of the graph it covers is `Clear`.  What it
takes for a cycle is the first target, in the order of the search, that repeats a
name of the stack: this is `FirstRepeat`, which speaks of the graph alone.
-/

namespace Jadren

open List

/-- Nodes with names.  A target that cannot be followed is an error. -/
structure NamedGraph (P K E : Type) where
  name : P → K
  targets : P → List (Except E P)

namespace NamedGraph

variable {P K E : Type} (g : NamedGraph P K E)

def Edge (p q : P) : Prop := .ok q ∈ g.targets p

def Reach : P → P → Prop := Relation.ReflTransGen g.Edge

/-- The nodes that some targets lead to. -/
def region (targets : List (Except E P)) : Set P := {p | ∃ q, .ok q ∈ targets ∧ g.Reach q p}

/-- Why a search ends early. -/
inductive Fault (P K E : Type) where
  | broken (error : E)
  | cycle (names : List K)
  | duplicate (first second : P)

/-- No node of the stack and no finished node has the name of `q`. -/
def Fresh (stack : List P) (finished : Set P) (q : P) : Prop :=
  (∀ a ∈ stack, g.name a ≠ g.name q) ∧ ∀ p ∈ finished, g.name p ≠ g.name q

/-- The stack from the node with the name of `q` on. -/
def onward [DecidableEq K] (stack : List P) (q : P) : List P :=
  stack.dropWhile fun a => g.name a ≠ g.name q

/-- The search of some targets under a stack, with the nodes finished before and after it. -/
inductive Runs [DecidableEq K] :
    List P → List P → List (Except E P) → Except (Fault P K E) (List P) → Prop where
  | nil {stack finished} : Runs stack finished [] (.ok finished)
  | broken {stack finished error rest} :
      Runs stack finished (.error error :: rest) (.error (.broken error))
  | cycle {stack finished q rest} (met : ∃ a ∈ stack, g.name a = g.name q) :
      Runs stack finished (.ok q :: rest)
        (.error (.cycle ((g.onward stack q ++ [q]).map g.name)))
  | duplicate {stack finished p q rest} (apart : ∀ a ∈ stack, g.name a ≠ g.name q)
      (mem : p ∈ finished) (named : g.name p = g.name q) (ne : p ≠ q) :
      Runs stack finished (.ok q :: rest) (.error (.duplicate p q))
  | known {stack finished q rest result} (apart : ∀ a ∈ stack, g.name a ≠ g.name q)
      (mem : q ∈ finished) (run : Runs stack finished rest result) :
      Runs stack finished (.ok q :: rest) result
  | fails {stack finished q rest fault} (fresh : g.Fresh stack {p | p ∈ finished} q)
      (run : Runs (stack ++ [q]) finished (g.targets q) (.error fault)) :
      Runs stack finished (.ok q :: rest) (.error fault)
  | descends {stack finished finished' q rest result}
      (fresh : g.Fresh stack {p | p ∈ finished} q)
      (inner : Runs (stack ++ [q]) finished (g.targets q) (.ok finished'))
      (run : Runs stack (finished' ++ [q]) rest result) :
      Runs stack finished (.ok q :: rest) result

/-! ## What a search wants of a graph -/

/-- A part of the graph that a search can finish under a stack. -/
structure Sound (stack : List P) (part : Set P) : Prop where
  closed : ∀ p ∈ part, ∀ q, g.Edge p q → q ∈ part
  intact : ∀ p ∈ part, ∀ target ∈ g.targets p, ∃ q, target = .ok q
  apart : ∀ a ∈ stack, ∀ p ∈ part, g.name a ≠ g.name p
  unique : ∀ p ∈ part, ∀ q ∈ part, g.name p = g.name q → p = q
  acyclic : ∀ p ∈ part, ¬ Relation.TransGen g.Edge p p

/-- The targets can be followed and lead to what a search can finish. -/
def Clear (stack : List P) (finished : Set P) (targets : List (Except E P)) : Prop :=
  (∀ target ∈ targets, ∃ q, target = .ok q) ∧ g.Sound stack (finished ∪ g.region targets)

/-- The first target, in the order of the search, with the name of a node of the stack: the
stack from that node on, and the target. -/
inductive FirstRepeat [DecidableEq K] :
    List P → Set P → List (Except E P) → List P → P → Prop where
  | here {stack finished q rest} (met : ∃ a ∈ stack, g.name a = g.name q) :
      FirstRepeat stack finished (.ok q :: rest) (g.onward stack q) q
  | inside {stack finished q rest chain b} (fresh : g.Fresh stack finished q)
      (first : FirstRepeat (stack ++ [q]) finished (g.targets q) chain b) :
      FirstRepeat stack finished (.ok q :: rest) chain b
  | after {stack finished q rest chain b} (clear : g.Clear stack finished [.ok q])
      (first : FirstRepeat stack (finished ∪ g.region [.ok q]) rest chain b) :
      FirstRepeat stack finished (.ok q :: rest) chain b

variable {g}

/-! ## Regions -/

@[simp] theorem region_nil : g.region [] = ∅ := by
  ext p
  simp [region]

theorem region_cons (q : P) (rest : List (Except E P)) :
    g.region (.ok q :: rest) = g.region [.ok q] ∪ g.region rest := by
  ext p
  simp only [region, mem_cons, not_mem_nil, or_false, Set.mem_ofPred_eq, Set.mem_union]
  constructor
  · intro h
    obtain ⟨r, hr | hr, hreach⟩ := h
    · exact .inl ⟨r, hr, hreach⟩
    · exact .inr ⟨r, hr, hreach⟩
  · intro h
    obtain ⟨r, hr, hreach⟩ | ⟨r, hr, hreach⟩ := h
    · exact ⟨r, .inl hr, hreach⟩
    · exact ⟨r, .inr hr, hreach⟩

theorem region_single (q : P) : g.region [.ok q] = {q} ∪ g.region (g.targets q) := by
  ext p
  simp only [region, mem_singleton, Set.mem_ofPred_eq, Set.mem_union, Set.mem_singleton_iff]
  constructor
  · intro h
    obtain ⟨r, hr, hreach⟩ := h
    cases hr
    obtain heq | ⟨s, hedge, hreach⟩ := hreach.cases_head
    · exact .inl heq.symm
    · exact .inr ⟨s, hedge, hreach⟩
  · intro h
    obtain rfl | ⟨s, hedge, hreach⟩ := h
    · exact ⟨p, rfl, .refl⟩
    · exact ⟨q, rfl, .head hedge hreach⟩

theorem mem_region_single (q : P) : q ∈ g.region [.ok q] := ⟨q, mem_singleton_self _, .refl⟩

theorem closed_region (targets : List (Except E P)) :
    ∀ p ∈ g.region targets, ∀ q, g.Edge p q → q ∈ g.region targets := by
  intro p hp q hedge
  obtain ⟨r, hr, hreach⟩ := hp
  exact ⟨r, hr, hreach.tail hedge⟩

variable {stack : List P} {q : P}

/-- A closed part has all that one of its nodes leads to. -/
theorem Sound.region_subset {part : Set P} (h : g.Sound stack part) (hq : q ∈ part) :
    g.region [.ok q] ⊆ part := by
  intro p hp
  obtain ⟨r, hr, hreach⟩ := hp
  obtain rfl : r = q := by simpa using hr
  induction hreach with
  | refl => exact hq
  | tail _ hedge ih => exact h.closed _ ih _ hedge

/-- A node on a cycle is one that its own targets lead to. -/
theorem mem_region_targets (h : Relation.TransGen g.Edge q q) : q ∈ g.region (g.targets q) := by
  obtain ⟨r, hedge, hreach⟩ := Relation.TransGen.head'_iff.mp h
  exact ⟨r, hedge, hreach⟩

theorem transGen_of_mem_region (h : q ∈ g.region (g.targets q)) : Relation.TransGen g.Edge q q := by
  obtain ⟨r, hedge, hreach⟩ := h
  exact Relation.TransGen.head' hedge hreach

/-! ## Parts a search can finish -/

theorem Sound.mono {part part' : Set P} (h : g.Sound stack part)
    (closed : ∀ p ∈ part', ∀ q, g.Edge p q → q ∈ part') (sub : part' ⊆ part) :
    g.Sound stack part' where
  closed := closed
  intact p hp := h.intact p (sub hp)
  apart a ha p hp := h.apart a ha p (sub hp)
  unique p hp q hq := h.unique p (sub hp) q (sub hq)
  acyclic p hp := h.acyclic p (sub hp)

/-- A target with a new name may go on the stack. -/
theorem Sound.push {stack : List P} {finished : Set P} {q : P} (h : g.Sound stack finished)
    (fresh : g.Fresh stack finished q) : g.Sound (stack ++ [q]) finished where
  closed := h.closed
  intact := h.intact
  apart a ha p hp := by
    obtain ha | ha := mem_append.mp ha
    · exact h.apart a ha p hp
    · obtain rfl := mem_singleton.mp ha
      exact (fresh.2 p hp).symm
  unique := h.unique
  acyclic := h.acyclic

variable {finished : Set P}

theorem closed_union (closed : ∀ p ∈ finished, ∀ q, g.Edge p q → q ∈ finished)
    (targets : List (Except E P)) :
    ∀ p ∈ finished ∪ g.region targets, ∀ q, g.Edge p q → q ∈ finished ∪ g.region targets := by
  intro p hp q hedge
  obtain hp | hp := hp
  · exact .inl (closed p hp q hedge)
  · exact .inr (closed_region targets p hp q hedge)

theorem Clear.rest {rest : List (Except E P)} (h : g.Clear stack finished (.ok q :: rest)) :
    g.Clear stack (finished ∪ g.region [.ok q]) rest := by
  refine ⟨fun target htarget => h.1 target (mem_cons_of_mem _ htarget), ?_⟩
  have sound := h.2
  rwa [region_cons, ← Set.union_assoc] at sound

theorem Clear.cons {stack : List P} {finished : Set P} {q : P} {rest : List (Except E P)}
    (h : g.Clear stack (finished ∪ g.region [.ok q]) rest) :
    g.Clear stack finished (.ok q :: rest) := by
  refine ⟨forall_mem_cons.mpr ⟨⟨q, rfl⟩, h.1⟩, ?_⟩
  rw [region_cons, ← Set.union_assoc]
  exact h.2

/-- Below a target with a new name there is nothing with its name: it would be the target
itself, and on a cycle. -/
theorem Clear.targets {rest : List (Except E P)} (h : g.Clear stack finished (.ok q :: rest))
    (finish : g.Sound stack finished) (fresh : g.Fresh stack finished q) :
    g.Clear (stack ++ [q]) finished (g.targets q) := by
  have hq : q ∈ finished ∪ g.region (.ok q :: rest) :=
    .inr (region_cons q rest ▸ .inl (mem_region_single q))
  have hbelow : g.region (g.targets q) ⊆ finished ∪ g.region (.ok q :: rest) := by
    intro p hp
    refine .inr (region_cons q rest ▸ .inl ?_)
    exact region_single q ▸ .inr hp
  refine ⟨h.2.intact q hq, ?_⟩
  have sound : g.Sound stack (finished ∪ g.region (g.targets q)) :=
    h.2.mono (closed_union finish.closed _) (Set.union_subset Set.subset_union_left hbelow)
  refine sound.push ⟨fresh.1, fun p hp hname => ?_⟩
  obtain hp | hp := hp
  · exact fresh.2 p hp hname
  · obtain rfl := h.2.unique p (hbelow hp) q hq hname
    exact h.2.acyclic p hq (transGen_of_mem_region hp)

/-- A target whose own targets are clear under it. -/
theorem Clear.single (fresh : g.Fresh stack finished q)
    (h : g.Clear (stack ++ [q]) finished (g.targets q)) : g.Clear stack finished [.ok q] := by
  have hstack : ∀ a ∈ stack, a ∈ stack ++ [q] := fun a ha => mem_append_left _ ha
  -- the name of the target stays on the stack while its own targets are searched
  have hself : ∀ p ∈ finished ∪ g.region (g.targets q), g.name q ≠ g.name p :=
    h.2.apart q (mem_append_right _ (mem_singleton_self q))
  have hpart : finished ∪ g.region [.ok q] = {q} ∪ (finished ∪ g.region (g.targets q)) := by
    rw [region_single, Set.union_left_comm]
  refine ⟨fun target htarget => ⟨q, mem_singleton.mp htarget⟩, ?_⟩
  rw [hpart]
  exact
    { closed := by
        intro p hp r hedge
        obtain rfl | hp := hp
        · exact .inr (.inr ⟨r, hedge, .refl⟩)
        · exact .inr (h.2.closed p hp r hedge)
      intact := by
        intro p hp
        obtain rfl | hp := hp
        · exact h.1
        · exact h.2.intact p hp
      apart := by
        intro a ha p hp
        obtain rfl | hp := hp
        · exact fresh.1 a ha
        · exact h.2.apart a (hstack a ha) p hp
      unique := by
        intro p hp r hr hname
        obtain rfl | hp := hp
        · obtain rfl | hr := hr
          · rfl
          · exact absurd hname (hself r hr)
        · obtain rfl | hr := hr
          · exact absurd hname.symm (hself p hp)
          · exact h.2.unique p hp r hr hname
      acyclic := by
        intro p hp hcycle
        obtain rfl | hp := hp
        · exact hself p (.inr (mem_region_targets hcycle)) rfl
        · exact h.2.acyclic p hp hcycle }

theorem Sound.union_region (h : g.Sound stack finished) (hq : q ∈ finished) :
    finished ∪ g.region [.ok q] = finished :=
  Set.union_eq_self_of_subset_right (h.region_subset hq)

theorem Sound.clear_known (h : g.Sound stack finished) (hq : q ∈ finished) :
    g.Clear stack finished [.ok q] := by
  refine ⟨fun target htarget => ⟨q, mem_singleton.mp htarget⟩, ?_⟩
  rwa [h.union_region hq]

variable {finished' : List P}

/-- Finishing a target whose own targets have been followed. -/
theorem finished_push {finished : List P}
    (h : {p | p ∈ finished'} = {p | p ∈ finished} ∪ g.region (g.targets q)) :
    {p | p ∈ finished' ++ [q]} = {p | p ∈ finished} ∪ g.region [.ok q] := by
  have hpush : {p | p ∈ finished' ++ [q]} = {p | p ∈ finished'} ∪ {q} := by
    ext p
    simp [or_comm]
  rw [hpush, h, region_single, Set.union_assoc, Set.union_comm {q}]

/-- What a fault says of the graph. -/
def Blames (g : NamedGraph P K E) (finished : Set P) (targets : List (Except E P)) :
    Fault P K E → Prop
  | .broken error =>
      .error error ∈ targets ∨ ∃ p ∈ g.region targets, .error error ∈ g.targets p
  | .cycle _ => True
  | .duplicate p q =>
      p ≠ q ∧ g.name p = g.name q ∧ p ∈ finished ∪ g.region targets ∧ q ∈ g.region targets

variable {fault : Fault P K E}

theorem Blames.lift {finished' : Set P} {targets targets' : List (Except E P)}
    (h : g.Blames finished targets fault)
    (broken : ∀ error, .error error ∈ targets →
      .error error ∈ targets' ∨ ∃ p ∈ g.region targets', .error error ∈ g.targets p)
    (region : g.region targets ⊆ g.region targets')
    (finish : finished ⊆ finished' ∪ g.region targets') : g.Blames finished' targets' fault := by
  cases fault with
  | broken error =>
      obtain hmem | ⟨p, hp, hmem⟩ := h
      · exact broken error hmem
      · exact .inr ⟨p, region hp, hmem⟩
  | cycle => trivial
  | duplicate =>
      obtain ⟨hne, hname, hp, hq⟩ := h
      refine ⟨hne, hname, ?_, region hq⟩
      obtain hp | hp := hp
      · exact finish hp
      · exact .inr (region hp)

/-- Nodes of these names, reached from the root, that follow one another back to the first. -/
def Cyclic (g : NamedGraph P K E) (root : P) (names : List K) : Prop :=
  ∃ p chain, g.Reach root p ∧ (p :: chain ++ [p]).IsChain g.Edge ∧
    names = (p :: chain ++ [p]).map g.name

theorem Cyclic.transGen {root : P} {names : List K} (h : g.Cyclic root names) :
    ∃ p, g.Reach root p ∧ Relation.TransGen g.Edge p p := by
  obtain ⟨p, chain, hreach, hchain, -⟩ := h
  refine ⟨p, hreach, ?_⟩
  cases chain with
  | nil => exact .single (isChain_cons_cons.mp hchain).1
  | cons =>
      obtain ⟨hedge, hchain⟩ := isChain_cons_cons.mp hchain
      refine .head' hedge (relationReflTransGen_of_exists_isChain_cons _ hchain ?_)
      simp

/-! ## Runs -/

variable [DecidableEq K]

/-- A search of some targets begins with the search of the first. -/
theorem Runs.cons {stack finished finished' : List P} {target : Except E P}
    {rest : List (Except E P)} {result : Except (Fault P K E) (List P)}
    (first : g.Runs stack finished [target] (.ok finished'))
    (run : g.Runs stack finished' rest result) : g.Runs stack finished (target :: rest) result := by
  cases first with
  | known apart mem nil =>
      cases nil
      exact .known apart mem run
  | descends fresh inner nil =>
      cases nil
      exact .descends fresh inner run

theorem Runs.cons_error {finished : List P} {target : Except E P}
    (first : g.Runs stack finished [target] (.error fault)) (rest : List (Except E P)) :
    g.Runs stack finished (target :: rest) (.error fault) := by
  cases first with
  | broken => exact .broken
  | cycle met => exact .cycle met
  | duplicate apart mem named ne => exact .duplicate apart mem named ne
  | known _ _ nil => cases nil
  | fails fresh inner => exact .fails fresh inner
  | descends _ _ nil => cases nil

variable {result : Except (Fault P K E) (List P)}

/-- A search that succeeds has covered a clear part, and has finished just that part. -/
theorem Runs.clear {finished : List P} {targets : List (Except E P)}
    (run : g.Runs stack finished targets result) (sound : g.Sound stack {p | p ∈ finished})
    (ok : result = .ok finished') :
    g.Clear stack {p | p ∈ finished} targets ∧
      {p | p ∈ finished'} = {p | p ∈ finished} ∪ g.region targets := by
  induction run generalizing finished' with
  | nil =>
      cases ok
      exact ⟨⟨fun _ h => absurd h not_mem_nil, by simpa using sound⟩, by simp⟩
  | broken => cases ok
  | cycle => cases ok
  | duplicate => cases ok
  | fails => cases ok
  | @known _ finished q rest _ _ mem _ ih =>
      have hsame := sound.union_region mem
      obtain ⟨hclear, hfinished⟩ := ih sound ok
      constructor
      · rw [← hsame] at hclear
        exact hclear.cons
      · rw [hfinished, region_cons, ← Set.union_assoc, hsame]
  | descends fresh _ _ ihInner ih =>
      -- what has been finished below the target, and then the target itself
      obtain ⟨hinner, hbelow⟩ := ihInner (sound.push fresh) rfl
      have hpush := finished_push hbelow
      have hsingle := hinner.single fresh
      obtain ⟨hclear, hfinished⟩ := ih (hpush ▸ hsingle.2) ok
      rw [hpush] at hclear hfinished
      exact ⟨hclear.cons, by rw [hfinished, Set.union_assoc, ← region_cons]⟩

/-- A search that fails was not of a clear part. -/
theorem Runs.not_clear {finished : List P} {targets : List (Except E P)}
    (run : g.Runs stack finished targets result) (sound : g.Sound stack {p | p ∈ finished})
    (error : result = .error fault) : ¬ g.Clear stack {p | p ∈ finished} targets := by
  have hmem : ∀ (finished : Set P) (q : P) (rest : List (Except E P)),
      q ∈ finished ∪ g.region (.ok q :: rest) := fun _ q _ =>
    .inr ⟨q, mem_cons_self, .refl⟩
  induction run with
  | nil => cases error
  | @broken _ _ broken rest =>
      intro clear
      obtain ⟨q, hq⟩ := clear.1 (.error broken) mem_cons_self
      cases hq
  | cycle met =>
      intro clear
      obtain ⟨a, ha, hname⟩ := met
      exact clear.2.apart a ha _ (hmem _ _ _) hname
  | duplicate _ mem named ne =>
      exact fun clear => ne (clear.2.unique _ (.inl mem) _ (hmem _ _ _) named)
  | known _ mem _ ih =>
      intro clear
      have hrest := clear.rest
      rw [sound.union_region mem] at hrest
      exact ih sound error hrest
  | fails fresh _ ih =>
      exact fun clear => ih (sound.push fresh) error (clear.targets sound fresh)
  | descends fresh inner _ _ ih =>
      intro clear
      obtain ⟨hinner, hbelow⟩ := inner.clear (sound.push fresh) rfl
      have hpush := finished_push hbelow
      have hsingle := hinner.single fresh
      exact ih (hpush ▸ hsingle.2) error (hpush ▸ clear.rest)

/-- What a search takes for a cycle is the first repeated name. -/
theorem Runs.firstRepeat {finished : List P} {targets : List (Except E P)}
    (run : g.Runs stack finished targets result) (sound : g.Sound stack {p | p ∈ finished})
    {names : List K} (error : result = .error (.cycle names)) :
    ∃ chain b, g.FirstRepeat stack {p | p ∈ finished} targets chain b ∧
      names = (chain ++ [b]).map g.name := by
  induction run with
  | nil => cases error
  | broken => cases error
  | duplicate => cases error
  | cycle met =>
      cases error
      exact ⟨_, _, .here met, rfl⟩
  | known _ mem _ ih =>
      obtain ⟨chain, b, first, hnames⟩ := ih sound error
      rw [← sound.union_region mem] at first
      exact ⟨chain, b, .after (sound.clear_known mem) first, hnames⟩
  | fails fresh _ ih =>
      obtain ⟨chain, b, first, hnames⟩ := ih (sound.push fresh) error
      exact ⟨chain, b, .inside fresh first, hnames⟩
  | descends fresh inner _ _ ih =>
      obtain ⟨hinner, hbelow⟩ := inner.clear (sound.push fresh) rfl
      have hpush := finished_push hbelow
      have hsingle := hinner.single fresh
      obtain ⟨chain, b, first, hnames⟩ := ih (hpush ▸ hsingle.2) error
      exact ⟨chain, b, .after hsingle (hpush ▸ first), hnames⟩

variable {chain : List P} {b : P}

/-- A search that meets a repeated name first ends there. -/
theorem Runs.of_firstRepeat {finished : List P} {targets : List (Except E P)}
    (run : g.Runs stack finished targets result) (sound : g.Sound stack {p | p ∈ finished})
    (first : g.FirstRepeat stack {p | p ∈ finished} targets chain b) :
    result = .error (.cycle ((chain ++ [b]).map g.name)) := by
  have hmem : ∀ (finished : Set P) (q : P), q ∈ finished ∪ g.region [.ok q] :=
    fun _ q => .inr (mem_region_single q)
  -- in each rule of the search: could the first repeat be here, inside or after?
  induction run with
  | nil => cases first
  | broken => cases first
  | cycle met =>
      obtain ⟨a, ha, hname⟩ := met
      cases first with
      | here => rfl
      | inside fresh => exact absurd hname (fresh.1 a ha)
      | after clear => exact absurd hname (clear.2.apart a ha _ (hmem _ _))
  | duplicate apart mem named ne =>
      cases first with
      | here met =>
          obtain ⟨a, ha, hname⟩ := met
          exact absurd hname (apart a ha)
      | inside fresh => exact absurd named (fresh.2 _ mem)
      | after clear => exact absurd (clear.2.unique _ (.inl mem) _ (hmem _ _) named) ne
  | known apart mem _ ih =>
      cases first with
      | here met =>
          obtain ⟨a, ha, hname⟩ := met
          exact absurd hname (apart a ha)
      | inside fresh => exact absurd rfl (fresh.2 _ mem)
      | after _ first =>
          rw [sound.union_region mem] at first
          exact ih sound first
  | fails fresh inner ih =>
      cases first with
      | here met =>
          obtain ⟨a, ha, hname⟩ := met
          exact absurd hname (fresh.1 a ha)
      | inside _ first => exact ih (sound.push fresh) first
      | after clear =>
          exact absurd (clear.targets sound fresh) (inner.not_clear (sound.push fresh) rfl)
  | descends fresh inner _ ihInner ih =>
      obtain ⟨hinner, hbelow⟩ := inner.clear (sound.push fresh) rfl
      have hpush := finished_push hbelow
      cases first with
      | here met =>
          obtain ⟨a, ha, hname⟩ := met
          exact absurd hname (fresh.1 a ha)
      | inside _ first => exact nomatch ihInner (sound.push fresh) first
      | after clear first => exact ih (hpush ▸ clear.2) (hpush ▸ first)

theorem Runs.blames {finished : List P} {targets : List (Except E P)}
    (run : g.Runs stack finished targets result) (sound : g.Sound stack {p | p ∈ finished})
    (error : result = .error fault) : g.Blames {p | p ∈ finished} targets fault := by
  have hrest : ∀ (q : P) (rest : List (Except E P)), g.region rest ⊆ g.region (.ok q :: rest) :=
    fun q rest => region_cons q rest ▸ Set.subset_union_right
  induction run with
  | nil => cases error
  | broken =>
      cases error
      exact .inl mem_cons_self
  | cycle =>
      cases error
      trivial
  | duplicate _ mem named ne =>
      cases error
      exact ⟨ne, named, .inl mem, _, mem_cons_self, .refl⟩
  | known _ _ _ ih =>
      refine (ih sound error).lift ?_ (hrest _ _) Set.subset_union_left
      exact fun error hmem => .inl (mem_cons_of_mem _ hmem)
  | @fails _ _ q rest _ fresh _ ih =>
      have hq : q ∈ g.region (.ok q :: rest) := ⟨q, mem_cons_self, .refl⟩
      refine (ih (sound.push fresh) error).lift ?_ ?_ Set.subset_union_left
      · exact fun error hmem => .inr ⟨q, hq, hmem⟩
      · intro p hp
        rw [region_cons, region_single]
        exact .inl (.inr hp)
  | @descends _ finished finished' q rest _ fresh inner _ _ ih =>
      obtain ⟨hinner, hbelow⟩ := inner.clear (sound.push fresh) rfl
      have hpush := finished_push hbelow
      have hsingle := hinner.single fresh
      refine (ih (hpush ▸ hsingle.2) error).lift ?_ (hrest _ _) ?_
      · exact fun error hmem => .inl (mem_cons_of_mem _ hmem)
      · rw [hpush, region_cons q rest, ← Set.union_assoc]
        exact Set.subset_union_left

/-! ## Cycles -/

theorem mem_of_mem_onward {p : P} (h : p ∈ g.onward stack q) : p ∈ stack :=
  (dropWhile_sublist _).subset h

/-- The nodes up to a repeated name follow one another. -/
theorem FirstRepeat.isChain {targets : List (Except E P)}
    (first : g.FirstRepeat stack finished targets chain b)
    (path : ∀ q, .ok q ∈ targets → (stack ++ [q]).IsChain g.Edge) :
    (chain ++ [b]).IsChain g.Edge := by
  induction first with
  | here =>
      refine (path _ mem_cons_self).suffix ?_
      exact suffix_append_self_iff.mpr (dropWhile_suffix _)
  | @inside stack _ q _ _ _ _ _ ih =>
      refine ih fun r hr => (path q mem_cons_self).append (isChain_singleton r) ?_
      intro x hx y hy
      obtain rfl : x = q := by simpa using hx.symm
      obtain rfl : y = r := by simpa using hy.symm
      exact hr
  | after _ _ ih => exact ih fun q hq => path q (mem_cons_of_mem _ hq)

theorem FirstRepeat.mem {targets : List (Except E P)}
    (first : g.FirstRepeat stack finished targets chain b) :
    ∀ p ∈ chain ++ [b], p ∈ stack ∨ p ∈ g.region targets := by
  induction first with
  | @here stack _ q rest _ =>
      intro p hp
      obtain hp | hp := mem_append.mp hp
      · exact .inl (mem_of_mem_onward hp)
      · obtain rfl := mem_singleton.mp hp
        exact .inr ⟨p, mem_cons_self, .refl⟩
  | @inside stack _ q rest _ _ _ _ ih =>
      intro p hp
      have hq : q ∈ g.region (.ok q :: rest) := ⟨q, mem_cons_self, .refl⟩
      obtain hp | hp := ih p hp
      · obtain hp | hp := mem_append.mp hp
        · exact .inl hp
        · exact .inr (mem_singleton.mp hp ▸ hq)
      · refine .inr ?_
        rw [region_cons, region_single]
        exact .inl (.inr hp)
  | @after _ _ q rest _ _ _ _ ih =>
      intro p hp
      refine (ih p hp).imp_right fun hp => ?_
      rw [region_cons]
      exact .inr hp

/-- A repeated name is a cycle when it is the node of the stack itself that is met again. -/
theorem FirstRepeat.cyclic {root : P} (first : g.FirstRepeat [] ∅ [.ok root] chain b)
    (itself : chain.head? = some b) : g.Cyclic root ((chain ++ [b]).map g.name) := by
  obtain ⟨rest, rfl⟩ := head?_eq_some_iff.mp itself
  refine ⟨b, rest, ?_, first.isChain fun q _ => isChain_singleton q, rfl⟩
  have hmem := first.mem b (by simp)
  obtain ⟨q, hq, hreach⟩ := hmem.resolve_left not_mem_nil
  obtain rfl : q = root := by simpa using hq
  exact hreach

end NamedGraph

end Jadren
