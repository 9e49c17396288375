import Jadren.Mir.RegionLowering

/-!
# Lowered functions nest their regions

Lowering is followed with a stack for each block made so far (`Builder.Nested`): the
regions entered and not exited on every path to the block.  A new block gets the
stack of the block that will lead to it.  `Lowers` says what lowering a piece of code
does to the current block, from any builder; there is one lemma for each construct
that makes blocks, and the induction over the syntax puts them together.
-/

namespace Jadren.Mir

open List

variable {events : List RegionEvent} {stack out : List LocalId}

theorem Nests.exited {region : LocalId} (h : Nests events stack (region :: out)) :
    Nests (events ++ [.exit region]) stack out :=
  h.append (.exit .nil)

theorem Nests.entered {region : LocalId} (h : Nests events stack out)
    (later : ∀ outer ∈ out, outer < region) :
    Nests (events ++ [.enter region]) stack (region :: out) :=
  h.append (.enter later .nil)

namespace Builder

/-! ## Stacks of a builder -/

/-- Stacks for the blocks of a builder.  `opened` are the regions open where the current block
has been written to, `base` those open where the innermost loop began. -/
structure Nested (b : Builder) (entries : List (List LocalId)) (opened base : List LocalId) :
    Prop where
  length : entries.length = b.blocks.length
  entry : entries[0]? = some []
  sorted : ∀ stack ∈ entries, stack.Pairwise (· > ·)
  below : ∀ stack ∈ entries, ∀ region ∈ stack, region < b.locals
  openedBelow : ∀ region ∈ opened, region < b.locals
  current : ∃ block stack, b.blocks[b.currentBlock]? = some block ∧
    entries[b.currentBlock]? = some stack ∧ Nests block.events stack opened
  closed : ∀ {c block stack}, c ≠ b.currentBlock → b.blocks[c]? = some block →
    entries[c]? = some stack → ∃ out, Nests block.events stack out ∧
      ∀ jump, block.terminator = some jump → ∀ t ∈ jump.successors, entries[t]? = some out
  loops : ∀ targets, b.loopTargets.head? = some targets →
    entries[targets.breakBlock]? = some base ∧ entries[targets.continueBlock]? = some base

/-- Wherever the current block leads, the regions `opened` are open. -/
def Leads (b : Builder) (entries : List (List LocalId)) (opened : List LocalId) : Prop :=
  ∀ jump, b.terminator = some jump → ∀ t ∈ jump.successors, entries[t]? = some opened

/-- A block nothing has been written to yet. -/
structure Fresh (b : Builder) (entries : List (List LocalId)) (c : BasicBlockId)
    (stack : List LocalId) : Prop where
  block : b.blocks[c]? = some ⟨[], none⟩
  entered : entries[c]? = some stack
  other : c ≠ b.currentBlock

/-- How the current block has ended. -/
def Ends (b : Builder) (entries : List (List LocalId)) (base : List LocalId) : Ending → Prop
  | .running => b.terminator = none
  | .stopped => ∃ jump, b.terminator = some jump ∧ jump.successors = []
  | .jumped => ∃ jump, b.terminator = some jump ∧ ∀ t ∈ jump.successors, entries[t]? = some base

/-- `b'` was made from `b`: blocks other than the current one were kept. -/
structure Since (b b' : Builder) (entries entries' : List (List LocalId)) : Prop where
  grown : entries <+: entries'
  length : b.blocks.length ≤ b'.blocks.length
  loops : b'.loopTargets = b.loopTargets
  current : b'.currentBlock = b.currentBlock ∨ b.blocks.length ≤ b'.currentBlock
  kept : ∀ {c}, c < b.blocks.length → c ≠ b.currentBlock → b'.blocks[c]? = b.blocks[c]?

variable {b b' b'' : Builder} {entries entries' entries'' : List (List LocalId)}
  {opened base stack : List LocalId}

theorem getElem?_of_grown {α : Type} {l l' : List α} {c : ℕ} {a : α} (h : l <+: l')
    (ha : l[c]? = some a) : l'[c]? = some a := by
  obtain ⟨rest, rfl⟩ := h
  rw [getElem?_append_left (List.getElem?_eq_some_iff.mp ha).1, ha]

theorem Since.refl : Since b b entries entries :=
  ⟨prefix_refl _, le_refl _, rfl, Or.inl rfl, fun _ _ => rfl⟩

theorem Since.trans (h : Since b b' entries entries') (h' : Since b' b'' entries' entries'') :
    Since b b'' entries entries'' where
  grown := h.grown.trans h'.grown
  length := h.length.trans h'.length
  loops := h'.loops.trans h.loops
  current := by
    have hlength := h.length
    obtain hsame | hnew := h'.current
    · exact hsame ▸ h.current
    · exact Or.inr (by omega)
  kept {c} hc hother := by
    have hlength := h.length
    have hother' : c ≠ b'.currentBlock := by
      obtain hsame | hnew := h.current
      · exact hsame ▸ hother
      · omega
    rw [h'.kept (by omega) hother', h.kept hc hother]

/-- An untouched block stays untouched while another is current. -/
theorem Fresh.since {c : BasicBlockId} (h : Fresh b entries c stack)
    (since : Since b b' entries entries') : Fresh b' entries' c stack where
  block := by
    rw [since.kept (List.getElem?_eq_some_iff.mp h.block).1 h.other]
    exact h.block
  entered := getElem?_of_grown since.grown h.entered
  other := by
    have hc := (List.getElem?_eq_some_iff.mp h.block).1
    obtain hsame | hnew := since.current
    · exact hsame ▸ h.other
    · exact (hc.trans_le hnew).ne

theorem Fresh.switchTo {c d : ℕ} (h : Fresh b entries c stack) (hne : c ≠ d) :
    Fresh (b.switchTo d) entries c stack :=
  ⟨h.block, h.entered, hne⟩

/-! ## One operation -/

variable {block : PendingBlock}

theorem terminator_of_block (h : b.blocks[b.currentBlock]? = some block) :
    b.terminator = block.terminator := by
  simp [terminator, h]

theorem since_addLocals (count : ℕ) : Since b (b.addLocals count) entries entries :=
  ⟨prefix_refl _, le_refl _, rfl, Or.inl rfl, fun _ _ => rfl⟩

theorem since_takePending : Since b b.takePending entries entries :=
  ⟨prefix_refl _, le_refl _, rfl, Or.inl rfl, fun _ _ => rfl⟩

theorem since_modifyCurrent (f : PendingBlock → PendingBlock) :
    Since b (b.modifyCurrent f) entries entries where
  grown := prefix_refl _
  length := by simp [modifyCurrent]
  loops := rfl
  current := Or.inl rfl
  kept _ hother := getElem?_modify_ne f _ hother.symm

theorem since_newBlock : Since b b.newBlock entries (entries ++ [opened]) where
  grown := prefix_append _ _
  length := by simp [newBlock]
  loops := rfl
  current := Or.inl rfl
  kept hc _ := getElem?_append_left hc

variable (h : Nested b entries opened base)
include h

theorem Nested.addLocals (count : ℕ) :
    Nested (b.addLocals count) entries opened base :=
  { h with
    below := fun stack hstack region hregion =>
      (h.below stack hstack region hregion).trans_le (Nat.le_add_right _ _)
    openedBelow := fun region hregion =>
      (h.openedBelow region hregion).trans_le (Nat.le_add_right _ _) }

theorem Nested.takePending :
    Nested b.takePending entries opened base := { h with }

theorem Nested.modifyCurrent {f : PendingBlock → PendingBlock}
    {opened' : List LocalId} (hbelow : ∀ region ∈ opened', region < b.locals)
    (hf : ∀ {block stack}, Nests block.events stack opened →
      Nests (f block).events stack opened') : Nested (b.modifyCurrent f) entries opened' base where
  length := by simp [Builder.modifyCurrent, h.length]
  entry := h.entry
  sorted := h.sorted
  below := h.below
  openedBelow := hbelow
  current := by
    obtain ⟨block, stack, hblock, hstack, hnests⟩ := h.current
    exact ⟨f block, stack, by simp [Builder.modifyCurrent, hblock], hstack, hf hnests⟩
  closed {c block stack} hother hblock hstack := by
    have hsame : (b.modifyCurrent f).blocks[c]? = b.blocks[c]? :=
      getElem?_modify_ne f _ hother.symm
    exact h.closed hother (hsame ▸ hblock) hstack
  loops := h.loops

theorem Nested.terminate (jump : Jump) :
    Nested (b.terminate jump) entries opened base :=
  h.modifyCurrent h.openedBelow fun hnests => hnests

theorem terminator_terminate (jump : Jump) :
    (b.terminate jump).terminator = some jump := by
  obtain ⟨block, -, hblock, -, -⟩ := h.current
  simp [terminator, Builder.terminate, Builder.modifyCurrent, hblock]

omit h

theorem Nested.exit {region : LocalId} (h : Nested b entries (region :: opened) base) :
    Nested (b.pushEvent (.exit region)) entries opened base :=
  h.modifyCurrent (fun outer houter => h.openedBelow outer (mem_cons_of_mem _ houter))
    Nests.exited

theorem Nested.enter (h : Nested b entries opened base) :
    Nested ((b.addLocals 1).pushEvent (.enter b.locals)) entries (b.locals :: opened) base := by
  apply (h.addLocals 1).modifyCurrent
  · intro region hregion
    obtain rfl | hopened := List.mem_cons.mp hregion
    · exact Nat.lt_succ_self _
    · exact (h.openedBelow region hopened).trans (Nat.lt_succ_self _)
  · exact fun hnests => hnests.entered h.openedBelow

include h

theorem Nested.openedSorted : opened.Pairwise (· > ·) := by
  obtain ⟨block, stack, -, hstack, hnests⟩ := h.current
  exact sorted_of_nests hnests (h.sorted stack (mem_of_getElem? hstack))

/-- A new block will be entered with the regions that are open now. -/
theorem Nested.newBlock :
    Nested b.newBlock (entries ++ [opened]) opened base where
  length := by simp [Builder.newBlock, h.length]
  entry := getElem?_of_grown (prefix_append _ _) h.entry
  sorted stack hstack := by
    obtain hold | hnew := List.mem_append.mp hstack
    · exact h.sorted stack hold
    · exact List.mem_singleton.mp hnew ▸ h.openedSorted
  below stack hstack := by
    obtain hold | hnew := List.mem_append.mp hstack
    · exact h.below stack hold
    · exact List.mem_singleton.mp hnew ▸ h.openedBelow
  openedBelow := h.openedBelow
  current := by
    obtain ⟨block, stack, hblock, hstack, hnests⟩ := h.current
    exact ⟨block, stack, getElem?_of_grown (prefix_append _ _) hblock,
      getElem?_of_grown (prefix_append _ _) hstack, hnests⟩
  closed {c block stack} hother hblock hstack := by
    by_cases hc : c < b.blocks.length
    · rw [Builder.newBlock, getElem?_append_left hc] at hblock
      rw [getElem?_append_left (h.length ▸ hc)] at hstack
      obtain ⟨out, hnests, hout⟩ := h.closed hother hblock hstack
      exact ⟨out, hnests, fun jump hjump t ht =>
        getElem?_of_grown (prefix_append _ _) (hout jump hjump t ht)⟩
    · have hlength := (List.getElem?_eq_some_iff.mp hblock).1
      have hlast : b.newBlock.blocks.length = b.blocks.length + 1 := by simp [Builder.newBlock]
      obtain rfl : c = b.blocks.length := Nat.le_antisymm (by omega) (Nat.le_of_not_lt hc)
      obtain rfl : ⟨[], none⟩ = block := by simpa [Builder.newBlock] using hblock
      exact ⟨stack, .nil, fun jump hjump => by cases hjump⟩
  loops targets htargets := by
    obtain ⟨hbreak, hcontinue⟩ := h.loops targets htargets
    exact ⟨getElem?_of_grown (prefix_append _ _) hbreak,
      getElem?_of_grown (prefix_append _ _) hcontinue⟩

theorem fresh_newBlock :
    Fresh b.newBlock (entries ++ [opened]) b.blocks.length opened where
  block := by simp [Builder.newBlock]
  entered := by simp [← h.length]
  other := by
    obtain ⟨block, -, hblock, -, -⟩ := h.current
    exact (List.getElem?_eq_some_iff.mp hblock).1.ne'

/-- Where the current block leads to blocks with the regions that are open, all blocks do. -/
theorem Nested.sealed (hleads : Leads b entries opened) {c : ℕ}
    (hblock : b.blocks[c]? = some block) (hstack : entries[c]? = some stack) :
    ∃ out, Nests block.events stack out ∧
      ∀ jump, block.terminator = some jump → ∀ t ∈ jump.successors, entries[t]? = some out := by
  by_cases hcurrent : c = b.currentBlock
  · subst hcurrent
    obtain ⟨block', stack', hblock', hstack', hnests⟩ := h.current
    obtain rfl := Option.some.inj (hblock.symm.trans hblock')
    obtain rfl := Option.some.inj (hstack.symm.trans hstack')
    exact ⟨opened, hnests, fun jump hjump =>
      hleads jump (by rw [terminator_of_block hblock, hjump])⟩
  · exact h.closed hcurrent hblock hstack

omit h

variable {c : BasicBlockId}

include h

theorem Nested.switchTo (hleads : Leads b entries opened)
    (fresh : Fresh b entries c stack) : Nested (b.switchTo c) entries stack base where
  length := h.length
  entry := h.entry
  sorted := h.sorted
  below := h.below
  openedBelow := h.below stack (mem_of_getElem? fresh.entered)
  current := ⟨_, stack, fresh.block, fresh.entered, .nil⟩
  closed _ hblock hstack := h.sealed hleads hblock hstack
  loops := h.loops

omit h

theorem ends_switchTo (fresh : Fresh b entries c stack) :
    Ends (b.switchTo c) entries base .running :=
  terminator_of_block (b := b.switchTo c) fresh.block

variable {ending : Ending} {inner : List LocalId}

theorem Leads.of_ends {regions : ℕ} (hends : Ends b entries base ending)
    (hinner : inner.length = regions) (hseal : (ending.seal regions).isSome) :
    Leads b entries (inner ++ base) := by
  intro jump hjump
  cases ending with
  | running => cases hjump.symm.trans hends
  | stopped =>
      obtain ⟨jump', hjump', hnone⟩ := hends
      obtain rfl := Option.some.inj (hjump.symm.trans hjump')
      simp [hnone]
  | jumped =>
      obtain ⟨jump', hjump', hbase⟩ := hends
      obtain rfl := Option.some.inj (hjump.symm.trans hjump')
      obtain rfl : inner = [] := by
        by_contra hne
        have hregions : regions ≠ 0 := hinner ▸ (length_pos_iff.mpr hne).ne'
        simp [Ending.seal, hregions] at hseal
      exact hbase

theorem currentTerminated_eq (hends : Ends b entries base ending) :
    b.currentTerminated = decide (ending ≠ .running) := by
  cases ending with
  | running =>
      have hnone : b.terminator = none := hends
      simp [currentTerminated, hnone]
  | stopped | jumped =>
      obtain ⟨jump, hjump, -⟩ := hends
      simp [currentTerminated, hjump]

variable {jump : Jump}

include h

theorem leads_terminate
    (htargets : ∀ t ∈ jump.successors, entries[t]? = some stack) :
    Leads (b.terminate jump) entries stack := by
  intro jump' hjump'
  obtain rfl := Option.some.inj ((terminator_terminate h jump).symm.trans hjump')
  exact htargets

omit h

theorem since_terminate (jump : Jump) : Since b (b.terminate jump) entries entries :=
  since_modifyCurrent _

/-- What is written to a block that has ended leaves its end as it is. -/
theorem Ends.keep (h : Ends b entries base ending) (hterminator : b'.terminator = b.terminator)
    (hgrown : entries <+: entries') : Ends b' entries' base ending := by
  cases ending with
  | running => exact hterminator.trans h
  | stopped =>
      obtain ⟨jump, hjump, hnone⟩ := h
      exact ⟨jump, hterminator.trans hjump, hnone⟩
  | jumped =>
      obtain ⟨jump, hjump, hbase⟩ := h
      exact ⟨jump, hterminator.trans hjump, fun t ht => getElem?_of_grown hgrown (hbase t ht)⟩

include h

/-- Ending a branch: its block leads to the join or where it jumped. -/
theorem finish_spec (hleads : Leads b entries opened)
    (htargets : ∀ t ∈ jump.successors, entries[t]? = some opened) :
    Nested (b.finish jump) entries opened base ∧ Leads (b.finish jump) entries opened ∧
      Since b (b.finish jump) entries entries := by
  unfold finish
  split
  · exact ⟨h, hleads, .refl⟩
  · exact ⟨h.terminate jump, leads_terminate h htargets, since_terminate jump⟩

omit h

/-! ## Several operations -/

theorem since_switchTo (since : Since b b' entries entries') (hc : b.blocks.length ≤ c) :
    Since b (b'.switchTo c) entries entries' :=
  { since with current := Or.inr hc }

/-- What lowering a piece of code does, wherever it starts: the regions open before are open
after it, and the current block, which had ended as `before` says, ends as `after` says. -/
def Lowers (lowering : Builder → Builder) (inLoop : Bool) (regions : ℕ) (before after : Ending) :
    Prop :=
  ∀ ⦃b : Builder⦄ ⦃entries : List (List LocalId)⦄ ⦃inner base : List LocalId⦄,
    Nested b entries (inner ++ base) base → Ends b entries base before → inner.length = regions →
    b.loopTargets.isEmpty = !inLoop →
    ∃ entries', Nested (lowering b) entries' (inner ++ base) base ∧
      Ends (lowering b) entries' base after ∧ Since b (lowering b) entries entries'

variable {inLoop : Bool} {regions : ℕ} {before middle after : Ending}
  {first second : Builder → Builder}

theorem Lowers.trans (h : Lowers first inLoop regions before middle)
    (h' : Lowers second inLoop regions middle after) :
    Lowers (fun b => second (first b)) inLoop regions before after := by
  intro b entries inner base nested hends hinner hloop
  obtain ⟨entries₁, nested₁, hends₁, since₁⟩ := h nested hends hinner hloop
  obtain ⟨entries₂, nested₂, hends₂, since₂⟩ :=
    h' nested₁ hends₁ hinner (since₁.loops ▸ hloop)
  exact ⟨entries₂, nested₂, hends₂, since₁.trans since₂⟩

theorem lowers_id : Lowers (fun b => b) inLoop regions before before :=
  fun _ _ _ _ nested hends _ _ => ⟨_, nested, hends, .refl⟩

theorem lowers_addLocals (count : ℕ) :
    Lowers (fun b => b.addLocals count) inLoop regions before before :=
  fun _ _ _ _ nested hends _ _ => ⟨_, nested.addLocals count, hends.keep rfl (prefix_refl _),
    since_addLocals count⟩

theorem lowers_addPending : Lowers addPending inLoop regions before before :=
  fun _ _ _ _ nested hends _ _ => ⟨_, { nested.addLocals 1 with },
    hends.keep rfl (prefix_refl _),
    ⟨prefix_refl _, le_refl _, rfl, Or.inl rfl, fun _ _ => rfl⟩⟩

theorem lowers_flush : Lowers flush inLoop regions before before := by
  intro b entries inner base nested hends hinner hloop
  unfold flush
  split
  · exact ⟨entries, nested, hends, .refl⟩
  · exact ⟨entries, nested.takePending, hends.keep rfl (prefix_refl _), since_takePending⟩

/-- An end without successors. -/
theorem lowers_stop (hjump : jump.successors = []) :
    Lowers (fun b => b.terminate jump) inLoop regions before .stopped :=
  fun _ _ _ _ nested _ _ _ => ⟨_, nested.terminate jump,
    ⟨jump, terminator_terminate nested jump, hjump⟩,
    since_terminate jump⟩

/-- `break` or `continue`. -/
theorem lowers_leave {target : LoopTargets → BasicBlockId}
    (htarget : ∀ targets, target targets = targets.breakBlock ∨
      target targets = targets.continueBlock) :
    Lowers (fun b => b.leave target) inLoop regions before
      (if inLoop then .jumped else .stopped) := by
  intro b entries inner base nested hends hinner hloop
  cases htargets : b.loopTargets with
  | nil =>
      obtain rfl : inLoop = false := by simpa [htargets] using hloop
      have hleave : b.leave target = b.terminate .unreachable := by simp [leave, htargets]
      simp only [hleave]
      exact (lowers_stop rfl : Lowers (fun b => b.terminate .unreachable) false regions before _)
        nested hends hinner hloop
  | cons targets =>
      obtain rfl : inLoop = true := by simpa [htargets] using hloop
      have hleave : b.leave target = b.terminate (.goto (target targets)) := by
        simp [leave, htargets]
      simp only [hleave]
      obtain ⟨hbreak, hcontinue⟩ := nested.loops targets (by simp [htargets])
      refine ⟨entries, nested.terminate _, ⟨_, terminator_terminate nested _, ?_⟩,
        since_terminate _⟩
      intro t ht
      obtain rfl : t = target targets := List.mem_singleton.mp ht
      obtain heq | heq := htarget targets
      · rw [heq, hbreak]
      · rw [heq, hcontinue]

/-- A region is exited in the block where its body ends. -/
theorem lowers_region (h : Lowers first inLoop (regions + 1) before after) :
    Lowers (fun b => (first ((b.addLocals 1).pushEvent (.enter b.locals))).pushEvent
      (.exit b.locals)) inLoop regions before after := by
  intro b entries inner base nested hends hinner hloop
  have hpush : ∀ {b : Builder} {event}, (b.pushEvent event).terminator = b.terminator := by
    intro b event
    cases hblock : b.blocks[b.currentBlock]? <;>
      simp [terminator, pushEvent, modifyCurrent, hblock]
  have entered : Nested ((b.addLocals 1).pushEvent (.enter b.locals)) entries
      ((b.locals :: inner) ++ base) base := nested.enter
  obtain ⟨entries', nested', hends', since'⟩ := h entered
    (hends.keep hpush (prefix_refl _)) (by simp [hinner]) hloop
  exact ⟨entries', nested'.exit, hends'.keep hpush (prefix_refl _),
    ((since_addLocals 1).trans (since_modifyCurrent _)).trans
      (since'.trans (since_modifyCurrent _))⟩

/-! ## Branches -/

/-- New blocks, to be entered with the regions that are open now. -/
theorem newBlocks_spec (nested : Nested b entries opened base) (count : ℕ) :
    ∃ entries', Nested (newBlock^[count] b) entries' opened base ∧
      Since b (newBlock^[count] b) entries entries' ∧
      (newBlock^[count] b).blocks.length = b.blocks.length + count ∧
      ∀ c, b.blocks.length ≤ c → c < b.blocks.length + count →
        Fresh (newBlock^[count] b) entries' c opened := by
  induction count with
  | zero => exact ⟨entries, nested, .refl, rfl, fun c h h' => absurd h' (Nat.not_lt.mpr h)⟩
  | succ count ih =>
      obtain ⟨entries', nested', since', hlength, fresh⟩ := ih
      rw [Function.iterate_succ_apply']
      refine ⟨_, nested'.newBlock, since'.trans since_newBlock, by simp [newBlock, hlength]; omega,
        fun c hle hlt => ?_⟩
      by_cases hold : c < b.blocks.length + count
      · exact (fresh c hle hold).since since_newBlock
      · obtain rfl : c = (newBlock^[count] b).blocks.length := by omega
        exact fresh_newBlock nested'

/-- New blocks, and the current block ended with a jump to some of them. -/
theorem fork_spec (nested : Nested b entries opened base) (count : ℕ) (jump : Jump)
    (hjump : ∀ t ∈ jump.successors, b.blocks.length ≤ t ∧ t < b.blocks.length + count) :
    ∃ entries', Nested ((newBlock^[count] b).terminate jump) entries' opened base ∧
      Leads ((newBlock^[count] b).terminate jump) entries' opened ∧
      Since b ((newBlock^[count] b).terminate jump) entries entries' ∧
      ∀ c, b.blocks.length ≤ c → c < b.blocks.length + count →
        Fresh ((newBlock^[count] b).terminate jump) entries' c opened := by
  obtain ⟨entries', nested', since', -, fresh⟩ := newBlocks_spec nested count
  refine ⟨entries', nested'.terminate jump, leads_terminate nested' fun t ht => ?_,
    since'.trans (since_terminate jump), fun c hle hlt => (fresh c hle hlt).since
      (since_terminate jump)⟩
  obtain ⟨hle, hlt⟩ := hjump t ht
  exact (fresh t hle hlt).entered

variable {target : BasicBlockId}

theorem targets_goto (h : entries[target]? = some opened) :
    ∀ t ∈ (Jump.goto target).successors, entries[t]? = some opened := by
  intro t ht
  obtain rfl : t = target := List.mem_singleton.mp ht
  exact h

theorem targets_switch {otherwise : BasicBlockId} (h : entries[target]? = some opened)
    (h' : entries[otherwise]? = some opened) :
    ∀ t ∈ (Jump.switch [target] otherwise).successors, entries[t]? = some opened := by
  intro t ht
  obtain rfl | rfl : t = target ∨ t = otherwise := by simpa [Jump.successors] using ht
  · exact h
  · exact h'

/-- A block that only leads on. -/
theorem hop_spec (nested : Nested b entries opened base) (hleads : Leads b entries opened)
    (fresh : Fresh b entries c opened)
    (htargets : ∀ t ∈ jump.successors, entries[t]? = some opened) :
    Nested ((b.switchTo c).terminate jump) entries opened base ∧
      Leads ((b.switchTo c).terminate jump) entries opened ∧
      Since (b.switchTo c) ((b.switchTo c).terminate jump) entries entries := by
  have nested' := nested.switchTo hleads fresh
  exact ⟨nested'.terminate jump, leads_terminate nested' htargets, since_terminate jump⟩

/-- A branch, joined where another block goes on. -/
theorem join_spec {join : BasicBlockId}
    (h : ∃ entries', Nested (first (b.switchTo c)) entries' (inner ++ base) base ∧
      Ends (first (b.switchTo c)) entries' base after ∧
      Since (b.switchTo c) (first (b.switchTo c)) entries entries')
    (hseal : (after.seal regions).isSome) (hinner : inner.length = regions)
    (hjoin : entries[join]? = some (inner ++ base)) :
    ∃ entries', Nested ((first (b.switchTo c)).finish (.goto join)) entries' (inner ++ base) base ∧
      Leads ((first (b.switchTo c)).finish (.goto join)) entries' (inner ++ base) ∧
      Since (b.switchTo c) ((first (b.switchTo c)).finish (.goto join)) entries entries' := by
  obtain ⟨entries', nested', hends', since'⟩ := h
  obtain ⟨nested'', hleads'', since''⟩ := finish_spec nested' (.of_ends hends' hinner hseal)
    (targets_goto (getElem?_of_grown since'.grown hjoin))
  exact ⟨entries', nested'', hleads'', since'.trans since''⟩

/-- Two branches and the block that joins them. -/
theorem lowers_branches {condition thenBranch elseBranch : Builder → Builder}
    {thenEnding elseEnding : Ending} (hcondition : Lowers condition inLoop regions before middle)
    (hthen : Lowers thenBranch inLoop regions .running thenEnding)
    (hthenSeal : (thenEnding.seal regions).isSome)
    (helse : Lowers elseBranch inLoop regions .running elseEnding)
    (helseSeal : (elseEnding.seal regions).isSome) :
    Lowers (fun b =>
      let b := condition b
      let thenTarget := b.blocks.length
      let elseTarget := thenTarget + 1
      let join := thenTarget + 2
      let b := b.newBlock.newBlock.newBlock.terminate (.switch [thenTarget] elseTarget)
      let b := (thenBranch (b.switchTo thenTarget)).finish (.goto join)
      let b := (elseBranch (b.switchTo elseTarget)).finish (.goto join)
      b.switchTo join) inLoop regions before .running := by
  intro b entries inner base nested hends hinner hloop
  obtain ⟨entries₁, nested₁, -, since₁⟩ := hcondition nested hends hinner hloop
  dsimp only
  generalize condition b = b₁ at *
  have hlength := since₁.length
  generalize hn : b₁.blocks.length = n at *
  obtain ⟨entries₂, nested₂, leads₂, hfork, fresh⟩ := fork_spec nested₁ 3 (.switch [n] (n + 1))
    (by simp [Jump.successors, hn])
  rw [hn] at fresh
  have freshElse := fresh (n + 1) (by omega) (by omega)
  have freshJoin := fresh (n + 2) (by omega) (by omega)
  have since₂ := since₁.trans hfork
  -- the branch taken
  have freshThen := fresh n (by omega) (by omega)
  obtain ⟨entries₃, nested₃, leads₃, hthenSince⟩ := join_spec
    (hthen (nested₂.switchTo leads₂ freshThen) (ends_switchTo freshThen) hinner
      (since₂.loops ▸ hloop)) hthenSeal hinner freshJoin.entered
  have freshElse := (freshElse.switchTo (by omega)).since hthenSince
  have freshJoin := (freshJoin.switchTo (by omega)).since hthenSince
  have since₃ := (since_switchTo since₂ hlength).trans hthenSince
  -- the other branch
  obtain ⟨entries₄, nested₄, leads₄, helseSince⟩ := join_spec
    (helse (nested₃.switchTo leads₃ freshElse) (ends_switchTo freshElse) hinner
      (since₃.loops ▸ hloop)) helseSeal hinner freshJoin.entered
  have freshJoin := (freshJoin.switchTo (by omega)).since helseSince
  have since₄ := (since_switchTo since₃ (by omega)).trans helseSince
  exact ⟨entries₄, nested₄.switchTo leads₄ freshJoin, ends_switchTo freshJoin,
    since_switchTo since₄ (by omega)⟩

/-- `operand?`: the residual returns. -/
theorem lowers_try (h : Lowers first inLoop regions before middle) :
    Lowers (fun b =>
      let b := (first b).addLocals 2
      let success := b.blocks.length
      let residual := success + 1
      let join := success + 2
      let b := b.newBlock.newBlock.newBlock.terminate (.propagate success residual)
      let b := (b.switchTo success).terminate (.goto join)
      let b := (b.switchTo residual).terminate .return
      b.switchTo join) inLoop regions before .running := by
  intro b entries inner base nested hends hinner hloop
  obtain ⟨entries₁, nested₁, -, since₁⟩ := (h.trans (lowers_addLocals 2)) nested hends hinner hloop
  dsimp only at nested₁ since₁ ⊢
  generalize (first b).addLocals 2 = b₁ at *
  have hlength := since₁.length
  generalize hn : b₁.blocks.length = n at *
  obtain ⟨entries₂, nested₂, leads₂, hfork, fresh⟩ := fork_spec nested₁ 3 (.propagate n (n + 1))
    (by simp [Jump.successors, hn])
  rw [hn] at fresh
  have freshResidual := fresh (n + 1) (by omega) (by omega)
  have freshJoin := fresh (n + 2) (by omega) (by omega)
  obtain ⟨nested₃, leads₃, hsuccess⟩ := hop_spec nested₂ leads₂ (fresh n (by omega) (by omega))
    (targets_goto freshJoin.entered)
  have freshResidual := (freshResidual.switchTo (by omega)).since hsuccess
  have freshJoin := (freshJoin.switchTo (by omega)).since hsuccess
  have hreturn : ∀ t ∈ Jump.return.successors, entries₂[t]? = some (inner ++ base) := by
    simp [Jump.successors]
  obtain ⟨nested₄, leads₄, hresidual⟩ := hop_spec nested₃ leads₃ freshResidual hreturn
  have freshJoin := (freshJoin.switchTo (by omega)).since hresidual
  have since₃ := (since_switchTo (since₁.trans hfork) hlength).trans hsuccess
  have since₄ := (since_switchTo since₃ (by omega)).trans hresidual
  exact ⟨entries₂, nested₄.switchTo leads₄ freshJoin, ends_switchTo freshJoin,
    since_switchTo since₄ (by omega)⟩

/-- A guard leads to its arm's body or where the pattern did not match. -/
theorem guard_spec {inner : List LocalId} {otherwise : BasicBlockId}
    (h : Lowers first inLoop regions .running middle)
    (nested : Nested b entries (inner ++ base) base) (hends : Ends b entries base .running)
    (hinner : inner.length = regions) (hloop : b.loopTargets.isEmpty = !inLoop)
    (hotherwise : entries[otherwise]? = some (inner ++ base)) :
    ∃ entries',
      let b' :=
        let b := first b
        let body := b.blocks.length
        let guardFailed := body + 1
        let b := b.newBlock.newBlock.terminate (.switch [body] guardFailed)
        let b := (b.switchTo guardFailed).terminate (.goto otherwise)
        b.switchTo body
      Nested b' entries' (inner ++ base) base ∧ Ends b' entries' base .running ∧
        Since b b' entries entries' := by
  obtain ⟨entries₁, nested₁, -, since₁⟩ := h nested hends hinner hloop
  dsimp only
  generalize first b = b₁ at *
  have hlength := since₁.length
  generalize hn : b₁.blocks.length = n at *
  obtain ⟨entries₂, nested₂, leads₂, hfork, fresh⟩ := fork_spec nested₁ 2 (.switch [n] (n + 1))
    (by simp [Jump.successors, hn])
  rw [hn] at fresh
  have since₂ := since₁.trans hfork
  have freshBody := fresh n (by omega) (by omega)
  obtain ⟨nested₃, leads₃, hfailed⟩ := hop_spec nested₂ leads₂
    (fresh (n + 1) (by omega) (by omega))
    (targets_goto (getElem?_of_grown since₂.grown hotherwise))
  have freshBody := (freshBody.switchTo (by omega)).since hfailed
  have since₃ := (since_switchTo since₂ (by omega)).trans hfailed
  exact ⟨entries₂, nested₃.switchTo leads₃ freshBody, ends_switchTo freshBody,
    since_switchTo since₃ hlength⟩

/-- The branch of a loop, possibly through the blocks that end temporaries. -/
theorem loopBranch_spec {body exit : BasicBlockId} (nested : Nested b entries opened base)
    (freshBody : Fresh b entries body opened) (freshExit : Fresh b entries exit opened) :
    ∃ entries', Nested (b.branch body exit) entries' opened base ∧
      Leads (b.branch body exit) entries' opened ∧
        Since b (b.branch body exit) entries entries' := by
  unfold branch
  split
  · exact ⟨entries, nested.terminate _,
      leads_terminate nested (targets_switch freshBody.entered freshExit.entered),
      since_terminate _⟩
  · have nested₁ := (nested.addLocals 1).takePending
    have since₁ : Since b (b.addLocals 1).takePending entries entries :=
      (since_addLocals 1).trans since_takePending
    dsimp only
    generalize (b.addLocals 1).takePending = b₁ at *
    have hlength := since₁.length
    generalize hn : b₁.blocks.length = n at *
    obtain ⟨entries₂, nested₂, leads₂, hfork, fresh⟩ := fork_spec nested₁ 2 (.switch [n] (n + 1))
      (by simp [Jump.successors, hn])
    rw [hn] at fresh
    have since₂ := since₁.trans hfork
    have freshFalse := fresh (n + 1) (by omega) (by omega)
    obtain ⟨nested₃, leads₃, htrue⟩ := hop_spec nested₂ leads₂ (fresh n (by omega) (by omega))
      (targets_goto (getElem?_of_grown since₂.grown freshBody.entered))
    have freshFalse := (freshFalse.switchTo (by omega)).since htrue
    have since₃ := (since_switchTo since₂ hlength).trans htrue
    obtain ⟨nested₄, leads₄, hfalse⟩ := hop_spec nested₃ leads₃ freshFalse
      (targets_goto (getElem?_of_grown since₂.grown freshExit.entered))
    exact ⟨entries₂, nested₄, leads₄, (since_switchTo since₃ (by omega)).trans hfalse⟩

/-- A loop's body: within it, jumps go to the loop's own blocks. -/
theorem loopBody_spec {back : BasicBlockId} (targets : LoopTargets)
    (h : Lowers first true 0 .running after) (nested : Nested b entries opened base)
    (hleads : Leads b entries opened) (fresh : Fresh b entries c opened)
    (hbreak : entries[targets.breakBlock]? = some opened)
    (hcontinue : entries[targets.continueBlock]? = some opened)
    (hback : entries[back]? = some opened) :
    ∃ entries', Nested ((first ((b.switchTo c).pushLoop targets)).popLoop.finish (.goto back))
        entries' opened base ∧
      Leads ((first ((b.switchTo c).pushLoop targets)).popLoop.finish (.goto back))
        entries' opened ∧
      Since (b.switchTo c)
        ((first ((b.switchTo c).pushLoop targets)).popLoop.finish (.goto back)) entries
          entries' := by
  have nested₁ := nested.switchTo hleads fresh
  have nested₂ : Nested ((b.switchTo c).pushLoop targets) entries ([] ++ opened) opened :=
    { nested₁ with
      loops := fun targets' htargets' => by
        obtain rfl : targets = targets' := by simpa [pushLoop] using htargets'
        exact ⟨hbreak, hcontinue⟩ }
  have hends : Ends (b.switchTo c) entries opened .running := ends_switchTo fresh
  obtain ⟨entries₃, nested₃, hends₃, since₃⟩ := h nested₂ hends rfl rfl
  generalize first ((b.switchTo c).pushLoop targets) = b₃ at *
  have hloops : b₃.popLoop.loopTargets = b.loopTargets := by
    simp [popLoop, since₃.loops, pushLoop, switchTo]
  have nested₄ : Nested b₃.popLoop entries₃ opened base :=
    { nested₃ with
      loops := fun targets' htargets' => by
        rw [hloops] at htargets'
        obtain ⟨hbreak', hcontinue'⟩ := nested.loops targets' htargets'
        exact ⟨getElem?_of_grown since₃.grown hbreak', getElem?_of_grown since₃.grown hcontinue'⟩ }
  have hseal : (after.seal 0).isSome := by cases after <;> rfl
  have leads₃ : Leads b₃ entries₃ ([] ++ opened) := .of_ends hends₃ rfl hseal
  obtain ⟨nested₅, leads₅, since₅⟩ := finish_spec nested₄ leads₃
    (targets_goto (getElem?_of_grown since₃.grown hback))
  have since₄ : Since (b.switchTo c) b₃.popLoop entries entries₃ := { since₃ with loops := hloops }
  exact ⟨entries₃, nested₅, leads₅, since₄.trans since₅⟩

theorem lowers_while {condition body : Builder → Builder}
    (hcondition : Lowers condition inLoop regions .running middle)
    (hbody : Lowers body true 0 .running after) :
    Lowers (fun b =>
      let head := b.blocks.length
      let bodyTarget := head + 1
      let exit := head + 2
      let b := b.newBlock.newBlock.newBlock.terminate (.goto head)
      let b := (condition (b.switchTo head)).branch bodyTarget exit
      let b := body ((b.switchTo bodyTarget).pushLoop ⟨exit, head⟩)
      (b.popLoop.finish (.goto head)).switchTo exit) inLoop regions before .running := by
  intro b entries inner base nested hends hinner hloop
  dsimp only
  generalize hn : b.blocks.length = n at *
  obtain ⟨entries₁, nested₁, leads₁, since₁, fresh⟩ := fork_spec nested 3 (.goto n)
    (by simp [Jump.successors, hn])
  rw [hn] at fresh
  have freshHead := fresh n (by omega) (by omega)
  have freshBody := fresh (n + 1) (by omega) (by omega)
  have freshExit := fresh (n + 2) (by omega) (by omega)
  -- the condition, in the head
  obtain ⟨entries₂, nested₂, -, hcond⟩ := hcondition (nested₁.switchTo leads₁ freshHead)
    (ends_switchTo freshHead) hinner (since₁.loops ▸ hloop)
  have freshBody := (freshBody.switchTo (by omega)).since hcond
  have freshExit := (freshExit.switchTo (by omega)).since hcond
  have since₂ := (since_switchTo since₁ hn.le).trans hcond
  obtain ⟨entries₃, nested₃, leads₃, hbranch⟩ := loopBranch_spec nested₂ freshBody freshExit
  have freshBody := freshBody.since hbranch
  have freshExit := freshExit.since hbranch
  have since₃ := since₂.trans hbranch
  have hhead : entries₃[n]? = some (inner ++ base) :=
    getElem?_of_grown (hcond.grown.trans hbranch.grown) freshHead.entered
  -- the body
  obtain ⟨entries₄, nested₄, leads₄, hloopBody⟩ := loopBody_spec ⟨n + 2, n⟩ hbody
    nested₃ leads₃ freshBody freshExit.entered hhead hhead
  have freshExit := (freshExit.switchTo (by omega)).since hloopBody
  have since₄ := (since_switchTo since₃ (by omega)).trans hloopBody
  exact ⟨entries₄, nested₄.switchTo leads₄ freshExit, ends_switchTo freshExit,
    since_switchTo since₄ (by omega)⟩

theorem lowers_for {iterable body : Builder → Builder}
    (hiterable : Lowers iterable inLoop regions before middle)
    (hbody : Lowers body true 0 .running after) :
    Lowers (fun b =>
      let b := iterable b
      let head := b.blocks.length
      let bodyTarget := head + 1
      let increment := head + 2
      let exit := head + 3
      let b := b.newBlock.newBlock.newBlock.newBlock.terminate (.goto head)
      let b := (b.switchTo head).terminate (.switch [bodyTarget] exit)
      let b := body ((b.switchTo bodyTarget).pushLoop ⟨exit, increment⟩)
      let b := b.popLoop.finish (.goto increment)
      let b := (b.switchTo increment).terminate (.goto head)
      b.switchTo exit) inLoop regions before .running := by
  intro b entries inner base nested hends hinner hloop
  obtain ⟨entries₁, nested₁, -, since₁⟩ := hiterable nested hends hinner hloop
  dsimp only
  generalize iterable b = b₁ at *
  have hlength := since₁.length
  generalize hn : b₁.blocks.length = n at *
  obtain ⟨entries₂, nested₂, leads₂, hfork, fresh⟩ := fork_spec nested₁ 4 (.goto n)
    (by simp [Jump.successors, hn])
  rw [hn] at fresh
  have since₂ := since₁.trans hfork
  have freshHead := fresh n (by omega) (by omega)
  have freshBody := fresh (n + 1) (by omega) (by omega)
  have freshIncrement := fresh (n + 2) (by omega) (by omega)
  have freshExit := fresh (n + 3) (by omega) (by omega)
  -- the head
  obtain ⟨nested₃, leads₃, hhead⟩ := hop_spec nested₂ leads₂ freshHead
    (targets_switch freshBody.entered freshExit.entered)
  have freshBody := (freshBody.switchTo (by omega)).since hhead
  have freshIncrement := (freshIncrement.switchTo (by omega)).since hhead
  have freshExit := (freshExit.switchTo (by omega)).since hhead
  have since₃ := (since_switchTo since₂ hlength).trans hhead
  -- the body
  obtain ⟨entries₄, nested₄, leads₄, hloopBody⟩ := loopBody_spec ⟨n + 3, n + 2⟩ hbody
    nested₃ leads₃ freshBody freshExit.entered freshIncrement.entered freshIncrement.entered
  have freshIncrement := (freshIncrement.switchTo (by omega)).since hloopBody
  have freshExit := (freshExit.switchTo (by omega)).since hloopBody
  have since₄ := (since_switchTo since₃ (by omega)).trans hloopBody
  -- the increment
  obtain ⟨nested₅, leads₅, hincrement⟩ := hop_spec nested₄ leads₄ freshIncrement
    (targets_goto (getElem?_of_grown hloopBody.grown freshHead.entered))
  have freshExit := (freshExit.switchTo (by omega)).since hincrement
  have since₅ := (since_switchTo since₄ (by omega)).trans hincrement
  exact ⟨entries₄, nested₅.switchTo leads₅ freshExit, ends_switchTo freshExit,
    since_switchTo since₅ (by omega)⟩

/-- What a guard does, given the block to go to where it fails. -/
def LowersGuard (guard : Builder → BasicBlockId → Builder) (inLoop : Bool) (regions : ℕ) : Prop :=
  ∀ ⦃b : Builder⦄ ⦃entries : List (List LocalId)⦄ ⦃inner base : List LocalId⦄
    ⦃otherwise : BasicBlockId⦄, Nested b entries (inner ++ base) base →
    Ends b entries base .running → inner.length = regions → b.loopTargets.isEmpty = !inLoop →
    entries[otherwise]? = some (inner ++ base) →
    ∃ entries', Nested (guard b otherwise) entries' (inner ++ base) base ∧
      Ends (guard b otherwise) entries' base .running ∧ Since b (guard b otherwise) entries entries'

/-- One arm; the next one is lowered where its pattern did not match. -/
theorem arm_spec {inner : List LocalId} {join : BasicBlockId} (bindings : ℕ)
    {guard : Builder → BasicBlockId → Builder} (hguard : LowersGuard guard inLoop regions)
    (hvalue : Lowers first inLoop regions .running after) (hseal : (after.seal regions).isSome)
    (nested : Nested b entries (inner ++ base) base) (hinner : inner.length = regions)
    (hloop : b.loopTargets.isEmpty = !inLoop) (freshJoin : Fresh b entries join (inner ++ base)) :
    ∃ entries',
      let b' :=
        let b := b.addLocals bindings
        let matched := b.blocks.length
        let otherwise := matched + 1
        let b := b.newBlock.newBlock.terminate (.match matched otherwise)
        let b := guard (b.switchTo matched) otherwise
        let b := (first b).finish (.goto join)
        b.switchTo otherwise
      Nested b' entries' (inner ++ base) base ∧ Ends b' entries' base .running ∧
        Since b b' entries entries' := by
  have nested₁ := nested.addLocals bindings
  have since₁ : Since b (b.addLocals bindings) entries entries := since_addLocals bindings
  dsimp only
  generalize b.addLocals bindings = b₁ at *
  have hlength := since₁.length
  generalize hn : b₁.blocks.length = n at *
  -- the two blocks of the test: one for the arm, one for what comes after it
  obtain ⟨entries₂, nested₂, leads₂, hfork, fresh⟩ := fork_spec nested₁ 2 (.match n (n + 1))
    (by simp [Jump.successors, hn])
  rw [hn] at fresh
  have since₂ := since₁.trans hfork
  have freshMatched := fresh n (by omega) (by omega)
  have freshOtherwise := fresh (n + 1) (by omega) (by omega)
  have hjoin : entries₂[join]? = some (inner ++ base) :=
    getElem?_of_grown since₂.grown freshJoin.entered
  obtain ⟨entries₃, nested₃, hends₃, hguarded⟩ := hguard (nested₂.switchTo leads₂ freshMatched)
    (ends_switchTo freshMatched) hinner (since₂.loops ▸ hloop) freshOtherwise.entered
  have freshOtherwise := (freshOtherwise.switchTo (by omega)).since hguarded
  have since₃ := (since_switchTo since₂ hlength).trans hguarded
  -- the guard may leave to the next arm as well, the value goes to the join
  obtain ⟨entries₄, nested₄, hends₄, hlowered⟩ :=
    hvalue nested₃ hends₃ hinner (since₃.loops ▸ hloop)
  have freshOtherwise := freshOtherwise.since hlowered
  obtain ⟨nested₅, leads₅, hfinished⟩ := finish_spec nested₄ (.of_ends hends₄ hinner hseal)
    (targets_goto (getElem?_of_grown (hguarded.grown.trans hlowered.grown) hjoin))
  have freshOtherwise := freshOtherwise.since hfinished
  have since₅ := (since₃.trans hlowered).trans hfinished
  exact ⟨entries₄, nested₅.switchTo leads₅ freshOtherwise, ends_switchTo freshOtherwise,
    since_switchTo since₅ (by omega)⟩

/-- What the arms of a match do, given the block that joins them; the current block at the end is
the one where nothing matched. -/
def LowersArms (arms : Builder → BasicBlockId → Builder) (inLoop : Bool) (regions : ℕ)
    (before : Ending) : Prop :=
  ∀ ⦃b : Builder⦄ ⦃entries : List (List LocalId)⦄ ⦃inner base : List LocalId⦄
    ⦃join : BasicBlockId⦄, Nested b entries (inner ++ base) base →
    Ends b entries base before → inner.length = regions → b.loopTargets.isEmpty = !inLoop →
    Fresh b entries join (inner ++ base) →
    ∃ entries', Nested (arms b join) entries' (inner ++ base) base ∧
      Leads (arms b join) entries' (inner ++ base) ∧ Since b (arms b join) entries entries'

theorem lowers_match {value : Builder → Builder} {arms : Builder → BasicBlockId → Builder}
    (count : ℕ) (hvalue : Lowers value inLoop regions before middle)
    (harms : LowersArms arms inLoop regions middle) :
    Lowers (fun b =>
      let b := (value b).addLocals count
      let join := b.blocks.length
      let b := (arms b.newBlock join).finish .unreachable
      b.switchTo join) inLoop regions before .running := by
  intro b entries inner base nested hends hinner hloop
  obtain ⟨entries₁, nested₁, hends₁, since₁⟩ :=
    (hvalue.trans (lowers_addLocals count)) nested hends hinner hloop
  dsimp only at nested₁ hends₁ since₁ ⊢
  generalize (value b).addLocals count = b₁ at *
  obtain ⟨entries₂, nested₂, hnew, hlength, fresh⟩ := newBlocks_spec nested₁ 1
  have freshJoin := fresh b₁.blocks.length le_rfl (by omega)
  have hends₂ : Ends b₁.newBlock entries₂ base middle := hends₁.keep (by
    obtain ⟨block, -, hblock, -, -⟩ := nested₁.current
    rw [terminator_of_block hblock]
    exact terminator_of_block (b := b₁.newBlock)
      (getElem?_of_grown (prefix_append _ _) hblock)) hnew.grown
  have since₂ := since₁.trans hnew
  obtain ⟨entries₃, nested₃, leads₃, harmed⟩ := harms nested₂ hends₂ hinner
    (since₂.loops ▸ hloop) freshJoin
  have freshJoin := freshJoin.since harmed
  have hnone : ∀ t ∈ Jump.unreachable.successors, entries₃[t]? = some (inner ++ base) := by
    simp [Jump.successors]
  obtain ⟨nested₄, leads₄, hfinished⟩ := finish_spec nested₃ leads₃ hnone
  have freshJoin := freshJoin.since hfinished
  have since₄ := (since₂.trans harmed).trans hfinished
  exact ⟨entries₃, nested₄.switchTo leads₄ freshJoin, ends_switchTo freshJoin,
    since_switchTo since₄ since₁.length⟩

end Builder

/-! ## The induction over the syntax -/

open Builder

theorem Ending.eq_running_of_seal {ending after : Ending} {regions : ℕ}
    (h : ending.seal regions = some after) : after = .running := by
  cases ending with
  | jumped =>
      rw [Ending.seal] at h
      split at h
      · exact (Option.some.inj h).symm
      · cases h
  | _ => exact (Option.some.inj h).symm

/-- Nothing is lowered into a block that has ended. -/
theorem lowers_unless {f : Builder → Builder} {inLoop : Bool} {regions : ℕ}
    {before after : Ending} (h : before = .running → Lowers f inLoop regions .running after)
    (hended : before ≠ .running → before = after) :
    Lowers (fun b => if b.currentTerminated then b else f b) inLoop regions before after := by
  intro b entries inner base nested hends hinner hloop
  by_cases hrunning : before = .running
  · have hcurrent : b.currentTerminated = false := by
      rw [currentTerminated_eq hends]
      simp [hrunning]
    simp only [hcurrent]
    exact h hrunning nested (hrunning ▸ hends) hinner hloop
  · have hcurrent : b.currentTerminated = true := by
      rw [currentTerminated_eq hends]
      simp [hrunning]
    simp only [hcurrent, if_true]
    exact ⟨entries, nested, hended hrunning ▸ hends, .refl⟩

mutual

theorem lowers_value {inLoop : Bool} {regions : ℕ} {before after : Ending} :
    ∀ {expression : HirExpression}, expression.ending inLoop regions before = some after →
      Lowers (fun b => lowerValue b expression) inLoop regions before after
  | .operation operands, h => by
      rw [HirExpression.ending] at h
      simpa only [lowerValue] using lowers_operands h
  | .captured value indices, h => by
      rw [HirExpression.ending] at h
      simpa only [lowerValue] using (lowers_value h).trans (lowers_addLocals indices)
  | .moved value, h => by
      rw [HirExpression.ending] at h
      simpa only [lowerValue] using (lowers_value h).trans lowers_addPending
  | .block unit statements, h => by
      rw [HirExpression.ending] at h
      simpa only [lowerValue] using
        (lowers_addLocals (temporaries unit)).trans (lowers_blockResult h)
  | .ifElse unit condition thenBlock elseBranch, h => by
      rw [HirExpression.ending] at h
      obtain ⟨middle, hcondition, hbranches⟩ := Option.bind_eq_some_iff.mp h
      obtain ⟨_, hfirst, hsecond⟩ := Option.bind_eq_some_iff.mp hbranches
      obtain ⟨thenEnding, hthen, hthenSeal⟩ := Option.bind_eq_some_iff.mp hfirst
      obtain ⟨elseEnding, helse, helseSeal⟩ := Option.bind_eq_some_iff.mp hsecond
      obtain rfl := Ending.eq_running_of_seal helseSeal
      simpa only [lowerValue] using lowers_branches
        ((lowers_addLocals (temporaries unit)).trans (lowers_value hcondition))
        (lowers_blockResult hthen) (by simp [hthenSeal]) (lowers_else helse) (by simp [helseSeal])
  | .match unit value arms, h => by
      rw [HirExpression.ending] at h
      obtain ⟨middle, hvalue, harms⟩ := Option.bind_eq_some_iff.mp h
      obtain ⟨rfl, hlowers⟩ := lowers_arms harms
      simpa only [lowerValue] using
        lowers_match (1 + temporaries unit) (lowers_value hvalue) hlowers
  | .try operand, h => by
      rw [HirExpression.ending] at h
      obtain ⟨middle, hoperand, rfl⟩ := Option.map_eq_some_iff.mp h
      simpa only [lowerValue] using lowers_try (lowers_value hoperand)
termination_by expression => sizeOf expression

theorem lowers_operands {inLoop : Bool} {regions : ℕ} {before after : Ending} :
    ∀ {operands : List HirExpression}, endingOperands inLoop regions before operands = some after →
      Lowers (fun b => lowerOperands b operands) inLoop regions before after
  | [], h => by
      obtain rfl := Option.some.inj h
      exact lowers_id
  | operand :: rest, h => by
      rw [endingOperands] at h
      obtain ⟨middle, hoperand, hrest⟩ := Option.bind_eq_some_iff.mp h
      exact (lowers_value hoperand).trans (lowers_operands hrest)
termination_by operands => sizeOf operands

theorem lowers_else {inLoop : Bool} {regions : ℕ} {after : Ending} :
    ∀ {branch : Option HirExpression}, endingOptional inLoop regions branch = some after →
      Lowers (fun b => lowerElse b branch) inLoop regions .running after
  | none, h => by
      obtain rfl := Option.some.inj h
      exact lowers_id
  | some branch, h => by
      rw [endingOptional] at h
      cases branch with
      | block =>
          rw [HirExpression.ending] at h
          exact lowers_blockResult h
      | _ => exact lowers_value h
termination_by branch => sizeOf branch

theorem lowers_optional {inLoop : Bool} {regions : ℕ} {after : Ending} :
    ∀ {value : Option HirExpression}, endingOptional inLoop regions value = some after →
      Lowers (fun b => lowerOptional b value) inLoop regions .running after
  | none, h => by
      obtain rfl := Option.some.inj h
      exact lowers_id
  | some value, h => by
      rw [endingOptional] at h
      exact lowers_value h
termination_by value => sizeOf value

theorem lowers_guard {inLoop : Bool} {regions : ℕ} {after : Ending} :
    ∀ {guard : Option HirExpression}, endingOptional inLoop regions guard = some after →
      LowersGuard (fun b otherwise => lowerGuard b otherwise guard) inLoop regions
  | none, _ => fun _ _ _ _ _ nested hends _ _ _ => ⟨_, nested, hends, .refl⟩
  | some guard, h => by
      rw [endingOptional] at h
      intro b entries inner base otherwise nested hends hinner hloop hotherwise
      simpa only [lowerGuard] using
        guard_spec (lowers_value h) nested hends hinner hloop hotherwise
termination_by guard => sizeOf guard

theorem lowers_arms {inLoop : Bool} {regions : ℕ} {before after : Ending} :
    ∀ {arms : List HirMatchArm}, endingArms inLoop regions before arms = some after →
      after = .running ∧ LowersArms (fun b join => lowerArms b join arms) inLoop regions before
  | [], h => by
      refine ⟨Ending.eq_running_of_seal h, ?_⟩
      intro b entries inner base join nested hends hinner hloop _
      exact ⟨entries, nested, .of_ends hends hinner
        (by rw [show before.seal regions = _ from h]; rfl),
        .refl⟩
  | .arm bindings guard value :: rest, h => by
      rw [endingArms] at h
      obtain ⟨_, hguard, harms⟩ := Option.bind_eq_some_iff.mp h
      obtain ⟨_, hsealed, harms'⟩ := Option.bind_eq_some_iff.mp harms
      obtain ⟨valueEnding, hvalue, hseal⟩ := Option.bind_eq_some_iff.mp hsealed
      obtain ⟨hafter, hrest⟩ := lowers_arms harms'
      refine ⟨hafter, ?_⟩
      intro b entries inner base join nested hends hinner hloop freshJoin
      obtain ⟨entries₁, nested₁, hends₁, since₁⟩ := arm_spec bindings (lowers_guard hguard)
        (lowers_value hvalue) (by simp [hseal]) nested hinner hloop freshJoin
      obtain ⟨entries₂, nested₂, leads₂, since₂⟩ := hrest nested₁ hends₁ hinner
        (since₁.loops ▸ hloop) (freshJoin.since since₁)
      refine ⟨entries₂, ?_, ?_, ?_⟩
      · simpa only [lowerArms] using nested₂
      · simpa only [lowerArms] using leads₂
      · simpa only [lowerArms] using since₁.trans since₂
termination_by arms => sizeOf arms

theorem lowers_statement {inLoop : Bool} {regions : ℕ} {after : Ending} :
    ∀ {statement : HirStatement}, statement.ending inLoop regions = some after →
      Lowers (fun b => lowerStatement b statement) inLoop regions .running after
  -- every statement is flushed after it is lowered
  | .binding value, h => by
      rw [HirStatement.ending] at h
      simpa only [lowerStatement] using
        ((lowers_addLocals 1).trans (lowers_optional h)).trans lowers_flush
  | .return value, h => by
      rw [HirStatement.ending] at h
      obtain ⟨_, hvalue, rfl⟩ := Option.map_eq_some_iff.mp h
      simpa only [lowerStatement] using
        ((lowers_optional hvalue).trans (lowers_stop rfl)).trans lowers_flush
  | .region body, h => by
      rw [HirStatement.ending] at h
      simpa only [lowerStatement] using (lowers_region (lowers_block h)).trans lowers_flush
  | .while condition body, h => by
      rw [HirStatement.ending] at h
      obtain ⟨_, hcondition, hmap⟩ := Option.bind_eq_some_iff.mp h
      obtain ⟨_, hbody, rfl⟩ := Option.map_eq_some_iff.mp hmap
      simpa only [lowerStatement] using
        (lowers_while (lowers_value hcondition) (lowers_block hbody)).trans lowers_flush
  | .for true indices iterable body, h => by
      rw [HirStatement.ending, if_pos rfl] at h
      obtain ⟨_, hiterable, hmap⟩ := Option.bind_eq_some_iff.mp h
      obtain ⟨_, hbody, rfl⟩ := Option.map_eq_some_iff.mp hmap
      simpa only [lowerStatement, if_true] using (lowers_for
        ((lowers_addLocals (if indices then 2 else 3)).trans (lowers_value hiterable))
        (lowers_block hbody)).trans lowers_flush
  | .for false indices iterable body, h => by
      obtain rfl := Option.some.inj h
      simpa only [lowerStatement, Bool.false_eq_true, if_false] using
        (lowers_stop rfl).trans lowers_flush
  | .break, h => by
      obtain rfl := Option.some.inj h
      simpa only [lowerStatement] using
        (lowers_leave fun _ => Or.inl rfl).trans lowers_flush
  | .continue, h => by
      obtain rfl := Option.some.inj h
      simpa only [lowerStatement] using
        (lowers_leave fun _ => Or.inr rfl).trans lowers_flush
  | .expression result value, h => by
      rw [HirStatement.ending] at h
      simpa only [lowerStatement] using (lowers_value h).trans lowers_flush
termination_by statement => sizeOf statement

theorem lowers_block {inLoop : Bool} {regions : ℕ} {before after : Ending} :
    ∀ {statements : List HirStatement}, endingBlock inLoop regions before statements = some after →
      Lowers (fun b => lowerBlock b statements) inLoop regions before after
  | [], h => by
      obtain rfl := Option.some.inj h
      exact lowers_id
  | statement :: rest, h => by
      rw [endingBlock] at h
      simp only [lowerBlock]
      apply lowers_unless
      · rintro rfl
        rw [if_pos rfl] at h
        obtain ⟨_, hstatement, hrest⟩ := Option.bind_eq_some_iff.mp h
        exact (lowers_statement hstatement).trans (lowers_block hrest)
      · intro hended
        rw [if_neg hended] at h
        exact Option.some.inj h
termination_by statements => sizeOf statements

theorem lowers_blockResult {inLoop : Bool} {regions : ℕ} {before after : Ending} :
    ∀ {statements : List HirStatement}, endingBlock inLoop regions before statements = some after →
      Lowers (fun b => lowerBlockResult b statements) inLoop regions before after
  | [], h => by
      obtain rfl := Option.some.inj h
      exact lowers_id
  | statement :: rest, h => by
      rw [endingBlock] at h
      have hended : before ≠ .running → before = after := by
        intro hended
        rw [if_neg hended] at h
        exact Option.some.inj h
      by_cases hresult : ∃ value, statement = .expression true value ∧ rest = []
      · obtain ⟨value, rfl, rfl⟩ := hresult
        simp only [lowerBlockResult]
        refine lowers_unless (fun hrunning => ?_) hended
        rw [if_pos hrunning] at h
        obtain ⟨_, hvalue, hrest⟩ := Option.bind_eq_some_iff.mp h
        obtain rfl := Option.some.inj hrest
        rw [HirStatement.ending] at hvalue
        exact lowers_value hvalue
      · have hcons : ∀ b, lowerBlockResult b (statement :: rest) =
            if b.currentTerminated then b
            else lowerBlockResult (lowerStatement b statement) rest := by
          intro b
          rw [lowerBlockResult]
          exact fun value hvalue hrest => hresult ⟨value, hvalue, hrest⟩
        simp only [hcons]
        refine lowers_unless (fun hrunning => ?_) hended
        rw [if_pos hrunning] at h
        obtain ⟨_, hstatement, hrest⟩ := Option.bind_eq_some_iff.mp h
        exact (lowers_statement hstatement).trans (lowers_blockResult hrest)
termination_by statements => sizeOf statements

end

/-! ## Functions -/

/-- Every block of a lowered function is entered with one stack. -/
theorem exists_nesting {hir : HirFunction} {function : MirFunction}
    (hcloses : hir.ClosesRegionsBeforeJumps) (hlowers : hir.LowersTo function) :
    ∃ entries, Nesting function entries := by
  obtain ⟨after, hending⟩ := Option.ne_none_iff_exists'.mp hcloses
  have hstart : Nested (.new hir.parameters) [[]] ([] ++ []) [] :=
    { length := rfl
      entry := rfl
      sorted := by simp
      below := by simp
      openedBelow := by simp
      current := ⟨_, [], rfl, rfl, .nil⟩
      closed := fun {c block stack} hother hblock _ => by
        have hc := (List.getElem?_eq_some_iff.mp hblock).1
        exact absurd (Nat.lt_one_iff.mp hc) hother
      loops := fun _ htargets => by cases htargets }
  obtain ⟨entries, nested, hends, -⟩ := lowers_block hending hstart rfl rfl rfl
  have hseal : (after.seal 0).isSome := by cases after <;> rfl
  have hreturn : ∀ t ∈ Jump.return.successors, entries[t]? = some ([] : List LocalId) := by
    simp [Jump.successors]
  obtain ⟨nested', leads', -⟩ := finish_spec nested (.of_ends hends rfl hseal) hreturn
  refine ⟨entries, nested'.entry, nested'.sorted, fun {b block stack} hblock hstack => ?_⟩
  have houtline := congrArg (·[b]?) hlowers
  simp only [HirFunction.lower, getElem?_map, hblock, Option.map_some] at houtline
  obtain ⟨pending, hpending, hsame⟩ := Option.map_eq_some_iff.mp houtline.symm
  obtain ⟨out, hnests, hout⟩ := nested'.sealed leads' hpending hstack
  obtain ⟨hevents, hjump⟩ := BlockOutline.mk.inj hsame
  refine ⟨out, hevents ▸ hnests, fun t ht => ?_⟩
  rw [← mem_successors_jump, ← hjump] at ht
  cases hterminator : pending.terminator with
  | none => simp [hterminator, Jump.successors] at ht
  | some jump => exact hout jump hterminator t (by simpa [hterminator] using ht)

/-- Along a path there is nothing to choose. -/
def regionStrategy : Flow.Strategy regionPath where
  label := id
  next action s := matchRegions action.regionEvents s
  action_label _ := rfl
  step _ _ := rfl

/-- `fn f(c, d) { while c { region r { if d { leave } } } }`. -/
def loopOverRegion (leave : HirStatement) : HirFunction where
  parameters := 2
  body := [.while (.operation []) [.region [.expression true
    (.ifElse true (.operation []) [leave] none)]]]

/-- The lowering of `loopOverRegion`, where block 4 leaves. -/
def loopOverRegionLowered (leave : Terminator) : MirFunction where
  locals := [⟨"c", .bool, false, true, false, none, none, .point 0⟩,
    ⟨"d", .bool, false, true, false, none, none, .point 1⟩,
    ⟨"r", .nominal 0, false, false, false, none, none, .point 2⟩]
  blocks := [
    ⟨[], .goto 1 (.point 3)⟩,
    ⟨[], .switch (some ⟨.bool, .place (.ofLocal 0), .point 3⟩)
      [⟨.ofLocal 0, .read, .point 3⟩] [2] 3 (.point 3)⟩,
    ⟨[.storageLive 2 (.point 4), .regionEnter 2 (.point 4)],
      .switch (some ⟨.bool, .place (.ofLocal 1), .point 5⟩)
        [⟨.ofLocal 1, .read, .point 5⟩] [4] 5 (.point 5)⟩,
    ⟨[], .return none [] (.point 9)⟩,
    ⟨[], leave⟩,
    ⟨[], .goto 6 (.point 5)⟩,
    ⟨[.evaluate (some ⟨.unit, .other, .point 5⟩) [] (.point 5), .regionExit 2 (.point 4),
      .storageDead 2 (.point 4)], .goto 1 (.point 3)⟩]

/-- A block of the lowering with exits before its return. -/
def exitBefore (block : BasicBlockId) (span : Span) (function : MirFunction) : MirFunction :=
  { function with
    blocks := function.blocks.modify block fun block =>
      { block with
        statements := block.statements ++ [.regionExit 2 span, .storageDead 2 span] } }

/-- A `break` out of the region makes the region seem active where the loop was left by its
condition, and it is exited there. -/
theorem not_balancesRegions_loopOverRegion :
    (loopOverRegion .break).LowersTo (loopOverRegionLowered (.goto 3 (.point 6))) ∧
      elaborateFunctionRegionCleanup 20 (loopOverRegionLowered (.goto 3 (.point 6))) =
        some (exitBefore 3 (.point 9) (loopOverRegionLowered (.goto 3 (.point 6)))) ∧
      ¬ BalancesRegions (exitBefore 3 (.point 9) (loopOverRegionLowered (.goto 3 (.point 6)))) := by
  refine ⟨by decide +kernel, by decide +kernel, fun hbalanced => ?_⟩
  -- the condition is false the first time
  set elaborated := exitBefore 3 (.point 9) (loopOverRegionLowered (.goto 3 (.point 6)))
  have hentry : Flow.Run elaborated.graph regionPath (some []) [] 0 0 (some []) := .start
  have tested := regionStrategy.cross (t := 1) hentry rfl (by decide)
  have left := regionStrategy.follow rfl (regionStrategy.cross (t := 3) tested rfl (by decide))
    (List.take_prefix 2 _)
  have hbalanced : (none : Option (List LocalId)) = some [] := hbalanced left ⟨_, rfl, rfl⟩
  cases hbalanced

/-- **Region cleanup balances the regions of a lowered function** unless a branch ends with a
jump that leaves regions open. -/
theorem balancesRegions_of_lowers {hir : HirFunction} {function elaborated : MirFunction}
    {fuel : ℕ} (hcloses : hir.ClosesRegionsBeforeJumps) (hlowers : hir.LowersTo function)
    (h : elaborateFunctionRegionCleanup fuel function = some elaborated) :
    BalancesRegions elaborated := by
  obtain ⟨entries, nesting⟩ := exists_nesting hcloses hlowers
  exact balancesRegions_of_nesting nesting h

/-- With a `return` in place of the `break`, the region is exited on the way out only. -/
theorem balancesRegions_loopOverRegion :
    BalancesRegions
      (exitBefore 4 (.point 6) (loopOverRegionLowered (.return none [] (.point 6)))) :=
  balancesRegions_of_lowers
    (show (loopOverRegion (.return none)).ClosesRegionsBeforeJumps by decide +kernel)
    (show (loopOverRegion (.return none)).LowersTo
      (loopOverRegionLowered (.return none [] (.point 6))) by decide +kernel)
    (show elaborateFunctionRegionCleanup 20 _ = some _ by decide +kernel)

end Jadren.Mir
