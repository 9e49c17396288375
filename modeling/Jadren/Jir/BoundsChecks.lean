import Jadren.Jir.AliasSound
import Jadren.Jir.Current
import Jadren.Jir.Rewrite

/-!
# Redundant bounds checks

`eliminateRedundantBoundsChecks` drops a bounds check when the block has already
made one with the same expressions for index and length.  A call forgets the
checks made; a store forgets those that load from a slot its pointer may alias.

What a check establishes is about the values its operands had, while it is
remembered by their expressions.  So a dropped check passes on runs on which the
operands of each check are current, and only calls and stores that the pass
watches change the slots (`passes_of_removedCheck`).
-/

namespace Jadren.Jir

open Dominance (Precedes)
open List Option

/-! ## The pass -/

/-- A check by the expressions of its operands; `lanes` is absent for scalar checks. -/
structure CheckKey where
  index : CanonicalValue
  length : CanonicalValue
  lanes : Option ℕ
  deriving DecidableEq

/-- The operands of a bounds check. -/
def InstructionKind.checkOperands : InstructionKind → Option (ValueId × ValueId × Option ℕ)
  | .boundsCheck index length => some (index, length, none)
  | .vectorBoundsCheck index length lanes => some (index, length, some lanes)
  | _ => none

namespace Function

variable (f : Function) (aliases : AliasAnalysis)

def checkKey (kind : InstructionKind) : Option CheckKey :=
  kind.checkOperands.map fun operands =>
    ⟨f.canonical operands.1, f.canonical operands.2.1, operands.2.2⟩

/-- A store through a pointer may change what an expression loads. -/
def stackLoadMayAlias (expression : CanonicalValue) (pointer : ValueId) : Bool :=
  f.stackSlots.any fun root =>
    expression.dependsOnStackLoad root && aliases.relation f.id pointer root != .noAlias

/-- The checks known after an instruction, and whether the instruction is kept. -/
def visitCheck (seen : List CheckKey) (instruction : Instruction) : List CheckKey × Bool :=
  match instruction.kind with
  | .store pointer _ _ _ =>
      (seen.filter fun key => !f.stackLoadMayAlias aliases key.index pointer &&
        !f.stackLoadMayAlias aliases key.length pointer, true)
  | .call _ _ => ([], true)
  | kind =>
      match f.checkKey kind with
      | some key => if key ∈ seen then (seen, false) else (key :: seen, true)
      | none => (seen, true)

/-- The instructions kept, and the number of those dropped. -/
def retainChecks : List CheckKey → List Instruction → List Instruction × ℕ
  | _, [] => ([], 0)
  | seen, instruction :: rest =>
      let visited := f.visitCheck aliases seen instruction
      let retained := retainChecks visited.1 rest
      if visited.2 then (instruction :: retained.1, retained.2) else (retained.1, retained.2 + 1)

def withoutRedundantChecks : Function :=
  { f with
    blocks := f.blocks.map fun block =>
      { block with instructions := (f.retainChecks aliases [] block.instructions).1 } }

def eliminatedChecks : ℕ :=
  (f.blocks.map fun block => (f.retainChecks aliases [] block.instructions).2).sum

end Function

/-- **Redundant bounds check elimination**, with the number of checks eliminated. -/
def eliminateRedundantBoundsChecks (module : Module) : Module × ℕ :=
  let aliases := module.analyzeAliases
  ({ module with
      functions := module.functions.map fun f => f.withoutRedundantChecks aliases },
    (module.functions.map fun f => f.eliminatedChecks aliases).sum)

/-! ## Which checks are removed -/

namespace Function

variable (f : Function) (aliases : AliasAnalysis)

/-- The checks known after some instructions. -/
def seenAfter (seen : List CheckKey) (instructions : List Instruction) : List CheckKey :=
  instructions.foldl (fun seen instruction => (f.visitCheck aliases seen instruction).1) seen

/-- The pass drops the instruction at a position. -/
def RemovedCheck (b i : ℕ) : Prop :=
  ∃ block instruction, f.blocks[b]? = some block ∧ block.instructions[i]? = some instruction ∧
    (f.visitCheck aliases (f.seenAfter aliases [] (block.instructions.take i)) instruction).2 =
      false

end Function

/-! ## Conditions on a run -/

variable {M : Machine} {module : Module} {f : Function}

/-- A slot that the operands of some check are loaded from. -/
def Function.CheckedSlot (f : Function) (slot : ValueId) : Prop :=
  ∃ instruction ∈ f.instructions, ∃ key, f.checkKey instruction.kind = some key ∧
    (key.index.dependsOnStackLoad slot = true ∨ key.length.dependsOnStackLoad slot = true)

/-- The operands of a check are current. -/
def CurrentOperands (f : Function) (s : State M) (kind : InstructionKind) : Prop :=
  ∀ index length lanes, kind.checkOperands = some (index, length, lanes) →
    Current f s index ∧ Current f s length

/-- The pass forgets what a slot held when it sees an instruction. -/
def Forgets (f : Function) (aliases : AliasAnalysis) (slot : ValueId) : InstructionKind → Prop
  | .call _ _ => True
  | .store pointer _ _ _ => aliases.relation f.id pointer slot ≠ .noAlias
  | _ => False

/-- A check has current operands, and no slot that checks load from changes
without the pass forgetting what it held. -/
def ChecksCurrent (module : Module) (f : Function) (event : Event M) : Prop :=
  ∀ instruction observation, event.action = .instruction instruction observation →
    CurrentOperands f event.before instruction.kind ∧
      ∀ slot address, f.CheckedSlot slot →
        event.before.env slot = some (.pointer (some address)) →
        observation.Touches event.before address.object →
        Forgets f module.analyzeAliases slot instruction.kind

/-! ## What a check establishes -/

/-- The comparison of a check of either kind. -/
def checkPass : Option ℕ → RuntimeValue → RuntimeValue → Option Bool
  | none => boundsPass
  | some lanes => vectorBoundsPass lanes

variable {kind : InstructionKind} {index length : ValueId} {lanes : Option ℕ}

theorem InstructionKind.operands_of_checkOperands
    (h : kind.checkOperands = some (index, length, lanes)) : kind.operands = [index, length] := by
  cases kind <;> cases h <;> rfl

theorem InstructionKind.operation_of_checkOperands
    (h : kind.checkOperands = some (index, length, lanes)) (ty : Option TypeId)
    (types : List (Option TypeId)) (left right : RuntimeValue) :
    kind.operation M module ty types [left, right] =
      (checkPass lanes left right).map Operation.check := by
  cases kind <;> cases h <;> rfl

theorem State.values_pair {s : State M} {v w : ValueId} {values : List RuntimeValue}
    (h : s.values [v, w] = some values) :
    ∃ left right, values = [left, right] ∧ s.env v = some left ∧ s.env w = some right := by
  have hlength := congrArg length (State.values_eq_some_iff.mp h)
  obtain ⟨left, right, rfl⟩ := length_eq_two.mp (by simpa using hlength.symm)
  obtain ⟨_, hleft, hv⟩ := State.env_of_values (i := 0) h rfl
  obtain ⟨_, hright, hw⟩ := State.env_of_values (i := 1) h rfl
  cases hleft
  cases hright
  exact ⟨left, right, rfl, hv, hw⟩

variable {instruction : Instruction} {observation : Observation M}

/-- An executed check passed and changed nothing. -/
theorem Step.of_check {s s' : State M} (hstep : Step M module f instruction s observation s')
    (h : instruction.kind.checkOperands = some (index, length, lanes)) :
    s' = s ∧ ∃ left right, s.env index = some left ∧ s.env length = some right ∧
      checkPass lanes left right = some true := by
  have hrequest : ∀ {operation values}, instruction.request M module f s =
      some (operation, values) →
      ∃ left right passes, s.env index = some left ∧ s.env length = some right ∧
        checkPass lanes left right = some passes ∧ operation = .check passes := by
    intro operation values hrequest
    obtain ⟨hvalues, hoperation⟩ := request_eq_some.mp hrequest
    rw [InstructionKind.operands_of_checkOperands h] at hvalues
    obtain ⟨left, right, rfl, hleft, hright⟩ := State.values_pair hvalues
    rw [InstructionKind.operation_of_checkOperands h] at hoperation
    obtain ⟨passes, hpass, rfl⟩ := Option.map_eq_some_iff.mp hoperation
    exact ⟨left, right, passes, hleft, hright, hpass, rfl⟩
  cases hstep with
  | check hcheck =>
      obtain ⟨left, right, passes, hleft, hright, hpass, hoperation⟩ := hrequest hcheck
      cases hoperation
      exact ⟨rfl, left, right, hleft, hright, hpass⟩
  | compute hcompute => obtain ⟨_, _, _, _, _, _, h⟩ := hrequest hcompute; cases h
  | allocate hallocate => obtain ⟨_, _, _, _, _, _, h⟩ := hrequest hallocate; cases h
  | read hread => obtain ⟨_, _, _, _, _, _, h⟩ := hrequest hread; cases h
  | write hwrite => obtain ⟨_, _, _, _, _, _, h⟩ := hrequest hwrite; cases h
  | skip hskip => obtain ⟨_, _, _, _, _, _, h⟩ := hrequest hskip; cases h
  | external hexternal => obtain ⟨_, _, _, _, _, _, h⟩ := hrequest hexternal; cases h

variable {aliases : AliasAnalysis} {seen : List CheckKey}

/-- A check known after an instruction was known before and does not load from a
slot that the pass forgets, or it is the instruction itself. -/
theorem mem_visitCheck {key : CheckKey} (h : key ∈ (f.visitCheck aliases seen instruction).1) :
    (key ∈ seen ∧ ∀ slot ∈ f.stackSlots, (key.index.dependsOnStackLoad slot = true ∨
        key.length.dependsOnStackLoad slot = true) → ¬ Forgets f aliases slot instruction.kind) ∨
      f.checkKey instruction.kind = some key ∧
        (f.visitCheck aliases seen instruction).2 = true := by
  unfold Function.visitCheck at h ⊢
  split at h
  · rename_i pointer _ _ _ hkind
    obtain ⟨hseen, hkept⟩ := mem_filter.mp h
    simp only [Bool.and_eq_true, Bool.not_eq_true', Function.stackLoadMayAlias, List.any_eq_false,
      Bool.and_eq_true, bne_iff_ne, not_and, not_not] at hkept
    refine .inl ⟨hseen, fun slot hslot hdepends hforgets => ?_⟩
    rw [hkind] at hforgets
    rcases hdepends with hindex | hlength
    · exact hforgets (hkept.1 slot hslot hindex)
    · exact hforgets (hkept.2 slot hslot hlength)
  · cases h
  · rename_i hstore hcall
    have hforgets : ∀ slot, ¬ Forgets f aliases slot instruction.kind := by
      intro slot hforgets
      unfold Forgets at hforgets
      split at hforgets
      · exact hcall _ _ ‹_›
      · exact hstore _ _ _ _ ‹_›
      · exact hforgets
    split at h
    · rename_i key' hkey
      split at h
      · exact .inl ⟨h, fun slot _ _ => hforgets slot⟩
      · rename_i hnew
        rcases mem_cons.mp h with rfl | hseen
        · exact .inr ⟨hkey, by simp [hnew]⟩
        · exact .inl ⟨hseen, fun slot _ _ => hforgets slot⟩
    · exact .inl ⟨h, fun slot _ _ => hforgets slot⟩

theorem mem_of_visitCheck (h : (f.visitCheck aliases seen instruction).2 = false) :
    ∃ key ∈ seen, f.checkKey instruction.kind = some key := by
  unfold Function.visitCheck at h
  split at h
  · cases h
  · cases h
  · split at h
    · rename_i key hkey
      split at h
      · exact ⟨key, ‹_›, hkey⟩
      · cases h
    · cases h

section

variable {b : ℕ}

/-- Whether an instruction is dropped is decided with the checks known before it. -/
theorem Function.removedCheck_iff {block : Block} (hblock : f.blocks[b]? = some block)
    {done rest : List Instruction} (hsplit : block.instructions = done ++ instruction :: rest) :
    f.RemovedCheck aliases b done.length ↔
      (f.visitCheck aliases (f.seenAfter aliases [] done) instruction).2 = false := by
  have hat : block.instructions[done.length]? = some instruction := by simp [hsplit]
  have htake : block.instructions.take done.length = done := by simp [hsplit]
  constructor
  · rintro ⟨block', instruction', hblock', hat', hdropped⟩
    obtain rfl : block = block' := some.inj (hblock.symm.trans hblock')
    obtain rfl : instruction = instruction' := some.inj (hat.symm.trans hat')
    rwa [htake] at hdropped
  · exact fun hdropped => ⟨block, instruction, hblock, hat, by rwa [htake]⟩

theorem Function.rewritten_retainChecks {block : Block} (hblock : f.blocks[b]? = some block)
    {done rest : List Instruction} (hsplit : block.instructions = done ++ rest) :
    Rewritten (fun i instruction kept => f.RemovedCheck aliases b i ∧ kept = [] ∨
        ¬ f.RemovedCheck aliases b i ∧ kept = [instruction]) done.length rest
      (f.retainChecks aliases (f.seenAfter aliases [] done) rest).1 := by
  induction rest generalizing done with
  | nil => exact .nil
  | cons instruction rest ih =>
      have hnext : f.seenAfter aliases [] (done ++ [instruction]) =
          (f.visitCheck aliases (f.seenAfter aliases [] done) instruction).1 := by
        simp [seenAfter, foldl_append]
      have hrest := @ih (done ++ [instruction]) (by simp [hsplit])
      rw [length_append, length_singleton, hnext] at hrest
      have hremoved := @Function.removedCheck_iff f instruction aliases b block hblock
          done rest hsplit
      rw [retainChecks]
      cases hkept : (f.visitCheck aliases (f.seenAfter aliases [] done) instruction).2 with
      | false => exact .cons (.inl ⟨hremoved.mpr hkept, rfl⟩) hrest
      | true =>
          refine .cons (.inr ⟨fun h => ?_, rfl⟩) hrest
          exact absurd (hkept.symm.trans (hremoved.mp h)) (by decide)

/-- **What the pass drops**: the removed checks and nothing else. -/
theorem eliminateRedundantBoundsChecks_drops {k : ℕ} (hf : module.functions[k]? = some f) :
    ∃ f', (eliminateRedundantBoundsChecks module).1.functions[k]? = some f' ∧
      f.BlockWise f' fun b i instruction kept =>
        f.RemovedCheck module.analyzeAliases b i ∧ kept = [] ∨
          ¬ f.RemovedCheck module.analyzeAliases b i ∧ kept = [instruction] := by
  refine ⟨f.withoutRedundantChecks module.analyzeAliases, ?_, rfl, ?_, fun b block hblock => ?_⟩
  · rw [eliminateRedundantBoundsChecks, getElem?_map, hf]
    rfl
  · simp [Function.withoutRedundantChecks]
  · refine ⟨_, ?_, Function.rewritten_retainChecks hblock (nil_append _).symm⟩
    rw [Function.withoutRedundantChecks, getElem?_map, hblock]
    rfl

end

/-- A check of the block is remembered: it was kept and has passed, its operands
are current, and they still have the values it compared. -/
structure Established (module : Module) (f : Function) (s : State M) (b i : ℕ) (key : CheckKey)
    (j : ℕ) (instruction : Instruction) (index length : ValueId) : Prop where
  earlier : j < i
  at_position : f.instructionAt b j = some instruction
  operands : instruction.kind.checkOperands = some (index, length, key.lanes)
  kept : ¬ f.RemovedCheck module.analyzeAliases b j
  index_eq : f.canonical index = key.index
  length_eq : f.canonical length = key.length
  index_current : Current f s index
  length_current : Current f s length
  passed : ∃ left right, s.env index = some left ∧ s.env length = some right ∧
    checkPass key.lanes left right = some true

/-- Every check the pass knows of at a position is remembered. -/
def AllEstablished (module : Module) (f : Function) (s : State M) (b i : ℕ) : Prop :=
  ∀ block, f.blocks[b]? = some block → ∀ key ∈ f.seenAfter module.analyzeAliases []
    (block.instructions.take i), ∃ j instruction index length,
      Established module f s b i key j instruction index length

variable {start s s' : State M} {trace : List (Event M)} {b i : ℕ}

/-- What is known of a check survives a step that touches none of its slots. -/
theorem Established.keep (accepted : module.Accepts f) (hclosed : s.Closed)
    (run : Run M module f start trace b i s) (hat : f.instructionAt b i = some instruction)
    (hstep : Step M module f instruction s observation s') {key : CheckKey} {j : ℕ}
    {check : Instruction} (h : Established module f s b i key j check index length)
    (hslots : ∀ slot address, (key.index.dependsOnStackLoad slot = true ∨
        key.length.dependsOnStackLoad slot = true) →
      s.env slot = some (.pointer (some address)) → ¬ observation.Touches s address.object) :
    Established module f s' b (i + 1) key j check index length := by
  have hoperands := InstructionKind.operands_of_checkOperands h.operands
  have hearlier := h.earlier
  obtain ⟨hindex, hindexEnv⟩ := run.current_step accepted hclosed hat hstep (j := j + 1) (by omega)
    h.index_current (accepted.operand_inScope h.at_position (by simp [hoperands]))
    (fun slot address hdepends => hslots slot address (.inl (h.index_eq ▸ hdepends)))
  obtain ⟨hlength, hlengthEnv⟩ :=
    run.current_step accepted hclosed hat hstep (j := j + 1) (by omega)
    h.length_current (accepted.operand_inScope h.at_position (by simp [hoperands]))
    (fun slot address hdepends => hslots slot address (.inr (h.length_eq ▸ hdepends)))
  obtain ⟨left, right, hleft, hright, hpass⟩ := h.passed
  exact ⟨by omega, h.at_position, h.operands, h.kept, h.index_eq, h.length_eq, hindex, hlength,
    left, right, hindexEnv.trans hleft, hlengthEnv.trans hright, hpass⟩

namespace AllEstablished

/-- The step lemma. -/
theorem step (accepted : module.Accepts f) (hclosed : s.Closed)
    (run : Run M module f start trace b i s) (h : AllEstablished module f s b i)
    {instruction : Instruction} {observation : Observation M}
    (hat : f.instructionAt b i = some instruction)
    (hstep : Step M module f instruction s observation s')
    (hcurrent : ChecksCurrent module f ⟨b, i, s, .instruction instruction observation⟩) :
    AllEstablished module f s' b (i + 1) := by
  obtain ⟨hoperands, hslots⟩ := hcurrent instruction observation rfl
  intro block hblock key hkey
  obtain ⟨block', hblock', hi⟩ := Function.instructionAt_eq_some.mp hat
  obtain rfl : block = block' := some.inj (hblock.symm.trans hblock')
  rw [take_add_one, hi, Function.seenAfter, foldl_append] at hkey
  rcases mem_visitCheck hkey with ⟨hseen, hremembered⟩ | ⟨hnew, hkept⟩
  · -- known before: none of its slots is touched, or the pass would have forgotten it
    obtain ⟨j, check, index, length, hestablished⟩ := h block hblock key hseen
    refine ⟨j, check, index, length, hestablished.keep accepted hclosed run hat hstep ?_⟩
    intro slot address hdepends hpointer htouches
    have hmem : slot ∈ f.stackSlots := by
      rcases hdepends with hindex | hlength
      · exact Function.mem_stackSlots_of_depends (hestablished.index_eq ▸ hindex)
      · exact Function.mem_stackSlots_of_depends (hestablished.length_eq ▸ hlength)
    refine hremembered slot hmem hdepends (hslots slot address ?_ hpointer htouches)
    refine ⟨check, Function.mem_instructions hestablished.at_position, key, ?_, hdepends⟩
    rw [Function.checkKey, hestablished.operands, Option.map_some, hestablished.index_eq,
      hestablished.length_eq]
  · -- the check just made
    obtain ⟨⟨index, length, lanes⟩, hcheck, rfl⟩ := Option.map_eq_some_iff.mp hnew
    obtain ⟨rfl, hpassed⟩ := hstep.of_check hcheck
    obtain ⟨hindex, hlength⟩ := hoperands index length lanes hcheck
    refine ⟨i, instruction, index, length, Nat.lt_succ_self i, hat, hcheck, ?_, rfl, rfl, hindex,
      hlength, hpassed⟩
    rintro ⟨block'', instruction', hblock'', hi', hremoved⟩
    obtain rfl : block = block'' := some.inj (hblock.symm.trans hblock'')
    obtain rfl : instruction = instruction' := some.inj (hi.symm.trans hi')
    exact Bool.false_ne_true (hremoved.symm.trans hkept)

/-- The run lemma. -/
theorem run (accepted : module.Accepts f) (hstart : start.Initial f)
    (run : Run M module f start trace b i s)
    (hcurrent : Throughout (fun _ event => ChecksCurrent module f event) trace) :
    AllEstablished module f s b i := by
  induction run with
  | start =>
      intro block _ key hkey
      cases hkey
  | step run hat hstep ih =>
      obtain ⟨hbefore, hlast⟩ := hcurrent.of_append
      exact (ih hbefore).step accepted (run.closed hstart.closed) run hat hstep hlast
  | edge =>
      -- a block starts without any known checks
      intro block _ key hkey
      cases hkey

end AllEstablished

/-- **A removed check passes**, because a check that was kept compared the same
values earlier in the block. -/
theorem passes_of_removedCheck (accepted : module.Accepts f) {start s : State M}
    (hstart : start.Initial f) {trace : List (Event M)} {b i : ℕ}
    (run : Run M module f start trace b i s)
    (hcurrent : Throughout (fun _ event => ChecksCurrent module f event) trace)
    {instruction : Instruction} (hat : f.instructionAt b i = some instruction)
    (hoperands : CurrentOperands f s instruction.kind)
    (hremoved : f.RemovedCheck module.analyzeAliases b i) :
    ∃ index length lanes left right,
      instruction.kind.checkOperands = some (index, length, lanes) ∧ s.env index = some left ∧
        s.env length = some right ∧ checkPass lanes left right = some true ∧
        ∃ j earlier index' length', j < i ∧ f.instructionAt b j = some earlier ∧
          ¬ f.RemovedCheck module.analyzeAliases b j ∧
          earlier.kind.checkOperands = some (index', length', lanes) ∧
          s.env index' = some left ∧ s.env length' = some right := by
  obtain ⟨block, instruction', hblock, hi, hdropped⟩ := hremoved
  obtain rfl : instruction = instruction' := some.inj
    (hat.symm.trans (Function.instructionAt_eq_some.mpr ⟨block, hblock, hi⟩))
  obtain ⟨key, hseen, hkey⟩ := mem_of_visitCheck hdropped
  obtain ⟨⟨index, length, lanes⟩, hcheck, rfl⟩ := Option.map_eq_some_iff.mp hkey
  obtain ⟨hindex, hlength⟩ := hoperands index length lanes hcheck
  obtain ⟨j, earlier, index', length', hestablished⟩ :=
    AllEstablished.run accepted hstart run hcurrent block hblock _ hseen
  have hscope : ∀ v ∈ [index, length], f.InScope v (b, i + 1) := by
    intro v hv
    rw [← InstructionKind.operands_of_checkOperands hcheck] at hv
    exact accepted.operand_inScope hat hv
  have hscope' : ∀ v ∈ [index', length'], f.InScope v (b, i + 1) := by
    intro v hv
    have hearlier := hestablished.earlier
    rw [← InstructionKind.operands_of_checkOperands hestablished.operands] at hv
    exact (accepted.operand_inScope hestablished.at_position hv).trans
      (Precedes.same_block (by omega))
  -- integers are not computed with pointer arithmetic, so one expression means one value
  have hinteger : ∀ v ∈ [index, length], (f.canonical v).hasOffset = false := by
    intro v hv
    by_contra hoffset
    obtain ⟨ty, pointee, space, hty, hpointer⟩ := accepted.pointer_of_hasOffset
      (accepted.live_of_inScope (hscope v hv) run.reachable) (Bool.of_not_eq_false hoffset)
    have hbounds : instruction.kind = .boundsCheck index length ∨
        ∃ lanes, instruction.kind = .vectorBoundsCheck index length lanes := by
      cases hkind : instruction.kind <;> simp [hkind, InstructionKind.checkOperands] at hcheck
      · exact .inl (by rw [hcheck.1, hcheck.2.1])
      · exact .inr ⟨_, by rw [hcheck.1, hcheck.2.1]⟩
    have htype := accepted.bounds_type hat hbounds (v := v) (by simpa using hv)
    simp [hty, hpointer, JirType.isInteger] at htype
  obtain ⟨left, right, hleft, hright, hpass⟩ := hestablished.passed
  have hindexEnv := (run.env_eq_of_canonical_eq accepted hindex hestablished.index_current
    (hscope index (by simp)) (hscope' index' (by simp)) hestablished.index_eq.symm
    (.inl (hinteger index (by simp)))).1
  have hlengthEnv := (run.env_eq_of_canonical_eq accepted hlength hestablished.length_current
    (hscope length (by simp)) (hscope' length' (by simp)) hestablished.length_eq.symm
    (.inl (hinteger length (by simp)))).1
  exact ⟨index, length, lanes, left, right, hcheck, hindexEnv.trans hleft, hlengthEnv.trans hright,
    hpass, j, earlier, index', length', hestablished.earlier, hestablished.at_position,
    hestablished.kept, hestablished.operands, hleft, hright⟩

/-- `u32 i = 3; u32 n = 5; check i < n; check i < n`. -/
def checkedTwice : Function :=
  .of [] 1
    [.of 0 []
      [.defining 0 0 (.constant (.integer 3)), .defining 1 0 (.constant (.integer 5)),
        .effect (.boundsCheck 0 1), .effect (.boundsCheck 0 1)]
      (.ret none)]

def checkedTwiceModule : Module := ⟨[.integer false 32, .unit], [checkedTwice]⟩

theorem accepts_checkedTwice : checkedTwiceModule.Accepts checkedTwice :=
  ⟨rfl, by simp [checkedTwiceModule]⟩

/-- An index is loaded and checked twice, with a store to another slot between:
`i = 3; t; a = i; check a < 5; t = 5; b = i; check b < 5`. -/
def checkedReload : Function :=
  .of [] 2
    [.of 0 []
      [.defining 0 0 (.constant (.integer 3)), .defining 1 0 (.constant (.integer 5)),
        .defining 2 1 (.stackAlloc 0 none), .defining 3 1 (.stackAlloc 0 none),
        .effect (.store 2 0 4 false), .defining 4 0 (.load 2 4 false),
        .effect (.boundsCheck 4 1), .effect (.store 3 1 4 false),
        .defining 5 0 (.load 2 4 false), .effect (.boundsCheck 5 1)]
      (.ret none)]

def checkedReloadModule : Module := ⟨[.integer false 32, .pointer 0 .stack, .unit], [checkedReload]⟩

theorem accepts_checkedReload : checkedReloadModule.Accepts checkedReload :=
  ⟨rfl, by simp [checkedReloadModule]⟩

theorem passes_checkedReload :
    ∃ (s : State cells) (trace : List (Event cells)),
      Run cells checkedReloadModule checkedReload blank trace 0 9 s ∧
        checkedReload.RemovedCheck checkedReloadModule.analyzeAliases 0 9 ∧
        ∃ left right, s.env 5 = some left ∧ s.env 1 = some right ∧
          boundsPass left right = some true := by
  let observe (event : Event cells) := (event.block, event.index, event.action.stored,
    if 6 ≤ event.index then some (event.before.slotLoad 2 4 ⟨1, 0⟩ 0) else none)
  obtain ⟨three, hthree⟩ : ∃ three : Option RuntimeValue × Option RuntimeValue × RuntimeValue,
      three = (some (.pointer (some ⟨1, 0⟩)), some (.integer 32 3), .integer 32 3) := ⟨_, rfl⟩
  obtain ⟨c, hrun, hobserved⟩ := Configuration.exists_run checkedReloadModule checkedReload blank 9
    (fun c => (c.block, c.index, c.state.slotLoad 2 5 ⟨1, 0⟩ 0, c.trace.map observe))
    (a := (0, 9, three, [(0, 0, some [], none), (0, 1, some [], none), (0, 2, some [], none),
      (0, 3, some [], none), (0, 4, some [1], none), (0, 5, some [], none),
      (0, 6, some [], some three), (0, 7, some [2], some three), (0, 8, some [], some three)]))
    (by rw [hthree]; rfl)
  simp only [Prod.mk.injEq] at hobserved
  obtain ⟨hblock, hindex, hlast, htrace⟩ := hobserved
  rw [hblock, hindex] at hrun
  have hremoved : checkedReload.RemovedCheck checkedReloadModule.analyzeAliases 0 9 :=
    ⟨_, _, rfl, rfl, rfl⟩
  have hslot : ∀ slot, checkedReload.CheckedSlot slot → slot = 2 := by
    rintro slot ⟨instruction, hmem, key, hkey, hdepends⟩
    simp only [checkedReload, instructions_of, mem_cons, not_mem_nil, or_false] at hmem
    rcases hmem with rfl | rfl | rfl | rfl | rfl | rfl | rfl | rfl | rfl | rfl <;> cases hkey <;>
      rcases hdepends with h | h <;> first | cases h | exact (of_decide_eq_true h).symm
  have hchecks : Throughout
      (fun _ event => ChecksCurrent checkedReloadModule checkedReload event) c.trace := by
    intro earlier event later hsplit instruction observation haction
    have hmem : event ∈ c.trace := hsplit ▸ by simp
    obtain ⟨hat, _⟩ := hrun.step_of_mem hmem haction
    have hseen := mem_map_of_mem (f := observe) hmem
    rw [htrace] at hseen
    simp only [observe, haction, mem_cons, Prod.mk.injEq, not_mem_nil, or_false] at hseen
    rcases hseen with h | h | h | h | h | h | h | h | h
    all_goals
      obtain ⟨hb, hi, hstored, hloaded⟩ := h
      rw [hb, hi] at hat
      cases hat
      refine ⟨?_, fun slot address hchecked hpointer htouches => ?_⟩
    -- the store to the index's slot
    case inr.inr.inr.inr.inl.refl.refine_2 =>
      obtain rfl := hslot slot hchecked
      exact fun hapart : checkedReloadModule.analyzeAliases.relation _ 2 2 = _ => by cases hapart
    -- the first check
    case inr.inr.inr.inr.inr.inr.inl.refl.refine_1 =>
      rintro _ _ _ ⟨⟩
      rw [if_pos hi.ge] at hloaded
      exact ⟨.of_slotLoad (b := 0) (i := 5) rfl rfl ((Option.some.inj hloaded).trans hthree),
        .leaf rfl⟩
    -- the store to the other slot
    case inr.inr.inr.inr.inr.inr.inr.inl.refl.refine_2 =>
      obtain rfl := hslot slot hchecked
      rw [if_pos (hi ▸ by decide)] at hloaded
      have hholds := congrArg Prod.fst ((Option.some.inj hloaded).trans hthree)
      obtain rfl : address = ⟨1, 0⟩ := by simpa [State.slotLoad, hpointer] using hholds
      simpa using Observation.mem_of_touches hstored htouches
    all_goals first
      | rintro _ _ _ ⟨⟩
      | cases Observation.mem_of_touches hstored htouches
  refine ⟨c.state, c.trace, hrun, hremoved, ?_⟩
  have hoperands : CurrentOperands checkedReload c.state (.boundsCheck 5 1) := by
    rintro index length lanes ⟨⟩
    exact ⟨.of_slotLoad (b := 0) (i := 8) rfl rfl (hlast.trans hthree), .leaf rfl⟩
  obtain ⟨index, length, lanes, left, right, hcheck, hleft, hright, hpass, _⟩ :=
    passes_of_removedCheck accepts_checkedReload (initial_blank _) hrun hchecks rfl hoperands
      hremoved
  cases hcheck
  exact ⟨left, right, hleft, hright, hpass⟩

/-- An index is loaded, the slot is overwritten, and the overwritten index is
checked before the loaded one: `i = 10; a = i; i = 0; b = i; check b < 5; check a < 5`. -/
def checkedStale : Function :=
  .of [] 2
    [.of 0 []
      [.defining 0 0 (.constant (.integer 10)), .defining 1 0 (.constant (.integer 0)),
        .defining 2 0 (.constant (.integer 5)), .defining 3 1 (.stackAlloc 0 none),
        .effect (.store 3 0 4 false), .defining 4 0 (.load 3 4 false),
        .effect (.store 3 1 4 false), .defining 5 0 (.load 3 4 false),
        .effect (.boundsCheck 5 2), .effect (.boundsCheck 4 2)]
      (.ret none)]

def checkedStaleModule : Module := ⟨[.integer false 32, .pointer 0 .stack, .unit], [checkedStale]⟩

/-- The check of the loaded index is dropped, and fails. -/
theorem not_passes_checkedStale :
    ¬ ∀ (M : Machine) (module : Module) (f : Function) (start s : State M) (trace : List (Event M))
      (b i : ℕ) (instruction : Instruction) (index length : ValueId), module.Accepts f →
      start.Initial f → Run M module f start trace b i s →
      f.instructionAt b i = some instruction → instruction.kind = .boundsCheck index length →
      f.RemovedCheck module.analyzeAliases b i →
      ∃ left right, s.env index = some left ∧ s.env length = some right ∧
        boundsPass left right = some true := by
  intro h
  obtain ⟨c, hrun, hobserved⟩ := Configuration.exists_run checkedStaleModule checkedStale blank 9
    (fun c => (c.block, c.index, c.state.env 4, c.state.env 2))
    (a := (0, 9, some (.integer 32 10), some (.integer 32 5))) rfl
  simp only [Prod.mk.injEq] at hobserved
  obtain ⟨hblock, hindex, hleft, hright⟩ := hobserved
  rw [hblock, hindex] at hrun
  obtain ⟨left, right, hleft', hright', hpass⟩ := h cells checkedStaleModule checkedStale blank
    c.state c.trace 0 9 (.effect (.boundsCheck 4 2)) 4 2 ⟨rfl, by simp [checkedStaleModule]⟩
    (initial_blank _) hrun rfl rfl ⟨_, _, rfl, rfl, rfl⟩
  cases hleft.symm.trans hleft'
  cases hright.symm.trans hright'
  cases hpass

end Jadren.Jir
