import Jadren.Jir.Current
import Jadren.Jir.Rewrite

/-!
# Redundant offsets

`eliminateRedundantOffsets` replaces an `Offset` by an earlier one of the block
whose base and indices have the same expressions.  A call, or a store through a
pointer computed from a stack allocation, forgets the offsets seen.

As with bounds checks, an expression does not say when a slot was loaded, and it
does not record the types that address arithmetic depends on.  On runs on which
the operands of each offset are current and slots change only where the pass
looks, and if offsets with one expression have one type, a replaced offset would
have computed the address of its replacement (`address_of_replacedOffset`).
-/

namespace Jadren.Jir

open Dominance (Precedes)
open InstructionKind List Replacements

/-! ## The pass -/

structure OffsetKey where
  base : CanonicalValue
  indices : List CanonicalValue
  deriving DecidableEq

/-- The offsets seen in the block, and the replacements made so far. -/
structure OffsetState where
  offsets : List (OffsetKey × ValueId)
  replacements : Replacements

namespace Function

variable (f : Function)

/-- One step towards the allocation a pointer is computed from. -/
def expandRoot (inner : ValueId → Option ValueId) (v : ValueId) : Option ValueId :=
  match f.definitionOf v with
  | some (.stackAlloc _ _) => some v
  | some (.offset base _) => inner base
  | some (.cast _ base _) => inner base
  | _ => none

def pointerRootWithin : ℕ → ValueId → Option ValueId
  | 0, _ => none
  | fuel + 1, v => f.expandRoot (pointerRootWithin fuel) v

/-- The stack allocation a pointer is computed from by offsets and casts. -/
def pointerRoot (v : ValueId) : Option ValueId := f.pointerRootWithin (f.definitions.length + 1) v

def offsetKey (base : ValueId) (indices : List ValueId) : OffsetKey :=
  ⟨f.canonical base, indices.map f.canonical⟩

/-- What is known after an instruction, and the instruction as it is kept. -/
def visitOffset (state : OffsetState) (instruction : Instruction) :
    OffsetState × Option Instruction :=
  let rewritten := instruction.mapOperands state.replacements.remap
  match rewritten.kind, instruction.result with
  | .store pointer _ _ _, _ =>
      (if (f.pointerRoot pointer).isSome then { state with offsets := [] } else state,
        some rewritten)
  | .call _ _, _ => ({ state with offsets := [] }, some rewritten)
  | .offset base indices, some result =>
      match state.offsets.lookup (f.offsetKey base indices) with
      | some existing =>
          ({ state with replacements := state.replacements.insert result.value existing }, none)
      | none =>
          ({ state with offsets := (f.offsetKey base indices, result.value) :: state.offsets },
            some rewritten)
  | _, _ => (state, some rewritten)

/-- What is known after some instructions. -/
def offsetsAfter (state : OffsetState) (instructions : List Instruction) : OffsetState :=
  instructions.foldl (fun state instruction => (f.visitOffset state instruction).1) state

def retainOffsets : OffsetState → List Instruction → List Instruction
  | _, [] => []
  | state, instruction :: rest =>
      let visited := f.visitOffset state instruction
      visited.2.toList ++ retainOffsets visited.1 rest

/-- Each block starts without offsets, but with the replacements made before. -/
def enterBlock (state : OffsetState) : OffsetState := { state with offsets := [] }

def offsetsAfterBlocks (state : OffsetState) (blocks : List Block) : OffsetState :=
  blocks.foldl (fun state block => f.offsetsAfter (enterBlock state) block.instructions) state

def retainBlocks : OffsetState → List Block → List Block
  | _, [] => []
  | state, block :: rest =>
      { block with instructions := f.retainOffsets (enterBlock state) block.instructions } ::
        retainBlocks (f.offsetsAfter (enterBlock state) block.instructions) rest

/-- All replacements made in the function. -/
def offsetReplacements : Replacements := (f.offsetsAfterBlocks ⟨[], []⟩ f.blocks).replacements

def withoutRedundantOffsets : Function :=
  let retained := { f with blocks := f.retainBlocks ⟨[], []⟩ f.blocks }
  if f.offsetReplacements.isEmpty then retained
  else
    renumberValues
      { retained with
        blocks := retained.blocks.map (Block.mapOperands f.offsetReplacements.resolved.remap) }

end Function

/-- **Redundant offset elimination**, with the number of instructions removed. -/
def eliminateRedundantOffsets (module : Module) : Module × ℕ :=
  ({ module with functions := module.functions.map Function.withoutRedundantOffsets },
    (module.functions.map fun f => f.offsetReplacements.length).sum)

/-! ## Which offsets are replaced -/

namespace Function

variable (f : Function)

/-- What the pass knows before the instruction at a position. -/
def offsetsBefore (b : ℕ) (block : Block) (i : ℕ) : OffsetState :=
  f.offsetsAfter (enterBlock (f.offsetsAfterBlocks ⟨[], []⟩ (f.blocks.take b)))
    (block.instructions.take i)

/-- The pass drops the instruction at a position and uses another value for its result. -/
def ReplacedOffset (b i : ℕ) (existing : ValueId) : Prop :=
  ∃ block instruction result base indices, f.blocks[b]? = some block ∧
    block.instructions[i]? = some instruction ∧ instruction.result = some result ∧
    (instruction.mapOperands (f.offsetsBefore b block i).replacements.remap).kind =
      .offset base indices ∧
    (f.offsetsBefore b block i).offsets.lookup (f.offsetKey base indices) = some existing

end Function

variable {M : Machine} {module : Module} {f : Function}

/-! ## Roots and expressions -/

theorem Function.mem_operands_of_root {v : ValueId} {kind : InstructionKind} {u : ValueId}
    (hu : (∃ indices, kind = .offset u indices) ∨ ∃ op target, kind = .cast op u target)
    (accepted : module.Accepts f) (h : f.definitionOf v = some kind) : f.Before u v := by
  obtain ⟨b, i, instruction, result, hdefines, rfl, rfl⟩ := Function.defines_of_definitionOf h
  refine ⟨b, i, instruction, result, hdefines, rfl,
    accepted.operand_inScope hdefines.at_position ?_⟩
  rcases hu with ⟨indices, hkind⟩ | ⟨op, target, hkind⟩ <;> simp [hkind, operands]

namespace Module.Accepts

variable (accepted : module.Accepts f)
include accepted

theorem pointerRoot_eq {v : ValueId} (hlive : f.Live v) :
    f.pointerRoot v = f.expandRoot f.pointerRoot v := by
  refine accepted.unfold_eq (fun _ => rfl) (fun inner inner' v h => ?_) (fun fuel v h => ?_) hlive
  · unfold Function.expandRoot
    split
    · rfl
    · exact h _ (Function.mem_operands_of_root (Or.inl ⟨_, rfl⟩) accepted ‹_›)
    · exact h _ (Function.mem_operands_of_root (Or.inr ⟨_, _, rfl⟩) accepted ‹_›)
    · rfl
  · cases fuel with
    | zero => rfl
    | succ => simp [Function.pointerRootWithin, Function.expandRoot, h]

/-- Values with one expression have one root. -/
theorem pointerRoot_eq_of_canonical_eq {v w : ValueId} (hv : f.Live v) (hw : f.Live w)
    (h : f.canonical v = f.canonical w) : f.pointerRoot v = f.pointerRoot w := by
  induction hrank : f.rank v using Nat.strong_induction_on generalizing v w with
  | _ rank ih =>
      rw [accepted.pointerRoot_eq hv, accepted.pointerRoot_eq hw, Function.expandRoot,
        Function.expandRoot]
      cases hc : f.canonical v with
      | value =>
          rw [accepted.eq_of_canonical_value hv hc, accepted.eq_of_canonical_value hw (h ▸ hc)]
      | stackLoad =>
          obtain ⟨_, hload⟩ := accepted.definitionOf_of_stackLoad hv hc
          obtain ⟨_, hload'⟩ := accepted.definitionOf_of_stackLoad hw (h ▸ hc)
          rw [hload, hload']
      | extract =>
          obtain ⟨_, hextract, _⟩ := accepted.definitionOf_of_extract hv hc
          obtain ⟨_, hextract', _⟩ := accepted.definitionOf_of_extract hw (h ▸ hc)
          rw [hextract, hextract']
      | offset =>
          obtain ⟨base, indices, hoffset, hbase, _⟩ := accepted.definitionOf_of_offset hv hc
          obtain ⟨base', indices', hoffset', hbase', _⟩ :=
            accepted.definitionOf_of_offset hw (h ▸ hc)
          have hbefore := Function.mem_operands_of_root (Or.inl ⟨_, rfl⟩) accepted hoffset
          have hbefore' := Function.mem_operands_of_root (Or.inl ⟨_, rfl⟩) accepted hoffset'
          rw [hoffset, hoffset']
          have hlive := accepted.live_of_before hbefore hv
          have hlive' := accepted.live_of_before hbefore' hw
          have hsame : f.canonical base = f.canonical base' := hbase.trans hbase'.symm
          cases hdefinition : f.definitionOf base with
          | none =>
              -- not computed by an instruction, so the bases are the same value
              have hleaf : f.canonical base = .value base :=
                f.canonicalValue_of_none hdefinition _
              rw [accepted.eq_of_canonical_value hlive' (hsame ▸ hleaf)]
          | some =>
              exact ih _ (hrank ▸ accepted.rank_lt hdefinition hbefore hv) hlive hlive' hsame rfl

end Module.Accepts

/-! ## What the pass knows -/

/-- A replaced value has the expression of its replacement. -/
def OffsetState.Explained (f : Function) (state : OffsetState) : Prop :=
  ∀ v e, state.replacements.lookup v = some e → f.Live v →
    f.Live e ∧ f.canonical v = f.canonical e

/-- An offset seen in the block was computed there, and has its key for expression. -/
def OffsetState.Seen (f : Function) (b i : ℕ) (state : OffsetState) : Prop :=
  ∀ key e, state.offsets.lookup key = some e → ∃ j instruction result base indices, j < i ∧
    f.Defines b j instruction result ∧ result.value = e ∧
      instruction.kind = .offset base indices ∧
        (Dominance.Reachable f.Edge b → f.canonical e = .offset key.base key.indices)

/-- The pass forgets the offsets it has seen when it meets an instruction. -/
def ClearsOffsets (f : Function) : InstructionKind → Prop
  | .call _ _ => True
  | .store pointer _ _ _ => (f.pointerRoot pointer).isSome = true
  | _ => False

section Visit

variable {state : OffsetState} {instruction : Instruction}

/-- The instruction is an offset with a key, after the replacements made. -/
def OffsetState.Keys (f : Function) (state : OffsetState) (instruction : Instruction)
    (result : TypedValue) (key : OffsetKey) : Prop :=
  ∃ base indices, instruction.kind = .offset base indices ∧ instruction.result = some result ∧
    f.offsetKey (state.replacements.remap base) (indices.map state.replacements.remap) = key

theorem OffsetState.keys_of_rewritten {base : ValueId} {indices : List ValueId}
    {result : TypedValue}
    (hkind : (instruction.mapOperands state.replacements.remap).kind = .offset base indices)
    (hresult : instruction.result = some result) :
    state.Keys f instruction result (f.offsetKey base indices) := by
  rw [Instruction.mapOperands] at hkind
  cases hinstruction : instruction.kind with
  | offset source sources =>
      simp only [hinstruction, mapOperands, InstructionKind.offset.injEq] at hkind
      exact ⟨source, sources, hinstruction, hresult, by rw [hkind.1, hkind.2]⟩
  | _ => simp [hinstruction, mapOperands] at hkind

/-- An offset known after an instruction was known before and not forgotten, or
is the instruction's. -/
theorem OffsetState.lookup_visitOffset {key : OffsetKey} {e : ValueId}
    (h : (f.visitOffset state instruction).1.offsets.lookup key = some e) :
    (state.offsets.lookup key = some e ∧
      ¬ ClearsOffsets f (instruction.mapOperands state.replacements.remap).kind) ∨
    ∃ result, state.Keys f instruction result key ∧ result.value = e := by
  simp only [Function.visitOffset] at h
  split at h
  · rename_i pointer value alignment isVolatile hkind
    split at h
    · cases h
    · rename_i hroot
      exact Or.inl ⟨h, by rw [hkind]; exact hroot⟩
  · cases h
  · rename_i base indices result hkind hresult
    split at h
    · exact Or.inl ⟨h, by rw [hkind]; exact id⟩
    · rw [lookup_cons] at h
      split at h
      · rename_i heq
        obtain rfl : key = f.offsetKey base indices := by simpa using heq
        exact Or.inr ⟨result, keys_of_rewritten hkind hresult, Option.some.inj h⟩
      · exact Or.inl ⟨h, by rw [hkind]; exact id⟩
  · rename_i hstore hcall _
    refine Or.inl ⟨h, fun hclears => ?_⟩
    unfold ClearsOffsets at hclears
    split at hclears
    · exact hcall _ _ ‹_›
    · exact hstore _ _ _ _ ‹_›
    · exact hclears

/-- A value replaced after an instruction was replaced before, or is the
instruction's result. -/
theorem OffsetState.replaced_visitOffset {v e : ValueId}
    (h : (f.visitOffset state instruction).1.replacements.lookup v = some e) :
    state.replacements.lookup v = some e ∨ ∃ result key, state.Keys f instruction result key ∧
      result.value = v ∧ state.offsets.lookup key = some e := by
  simp only [Function.visitOffset] at h
  split at h
  · split at h <;> exact Or.inl h
  · exact Or.inl h
  · rename_i base indices result hkind hresult
    split at h
    · rename_i existing hexisting
      rw [lookup_insert] at h
      split at h
      · rename_i heq
        cases h
        exact Or.inr ⟨result, _, keys_of_rewritten hkind hresult, heq.symm, hexisting⟩
      · exact Or.inl h
    · exact Or.inl h
  · exact Or.inl h

end Visit

section Explain

variable {state : OffsetState} {b i : ℕ} {instruction : Instruction}

theorem OffsetState.Explained.canonical_remap (h : state.Explained f) {v : ValueId}
    (hlive : f.Live v) : f.canonical (state.replacements.remap v) = f.canonical v := by
  unfold remap
  cases hlookup : state.replacements.lookup v with
  | none => rfl
  | some e => exact (h v e hlookup hlive).2.symm

/-- The key of an offset in a reachable block is its expression. -/
theorem OffsetState.Explained.canonical_of_keys (accepted : module.Accepts f)
    (h : state.Explained f) (hat : f.instructionAt b i = some instruction)
    (hreach : Dominance.Reachable f.Edge b) {result : TypedValue} {key : OffsetKey}
    (hkeys : state.Keys f instruction result key) :
    f.canonical result.value = .offset key.base key.indices := by
  obtain ⟨base, indices, hkind, hresult, rfl⟩ := hkeys
  have hoperand : ∀ u ∈ base :: indices, f.Live u := by
    intro u hu
    refine accepted.live_of_inScope (accepted.operand_inScope hat ?_) hreach
    rwa [hkind]
  have hlive : f.Live result.value := accepted.live_of_inScope
    (Function.Defines.inScope ⟨hat, hresult⟩ (Precedes.same_block (j := i + 2) (by omega))) hreach
  rw [accepted.canonical_offset ⟨hat, hresult⟩ hlive hkind]
  simp only [Function.offsetKey, CanonicalValue.offset.injEq]
  refine ⟨(h.canonical_remap (hoperand base (by simp))).symm, ?_⟩
  rw [map_map]
  exact map_congr_left fun u hu => (h.canonical_remap (hoperand u (by simp [hu]))).symm

theorem OffsetState.Seen.visit (accepted : module.Accepts f) (h : state.Explained f)
    (hseen : state.Seen f b i) (hat : f.instructionAt b i = some instruction) :
    (f.visitOffset state instruction).1.Seen f b (i + 1) := by
  intro key e hlookup
  rcases OffsetState.lookup_visitOffset hlookup with ⟨hold, _⟩ | ⟨result, hkeys, rfl⟩
  · obtain ⟨j, other, declared, base, indices, hj, hrest⟩ := hseen key e hold
    exact ⟨j, other, declared, base, indices, by omega, hrest⟩
  · have hcanonical := fun hreach => h.canonical_of_keys accepted hat hreach hkeys
    obtain ⟨base, indices, hkind, hresult, _⟩ := hkeys
    exact ⟨i, instruction, result, base, indices, Nat.lt_succ_self i, ⟨hat, hresult⟩, rfl, hkind,
      hcanonical⟩

theorem OffsetState.Explained.visit (accepted : module.Accepts f) (h : state.Explained f)
    (hseen : state.Seen f b i) (hat : f.instructionAt b i = some instruction) :
    (f.visitOffset state instruction).1.Explained f := by
  intro v e hlookup hlive
  rcases OffsetState.replaced_visitOffset hlookup with hold | ⟨result, key, hkeys, rfl, hexisting⟩
  · exact h v e hold hlive
  · have hdefines : f.Defines b i instruction result := ⟨hat, hkeys.choose_spec.choose_spec.2.1⟩
    have hreach := hlive b i instruction result hdefines rfl
    obtain ⟨j, other, declared, base, indices, hj, hother, rfl, _, hcanonical⟩ :=
      hseen key e hexisting
    refine ⟨accepted.live_of_inScope (hother.inScope
      (Precedes.same_block (j := j + 2) (by omega))) hreach, ?_⟩
    rw [h.canonical_of_keys accepted hat hreach hkeys, hcanonical hreach]

theorem OffsetState.seen_enterBlock (state : OffsetState) (b : ℕ) :
    (Function.enterBlock state).Seen f b 0 := by
  intro key e hlookup
  cases hlookup

theorem OffsetState.explained_take (accepted : module.Accepts f) {block : Block}
    (hblock : f.blocks[b]? = some block) (h : state.Explained f)
    (hi : i ≤ block.instructions.length) :
    (f.offsetsAfter (Function.enterBlock state) (block.instructions.take i)).Explained f ∧
      (f.offsetsAfter (Function.enterBlock state) (block.instructions.take i)).Seen f b i := by
  induction i with
  | zero => exact ⟨h, OffsetState.seen_enterBlock state b⟩
  | succ i ih =>
      have hlt : i < block.instructions.length := hi
      have hat : f.instructionAt b i = some block.instructions[i] :=
        Function.instructionAt_eq_some.mpr ⟨block, hblock, getElem?_eq_getElem hlt⟩
      obtain ⟨hexplained, hseen⟩ := ih (by omega)
      rw [take_add_one, getElem?_eq_getElem hlt, Function.offsetsAfter, foldl_append]
      exact ⟨hexplained.visit accepted hseen hat, hseen.visit accepted hexplained hat⟩

theorem OffsetState.explained_blocks (accepted : module.Accepts f) (hb : b ≤ f.blocks.length) :
    (f.offsetsAfterBlocks ⟨[], []⟩ (f.blocks.take b)).Explained f := by
  induction b with
  | zero =>
      intro v e hlookup
      cases hlookup
  | succ b ih =>
      have hlt : b < f.blocks.length := hb
      have hblock : f.blocks[b]? = some f.blocks[b] := getElem?_eq_getElem hlt
      rw [take_add_one, hblock, Function.offsetsAfterBlocks, foldl_append]
      have hbody := (OffsetState.explained_take accepted hblock (ih (by omega)) le_rfl).1
      rwa [take_length] at hbody

/-- What the pass knows at a position is explained. -/
theorem explained_offsetsBefore (accepted : module.Accepts f) {block : Block}
    (hblock : f.blocks[b]? = some block) (hi : i ≤ block.instructions.length) :
    (f.offsetsBefore b block i).Explained f ∧ (f.offsetsBefore b block i).Seen f b i := by
  have hlt := (List.getElem?_eq_some_iff.mp hblock).1
  exact OffsetState.explained_take accepted hblock (OffsetState.explained_blocks accepted hlt.le) hi

end Explain

/-! ## What the pass drops -/

section Pass

variable {b i : ℕ} {state : OffsetState} {instruction : Instruction} {result : TypedValue}
  {existing : ValueId} {block : Block}

/-- After the replacements made, the instruction is an offset that was seen. -/
def OffsetState.Repeats (f : Function) (state : OffsetState) (instruction : Instruction)
    (result : TypedValue) (existing : ValueId) : Prop :=
  ∃ base indices, instruction.result = some result ∧
    (instruction.mapOperands state.replacements.remap).kind = .offset base indices ∧
    state.offsets.lookup (f.offsetKey base indices) = some existing

theorem OffsetState.Repeats.visitOffset (h : state.Repeats f instruction result existing) :
    f.visitOffset state instruction =
      ({ state with replacements := state.replacements.insert result.value existing }, none) := by
  obtain ⟨base, indices, hresult, hkind, hseen⟩ := h
  simp only [Function.visitOffset, hkind, hresult, hseen]

theorem Function.visitOffset_of_not_repeats
    (h : ¬ ∃ result existing, state.Repeats f instruction result existing) :
    (f.visitOffset state instruction).2 =
        some (instruction.mapOperands state.replacements.remap) ∧
      (f.visitOffset state instruction).1.replacements = state.replacements := by
  simp only [Function.visitOffset]
  split
  · split <;> exact ⟨rfl, rfl⟩
  · exact ⟨rfl, rfl⟩
  · rename_i base indices result hkind hresult
    split
    · exact absurd ⟨result, _, base, indices, hresult, hkind, ‹_›⟩ h
    · exact ⟨rfl, rfl⟩
  · exact ⟨rfl, rfl⟩

theorem Function.replacedOffset_iff (hblock : f.blocks[b]? = some block)
    (hi : block.instructions[i]? = some instruction) :
    f.ReplacedOffset b i existing ↔
      ∃ result, (f.offsetsBefore b block i).Repeats f instruction result existing := by
  constructor
  · rintro ⟨block', instruction', result, base, indices, hblock', hi', hrest⟩
    obtain rfl : block = block' := Option.some.inj (hblock.symm.trans hblock')
    obtain rfl : instruction = instruction' := Option.some.inj (hi.symm.trans hi')
    exact ⟨result, base, indices, hrest⟩
  · rintro ⟨result, base, indices, hrest⟩
    exact ⟨block, instruction, result, base, indices, hblock, hi, hrest⟩

/-- What becomes of an instruction: a replaced offset is dropped, and of another instruction the
operands are replaced. -/
def Function.KeepsOffset (f : Function) (b i : ℕ) (instruction : Instruction)
    (kept : List Instruction) : Prop :=
  (∃ existing, f.ReplacedOffset b i existing) ∧ kept = [] ∨
    (¬ ∃ existing, f.ReplacedOffset b i existing) ∧ ∃ block, f.blocks[b]? = some block ∧
      kept = [instruction.mapOperands (f.offsetsBefore b block i).replacements.remap]

theorem Function.rewritten_retainOffsets (hblock : f.blocks[b]? = some block)
    {done rest : List Instruction} (hsplit : block.instructions = done ++ rest) :
    Rewritten (f.KeepsOffset b) done.length rest
      (f.retainOffsets (f.offsetsBefore b block done.length) rest) := by
  induction rest generalizing done with
  | nil => exact .nil
  | cons instruction rest ih =>
      have hi : block.instructions[done.length]? = some instruction := by simp [hsplit]
      have hnext : f.offsetsBefore b block (done.length + 1) =
          (f.visitOffset (f.offsetsBefore b block done.length) instruction).1 := by
        rw [offsetsBefore, take_add_one, hi]
        simp [offsetsAfter, offsetsBefore, foldl_append]
      have hrest := @ih (done ++ [instruction]) (by simp [hsplit])
      rw [length_append, length_singleton, hnext] at hrest
      by_cases hrepeats : ∃ result existing,
          (f.offsetsBefore b block done.length).Repeats f instruction result existing
      · obtain ⟨result, existing, hrepeats⟩ := hrepeats
        have hkept : (f.visitOffset (f.offsetsBefore b block done.length) instruction).2 =
            none := by
          rw [hrepeats.visitOffset]
        rw [retainOffsets, hkept]
        exact .cons (.inl ⟨⟨existing, (replacedOffset_iff hblock hi).mpr ⟨result, hrepeats⟩⟩, rfl⟩)
          hrest
      · rw [retainOffsets, (visitOffset_of_not_repeats hrepeats).1]
        refine .cons (.inr ⟨?_, block, hblock, rfl⟩) hrest
        rintro ⟨existing, hreplaced⟩
        obtain ⟨result, hresult⟩ := (replacedOffset_iff hblock hi).mp hreplaced
        exact hrepeats ⟨result, existing, hresult⟩

theorem Function.getElem?_retainBlocks (state : OffsetState) (blocks : List Block) (b : ℕ) :
    (f.retainBlocks state blocks)[b]? = blocks[b]?.map fun block =>
      { block with
        instructions := f.retainOffsets
          (enterBlock (f.offsetsAfterBlocks state (blocks.take b))) block.instructions } := by
  induction blocks generalizing state b with
  | nil => simp [retainBlocks]
  | cons block rest ih =>
      cases b with
      | zero => simp [retainBlocks, offsetsAfterBlocks]
      | succ b => simpa [retainBlocks, offsetsAfterBlocks] using ih _ b

theorem Function.blockWise_retainBlocks (f : Function) :
    f.BlockWise { f with blocks := f.retainBlocks ⟨[], []⟩ f.blocks } f.KeepsOffset where
  same := rfl
  length := by
    have hlength : ∀ state blocks, (f.retainBlocks state blocks).length = blocks.length := by
      intro state blocks
      induction blocks generalizing state with
      | nil => rfl
      | cons block rest ih => simp [retainBlocks, ih]
    exact hlength _ _
  blocks b block hblock := by
    refine ⟨_, ?_, Function.rewritten_retainOffsets hblock (nil_append _).symm⟩
    rw [getElem?_retainBlocks, hblock]
    rfl

/-- A replacement made once is not superseded: the result is defined nowhere else. -/
theorem Module.Accepts.lookup_offsetReplacements (accepted : module.Accepts f)
    (hdefines : f.Defines b i instruction result) (hreplaced : f.ReplacedOffset b i existing) :
    f.offsetReplacements.lookup result.value = some existing := by
  obtain ⟨block, hblock, hi⟩ := Function.instructionAt_eq_some.mp hdefines.at_position
  obtain ⟨result', hrepeats⟩ := (Function.replacedOffset_iff hblock hi).mp hreplaced
  obtain rfl : result = result' := Option.some.inj
    (hdefines.result_eq.symm.trans hrepeats.choose_spec.choose_spec.1)
  -- an instruction with another result leaves the replacement
  have hvisit : ∀ (state : OffsetState) (other : Instruction),
      (∀ declared, other.result = some declared → declared.value ≠ result.value) →
      (f.visitOffset state other).1.replacements.lookup result.value =
        state.replacements.lookup result.value := by
    intro state other hne
    by_cases hother : ∃ declared kept, state.Repeats f other declared kept
    · obtain ⟨declared, kept, hother⟩ := hother
      have hdeclared := hother.choose_spec.choose_spec.1
      rw [hother.visitOffset, lookup_insert, if_neg (hne declared hdeclared).symm]
    · rw [(Function.visitOffset_of_not_repeats hother).2]
  have hafter : ∀ (instructions : List Instruction) (state : OffsetState),
      (∀ other ∈ instructions, ∀ declared, other.result = some declared →
        declared.value ≠ result.value) →
      (f.offsetsAfter state instructions).replacements.lookup result.value =
        state.replacements.lookup result.value := by
    intro instructions
    induction instructions with
    | nil => exact fun _ _ => rfl
    | cons other rest ih =>
        intro state hne
        obtain ⟨hother, hrest⟩ := forall_mem_cons.mp hne
        exact (ih _ hrest).trans (hvisit state other hother)
  have hblocks : ∀ (blocks : List Block) (state : OffsetState),
      (∀ other ∈ blocks.flatMap Block.instructions, ∀ declared, other.result = some declared →
        declared.value ≠ result.value) →
      (f.offsetsAfterBlocks state blocks).replacements.lookup result.value =
        state.replacements.lookup result.value := by
    intro blocks
    induction blocks with
    | nil => exact fun _ _ => rfl
    | cons other rest ih =>
        intro state hne
        rw [flatMap_cons, forall_mem_append] at hne
        exact (ih _ hne.2).trans (hafter _ _ hne.1)
  -- elsewhere in the function no instruction has this result
  have hlater : ∀ b' i' other declared, (b', i') ≠ (b, i) → f.instructionAt b' i' = some other →
      other.result = some declared → declared.value ≠ result.value := by
    intro b' i' other declared hne hat hdeclared hvalue
    obtain ⟨rfl, rfl, -, -⟩ := accepted.defines_unique hdefines ⟨hat, hdeclared⟩ hvalue
    exact hne rfl
  have hb := (List.getElem?_eq_some_iff.mp hblock).1
  have hlt := (List.getElem?_eq_some_iff.mp hi).1
  have hsplit : f.blocks = f.blocks.take b ++ block :: f.blocks.drop (b + 1) := by
    rw [← (List.getElem?_eq_some_iff.mp hblock).2, getElem_cons_drop hb, take_append_drop]
  have hinside : block.instructions =
      block.instructions.take i ++ instruction :: block.instructions.drop (i + 1) := by
    rw [← (List.getElem?_eq_some_iff.mp hi).2, getElem_cons_drop hlt, take_append_drop]
  unfold Function.offsetReplacements
  rw [hsplit, Function.offsetsAfterBlocks, foldl_append, foldl_cons]
  refine (hblocks _ _ ?_).trans ?_
  · intro other hmem declared hdeclared
    obtain ⟨block', hblock', hother⟩ := mem_flatMap.mp hmem
    obtain ⟨n, hn⟩ := mem_iff_getElem?.mp hblock'
    obtain ⟨m, hm⟩ := mem_iff_getElem?.mp hother
    rw [getElem?_drop] at hn
    refine hlater (b + 1 + n) m other declared ?_ ?_ hdeclared
    · simp only [ne_eq, Prod.mk.injEq]
      omega
    · exact Function.instructionAt_eq_some.mpr ⟨block', hn, hm⟩
  · rw [hinside, Function.offsetsAfter, foldl_append, foldl_cons]
    refine (hafter _ _ ?_).trans ?_
    · intro other hmem declared hdeclared
      obtain ⟨m, hm⟩ := mem_iff_getElem?.mp hmem
      rw [getElem?_drop] at hm
      refine hlater b (i + 1 + m) other declared ?_ ?_ hdeclared
      · simp only [ne_eq, Prod.mk.injEq]
        omega
      · exact Function.instructionAt_eq_some.mpr ⟨block, hblock, hm⟩
    · have hstate : (f.visitOffset (f.offsetsBefore b block i) instruction).1.replacements.lookup
          result.value = some existing := by
        rw [hrepeats.visitOffset, lookup_insert, if_pos rfl]
      exact hstate

/-- **What the pass drops**: the replaced offsets and nothing else; their results are replaced as
the pass found, through all the function, and the values are numbered anew. -/
theorem eliminateRedundantOffsets_drops {k : ℕ} (hf : module.functions[k]? = some f) :
    ∃ retained, f.BlockWise retained f.KeepsOffset ∧
      (eliminateRedundantOffsets module).1.functions[k]? = some
        (if f.offsetReplacements.isEmpty then retained
        else
          Function.renumberValues
            { retained with
              blocks := retained.blocks.map
                (Block.mapOperands f.offsetReplacements.resolved.remap) }) ∧
      (module.Accepts f → ∀ b i instruction result existing, f.Defines b i instruction result →
        f.ReplacedOffset b i existing →
        f.offsetReplacements.lookup result.value = some existing) := by
  refine ⟨_, f.blockWise_retainBlocks, ?_, fun accepted b i instruction result existing =>
    accepted.lookup_offsetReplacements⟩
  rw [eliminateRedundantOffsets, getElem?_map, hf]
  rfl

end Pass

/-! ## Conditions on a run -/

/-- A slot that some offset is computed from. -/
def Function.OffsetSlot (f : Function) (slot : ValueId) : Prop :=
  ∃ b i instruction result base indices, f.Defines b i instruction result ∧
    instruction.kind = .offset base indices ∧
      (f.canonical result.value).dependsOnStackLoad slot = true

/-- The base and the indices of an offset are current. -/
def CurrentBase (f : Function) (s : State M) (kind : InstructionKind) : Prop :=
  ∀ base indices, kind = .offset base indices → Current f s base ∧ ∀ v ∈ indices, Current f s v

/-- An offset has current operands, and no slot that offsets are computed from
changes without the pass forgetting the offsets it has seen. -/
def OffsetsCurrent (f : Function) (event : Event M) : Prop :=
  ∀ instruction observation, event.action = .instruction instruction observation →
    CurrentBase f event.before instruction.kind ∧
      ∀ slot address, f.OffsetSlot slot → event.before.env slot = some (.pointer (some address)) →
        observation.Touches event.before address.object → ClearsOffsets f instruction.kind

/-- The replacements made do not change what the pass forgets at. -/
theorem ClearsOffsets.rewritten (accepted : module.Accepts f) {state : OffsetState} {b i : ℕ}
    {instruction : Instruction} (h : state.Explained f)
    (hat : f.instructionAt b i = some instruction) (hreach : Dominance.Reachable f.Edge b)
    (hclears : ClearsOffsets f instruction.kind) :
    ClearsOffsets f (instruction.mapOperands state.replacements.remap).kind := by
  have hlive : ∀ u ∈ instruction.kind.operands, f.Live u := fun u hu =>
    accepted.live_of_inScope (accepted.operand_inScope hat hu) hreach
  rw [Instruction.mapOperands]
  cases hkind : instruction.kind with
  | call => trivial
  | store pointer =>
      rw [hkind] at hclears
      have hpointer := hlive pointer (by simp [hkind, operands])
      have hremap : f.Live (state.replacements.remap pointer) := by
        unfold remap
        cases hlookup : state.replacements.lookup pointer with
        | none => exact hpointer
        | some e => exact (h pointer e hlookup hpointer).1
      simp only [mapOperands, ClearsOffsets] at hclears ⊢
      rwa [accepted.pointerRoot_eq_of_canonical_eq hremap hpointer (h.canonical_remap hpointer)]
  | _ => simp [hkind, ClearsOffsets] at hclears

/-! ## The offsets seen stay current -/

/-- Every offset the pass knows of at a position is current. -/
def SeenCurrent (f : Function) (s : State M) (b i : ℕ) : Prop :=
  ∀ block, f.blocks[b]? = some block → ∀ key e,
    (f.offsetsBefore b block i).offsets.lookup key = some e → Current f s e

namespace SeenCurrent

variable {start s s' : State M} {trace : List (Event M)} {b i : ℕ}

/-- The step lemma. -/
theorem step (accepted : module.Accepts f) (hclosed : s.Closed)
    (run : Run M module f start trace b i s) (h : SeenCurrent f s b i)
    {instruction : Instruction} {observation : Observation M}
    (hat : f.instructionAt b i = some instruction)
    (hstep : Step M module f instruction s observation s')
    (hcurrent : OffsetsCurrent f ⟨b, i, s, .instruction instruction observation⟩) :
    SeenCurrent f s' b (i + 1) := by
  obtain ⟨hoperands, hslots⟩ := hcurrent instruction observation rfl
  intro block hblock key e hlookup
  obtain ⟨block', hblock', hi⟩ := Function.instructionAt_eq_some.mp hat
  obtain rfl : block = block' := Option.some.inj (hblock.symm.trans hblock')
  have hlt := (List.getElem?_eq_some_iff.mp hi).1
  obtain ⟨hexplained, hseen⟩ := explained_offsetsBefore accepted hblock hlt.le
  rw [Function.offsetsBefore, take_add_one, hi, Function.offsetsAfter, foldl_append]
    at hlookup
  rcases OffsetState.lookup_visitOffset hlookup with ⟨hold, hkept⟩ | ⟨result, hkeys, rfl⟩
  · -- seen before: none of its slots is touched, or the pass would have forgotten it
    obtain ⟨j, other, declared, base, indices, hj, hdefines, rfl, hkind, _⟩ := hseen key e hold
    refine (run.current_step accepted hclosed hat hstep (j := j + 2) (by omega)
      (h block hblock key _ hold) (hdefines.inScope (Precedes.same_block (by omega))) ?_).1
    intro slot address hdepends hpointer htouches
    exact hkept (ClearsOffsets.rewritten accepted hexplained hat run.reachable
      (hslots slot address ⟨b, j, other, declared, base, indices, hdefines, hkind, hdepends⟩
        hpointer htouches))
  · -- the offset just computed
    obtain ⟨base, indices, hkind, hresult, _⟩ := hkeys
    obtain ⟨hbase, hindices⟩ := hoperands base indices hkind
    obtain ⟨rfl, _⟩ := hstep.of_isPure (by rw [hkind]; rfl)
    have hkeep : ∀ u ∈ base :: indices, Current f s u → Current f s' u := by
      intro u hu hu'
      refine (run.current_step accepted hclosed hat hstep (j := i + 1) le_rfl hu'
        (accepted.operand_inScope hat (by rwa [hkind])) ?_).1
      exact fun slot address _ _ => id
    exact .offset ⟨hat, hresult⟩ hkind (hkeep base (by simp) hbase) fun u hu =>
      hkeep u (by simp [hu]) (hindices u hu)

/-- The run lemma. -/
theorem run (accepted : module.Accepts f) (hstart : start.Initial f)
    (run : Run M module f start trace b i s)
    (hcurrent : Throughout (fun _ event => OffsetsCurrent f event) trace) :
    SeenCurrent f s b i := by
  induction run with
  | start =>
      intro block _ key e hlookup
      cases hlookup
  | step run hat hstep ih =>
      obtain ⟨hbefore, hlast⟩ := hcurrent.of_append
      exact (ih hbefore).step accepted (run.closed hstart.closed) run hat hstep hlast
  | edge =>
      -- a block starts without any offsets seen
      intro block _ key e hlookup
      cases hlookup

end SeenCurrent

/-- **A replaced offset is its replacement**: of the same type, and bound to the
address that the offset would compute. -/
theorem address_of_replacedOffset (accepted : module.Accepts f) {start s : State M}
    (hstart : start.Initial f) {trace : List (Event M)} {b i : ℕ}
    (run : Run M module f start trace b i s)
    (hcurrent : Throughout (fun _ event => OffsetsCurrent f event) trace)
    (htypes : f.OffsetTypesAgree) {instruction : Instruction} {result : TypedValue}
    (hdefines : f.Defines b i instruction result) (hoperands : CurrentBase f s instruction.kind)
    {existing : ValueId} (hreplaced : f.ReplacedOffset b i existing) :
    f.typeOf existing = some result.ty ∧ ∃ value values, s.env existing = some value ∧
      instruction.request M module f s = some (.compute value, values) := by
  obtain ⟨block, instruction', result', base', indices', hblock, hi, hresult',
    hrewritten, hlookup⟩ :=
    hreplaced
  obtain rfl : instruction = instruction' := Option.some.inj (hdefines.at_position.symm.trans
    (Function.instructionAt_eq_some.mpr ⟨block, hblock, hi⟩))
  obtain rfl : result = result' := Option.some.inj (hdefines.result_eq.symm.trans hresult')
  obtain ⟨hexplained, hseen⟩ := explained_offsetsBefore accepted hblock
    (List.getElem?_eq_some_iff.mp hi).1.le
  have hkeys := OffsetState.keys_of_rewritten (f := f) hrewritten hresult'
  have hexpression := hexplained.canonical_of_keys accepted hdefines.at_position run.reachable hkeys
  obtain ⟨base, indices, hkind, _, _⟩ := hkeys
  obtain ⟨hbase, hindices⟩ := hoperands base indices hkind
  -- the replacement was computed in this block and is still current
  obtain ⟨j, other, declared, _, _, hj, hother, rfl, hotherKind, hcanonical⟩ := hseen _ _ hlookup
  have hcurrentOther := SeenCurrent.run accepted hstart run hcurrent block hblock _ _ hlookup
  have hscope : f.InScope declared.value (b, i + 1) :=
    hother.inScope (Precedes.same_block (by omega))
  have hlive := accepted.live_of_inScope hscope run.reachable
  have hsame : f.canonical result.value = f.canonical declared.value :=
    hexpression.trans (hcanonical run.reachable).symm
  have htype : f.typeOf declared.value = some result.ty := by
    rw [← accepted.typeOf_result hdefines]
    exact (htypes _ _ _ _ _ _ (hkind ▸ accepted.definitionOf_eq hdefines)
      (hotherKind ▸ accepted.definitionOf_eq hother) hsame).symm
  refine ⟨htype, ?_⟩
  obtain ⟨_, _, other', declared', base₀, indices₀, hother', hvalue, hkind₀, hbase₀, hindices₀,
    hcurrentBase, hcurrentIndices⟩ :=
      hcurrentOther.of_offset accepted hlive (hcanonical run.reachable)
  obtain ⟨_, _, rfl, rfl⟩ := accepted.defines_unique hother hother' hvalue
  obtain ⟨values, value, hvalues, hcomputed, hbound⟩ := run.satisfied accepted hother.at_position
    hother.result_eq (by rw [hkind₀]; rfl) (Precedes.same_block (by omega))
  rw [hkind₀] at hvalues hcomputed
  have hliveResult := accepted.live_of_inScope
    (hdefines.inScope (Precedes.same_block (j := i + 2) (by omega))) run.reachable
  have hdefinition := hexpression
  rw [accepted.canonical_offset hdefines hliveResult hkind, ← hbase₀, ← hindices₀] at hdefinition
  obtain ⟨hbaseSame, hindicesSame⟩ := CanonicalValue.offset.inj hdefinition
  -- its operands have the values of the operands here
  have hoperand : ∀ u ∈ base :: indices, f.InScope u (b, i + 1) := fun u hu =>
    accepted.operand_inScope hdefines.at_position (by rwa [hkind])
  have hoperand₀ : ∀ u ∈ base₀ :: indices₀, f.InScope u (b, i + 1) := fun u hu =>
    (accepted.operand_inScope hother.at_position (by rwa [hkind₀])).trans
      (Precedes.same_block (by omega))
  obtain ⟨hbaseEnv, hbaseType⟩ := run.env_eq_of_canonical_eq accepted hbase hcurrentBase
    (hoperand base (by simp)) (hoperand₀ base₀ (by simp)) hbaseSame (Or.inr htypes)
  have hindicesEnv : indices.map s.env = indices₀.map s.env := by
    refine map_eq_map_of (fun u hu u' hu' heq => ?_) hindicesSame
    exact (run.env_eq_of_canonical_eq accepted (hindices u hu) (hcurrentIndices u' hu')
      (hoperand u (by simp [hu])) (hoperand₀ u' (by simp [hu'])) heq (Or.inr htypes)).1
  have hvaluesHere : (base :: indices).map s.env = values.map some := by
    rw [← hvalues]
    simp only [operands, map_cons, hbaseEnv, hindicesEnv]
  have hresultType : declared'.ty = result.ty :=
    Option.some.inj ((accepted.typeOf_result hother).symm.trans htype)
  refine ⟨value, values, hbound, request_eq_some.mpr ⟨?_, ?_⟩⟩
  · rw [hkind]
    exact State.values_eq_some_iff.mpr hvaluesHere
  · rw [hkind, hdefines.result_eq]
    have hcomputedHere : (InstructionKind.offset base indices).computed M module result.ty
        (f.operandTypes (.offset base indices)) values = some value :=
      (computed_offset_congr hbaseType).trans (hresultType ▸ hcomputed)
    simp only [operation, Option.map_some, Option.bind_some]
    rw [hcomputedHere]
    rfl

/-- `u32 a[4]; i = 0; x = i; i = 1; p = &a[x]; y = i; q = &a[y]`. -/
def indexedStale : Function :=
  .of [] 4
    [.of 0 []
      [.defining 0 0 (.constant (.integer 0)), .defining 1 0 (.constant (.integer 1)),
        .defining 2 1 (.stackAlloc 0 none), .defining 3 3 (.stackAlloc 2 none),
        .effect (.store 2 0 4 false), .defining 4 0 (.load 2 4 false),
        .effect (.store 2 1 4 false), .defining 5 1 (.offset 3 [4]),
        .defining 6 0 (.load 2 4 false), .defining 7 1 (.offset 3 [6])]
      (.ret none)]

/-- A module whose types are `u32`, arrays of four, and pointers to them. -/
def arrayModule (f : Function) : Module :=
  ⟨[.integer false 32, .pointer 0 .stack, .array 0 4, .pointer 2 .stack, .unit], [f]⟩

theorem accepts_indexedStale : (arrayModule indexedStale).Accepts indexedStale :=
  ⟨rfl, by simp [arrayModule]⟩

/-- An array element is addressed twice by a loaded index, with a store through a loaded pointer
to another slot between: `i = 1; t; q = &t; r = q; x = i; p = &a[x]; *r = 1; y = i; p = &a[y]`. -/
def indexedReload : Function :=
  .of [] 4
    [.of 0 []
      [.defining 0 0 (.constant (.integer 1)), .defining 1 1 (.stackAlloc 0 none),
        .defining 2 1 (.stackAlloc 0 none), .defining 3 5 (.stackAlloc 1 none),
        .defining 4 3 (.stackAlloc 2 none), .effect (.store 1 0 4 false),
        .effect (.store 3 2 8 false), .defining 5 1 (.load 3 8 false),
        .defining 6 0 (.load 1 4 false), .defining 7 1 (.offset 4 [6]),
        .effect (.store 5 0 4 false), .defining 8 0 (.load 1 4 false),
        .defining 9 1 (.offset 4 [8])]
      (.ret none)]

def indexedReloadModule : Module :=
  ⟨[.integer false 32, .pointer 0 .stack, .array 0 4, .pointer 2 .stack, .unit, .pointer 1 .stack],
    [indexedReload]⟩

theorem accepts_indexedReload : indexedReloadModule.Accepts indexedReload :=
  ⟨rfl, by simp [indexedReloadModule]⟩

theorem address_indexedReload :
    ∃ (s : State cells) (trace : List (Event cells)),
      Run cells indexedReloadModule indexedReload blank trace 0 12 s ∧
        indexedReload.ReplacedOffset 0 12 7 ∧ indexedReload.typeOf 7 = some 1 ∧
          ∃ value values, s.env 7 = some value ∧
            (Instruction.defining 9 1 (.offset 4 [8])).request cells indexedReloadModule
              indexedReload s = some (.compute value, values) := by
  let observe (event : Event cells) := (event.block, event.index, event.action.stored,
    if 9 ≤ event.index then some (event.before.slotLoad 1 6 ⟨1, 0⟩ 0) else none)
  obtain ⟨one, hone⟩ : ∃ one : Option RuntimeValue × Option RuntimeValue × RuntimeValue,
      one = (some (.pointer (some ⟨1, 0⟩)), some (.integer 32 1), .integer 32 1) := ⟨_, rfl⟩
  obtain ⟨c, hrun, hobserved⟩ := Configuration.exists_run indexedReloadModule indexedReload blank 12
    (fun c => (c.block, c.index, c.state.slotLoad 1 8 ⟨1, 0⟩ 0, c.trace.map observe))
    (a := (0, 12, one, [(0, 0, some [], none), (0, 1, some [], none), (0, 2, some [], none),
      (0, 3, some [], none), (0, 4, some [], none), (0, 5, some [1], none), (0, 6, some [3], none),
      (0, 7, some [], none), (0, 8, some [], none), (0, 9, some [], some one),
      (0, 10, some [2], some one), (0, 11, some [], some one)]))
    (by rw [hone]; rfl)
  simp only [Prod.mk.injEq] at hobserved
  obtain ⟨hblock, hindex, hlast, htrace⟩ := hobserved
  rw [hblock, hindex] at hrun
  have hreplaced : indexedReload.ReplacedOffset 0 12 7 := ⟨_, _, _, _, _, rfl, rfl, rfl, rfl, rfl⟩
  -- both offsets are of the array, and of one type
  have hoffset : ∀ instruction ∈ indexedReload.instructions, ∀ base indices,
      instruction.kind = .offset base indices →
      instruction.result = some ⟨7, 1⟩ ∨ instruction.result = some ⟨9, 1⟩ := by
    intro instruction hmem base indices hkind
    simp only [indexedReload, instructions_of, mem_cons, not_mem_nil, or_false] at hmem
    rcases hmem with rfl | rfl | rfl | rfl | rfl | rfl | rfl | rfl | rfl | rfl | rfl | rfl | rfl <;>
      cases hkind
    · exact Or.inl rfl
    · exact Or.inr rfl
  have hslot : ∀ slot, indexedReload.OffsetSlot slot → slot = 1 := by
    rintro slot ⟨b, i, instruction, result, base, indices, hdefines, hkind, hdepends⟩
    have hresult := hoffset instruction (Function.mem_instructions hdefines.at_position)
      base indices hkind
    rw [hdefines.result_eq] at hresult
    have hexpression : (CanonicalValue.offset (.value 4) [.stackLoad 1]).dependsOnStackLoad slot =
        true := by
      rcases hresult with hresult | hresult <;> cases hresult <;> exact hdepends
    exact Eq.symm <| by
      simpa [CanonicalValue.dependsOnStackLoad, CanonicalValue.anyDepends] using hexpression
  have htypes : indexedReload.OffsetTypesAgree := by
    have htype : ∀ v base indices, indexedReload.definitionOf v = some (.offset base indices) →
        indexedReload.typeOf v = some 1 := by
      intro v base indices hdefinition
      obtain ⟨b, i, instruction, result, hdefines, rfl, hkind⟩ :=
        Function.defines_of_definitionOf hdefinition
      have hresult := hoffset instruction (Function.mem_instructions hdefines.at_position)
        base indices hkind
      rw [hdefines.result_eq] at hresult
      rcases hresult with hresult | hresult <;> cases hresult <;> rfl
    intro v w base base' indices indices' hv hw _
    rw [htype v base indices hv, htype w base' indices' hw]
  have hcurrent : Throughout (fun _ event => OffsetsCurrent indexedReload event) c.trace := by
    intro earlier event later hsplit instruction observation haction
    have hmem : event ∈ c.trace := hsplit ▸ by simp
    obtain ⟨hat, _⟩ := hrun.step_of_mem hmem haction
    have hseen := mem_map_of_mem (f := observe) hmem
    rw [htrace] at hseen
    simp only [observe, haction, mem_cons, Prod.mk.injEq, not_mem_nil, or_false] at hseen
    rcases hseen with h | h | h | h | h | h | h | h | h | h | h | h
    all_goals
      obtain ⟨hb, hi, hstored, hloaded⟩ := h
      rw [hb, hi] at hat
      cases hat
      refine ⟨?_, fun slot address hchecked hpointer htouches => ?_⟩
    -- the first offset
    case inr.inr.inr.inr.inr.inr.inr.inr.inr.inl.refl.refine_1 =>
      rintro _ _ ⟨⟩
      rw [if_pos hi.ge] at hloaded
      refine ⟨.leaf rfl, fun v hv => ?_⟩
      obtain rfl := mem_singleton.mp hv
      exact .of_slotLoad (b := 0) (i := 8) rfl rfl ((Option.some.inj hloaded).trans hone)
    -- the store through the loaded pointer
    case inr.inr.inr.inr.inr.inr.inr.inr.inr.inr.inl.refl.refine_2 =>
      obtain rfl := hslot slot hchecked
      rw [if_pos (hi ▸ by decide)] at hloaded
      have hholds := congrArg Prod.fst ((Option.some.inj hloaded).trans hone)
      obtain rfl : address = ⟨1, 0⟩ := by simpa [State.slotLoad, hpointer] using hholds
      simpa using Observation.mem_of_touches hstored htouches
    all_goals first
      | rintro _ _ ⟨⟩
      | cases Observation.mem_of_touches hstored htouches
      | exact rfl
  have hoperands : CurrentBase indexedReload c.state (.offset 4 [8]) := by
    rintro base indices ⟨⟩
    refine ⟨.leaf rfl, fun v hv => ?_⟩
    obtain rfl := mem_singleton.mp hv
    exact .of_slotLoad (b := 0) (i := 11) rfl rfl (hlast.trans hone)
  obtain ⟨htype, hvalue⟩ := address_of_replacedOffset accepts_indexedReload (initial_blank _) hrun
    hcurrent htypes ⟨rfl, rfl⟩ hoperands hreplaced
  exact ⟨c.state, c.trace, hrun, hreplaced, htype, hvalue⟩

/-- The second offset is replaced by the first, which points to another element. -/
theorem not_address_indexedStale :
    ¬ ∀ (M : Machine) (module : Module) (f : Function) (start s : State M) (trace : List (Event M))
      (b i : ℕ) (instruction : Instruction) (result : TypedValue) (existing : ValueId),
      module.Accepts f → start.Initial f → Run M module f start trace b i s →
      f.Defines b i instruction result → f.ReplacedOffset b i existing →
      f.typeOf existing = some result.ty ∧ ∀ value values,
        instruction.request M module f s = some (.compute value, values) →
          s.env existing = some value := by
  intro h
  obtain ⟨c, hrun, hobserved⟩ := Configuration.exists_run (arrayModule indexedStale) indexedStale
    blank 9 (fun c => (c.block, c.index, c.state.env 5,
      (Instruction.defining 7 1 (.offset 3 [6])).request cells (arrayModule indexedStale)
        indexedStale c.state))
    (a := (0, 9, some (.pointer (some ⟨2, 0⟩)),
      some (.compute (.pointer (some ⟨2, 4⟩)), [.pointer (some ⟨2, 0⟩), .integer 32 1]))) rfl
  simp only [Prod.mk.injEq] at hobserved
  obtain ⟨hblock, hindex, hexisting, hrequest⟩ := hobserved
  rw [hblock, hindex] at hrun
  obtain ⟨_, hall⟩ := h cells (arrayModule indexedStale) indexedStale blank c.state c.trace 0 9
    (.defining 7 1 (.offset 3 [6])) ⟨7, 1⟩ 5 accepts_indexedStale (initial_blank _) hrun ⟨rfl, rfl⟩
    ⟨_, _, _, _, _, rfl, rfl, rfl, rfl, rfl⟩
  cases hexisting.symm.trans (hall _ _ hrequest)

end Jadren.Jir
