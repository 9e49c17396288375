import Jadren.Jir.Bindings
import Jadren.Jir.BoundsChecks

/-!
# Proven bounds checks

`eliminateProvenBoundsChecks` drops a bounds check of two integer constants when `0 ≤ index`,
`0 < length` and `index < length`.  It compares the constants as they are stored.  The check
itself compares words of the width that the operands have, so it sees the constants modulo
`2 ^ bits`.

A length that fits the width keeps its value, and so does every smaller index: the dropped check
would have passed.  A constant need not fit its type for the verifier, and of a length that does
not fit, the low bits are those of some smaller index, whose check is dropped and would fail.  So
the lengths that are safe at a width are those that fit it (`eliminateProvenBoundsChecks_exact`);
a length of 300 in eight bits is 44, and the check of index 50 against it is an example
(`not_passes_checkedWide`).
-/

namespace Jadren.Jir

open Dominance (Precedes)

/-! ## The pass -/

namespace Function

variable (f : Function)

/-- The values defined by integer constants. -/
def integerConstants : List (ValueId × ℤ) :=
  f.definitions.filterMap fun definition =>
    match definition.2 with
    | .constant (.integer value) => some (definition.1, value)
    | _ => none

/-- A later constant of a value replaces an earlier one. -/
def integerConstant (v : ValueId) : Option ℤ := f.integerConstants.reverse.lookup v

/-- The pass takes an instruction for a check that passes. -/
def isProven : InstructionKind → Bool
  | .boundsCheck index length =>
      match f.integerConstant index, f.integerConstant length with
      | some index, some length => decide (0 ≤ index ∧ 0 < length ∧ index < length)
      | _, _ => false
  | _ => false

def withoutProvenChecks : Function :=
  { f with
    blocks := f.blocks.map fun block =>
      { block with
        instructions :=
          block.instructions.filter fun instruction => !f.isProven instruction.kind } }

def provenChecks : ℕ := f.instructions.countP fun instruction => f.isProven instruction.kind

end Function

/-- **Proven bounds check elimination**, with the number of checks eliminated. -/
def eliminateProvenBoundsChecks (module : Module) : Module × ℕ :=
  ({ module with functions := module.functions.map Function.withoutProvenChecks },
    (module.functions.map Function.provenChecks).sum)

/-! ## Constants on a run -/

variable {M : Machine} {module : Module} {f : Function}

theorem Function.defines_of_integerConstant {v : ValueId} {x : ℤ}
    (h : f.integerConstant v = some x) : ∃ b i instruction result,
      f.Defines b i instruction result ∧ result.value = v ∧
        instruction.kind = .constant (.integer x) := by
  obtain ⟨before, after, hlist, _⟩ := List.lookup_eq_some_iff.mp h
  have hmem : (v, x) ∈ f.integerConstants := by
    rw [← List.mem_reverse, hlist]
    simp
  obtain ⟨⟨w, kind⟩, hdefinition, hkind⟩ := List.mem_filterMap.mp hmem
  split at hkind
  · rename_i hconstant
    cases hkind
    obtain ⟨b, i, instruction, result, hdefines, hvalue, rfl⟩ :=
      Function.mem_definitions.mp hdefinition
    exact ⟨b, i, instruction, result, hdefines, hvalue, hconstant⟩
  · cases hkind

/-- A constant in scope has its value modulo the power of two of its width. -/
theorem Run.env_of_integerConstant (accepted : module.Accepts f) {start s : State M}
    {trace : List (Event M)} {b i : ℕ} (run : Run M module f start trace b i s) {v : ValueId}
    {x : ℤ} (hv : f.integerConstant v = some x) (hscope : f.InScope v (b, i + 1)) :
    ∃ ty signed bits, f.typeOf v = some ty ∧ module.typeKind ty = some (.integer signed bits) ∧
      s.env v = some (.integer bits (encode bits x)) := by
  obtain ⟨b₀, i₀, instruction, result, hdefines, rfl, hkind⟩ :=
    Function.defines_of_integerConstant hv
  obtain ⟨hty, value, hconstant, henv⟩ := run.env_of_constant accepted hdefines hkind hscope
  simp only [constantValue] at hconstant
  split at hconstant
  · rename_i signed bits hkind
    cases hconstant
    exact ⟨result.ty, signed, bits, hty, hkind, henv⟩
  · cases hconstant

/-- The operands of a bounds check have one type. -/
theorem Module.Accepts.bounds_typeOf (accepted : module.Accepts f) {b i : ℕ}
    {instruction : Instruction} (hat : f.instructionAt b i = some instruction)
    {index length : ValueId} (hkind : instruction.kind = .boundsCheck index length) {ty : TypeId}
    (hty : f.typeOf index = some ty) : f.typeOf length = some ty := by
  obtain ⟨block, _, hcheck⟩ := accepted.verifyInstruction_eq_nil hat
  unfold UseContext.verifyInstruction at hcheck
  simp only [hkind, UseContext.checkBounds, List.append_eq_nil_iff] at hcheck
  obtain ⟨⟨⟨_, _⟩, hlength⟩, _⟩ := hcheck
  have hindex : (module.useContext f b block i instruction.span).typeOf index = some ty := hty
  rw [hindex] at hlength
  exact UseContext.typeOf_of_useValue hlength

/-- Encoded numbers compare as their remainders. -/
theorem encode_lt_encode_iff {bits : ℕ} {x y : ℤ} :
    encode bits x < encode bits y ↔ x % 2 ^ bits < y % 2 ^ bits := by
  have hpos : (0 : ℤ) < 2 ^ bits := Int.pow_pos (by decide)
  have hnonneg := Int.emod_nonneg x hpos.ne'
  unfold encode
  omega

theorem Function.of_isProven {kind : InstructionKind} (h : f.isProven kind = true) :
    ∃ index length x y, kind = .boundsCheck index length ∧ f.integerConstant index = some x ∧
      f.integerConstant length = some y ∧ 0 ≤ x ∧ x < y := by
  unfold Function.isProven at h
  split at h
  · rename_i index length
    split at h
    · rename_i x y hx hy
      obtain ⟨hnonneg, _, hlt⟩ := of_decide_eq_true h
      exact ⟨index, length, x, y, rfl, hx, hy, hnonneg, hlt⟩
    · exact nomatch h
  · exact nomatch h

/-- A check of two constants, as they are stored, at the width of its operands. -/
def Module.ChecksConstants (module : Module) (f : Function) (instruction : Instruction) (x y : ℤ)
    (bits : ℕ) : Prop :=
  ∃ index length ty signed, instruction.kind = .boundsCheck index length ∧
    f.integerConstant index = some x ∧ f.integerConstant length = some y ∧
      f.typeOf index = some ty ∧ f.typeOf length = some ty ∧
        module.typeKind ty = some (.integer signed bits)

/-- A dropped check compares two constants in order. -/
theorem Module.Accepts.checksConstants (accepted : module.Accepts f) {b i : ℕ}
    {instruction : Instruction} (hat : f.instructionAt b i = some instruction)
    (hproven : f.isProven instruction.kind = true) :
    ∃ x y bits, module.ChecksConstants f instruction x y bits ∧ 0 ≤ x ∧ x < y := by
  obtain ⟨index, length, x, y, hkind, hx, hy, hnonneg, hlt⟩ := Function.of_isProven hproven
  have hinteger := accepted.bounds_type hat (Or.inl hkind) (Or.inl rfl)
  obtain ⟨kind, hbind, hisInteger⟩ := (Option.any_eq_true _ _).mp hinteger
  obtain ⟨ty, hty, hkindOf⟩ := Option.bind_eq_some_iff.mp hbind
  cases kind with
  | integer signed bits =>
      exact ⟨x, y, bits, ⟨index, length, ty, signed, hkind, hx, hy, hty,
        accepted.bounds_typeOf hat hkind hty, hkindOf⟩, hnonneg, hlt⟩
  | _ => cases hisInteger

/-- A run goes on past a check of two constants if what the width leaves of them is in order. -/
theorem Module.ChecksConstants.step_iff (accepted : module.Accepts f) {start s : State M}
    {trace : List (Event M)} {b i : ℕ} (run : Run M module f start trace b i s)
    {instruction : Instruction} (hat : f.instructionAt b i = some instruction) {x y : ℤ} {bits : ℕ}
    (h : module.ChecksConstants f instruction x y bits) :
    (∃ observation s', Step M module f instruction s observation s') ↔
      x % 2 ^ bits < y % 2 ^ bits := by
  obtain ⟨index, length, ty, signed, hkind, hx, hy, hindexType, hlengthType, hty⟩ := h
  have hscope : ∀ v ∈ [index, length], f.InScope v (b, i + 1) := by
    intro v hv
    apply accepted.operand_inScope hat
    rw [hkind]
    exact hv
  -- both constants are cut down to the same width
  have hvalue : ∀ {v : ValueId} {z : ℤ}, v ∈ [index, length] → f.typeOf v = some ty →
      f.integerConstant v = some z → s.env v = some (.integer bits (encode bits z)) := by
    intro v z hv htype hz
    obtain ⟨ty', signed', bits', htype', hty', henv⟩ :=
      run.env_of_integerConstant accepted hz (hscope v hv)
    obtain rfl : ty' = ty := Option.some.inj (htype'.symm.trans htype)
    obtain ⟨rfl, rfl⟩ : signed' = signed ∧ bits' = bits := by simpa using hty'.symm.trans hty
    exact henv
  have hleft := hvalue (by simp) hindexType hx
  have hright := hvalue (by simp) hlengthType hy
  have hoperands : instruction.kind.checkOperands = some (index, length, none) := by
    rw [hkind]
    rfl
  rw [← encode_lt_encode_iff]
  constructor
  · intro hexists
    obtain ⟨observation, s', hstep⟩ := hexists
    obtain ⟨_, left, right, hleft', hright', hpass⟩ := hstep.of_check hoperands
    cases hleft.symm.trans hleft'
    cases hright.symm.trans hright'
    simpa [checkPass, boundsPass] using hpass
  · intro hless
    have hrequest : instruction.request M module f s = some (.check true,
        [.integer bits (encode bits x), .integer bits (encode bits y)]) := by
      rw [request_eq_some]
      constructor
      · rw [hkind, State.values_eq_some_iff]
        simp [InstructionKind.operands, hleft, hright]
      · rw [InstructionKind.operation_of_checkOperands hoperands]
        simp [checkPass, boundsPass, hless]
    exact ⟨.silent, s, .check hrequest⟩

/-- Every dropped check against this length, at this width, would have passed in every run that
reaches it. -/
def SafeLength (bits : ℕ) (y : ℤ) : Prop :=
  ∀ (M : Machine) (module : Module) (f : Function) (b i : ℕ) (instruction : Instruction) (x : ℤ),
    module.Accepts f → f.instructionAt b i = some instruction →
    f.isProven instruction.kind = true → module.ChecksConstants f instruction x y bits →
    ∀ (start s : State M) (trace : List (Event M)), Run M module f start trace b i s →
      ∃ observation s', Step M module f instruction s observation s'

/-- A length that fits keeps its value, and so does every index below it. -/
theorem safeLength_of_lt {bits : ℕ} {y : ℤ} (hfits : y < 2 ^ bits) : SafeLength bits y := by
  intro M module f b i instruction x accepted hat hproven hchecks start s trace run
  obtain ⟨x', y', bits', hchecks', hnonneg, hlt⟩ := accepted.checksConstants hat hproven
  rw [hchecks.step_iff accepted run hat]
  obtain ⟨index, length, _, _, hkind, hx, hy, _⟩ := hchecks
  obtain ⟨index', length', _, _, hkind', hx', hy', _⟩ := hchecks'
  obtain ⟨rfl, rfl⟩ : index = index' ∧ length = length' := by simpa using hkind.symm.trans hkind'
  obtain rfl : x = x' := Option.some.inj (hx.symm.trans hx')
  obtain rfl : y = y' := Option.some.inj (hy.symm.trans hy')
  rw [Int.emod_eq_of_lt hnonneg (hlt.trans hfits), Int.emod_eq_of_lt (hnonneg.trans hlt.le) hfits]
  exact hlt

theorem Function.blockWise_withoutProvenChecks (f : Function) :
    f.BlockWise f.withoutProvenChecks fun _ _ instruction kept =>
      kept = if f.isProven instruction.kind then [] else [instruction] where
  same := rfl
  length := by simp [withoutProvenChecks]
  blocks b block hblock := by
    refine ⟨_, by rw [withoutProvenChecks, List.getElem?_map, hblock]; rfl, ?_⟩
    have hfilter := Rewritten.filter (fun instruction => !f.isProven instruction.kind) 0
      block.instructions
    simpa [apply_ite, Bool.not_eq_true'] using hfilter

/-! ## Lengths that do not fit -/

/-- `i = x; n = y; check i < n`, at some integer type. -/
def checkedConstants (x y : ℤ) : Function :=
  .of [] 1
    [.of 0 []
      [.defining 0 0 (.constant (.integer x)), .defining 1 0 (.constant (.integer y)),
        .effect (.boundsCheck 0 1)]
      (.ret none)]

/-- At a width that is not zero, as the verifier demands. -/
def checkedConstantsModule (bits : ℕ) (x y : ℤ) : Module :=
  ⟨[.integer false (bits + 1), .unit], [checkedConstants x y]⟩

theorem accepts_checkedConstants (bits : ℕ) (x y : ℤ) :
    (checkedConstantsModule bits x y).Accepts (checkedConstants x y) :=
  ⟨rfl, by simp [checkedConstantsModule]⟩

theorem exists_run_checkedConstants (bits : ℕ) (x y : ℤ) :
    ∃ (s : State cells) (trace : List (Event cells)),
      Run cells (checkedConstantsModule bits x y) (checkedConstants x y) blank trace 0 2 s := by
  obtain ⟨c, hrun, hobserved⟩ := Configuration.exists_run (checkedConstantsModule bits x y)
    (checkedConstants x y) blank 2 (fun c => (c.block, c.index)) (a := (0, 2)) rfl
  obtain ⟨hblock, hindex⟩ := Prod.mk.inj hobserved
  rw [hblock, hindex] at hrun
  exact ⟨c.state, c.trace, hrun⟩

theorem checksConstants_checkedConstants (bits : ℕ) (x y : ℤ) :
    (checkedConstantsModule bits x y).ChecksConstants (checkedConstants x y)
      (.effect (.boundsCheck 0 1)) x y (bits + 1) :=
  ⟨0, 1, 0, false, rfl, rfl, rfl, rfl, rfl, rfl⟩

/-- The low bits of a length that does not fit are a smaller index, which its check refuses. -/
theorem not_safeLength_of_le {bits : ℕ} {y : ℤ} (hover : 2 ^ (bits + 1) ≤ y) :
    ¬ SafeLength (bits + 1) y := by
  intro hsafe
  have hpos : (0 : ℤ) < 2 ^ (bits + 1) := Int.pow_pos (by decide)
  generalize hx : y % 2 ^ (bits + 1) = x
  have hnonneg : 0 ≤ x := hx ▸ Int.emod_nonneg y hpos.ne'
  have hlt : x < y := hx ▸ (Int.emod_lt_of_pos y hpos).trans_le hover
  have accepted := accepts_checkedConstants bits x y
  have hchecks := checksConstants_checkedConstants bits x y
  obtain ⟨s, trace, run⟩ := exists_run_checkedConstants bits x y
  have hproven : (checkedConstants x y).isProven (.boundsCheck 0 1) = true :=
    decide_eq_true ⟨hnonneg, by omega, hlt⟩
  have hpasses := (hchecks.step_iff accepted run rfl).mp
    (hsafe cells _ _ 0 2 _ x accepted rfl hproven hchecks blank s trace run)
  rw [← hx, Int.emod_emod] at hpasses
  exact lt_irrefl _ hpasses

/-- **Dropped checks.**  The pass drops the checks of constants it takes for proven and nothing
else, and every dropped check against a length would have passed exactly if the length fits the
width of the operands. -/
theorem eliminateProvenBoundsChecks_exact (module : Module) {k : ℕ} {f : Function}
    (hf : module.functions[k]? = some f) {bits : ℕ} (hbits : 0 < bits) (y : ℤ) :
    (∃ f', (eliminateProvenBoundsChecks module).1.functions[k]? = some f' ∧
      f.BlockWise f' fun _ _ instruction kept =>
        kept = if f.isProven instruction.kind then [] else [instruction]) ∧
      (SafeLength bits y ↔ y < 2 ^ bits) := by
  refine ⟨⟨f.withoutProvenChecks, ?_, f.blockWise_withoutProvenChecks⟩, fun hsafe => ?_,
    safeLength_of_lt⟩
  · rw [eliminateProvenBoundsChecks, List.getElem?_map, hf]
    rfl
  · obtain ⟨bits, rfl⟩ := Nat.exists_eq_succ_of_ne_zero hbits.ne'
    by_contra hover
    exact not_safeLength_of_le (not_lt.mp hover) hsafe

/-- The check of 3 against 5 is dropped, and the run would have gone on. -/
theorem safeLength_checkedTwice :
    (checkedTwice.isProven (.boundsCheck 0 1) = true ∧
      checkedTwice.withoutProvenChecks.instructions.length = 2) ∧
    ∃ (s : State cells) (trace : List (Event cells)),
      Run cells checkedTwiceModule checkedTwice blank trace 0 2 s ∧
        ∃ observation s', Step cells checkedTwiceModule checkedTwice
          (.effect (.boundsCheck 0 1)) s observation s' := by
  obtain ⟨c, hrun, hobserved⟩ := Configuration.exists_run checkedTwiceModule checkedTwice blank 2
    (fun c => (c.block, c.index)) (a := (0, 2)) rfl
  obtain ⟨hblock, hindex⟩ := Prod.mk.inj hobserved
  rw [hblock, hindex] at hrun
  have hexact := eliminateProvenBoundsChecks_exact checkedTwiceModule (k := 0) rfl
    (show 0 < 32 by decide) 5
  have hsafe : SafeLength 32 5 := hexact.2.mpr (by decide)
  exact ⟨⟨rfl, rfl⟩, c.state, c.trace, hrun,
    hsafe cells _ _ 0 2 _ 3 accepts_checkedTwice rfl rfl
      ⟨0, 1, 0, false, rfl, rfl, rfl, rfl, rfl, rfl⟩ _ _ _ hrun⟩

/-- `u8 i = 50; u8 n = 300; check i < n`. -/
def checkedWide : Function := checkedConstants 50 300

def checkedWideModule : Module := checkedConstantsModule 7 50 300

/-- The check is dropped, and fails. -/
theorem not_passes_checkedWide :
    ¬ ∀ (M : Machine) (module : Module) (f : Function) (start s : State M) (trace : List (Event M))
      (b i : ℕ) (instruction : Instruction), module.Accepts f → start.Initial f →
      Run M module f start trace b i s → f.instructionAt b i = some instruction →
      f.isProven instruction.kind = true →
      ∃ observation s', Step M module f instruction s observation s' := by
  intro h
  have accepted : checkedWideModule.Accepts checkedWide := accepts_checkedConstants 7 50 300
  obtain ⟨s, trace, run⟩ := exists_run_checkedConstants 7 50 300
  have hstep := h cells checkedWideModule checkedWide blank s trace 0 2 _ accepted
    (initial_blank _) run rfl rfl
  have hless := ((checksConstants_checkedConstants 7 50 300).step_iff accepted run rfl).mp hstep
  exact absurd hless (by decide)

end Jadren.Jir
