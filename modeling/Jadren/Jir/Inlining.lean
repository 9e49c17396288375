import Jadren.Jir.Bindings
import Jadren.Jir.Renaming

/-!
# Inlining tiny functions

`inlineTinyFunctions` puts the instructions of a tiny function in place of its calls.  A tiny
function is internal, has one block of a few pure instructions, and returns.  Its parameters become
the arguments of the call, the value it returns becomes the result of the call, and its other
results get values that the caller does not use.  Afterwards the values of the caller are numbered
anew.

Several calls are inlined one after the other with one supply of values (`next`).
-/

namespace Jadren.Jir

open Dominance (Reachable)
open InstructionKind List UseContext

variable {M : Machine} {module : Module} {f g : Function}

/-! ## The pass -/

def inlineMaxInstructions : ℕ := 12

namespace Function

def isTinyInlineCandidate (f : Function) : Bool :=
  f.linkage == .internal &&
    match f.blocks with
    | [block] =>
        block.parameters.isEmpty &&
          (match block.terminator with
            | .ret _ => true
            | _ => false) &&
          decide (block.instructions.length ≤ inlineMaxInstructions) &&
          block.instructions.all fun instruction => instruction.kind.isPureScalar
    | _ => false

/-- The first value after those that the function defines. -/
def nextValueId (f : Function) : ℕ :=
  (f.values.map fun p => p.value + 1).foldr max 0

end Function

/-- The candidates by their ids; a later function of the same id replaces an earlier one. -/
def inlineCandidates (functions : List Function) : List (FunctionId × Function) :=
  ((functions.filter Function.isTinyInlineCandidate).map fun f => (f.id, f)).reverse

/-- Parameters are replaced by arguments. -/
def argumentsOf (parameters : List TypedValue) (arguments : List ValueId) : Replacements :=
  (parameters.zip arguments).foldl (fun values entry => values.insert entry.1.value entry.2) []

/-- The instructions of a callee with their values replaced.  The result that is returned becomes
the result of the call, which there is if a value is returned; other results get fresh values. -/
def cloneInstructions (returnValue : Option ValueId) (callResult : Option TypedValue) :
    Replacements → ℕ → List Instruction → List Instruction × ℕ
  | _, next, [] => ([], next)
  | values, next, instruction :: rest =>
      let cloned := instruction.mapOperands values.remap
      match instruction.result with
      | none =>
          let others := cloneInstructions returnValue callResult values next rest
          (cloned :: others.1, others.2)
      | some result =>
          if some result.value = returnValue then
            let mapped := (callResult.map TypedValue.value).getD next
            let others := cloneInstructions returnValue callResult
              (values.insert result.value mapped) next rest
            ({ cloned with result := some { result with value := mapped } } :: others.1, others.2)
          else
            let others := cloneInstructions returnValue callResult
              (values.insert result.value next) (next + 1) rest
            ({ cloned with result := some { result with value := next } } :: others.1, others.2)

/-- What a call is replaced by, with the next value that is free. -/
def inlineCall (callResult : Option TypedValue) (arguments : List ValueId) (callee : Function)
    (next : ℕ) : Option (List Instruction × ℕ) :=
  if arguments.length ≠ callee.parameters.length then none
  else
    match callee.blocks.head? with
    | some block =>
        match block.terminator with
        | .ret returnValue =>
            if returnValue.any fun value => callee.parameters.any (·.value == value) then none
            else if returnValue.isSome ≠ callResult.isSome then none
            else
              some (cloneInstructions returnValue callResult
                (argumentsOf callee.parameters arguments) next block.instructions)
        | _ => none
    | none => none

section

variable (candidates : List (FunctionId × Function)) (caller : FunctionId)

def inlineInstruction (instruction : Instruction) (next : ℕ) : Option (List Instruction × ℕ) :=
  match instruction.kind with
  | .call function arguments =>
      ((candidates.lookup function).filter fun callee => callee.id != caller).bind fun callee =>
        inlineCall instruction.result arguments callee next
  | _ => none

/-- What each instruction becomes, the next value that is free and the number of inlined calls. -/
def expandInstructions : ℕ → List Instruction → List (List Instruction) × ℕ × ℕ
  | next, [] => ([], next, 0)
  | next, instruction :: rest =>
      match inlineInstruction candidates caller instruction next with
      | some inlined =>
          let others := expandInstructions inlined.2 rest
          (inlined.1 :: others.1, others.2.1, others.2.2 + 1)
      | none =>
          let others := expandInstructions next rest
          ([instruction] :: others.1, others.2)

def expandBlocks : ℕ → List Block → List (List (List Instruction)) × ℕ
  | _, [] => ([], 0)
  | next, block :: rest =>
      let first := expandInstructions candidates caller next block.instructions
      let others := expandBlocks first.2.1 rest
      (first.1 :: others.1, first.2.2 + others.2)

end

namespace Function

variable (candidates : List (FunctionId × Function)) (f : Function)

/-- What the instructions become, block by block. -/
def expansion : List (List (List Instruction)) :=
  (expandBlocks candidates f.id f.nextValueId f.blocks).1

def inlinedCalls : ℕ := (expandBlocks candidates f.id f.nextValueId f.blocks).2

/-- The caller before its values are numbered anew. -/
def withInlined : Function :=
  { f with
    blocks := zipWith (fun block groups => { block with instructions := groups.flatten })
      f.blocks (f.expansion candidates) }

def inlineTiny : Function :=
  if f.inlinedCalls candidates = 0 then f.withInlined candidates
  else (f.withInlined candidates).renumberValues

end Function

/-- **Inlining of tiny functions**, with the number of calls inlined.  The candidates are the
functions as they were before any was changed. -/
def inlineTinyFunctions (module : Module) : Module × ℕ :=
  let candidates := inlineCandidates module.functions
  ({ module with functions := module.functions.map (Function.inlineTiny candidates) },
    (module.functions.map (Function.inlinedCalls candidates)).sum)

/-! ## The values of the expanded caller -/

abbrev resultsOf (instructions : List Instruction) : List TypedValue :=
  instructions.filterMap Instruction.result

/-- Of two halves of a list without repetitions, the whole has none. -/
theorem nodup_of_filter {l : List ValueId} (bound : ℕ) (hold : (l.filter (· < bound)).Nodup)
    (hfresh : (l.filter (bound ≤ ·)).Nodup) : l.Nodup := by
  have hperm := filter_append_perm (fun v => decide (v < bound)) l
  have hsame : l.filter (fun v => !decide (v < bound)) = l.filter (bound ≤ ·) := by
    refine filter_congr fun v _ => ?_
    rw [← decide_not]
    exact decide_eq_decide.mpr Nat.not_lt
  rw [hsame] at hperm
  refine hperm.nodup_iff.mp (nodup_append.mpr ⟨hold, hfresh, fun v hv w hw heq => ?_⟩)
  have hlt := (mem_filter.mp hv).2
  have hle := (mem_filter.mp hw).2
  simp only [decide_eq_true_eq] at hlt hle
  omega

/-- Among the values defined are old ones, and fresh ones that are numbered in order. -/
structure DefinesFresh (bound next next' : ℕ) (old defined : List TypedValue) : Prop where
  le : next ≤ next'
  old : defined.filter (fun p => decide (p.value < bound)) = old
  fresh : (defined.map TypedValue.value).filter (bound ≤ ·) = range' next (next' - next)

namespace DefinesFresh

variable {bound next next' next'' : ℕ} {old old' defined defined' : List TypedValue}

theorem append (h : DefinesFresh bound next next' old defined)
    (h' : DefinesFresh bound next' next'' old' defined') :
    DefinesFresh bound next next'' (old ++ old') (defined ++ defined') where
  le := h.le.trans h'.le
  old := by rw [filter_append, h.old, h'.old]
  fresh := by
    have hle := h.le
    have hle' := h'.le
    have hnext : next' = next + (next' - next) := by omega
    have hlength : next'' - next = (next' - next) + (next'' - next') := by omega
    rw [map_append, filter_append, h.fresh, h'.fresh, hlength]
    nth_rewrite 2 [hnext]
    exact range'_append_1

theorem of_bound (next : ℕ) (hbound : ∀ p ∈ defined, p.value < bound) :
    DefinesFresh bound next next defined defined where
  le := le_rfl
  old := filter_eq_self.mpr fun p hp => decide_eq_true (hbound p hp)
  fresh := by
    rw [Nat.sub_self, range'_zero, filter_eq_nil_iff]
    intro v hv
    obtain ⟨p, hp, rfl⟩ := mem_map.mp hv
    simpa using hbound p hp

theorem of_next (ty : TypeId) (hnext : bound ≤ next) :
    DefinesFresh bound next (next + 1) [] [⟨next, ty⟩] where
  le := Nat.le_succ next
  old := by simp [hnext]
  fresh := by simp [hnext]

end DefinesFresh

variable {bound next : ℕ} {returnValue : Option ValueId} {callResult : Option TypedValue}

/-- A copy of a callee defines the result of the call, and fresh values. -/
theorem defines_cloneInstructions (hresult : returnValue.isSome = callResult.isSome)
    (hbound : ∀ result, callResult = some result → result.value < bound)
    (instructions : List Instruction) (values : Replacements) (hnext : bound ≤ next) :
    DefinesFresh bound next
      (cloneInstructions returnValue callResult values next instructions).2
      (((resultsOf instructions).filter fun p => decide (some p.value = returnValue)).flatMap
        fun p => callResult.toList.map fun result => { p with value := result.value })
      (resultsOf (cloneInstructions returnValue callResult values next instructions).1) := by
  induction instructions generalizing values next with
  | nil => exact .of_bound next fun p hp => by cases hp
  | cons instruction rest ih =>
      cases hinstruction : instruction.result with
      | none =>
          have hnone : (instruction.mapOperands values.remap).result = none := hinstruction
          simp only [cloneInstructions, hinstruction, resultsOf,
            filterMap_cons_none hinstruction, filterMap_cons_none hnone]
          exact ih _ hnext
      | some result =>
          simp only [cloneInstructions, hinstruction, resultsOf,
            filterMap_cons_some hinstruction]
          by_cases hreturned : some result.value = returnValue
          · -- the result that is returned
            obtain ⟨call, rfl⟩ : ∃ call, callResult = some call := by
              rw [← Option.isSome_iff_exists, ← hresult, ← hreturned]
              rfl
            have hhead : DefinesFresh bound next next [⟨call.value, result.ty⟩]
                [⟨call.value, result.ty⟩] := .of_bound next fun p hp => by
              rw [mem_singleton.mp hp]
              exact hbound call rfl
            rw [if_pos hreturned, filter_cons_of_pos (by simpa using hreturned),
              flatMap_cons]
            exact hhead.append (ih _ hnext)
          · rw [if_neg hreturned, filter_cons_of_neg (by simpa using hreturned)]
            exact (DefinesFresh.of_next result.ty hnext).append
              (ih _ (hnext.trans (Nat.le_succ next)))

/-! ## Calls that are inlined -/

/-- A tiny function of a module: its only block, and what it returns. -/
structure Tiny (module : Module) (function : FunctionId) (callee : Function) (block : Block)
    (returnValue : Option ValueId) : Prop where
  at_index : module.functions[function]? = some callee
  blocks : callee.blocks = [block]
  parameters : block.parameters = []
  terminator : block.terminator = .ret returnValue
  pure : ∀ instruction ∈ block.instructions, instruction.kind.isPureScalar = true

/-- A call that is replaced by a copy of its callee. -/
structure Inlined (module : Module) (instruction : Instruction) (next : ℕ)
    (inlined : List Instruction × ℕ) (function : FunctionId) (arguments : List ValueId)
    (callee : Function) (block : Block) (returnValue : Option ValueId) : Prop where
  tiny : Tiny module function callee block returnValue
  kind : instruction.kind = .call function arguments
  length : arguments.length = callee.parameters.length
  not_parameter : ∀ v, returnValue = some v → ∀ p ∈ callee.parameters, p.value ≠ v
  result : returnValue.isSome = instruction.result.isSome
  copy : inlined = cloneInstructions returnValue instruction.result
    (argumentsOf callee.parameters arguments) next block.instructions

variable {function : FunctionId}

theorem Function.tiny_of_candidate (h : f.isTinyInlineCandidate = true)
    (hindex : module.functions[function]? = some f) :
    ∃ block returnValue, Tiny module function f block returnValue := by
  simp only [isTinyInlineCandidate, Bool.and_eq_true] at h
  obtain ⟨_, hbody⟩ := h
  split at hbody
  · rename_i block hblocks
    simp only [Bool.and_eq_true, List.isEmpty_iff, all_eq_true] at hbody
    obtain ⟨⟨⟨hparameters, hterminator⟩, _⟩, hpure⟩ := hbody
    split at hterminator
    · rename_i returnValue hreturn
      exact ⟨block, returnValue, hindex, hblocks, hparameters, hreturn, hpure⟩
    · cases hterminator
  · cases hbody

/-- In a verified module, functions are stored under their ids. -/
theorem Module.id_eq_index (hverified : module.verify = []) {k : ℕ}
    (hk : module.functions[k]? = some f) : f.id = k := by
  simp only [Module.verify, append_eq_nil_iff, flatMap_eq_nil_iff] at hverified
  have hentry := (hverified.2 (f, k) (mem_zipIdx_iff_getElem?.mpr hk)).1
  by_contra hne
  rw [if_neg hne] at hentry
  cases hentry

variable {callee : Function}

theorem candidate_of_lookup (hverified : module.verify = [])
    (h : (inlineCandidates module.functions).lookup function = some callee) :
    module.functions[function]? = some callee ∧ callee.isTinyInlineCandidate = true := by
  obtain ⟨before, after, hlist, _⟩ := List.lookup_eq_some_iff.mp h
  have hmem : (function, callee) ∈ inlineCandidates module.functions := by
    rw [hlist]
    simp
  obtain ⟨f, hf, heq⟩ := mem_map.mp (mem_reverse.mp hmem)
  obtain ⟨rfl, rfl⟩ := Prod.mk.inj heq
  obtain ⟨hmember, hcandidate⟩ := mem_filter.mp hf
  obtain ⟨k, hk⟩ := getElem?_of_mem hmember
  rw [Module.id_eq_index hverified hk]
  exact ⟨hk, hcandidate⟩

variable {instruction : Instruction} {inlined : List Instruction × ℕ}

theorem inlined_of_inlineInstruction (hverified : module.verify = []) {caller : FunctionId}
    (h : inlineInstruction (inlineCandidates module.functions) caller instruction next =
      some inlined) :
    ∃ function arguments callee block returnValue,
      Inlined module instruction next inlined function arguments callee block returnValue := by
  unfold inlineInstruction at h
  split at h
  · rename_i function arguments hkind
    obtain ⟨callee, hfilter, hcall⟩ := Option.bind_eq_some_iff.mp h
    obtain ⟨hindex, hcandidate⟩ :=
      candidate_of_lookup hverified (Option.filter_eq_some_iff.mp hfilter).1
    obtain ⟨block, returnValue, htiny⟩ := Function.tiny_of_candidate hcandidate hindex
    simp only [inlineCall, htiny.blocks, head?_cons, htiny.terminator] at hcall
    split_ifs at hcall with hlength hparameter hresult
    refine ⟨function, arguments, callee, block, returnValue, htiny, hkind, not_not.mp hlength, ?_,
      not_not.mp hresult, (Option.some.inj hcall).symm⟩
    rintro v rfl p hp rfl
    exact hparameter (by simpa using ⟨p, hp, rfl⟩)
  · cases h

variable {p : TypedValue}

theorem filter_eq_singleton {l : List TypedValue} (hnodup : (l.map TypedValue.value).Nodup)
    (hp : p ∈ l) : l.filter (fun q => decide (some q.value = some p.value)) = [p] := by
  induction l with
  | nil => cases hp
  | cons q rest ih =>
      rw [map_cons, nodup_cons] at hnodup
      rcases mem_cons.mp hp with rfl | hrest
      · rw [filter_cons_of_pos (by simp), filter_eq_nil_iff.mpr]
        intro q hq heq
        refine hnodup.1 (mem_map.mpr ⟨q, hq, ?_⟩)
        simpa using heq
      · have hne : q.value ≠ p.value := fun heq =>
          hnodup.1 (heq ▸ mem_map_of_mem hrest)
        rw [filter_cons_of_neg (by simpa using hne)]
        exact ih hnodup.2 hrest

namespace Inlined

variable {instruction : Instruction} {next : ℕ} {inlined : List Instruction × ℕ}
  {function : FunctionId} {arguments : List ValueId} {callee : Function} {block : Block}
  {returnValue : Option ValueId}

theorem accepts (hverified : module.verify = [])
    (h : Inlined module instruction next inlined function arguments callee block returnValue) :
    module.Accepts callee := ⟨hverified, mem_of_getElem? h.tiny.at_index⟩

variable {b i : ℕ}

theorem signature (accepted : module.Accepts f) (hat : f.instructionAt b i = some instruction)
    (h : Inlined module instruction next inlined function arguments callee block returnValue) :
    ∃ contents, (module.useContext f b contents i instruction.span).checkSignature instruction
      arguments (callee.parameters.map TypedValue.ty) callee.result
        "call result differs from callee result type" = [] := by
  obtain ⟨contents, _, hcheck⟩ := accepted.verifyInstruction_eq_nil hat
  refine ⟨contents, ?_⟩
  simp only [verifyInstruction, h.kind, verifyCall] at hcheck
  have hindex : (module.useContext f b contents i instruction.span).module.functions[function]? =
      some callee := h.tiny.at_index
  rw [hindex] at hcheck
  exact hcheck

/-- The arguments have the types of the parameters. -/
theorem arguments_typeOf (accepted : module.Accepts f)
    (hat : f.instructionAt b i = some instruction)
    (h : Inlined module instruction next inlined function arguments callee block returnValue) :
    arguments.map f.typeOf = (callee.parameters.map TypedValue.ty).map some := by
  obtain ⟨contents, hcheck⟩ := h.signature accepted hat
  exact map_typeOf_of_checkTypedValues (append_eq_nil_iff.mp hcheck).1

/-- What is returned is a result of the callee, and has the type of the result of the call. -/
theorem mem_results (accepted : module.Accepts f) (hat : f.instructionAt b i = some instruction)
    (h : Inlined module instruction next inlined function arguments callee block returnValue)
    {v : ValueId} (hv : returnValue = some v) {call : TypedValue}
    (hcall : instruction.result = some call) : ⟨v, call.ty⟩ ∈ resultsOf block.instructions := by
  obtain ⟨contents, hcheck⟩ := h.signature accepted hat
  have hcallee := h.accepts accepted.verified
  have hblock : callee.blocks[0]? = some block := by rw [h.tiny.blocks]; rfl
  have hterminator := hcallee.verifyTerminator_eq_nil hblock
  have hreturned := returned_of_checkSignature hcheck
  rw [h.tiny.terminator, hv, verifyTerminator] at hterminator
  rw [hcall, Option.map_some] at hreturned
  have hunit : ¬ module.typeKind callee.result = some .unit := by
    intro hunit
    have hnone : module.returned callee.result = none := if_pos hunit
    cases hnone.symm.trans hreturned
  have hresult : callee.result = call.ty := by
    have hsome : module.returned callee.result = some callee.result := if_neg hunit
    exact Option.some.inj (hsome.symm.trans hreturned)
  have huse : (module.useContext callee 0 block usizeMax block.span).useValue v
      (some callee.result) = [] := by
    have hkind : (module.useContext callee 0 block usizeMax block.span).module.typeKind
        (module.useContext callee 0 block usizeMax block.span).function.result ≠ some .unit := hunit
    rw [if_neg hkind] at hterminator
    exact hterminator
  have htype : callee.typeOf v = some callee.result := typeOf_of_useValue huse
  have hmem := hcallee.distinct.typeOf_eq_some.mp htype
  rw [hresult] at hmem
  rcases mem_append.mp hmem with hparameter | hbody
  · exact absurd rfl (h.not_parameter v hv _ hparameter)
  · rw [h.tiny.blocks, flatMap_singleton, Block.values, h.tiny.parameters] at hbody
    exact hbody

/-- The copy defines the result of the call, and fresh values. -/
theorem defines (accepted : module.Accepts f) (hat : f.instructionAt b i = some instruction)
    (h : Inlined module instruction next inlined function arguments callee block returnValue)
    {bound : ℕ} (hbound : ∀ result, instruction.result = some result → result.value < bound)
    (hnext : bound ≤ next) :
    DefinesFresh bound next inlined.2 instruction.result.toList (resultsOf inlined.1) := by
  have hdefines := defines_cloneInstructions h.result hbound block.instructions
    (argumentsOf callee.parameters arguments) hnext
  rw [← h.copy] at hdefines
  have hresult := h.result
  cases hreturn : returnValue with
  | none =>
      rw [hreturn] at hresult hdefines
      cases hcall : instruction.result with
      | none => simpa [hcall] using hdefines
      | some =>
          rw [hcall] at hresult
          cases hresult
  | some =>
      rw [hreturn] at hresult hdefines
      cases hcall : instruction.result with
      | none =>
          rw [hcall] at hresult
          cases hresult
      | some =>
          have hmem := h.mem_results accepted hat hreturn hcall
          have hnodup : ((resultsOf block.instructions).map TypedValue.value).Nodup := by
            have hdistinct := (h.accepts accepted.verified).distinct
            rw [Function.Distinct, Function.values, h.tiny.blocks, flatMap_singleton,
              Block.values, h.tiny.parameters, map_append] at hdistinct
            exact (nodup_append.mp hdistinct).2.1
          rw [filter_eq_singleton hnodup hmem, hcall] at hdefines
          exact hdefines

end Inlined

/-! ## The expanded caller -/

theorem Function.lt_nextValueId (hp : p ∈ f.values) : p.value < f.nextValueId := by
  unfold nextValueId
  generalize f.values = values at hp
  induction values with
  | nil => cases hp
  | cons q rest ih =>
      rw [map_cons, foldr_cons]
      rcases mem_cons.mp hp with rfl | hrest
      · exact lt_of_lt_of_le (Nat.lt_succ_self _) (le_max_left ..)
      · exact lt_of_lt_of_le (ih hrest) (le_max_right ..)

section Expansion

variable {candidates : List (FunctionId × Function)} {caller : FunctionId} {bound : ℕ}

/-- What replaces an instruction defines its result, and fresh values. -/
def ExpandsFresh (candidates : List (FunctionId × Function)) (caller : FunctionId) (bound : ℕ)
    (instruction : Instruction) : Prop :=
  (∀ result, instruction.result = some result → result.value < bound) ∧
    ∀ next inlined, bound ≤ next →
      inlineInstruction candidates caller instruction next = some inlined →
      DefinesFresh bound next inlined.2 instruction.result.toList (resultsOf inlined.1)

theorem defines_expandInstructions {instructions : List Instruction} {next : ℕ}
    (hexpands : ∀ instruction ∈ instructions, ExpandsFresh candidates caller bound instruction)
    (hnext : bound ≤ next) :
    DefinesFresh bound next (expandInstructions candidates caller next instructions).2.1
      (resultsOf instructions)
      (resultsOf (expandInstructions candidates caller next instructions).1.flatten) := by
  induction instructions generalizing next with
  | nil => exact .of_bound next fun p hp => by cases hp
  | cons instruction rest ih =>
      obtain ⟨⟨hbound, hinline⟩, hrest⟩ := forall_mem_cons.mp hexpands
      have hresults : resultsOf (instruction :: rest) =
          instruction.result.toList ++ resultsOf rest := by
        cases hresult : instruction.result with
        | none => exact filterMap_cons_none hresult
        | some => exact filterMap_cons_some hresult
      rw [hresults]
      cases hinlined : inlineInstruction candidates caller instruction next with
      | some inlined =>
          have hhead := hinline next inlined hnext hinlined
          simp only [expandInstructions, hinlined, flatten_cons, resultsOf,
            filterMap_append]
          exact hhead.append (ih hrest (hnext.trans hhead.le))
      | none =>
          have hhead : DefinesFresh bound next next instruction.result.toList
              (resultsOf [instruction]) := by
            have hsingle : resultsOf [instruction] = instruction.result.toList := by
              cases hresult : instruction.result with
              | none => exact filterMap_cons_none hresult
              | some => exact filterMap_cons_some hresult
            rw [hsingle]
            exact .of_bound next fun p hp => hbound p (Option.mem_toList.mp hp)
          simp only [expandInstructions, hinlined, flatten_cons, resultsOf,
            filterMap_append]
          exact hhead.append (ih hrest hnext)

/-- The blocks with what their instructions become. -/
def withGroups (blocks : List Block) (groups : List (List (List Instruction))) : List Block :=
  zipWith (fun block groups => { block with instructions := groups.flatten }) blocks groups

theorem defines_expandBlocks {blocks : List Block} {next : ℕ}
    (hparameters : ∀ block ∈ blocks, ∀ p ∈ block.parameters, p.value < bound)
    (hexpands : ∀ block ∈ blocks, ∀ instruction ∈ block.instructions,
      ExpandsFresh candidates caller bound instruction)
    (hnext : bound ≤ next) :
    ∃ next', DefinesFresh bound next next' (blocks.flatMap Block.values)
      ((withGroups blocks (expandBlocks candidates caller next blocks).1).flatMap
        Block.values) := by
  induction blocks generalizing next with
  | nil => exact ⟨next, .of_bound next fun p hp => by cases hp⟩
  | cons block rest ih =>
      obtain ⟨hhead, hparameters⟩ := forall_mem_cons.mp hparameters
      obtain ⟨hfirst, hexpands⟩ := forall_mem_cons.mp hexpands
      have hinstructions := defines_expandInstructions hfirst hnext
      obtain ⟨next', hrest⟩ := ih hparameters hexpands (hnext.trans hinstructions.le)
      refine ⟨next', ?_⟩
      rw [flatMap_cons, expandBlocks, withGroups, zipWith_cons_cons, flatMap_cons]
      exact ((DefinesFresh.of_bound next hhead).append hinstructions).append hrest

end Expansion

section Caller

variable (accepted : module.Accepts f)
include accepted

theorem Module.Accepts.expandsFresh {b i : ℕ} {instruction : Instruction}
    (hat : f.instructionAt b i = some instruction) :
    ExpandsFresh (inlineCandidates module.functions) f.id f.nextValueId instruction := by
  have hbound : ∀ result, instruction.result = some result → result.value < f.nextValueId := by
    intro result hresult
    obtain ⟨block, hblock, hi⟩ := Function.instructionAt_eq_some.mp hat
    refine Function.lt_nextValueId (mem_append_right _
      (mem_flatMap.mpr ⟨block, mem_of_getElem? hblock, mem_append_right _ ?_⟩))
    exact mem_filterMap.mpr ⟨instruction, mem_of_getElem? hi, hresult⟩
  refine ⟨hbound, fun next inlined hnext h => ?_⟩
  obtain ⟨function, arguments, callee, block, returnValue, hinlined⟩ :=
    inlined_of_inlineInstruction accepted.verified h
  exact hinlined.defines accepted hat hbound hnext

theorem Module.Accepts.expandsFresh_of_mem : ∀ block ∈ f.blocks,
    ∀ instruction ∈ block.instructions,
      ExpandsFresh (inlineCandidates module.functions) f.id f.nextValueId instruction := by
  intro block hblock instruction hmem
  obtain ⟨b, hb⟩ := getElem?_of_mem hblock
  obtain ⟨i, hi⟩ := getElem?_of_mem hmem
  exact accepted.expandsFresh (Function.instructionAt_eq_some.mpr ⟨block, hb, hi⟩)

/-- The expanded caller defines what the caller does, and fresh values. -/
theorem Module.Accepts.defines_withInlined :
    ∃ next', DefinesFresh f.nextValueId f.nextValueId next' f.values
      (f.withInlined (inlineCandidates module.functions)).values := by
  have hparameters : ∀ p ∈ f.parameters, p.value < f.nextValueId :=
    fun p hp => Function.lt_nextValueId (mem_append_left _ hp)
  have hblocks : ∀ block ∈ f.blocks, ∀ p ∈ block.parameters, p.value < f.nextValueId :=
    fun block hblock p hp => Function.lt_nextValueId (mem_append_right _
      (mem_flatMap.mpr ⟨block, hblock, mem_append_left _ hp⟩))
  obtain ⟨next', hdefines⟩ := defines_expandBlocks hblocks accepted.expandsFresh_of_mem le_rfl
  exact ⟨next', (DefinesFresh.of_bound f.nextValueId hparameters).append hdefines⟩

/-- **No value of a callee collides** with one of the caller or of another copy. -/
theorem Module.Accepts.distinct_withInlined :
    (f.withInlined (inlineCandidates module.functions)).Distinct := by
  obtain ⟨next', hdefines⟩ := accepted.defines_withInlined
  refine nodup_of_filter f.nextValueId ?_ ?_
  · have hold : ((f.withInlined (inlineCandidates module.functions)).values.map
        TypedValue.value).filter (· < f.nextValueId) = f.values.map TypedValue.value := by
      rw [filter_map, ← hdefines.old]
      rfl
    rw [hold]
    exact accepted.distinct
  · rw [hdefines.fresh]
    exact nodup_range'

theorem Module.Accepts.typeOf_withInlined {v : ValueId} {ty : TypeId} (hv : ⟨v, ty⟩ ∈ f.values) :
    (f.withInlined (inlineCandidates module.functions)).typeOf v = f.typeOf v := by
  obtain ⟨next', hdefines⟩ := accepted.defines_withInlined
  have hmem : ⟨v, ty⟩ ∈ (f.withInlined (inlineCandidates module.functions)).values := by
    rw [← hdefines.old] at hv
    exact (mem_filter.mp hv).1
  rw [accepted.distinct.typeOf_eq_some.mpr hv,
    accepted.distinct_withInlined.typeOf_eq_some.mpr hmem]

end Caller

/-! ## A copy does what the callee does -/

theorem Replacements.remap_insert (replacements : Replacements) (value replacement v : ValueId) :
    (replacements.insert value replacement).remap v =
      if v = value then replacement else replacements.remap v := by
  rw [remap, lookup_insert]
  split <;> rfl

/-- The state `u` of an activation of the callee and the state `t` of the caller where it has come
to the same instruction of the copy; `t₀` is where the copy began. -/
structure Clones (callee g : Function) (bound : ℕ) (arguments : List ValueId)
    (returnValue : Option ValueId) (callResult : Option TypedValue) (values : Replacements)
    (next : ℕ) (t₀ u t : State M) : Prop where
  outside : t.outside = u.outside
  env : ∀ v value, u.env v = some value → t.env (values.remap v) = some value
  typeOf : ∀ v value, u.env v = some value → g.typeOf (values.remap v) = callee.typeOf v
  /-- Values of the callee became arguments, fresh values, or the result of the call. -/
  target : ∀ v value, u.env v = some value → values.remap v ∈ arguments ∨
    bound ≤ values.remap v ∧ values.remap v < next ∨ some v = returnValue
  returned : ∀ v value, some v = returnValue → u.env v = some value →
    ∃ call, callResult = some call ∧ values.remap v = call.value
  frame : ∀ v < bound, (∀ call, callResult = some call → call.value ≠ v) → t.env v = t₀.env v

namespace Clones

variable {callee : Function} {bound : ℕ} {arguments : List ValueId} {returnValue : Option ValueId}
  {callResult : Option TypedValue} {values : Replacements} {next next' : ℕ} {t₀ u t : State M}

/-- A result of the callee is bound, and what it became. -/
theorem define (h : Clones callee g bound arguments returnValue callResult values next t₀ u t)
    {r w : ValueId} (value : RuntimeValue) (hnext : next ≤ next')
    (hfresh : ∀ v value, v ≠ r → u.env v = some value → values.remap v ≠ w)
    (htype : g.typeOf w = callee.typeOf r)
    (htarget : bound ≤ w ∧ w < next' ∨ some r = returnValue)
    (hreturned : some r = returnValue → ∃ call, callResult = some call ∧ w = call.value)
    (hframe : ∀ v < bound, (∀ call, callResult = some call → call.value ≠ v) → v ≠ w) :
    Clones callee g bound arguments returnValue callResult (values.insert r w) next' t₀
      (u.define r value) (t.define w value) where
  -- in each field `r` is the new value, and the others are as before
  outside := h.outside
  env v other hv := by
    rw [State.define_env] at hv ⊢
    rw [Replacements.remap_insert]
    by_cases heq : v = r
    · rw [if_pos heq, Function.update_self]
      rwa [heq, Function.update_self] at hv
    · rw [Function.update_of_ne heq] at hv
      rw [if_neg heq, Function.update_of_ne (hfresh v other heq hv)]
      exact h.env v other hv
  typeOf v other hv := by
    rw [State.define_env] at hv
    rw [Replacements.remap_insert]
    by_cases heq : v = r
    · rw [if_pos heq, heq, htype]
    · rw [Function.update_of_ne heq] at hv
      rw [if_neg heq]
      exact h.typeOf v other hv
  target v other hv := by
    rw [State.define_env] at hv
    rw [Replacements.remap_insert]
    by_cases heq : v = r
    · rw [if_pos heq, heq]
      exact Or.inr htarget
    · rw [Function.update_of_ne heq] at hv
      rw [if_neg heq]
      rcases h.target v other hv with hargument | ⟨hle, hlt⟩ | hreturn
      · exact Or.inl hargument
      · exact Or.inr (Or.inl ⟨hle, hlt.trans_le hnext⟩)
      · exact Or.inr (Or.inr hreturn)
  returned v other hreturn hv := by
    rw [State.define_env] at hv
    rw [Replacements.remap_insert]
    by_cases heq : v = r
    · rw [if_pos heq]
      exact hreturned (heq ▸ hreturn)
    · rw [Function.update_of_ne heq] at hv
      rw [if_neg heq]
      exact h.returned v other hreturn hv
  frame v hv hcall := by
    rw [State.define_env, Function.update_of_ne (hframe v hv hcall)]
    exact h.frame v hv hcall

/-- A pure instruction of the callee computes the same in the copy. -/
theorem request (h : Clones callee g bound arguments returnValue callResult values next t₀ u t)
    {instruction : Instruction} {result : TypedValue} (hresult : instruction.result = some result)
    (w : ValueId) {operation : Operation} {operands : List RuntimeValue}
    (hrequest : instruction.request M module callee u = some (operation, operands)) :
    ({ instruction.mapOperands values.remap with
      result := some { result with value := w } } : Instruction).request M module g t =
        some (operation, operands) := by
  have hrel : Renames values.remap {v | ∃ value, u.env v = some value} u t :=
    ⟨h.outside, fun v ⟨value, hv⟩ => (h.env v value hv).trans hv.symm⟩
  refine hrel.request_mapOperands rfl ?_ (fun v _ value hv => ⟨⟨value, hv⟩, h.typeOf v value hv⟩)
    hrequest
  rw [hresult]
  rfl

end Clones

/-- What makes a copy possible: arguments and the result of the call are values of the caller, which
it does not overwrite before they are read. -/
structure Separate (bound : ℕ) (arguments : List ValueId) (returnValue : Option ValueId)
    (callResult : Option TypedValue) : Prop where
  arguments_lt : ∀ a ∈ arguments, a < bound
  call_lt : ∀ call, callResult = some call → call.value < bound
  arguments_ne : ∀ a ∈ arguments, ∀ call, callResult = some call → call.value ≠ a
  presence : returnValue.isSome = callResult.isSome

variable {arguments : List ValueId} {link link' : FunctionId → Option Function} {depth : ℕ}
  {instructions : List Instruction} {u t : State M} {observed : List (Observation M)}

theorem Clones.stretch (hseparate : Separate bound arguments returnValue callResult) {depth' : ℕ}
    {values : Replacements} {t₀ u' : State M} (hnext : bound ≤ next)
    (hpure : ∀ instruction ∈ instructions, instruction.kind.isPureScalar = true)
    (hcallee : ∀ p ∈ resultsOf instructions, callee.typeOf p.value = some p.ty)
    (hcopy : ∀ p ∈ resultsOf
      (cloneInstructions returnValue callResult values next instructions).1,
        g.typeOf p.value = some p.ty)
    (h : Clones callee g bound arguments returnValue callResult values next t₀ u t)
    (hstretch : Stretch (Acts M module link depth callee) instructions u observed u') :
    observed = [] ∧ ∃ t' values' next',
      Stretch (Acts M module link' depth' g)
        (cloneInstructions returnValue callResult values next instructions).1 t [] t' ∧
      Clones callee g bound arguments returnValue callResult values' next' t₀ u' t' := by
  induction hstretch generalizing values next t with
  | nil => exact ⟨rfl, t, values, next, .nil, h⟩
  | @cons instruction rest u u₁ u₂ observed more hacts hrest ih =>
      obtain ⟨hhead, hpure⟩ := forall_mem_cons.mp hpure
      have hisPure := isPure_of_isPureScalar hhead
      rcases acts_cases hacts with ⟨_, observation, hstep, rfl⟩ | ⟨_, _, hcalled⟩
      swap
      · obtain ⟨_, _, _, _, hlinked, _⟩ := hcalled
        rw [callee_of_isPure hisPure] at hlinked
        cases hlinked
      obtain ⟨rfl, result, operands, value, hresult, hrequest, rfl⟩ := hstep.of_isPure hisPure
      rw [resultsOf, filterMap_cons_some hresult] at hcallee
      obtain ⟨htype, hcallee⟩ := forall_mem_cons.mp hcallee
      -- one instruction of the copy, for each value it may define
      have hclone (w : ValueId) : Acts M module link' depth' g
          { instruction.mapOperands values.remap with
            result := some { result with value := w } } t [] (t.define w value) := by
        refine Direct.acts ⟨?_, .silent, .compute (h.request hresult w hrequest) rfl, rfl⟩
        exact (callee_mapOperands ..).trans
          (callee_of_isPure hisPure link')
      by_cases hreturned : some result.value = returnValue
      · obtain ⟨call, rfl⟩ : ∃ call, callResult = some call := by
          rw [← Option.isSome_iff_exists, ← hseparate.presence, ← hreturned]
          rfl
        simp only [cloneInstructions, hresult, if_pos hreturned, Option.map_some, Option.getD_some]
          at hcopy ⊢
        have hdefined : g.typeOf call.value = some result.ty := hcopy _ mem_cons_self
        have hcopy := fun p hp => hcopy p (mem_cons_of_mem _ hp)
        have hbound := hseparate.call_lt call rfl
        have hnew := h.define value le_rfl (r := result.value) (w := call.value)
          (fun v other hne hv heq => by
            rcases h.target v other hv with hargument | ⟨hle, _⟩ | hreturn
            · exact hseparate.arguments_ne _ hargument call rfl heq.symm
            · exact (hbound.trans_le hle).ne' heq
            · exact hne (Option.some.inj (hreturn.trans hreturned.symm)))
          (hdefined.trans htype.symm) (Or.inr hreturned) (fun _ => ⟨call, rfl, rfl⟩)
          (fun v _ hne => (hne call rfl).symm)
        obtain ⟨rfl, t', values', next', hstretch', hclones⟩ :=
          ih hnext hpure hcallee hcopy hnew
        exact ⟨rfl, t', values', next', .cons (hclone call.value) hstretch', hclones⟩
      · simp only [cloneInstructions, hresult, if_neg hreturned] at hcopy ⊢
        have hdefined : g.typeOf next = some result.ty := hcopy _ mem_cons_self
        have hcopy := fun p hp => hcopy p (mem_cons_of_mem _ hp)
        have hnew := h.define value (Nat.le_succ next) (r := result.value) (w := next)
          (fun v other hne hv heq => by
            rcases h.target v other hv with hargument | ⟨_, hlt⟩ | hreturn
            · exact ((hseparate.arguments_lt _ hargument).trans_le hnext).ne heq
            · exact hlt.ne heq
            · obtain ⟨call, hcall, hremap⟩ := h.returned v other hreturn hv
              have hlt := hseparate.call_lt call hcall
              exact (hlt.trans_le hnext).ne (hremap.symm.trans heq))
          (hdefined.trans htype.symm) (Or.inl ⟨hnext, Nat.lt_succ_self next⟩)
          (fun hreturn => absurd hreturn hreturned)
          (fun v hv _ => (lt_of_lt_of_le hv hnext).ne)
        obtain ⟨rfl, t', values', next', hstretch', hclones⟩ :=
          ih (hnext.trans (Nat.le_succ next)) hpure hcallee hcopy hnew
        exact ⟨rfl, t', values', next', .cons (hclone next) hstretch', hclones⟩

/-! ## A call and its copy -/

variable {parameters : List TypedValue} {values : List RuntimeValue} {s : State M}

theorem State.bind_env_getElem? (hnodup : (parameters.map TypedValue.value).Nodup) {j : ℕ}
    (hp : parameters[j]? = some p) {value : RuntimeValue} (hvalue : values[j]? = some value) :
    (s.bind parameters values).env p.value = some value := by
  induction parameters generalizing values j with
  | nil => cases hp
  | cons q rest ih =>
      rw [map_cons, nodup_cons] at hnodup
      cases values with
      | nil => cases hvalue
      | cons =>
          rw [State.bind, State.define_env]
          cases j with
          | zero =>
              obtain rfl := Option.some.inj hp
              obtain rfl := Option.some.inj hvalue
              exact Function.update_self ..
          | succ =>
              have hmem : p ∈ rest := mem_of_getElem? hp
              have hne : p.value ≠ q.value := fun heq =>
                hnodup.1 (heq ▸ mem_map_of_mem hmem)
              rw [Function.update_of_ne hne]
              exact ih hnodup.2 hp hvalue

theorem remap_foldl_insert (entries : List (TypedValue × ValueId)) (replacements : Replacements)
    {v : ValueId} (hv : v ∉ entries.map fun entry => entry.1.value) :
    (entries.foldl (fun values entry => values.insert entry.1.value entry.2) replacements).remap v =
      replacements.remap v := by
  induction entries generalizing replacements with
  | nil => rfl
  | cons entry rest ih =>
      rw [map_cons, mem_cons, not_or] at hv
      rw [foldl_cons, ih _ hv.2, Replacements.remap_insert, if_neg hv.1]

theorem remap_foldl_of_mem (entries : List (TypedValue × ValueId)) (replacements : Replacements)
    (hnodup : (entries.map fun entry => entry.1.value).Nodup) {entry : TypedValue × ValueId}
    (hentry : entry ∈ entries) :
    (entries.foldl (fun values entry => values.insert entry.1.value entry.2) replacements).remap
      entry.1.value = entry.2 := by
  induction entries generalizing replacements with
  | nil => cases hentry
  | cons first rest ih =>
      rw [map_cons, nodup_cons] at hnodup
      rw [foldl_cons]
      rcases mem_cons.mp hentry with rfl | hrest
      · rw [remap_foldl_insert rest _ hnodup.1, Replacements.remap_insert, if_pos rfl]
      · exact ih _ hnodup.2 hrest

theorem remap_argumentsOf (hnodup : (parameters.map TypedValue.value).Nodup)
    (hlength : arguments.length = parameters.length) {j : ℕ} {a : ValueId}
    (hp : parameters[j]? = some p) (ha : arguments[j]? = some a) :
    (argumentsOf parameters arguments).remap p.value = a := by
  have hmem : (p, a) ∈ parameters.zip arguments := by
    refine mem_of_getElem? (i := j) ?_
    rw [getElem?_zip_eq_some]
    exact ⟨hp, ha⟩
  have hkeys : (parameters.zip arguments).map (fun entry => entry.1.value) =
      parameters.map TypedValue.value := by
    calc (parameters.zip arguments).map (fun entry => entry.1.value)
        = ((parameters.zip arguments).map Prod.fst).map TypedValue.value := by
          rw [map_map]
          rfl
      _ = parameters.map TypedValue.value := by rw [map_fst_zip hlength.ge]
  exact remap_foldl_of_mem _ [] (hkeys ▸ hnodup) hmem

variable {acts : Behaviour M}

theorem Stretch.snoc {s' s'' : State M} {more : List (Observation M)}
    (h : Stretch acts instructions s observed s') (hacts : acts instruction s' more s'') :
    Stretch acts (instructions ++ [instruction]) s (observed ++ more) s'' := by
  induction h with
  | nil => exact .singleton hacts
  | cons hfirst _ ih =>
      rw [append_assoc]
      exact .cons hfirst (ih hacts)

variable {block : Block} {b i : ℕ}

/-- A tiny function only runs through its block. -/
theorem Tiny.stretch (h : Tiny module function callee block returnValue) {leaves : ℕ → Prop}
    {start : State M} (runs : Runs acts leaves callee start observed b i u) :
    b = 0 ∧ Stretch acts (block.instructions.take i) start observed u := by
  have honly : ∀ {b contents}, callee.blocks[b]? = some contents → b = 0 ∧ contents = block := by
    intro b contents hcontents
    rw [h.blocks] at hcontents
    cases b with
    | zero => exact ⟨rfl, (Option.some.inj hcontents).symm⟩
    | succ => cases hcontents
  induction runs with
  | start => exact ⟨rfl, .nil⟩
  | @step observed more b i u u' instruction runs hat hacts ih =>
      obtain ⟨rfl, hstretch⟩ := ih
      obtain ⟨contents, hcontents, hi⟩ := Function.instructionAt_eq_some.mp hat
      obtain ⟨_, rfl⟩ := honly hcontents
      refine ⟨rfl, ?_⟩
      rw [take_add_one, hi, Option.toList_some]
      exact hstretch.snoc hacts
  | edge runs hblock hleaves hgoto =>
      obtain ⟨_, rfl⟩ := honly hblock
      rw [h.terminator] at hgoto
      cases hgoto

/-- Until it returns, a tiny function does nothing that is seen. -/
theorem Stretch.of_isPureScalar {u' : State M}
    (hpure : ∀ instruction ∈ instructions, instruction.kind.isPureScalar = true)
    (h : Stretch (Acts M module link depth callee) instructions u observed u') :
    observed = [] ∧ u'.outside = u.outside := by
  induction h with
  | nil => exact ⟨rfl, rfl⟩
  | cons hacts _ ih =>
      obtain ⟨hhead, hrest⟩ := forall_mem_cons.mp hpure
      have hisPure := isPure_of_isPureScalar hhead
      obtain ⟨rfl, houtside⟩ := ih hrest
      rcases acts_cases hacts with ⟨_, observation, hstep, rfl⟩ | ⟨_, _, hcalled⟩
      · obtain ⟨rfl, _, _, _, _, _, rfl⟩ := hstep.of_isPure hisPure
        exact ⟨rfl, houtside⟩
      · obtain ⟨_, _, _, _, hlinked, _⟩ := hcalled
        rw [callee_of_isPure hisPure] at hlinked
        cases hlinked

/-- The callee is entered, and the copy begins. -/
theorem Inlined.clones
    (h : Inlined module instruction next inlined function arguments callee block returnValue)
    (accepted : module.Accepts f) (hat : f.instructionAt b i = some instruction)
    (hvalues : s.values arguments = some values) (houtside : t.outside = s.outside)
    (hagree : ∀ a ∈ arguments, t.env a = s.env a ∧ g.typeOf a = f.typeOf a) :
    Clones callee g bound arguments returnValue instruction.result
      (argumentsOf callee.parameters arguments) next t (.entered callee values s) t := by
  have hcallee := h.accepts accepted.verified
  have hnodup : (callee.parameters.map TypedValue.value).Nodup := by
    have hdistinct := hcallee.distinct
    rw [Function.Distinct, Function.values, map_append] at hdistinct
    exact (nodup_append.mp hdistinct).1
  -- what is bound is a parameter, and it became the argument at its place
  have hbound : ∀ v value, (State.entered callee values s).env v = some value →
      ∃ (j : ℕ) (p : TypedValue) (a : ValueId), callee.parameters[j]? = some p ∧ p.value = v ∧
        arguments[j]? = some a ∧ (argumentsOf callee.parameters arguments).remap v = a ∧
          s.env a = some value := by
    intro v value hv
    obtain ⟨p, hp, rfl⟩ := State.entered_env hv
    obtain ⟨j, hj⟩ := getElem?_of_mem hp
    have hlt : j < arguments.length := by
      rw [h.length]
      exact (List.getElem?_eq_some_iff.mp hj).1
    obtain ⟨held, hheld, ha⟩ := State.env_of_values hvalues (getElem?_eq_getElem hlt)
    have henv : (State.entered callee values s).env p.value = some held :=
      State.bind_env_getElem? hnodup hj hheld
    obtain rfl := Option.some.inj (henv.symm.trans hv)
    exact ⟨j, p, arguments[j], hj, rfl, getElem?_eq_getElem hlt,
      remap_argumentsOf hnodup h.length hj (getElem?_eq_getElem hlt), ha⟩
  constructor
  · rw [State.entered, State.outside_bind]
    exact houtside
  · intro v value hv
    obtain ⟨j, p, a, _, _, ha, hremap, henv⟩ := hbound v value hv
    rw [hremap, (hagree a (mem_of_getElem? ha)).1, henv]
  · intro v value hv
    obtain ⟨j, p, a, hp, rfl, ha, hremap, _⟩ := hbound v value hv
    have htypes := congrArg (·[j]?) (h.arguments_typeOf accepted hat)
    simp only [getElem?_map, ha, hp, Option.map_some, Option.some.injEq] at htypes
    have hparameter : callee.typeOf p.value = some p.ty := hcallee.distinct.typeOf_eq_some.mpr
      (mem_append_left _ (mem_of_getElem? hp))
    rw [hremap, (hagree a (mem_of_getElem? ha)).2, htypes, hparameter]
  · intro v value hv
    obtain ⟨j, p, a, _, _, ha, hremap, _⟩ := hbound v value hv
    exact Or.inl (hremap ▸ mem_of_getElem? ha)
  · intro v value hreturn hv
    obtain ⟨j, p, a, hp, hpv, _⟩ := hbound v value hv
    exact absurd hpv (h.not_parameter v hreturn.symm p (mem_of_getElem? hp))
  · exact fun _ _ _ => rfl

/-- **The copy of a callee does what the call does.** -/
theorem Inlined.follows
    (h : Inlined module instruction next inlined function arguments callee block returnValue)
    (accepted : module.Accepts f) (hreachable : Reachable f.Edge b)
    (hat : f.instructionAt b i = some instruction) (hnext : f.nextValueId ≤ next)
    (htypes : ∀ v ty, ⟨v, ty⟩ ∈ f.values → g.typeOf v = f.typeOf v)
    (hcopy : ∀ p ∈ resultsOf inlined.1, g.typeOf p.value = some p.ty)
    (hlink : link function = some callee) {below depth' : ℕ} {s' : State M}
    (hrel : Renames (fun v => v) {v | v < f.nextValueId} s t)
    (hcalled : Called M module link (Acts M module link below) instruction s observed s') :
    ∃ t', Stretch (Acts M module link' depth' g) inlined.1 t observed t' ∧
      Renames (fun v => v) {v | v < f.nextValueId} s' t' := by
  obtain ⟨callee', values, returned, after, hcallee', hvalues, hreaches, rfl⟩ := hcalled
  obtain rfl : callee' = callee := by
    rw [h.kind, InstructionKind.callee, hlink] at hcallee'
    exact (Option.some.inj hcallee').symm
  have hoperands : instruction.kind.operands = arguments := by
    rw [h.kind]
    rfl
  rw [hoperands] at hvalues
  -- the arguments and the result of the call are values of the caller
  have hscope : ∀ a ∈ arguments, f.InScope a (b, i + 1) := fun a ha =>
    accepted.operand_inScope hat (hoperands ▸ ha)
  have hdefined : ∀ a ∈ arguments, ∃ ty, ⟨a, ty⟩ ∈ f.values := by
    intro a ha
    obtain ⟨ty, site, hsite, _⟩ := hscope a ha
    exact ⟨ty, hsite.mem_values⟩
  have hargument : ∀ a ∈ arguments, a < f.nextValueId := fun a ha => by
    obtain ⟨ty, hmem⟩ := hdefined a ha
    exact Function.lt_nextValueId hmem
  have hseparate : Separate f.nextValueId arguments returnValue instruction.result := by
    refine ⟨hargument, (accepted.expandsFresh hat).1, fun a ha call hcall heq => ?_, h.result⟩
    subst heq
    exact Dominance.Precedes.irrefl hreachable
      (accepted.precedes_of_inScope hat hcall (hscope _ ha))
  have hclones : Clones callee' g f.nextValueId arguments returnValue instruction.result
      (argumentsOf callee'.parameters arguments) next t (.entered callee' values s) t :=
    h.clones accepted hat hvalues hrel.outside fun a ha => by
      obtain ⟨ty, hmem⟩ := hdefined a ha
      exact ⟨hrel.env a (hargument a ha), htypes a ty hmem⟩
  -- the callee runs through its block, and the copy with it
  obtain ⟨b', i', u, hruns, hafter, hends⟩ := hreaches
  cases hends _ rfl with
  | returned hcontents hreturn hreturned =>
      rename_i contents value
      obtain ⟨rfl, hstretch⟩ := h.tiny.stretch hruns
      obtain rfl : block = contents := by
        rw [h.tiny.blocks] at hcontents
        exact Option.some.inj hcontents
      obtain rfl : returnValue = value := by
        rw [h.tiny.terminator] at hreturn
        exact (Terminator.ret.inj hreturn)
      rw [take_length] at hstretch
      have hresults : ∀ p ∈ resultsOf block.instructions, callee'.typeOf p.value = some p.ty := by
        intro p hp
        refine (h.accepts accepted.verified).distinct.typeOf_eq_some.mpr
          (mem_append_right _ ?_)
        rw [h.tiny.blocks, flatMap_singleton]
        exact mem_append_right _ hp
      rw [h.copy] at hcopy ⊢
      obtain ⟨rfl, t', values', next', hstretch', hclones'⟩ :=
        hclones.stretch hseparate hnext h.tiny.pure hresults hcopy hstretch
      obtain rfl := hafter
      refine ⟨t', hstretch', ?_, fun v hv => ?_⟩
      · rw [State.resume, State.outside_bind]
        exact hclones'.outside
      · cases hcall : instruction.result with
        | none => exact (hclones'.frame v hv fun call heq => by
            rw [hcall] at heq
            cases heq).trans (hrel.env v hv)
        | some call =>
            have hpresence := h.result
            rw [hcall] at hpresence
            obtain ⟨w, rfl⟩ := Option.isSome_iff_exists.mp hpresence
            obtain ⟨value, hvalue, henv⟩ := State.env_of_values hreturned (i := 0) rfl
            obtain ⟨call', hcall', hremap⟩ := hclones'.returned w value rfl henv
            obtain rfl := Option.some.inj (hcall.symm.trans hcall')
            have hhead : ∃ others, returned = value :: others := by
              cases returned with
              | nil => cases hvalue
              | cons first others => exact ⟨others, by rw [Option.some.inj hvalue]⟩
            obtain ⟨others, rfl⟩ := hhead
            have hresume : (s.resume u.outside (some call) (value :: others)).env =
                Function.update s.env call.value (some value) := rfl
            rw [hresume]
            by_cases heq : v = call.value
            · rw [heq, Function.update_self, ← hremap]
              exact hclones'.env w value henv
            · rw [Function.update_of_ne heq]
              refine (hclones'.frame v hv fun call' heq' => ?_).trans (hrel.env v hv)
              obtain rfl := Option.some.inj (hcall.symm.trans heq')
              exact fun hsame => heq hsame.symm

/-! ## The caller and the expanded caller -/

/-- What an instruction became. -/
def replacedBy (candidates : List (FunctionId × Function)) (caller : FunctionId)
    (instruction : Instruction) (next : ℕ) : List Instruction :=
  match inlineInstruction candidates caller instruction next with
  | some inlined => inlined.1
  | none => [instruction]

section Positions

variable {candidates : List (FunctionId × Function)} {caller : FunctionId} {bound : ℕ}

theorem length_expandInstructions (instructions : List Instruction) (next : ℕ) :
    (expandInstructions candidates caller next instructions).1.length = instructions.length := by
  induction instructions generalizing next with
  | nil => rfl
  | cons instruction rest ih =>
      rw [expandInstructions]
      split
      · exact congrArg (· + 1) (ih _)
      · exact congrArg (· + 1) (ih _)

theorem expandInstructions_getElem? {instructions : List Instruction} {next : ℕ}
    (hexpands : ∀ instruction ∈ instructions, ExpandsFresh candidates caller bound instruction)
    (hnext : bound ≤ next) {i : ℕ} {instruction : Instruction}
    (hi : instructions[i]? = some instruction) :
    ∃ next', bound ≤ next' ∧
      (expandInstructions candidates caller next instructions).1[i]? =
        some (replacedBy candidates caller instruction next') := by
  induction instructions generalizing next i with
  | nil => cases hi
  | cons first rest ih =>
      obtain ⟨⟨_, hinline⟩, hrest⟩ := forall_mem_cons.mp hexpands
      cases hinlined : inlineInstruction candidates caller first next with
      | some inlined =>
          simp only [expandInstructions, hinlined]
          cases i with
          | zero =>
              obtain rfl := Option.some.inj hi
              exact ⟨next, hnext, by rw [replacedBy, hinlined]; rfl⟩
          | succ => exact ih hrest (hnext.trans (hinline next inlined hnext hinlined).le) hi
      | none =>
          simp only [expandInstructions, hinlined]
          cases i with
          | zero =>
              obtain rfl := Option.some.inj hi
              exact ⟨next, hnext, by rw [replacedBy, hinlined]; rfl⟩
          | succ => exact ih hrest hnext hi

theorem expandBlocks_getElem? {blocks : List Block} {next : ℕ}
    (hexpands : ∀ block ∈ blocks, ∀ instruction ∈ block.instructions,
      ExpandsFresh candidates caller bound instruction)
    (hnext : bound ≤ next) {b : ℕ} {block : Block} (hb : blocks[b]? = some block) :
    ∃ next', bound ≤ next' ∧ (expandBlocks candidates caller next blocks).1[b]? =
      some (expandInstructions candidates caller next' block.instructions).1 := by
  induction blocks generalizing next b with
  | nil => cases hb
  | cons first rest ih =>
      obtain ⟨hfirst, hrest⟩ := forall_mem_cons.mp hexpands
      cases b with
      | zero =>
          obtain rfl := Option.some.inj hb
          exact ⟨next, hnext, rfl⟩
      | succ => exact ih hrest (hnext.trans (defines_expandInstructions hfirst hnext).le) hb

end Positions

/-- The groups of a block of the expanded caller. -/
def expandedGroups (candidates : List (FunctionId × Function)) (f : Function) (b : ℕ) :
    List (List Instruction) := ((f.expansion candidates)[b]?).getD []

section Expanded

variable (accepted : module.Accepts f)
include accepted

theorem Module.Accepts.expanded_block {b : ℕ} {block : Block} (hblock : f.blocks[b]? = some block) :
    (f.withInlined (inlineCandidates module.functions)).blocks[b]? =
        some { block with
          instructions := (expandedGroups (inlineCandidates module.functions) f b).flatten } ∧
      (expandedGroups (inlineCandidates module.functions) f b).length =
        block.instructions.length ∧
      ∀ (i : ℕ) (instruction : Instruction), block.instructions[i]? = some instruction →
        ∃ next, f.nextValueId ≤ next ∧
          (expandedGroups (inlineCandidates module.functions) f b)[i]? =
            some (replacedBy (inlineCandidates module.functions) f.id instruction next) := by
  obtain ⟨next, hnext, hgroups⟩ := expandBlocks_getElem? accepted.expandsFresh_of_mem le_rfl hblock
  have hexpanded : (f.expansion (inlineCandidates module.functions))[b]? =
      some (expandInstructions (inlineCandidates module.functions) f.id next
        block.instructions).1 := hgroups
  rw [expandedGroups, hexpanded, Option.getD_some]
  refine ⟨?_, length_expandInstructions _ _, fun i instruction hi => ?_⟩
  · refine (getElem?_zipWith_eq_some ..).mpr ⟨block, _, hblock, hexpanded, rfl⟩
  · exact expandInstructions_getElem?
      (accepted.expandsFresh_of_mem block (mem_of_getElem? hblock)) hnext hi

/-- What a run has bound of some operands keeps its place and its type. -/
theorem Module.Accepts.keeps_expanded {link : FunctionId → Option Function} {depth : ℕ}
    {arguments : List RuntimeValue} {before s : State M} {observed : List (Observation M)} {b i : ℕ}
    (runs : Runs (Acts M module link depth f) (fun _ => True) f (.entered f arguments before)
      observed b i s) (operands : List ValueId) :
    Keeps f (f.withInlined (inlineCandidates module.functions)) (fun v => v)
      {v | v < f.nextValueId} s operands := by
  intro v _ value hbound
  obtain ⟨ty, hprovides⟩ := runs.provides hbound
  exact ⟨Function.lt_nextValueId hprovides.mem_values,
    accepted.typeOf_withInlined hprovides.mem_values⟩

end Expanded

/-- The functions of a module that calls execute: those with a body. -/
def Module.linked (module : Module) (function : FunctionId) : Option Function :=
  (module.functions[function]?).filter fun f => !f.blocks.isEmpty

/-- Functions that return in the one module return the same in the other. -/
def LinkedAlike (M : Machine) (module : Module) (link link' : FunctionId → Option Function)
    (depth : ℕ) : Prop :=
  (∀ function, link function = none → link' function = none) ∧
    ∀ below, depth = below + 1 → ∀ function callee arguments before observed after returned,
      link function = some callee →
      Reaches (Acts M module link below callee) module callee arguments before observed after
        (some (.returned returned)) →
      ∃ callee', link' function = some callee' ∧
        Reaches (Acts M module link' below callee') module callee' arguments before observed after
          (some (.returned returned))

variable {kind : InstructionKind}

theorem InstructionKind.callee_eq_some (h : kind.callee link = some callee) :
    ∃ function arguments, kind = .call function arguments ∧ link function = some callee := by
  cases kind with
  | call function arguments => exact ⟨function, arguments, rfl, h⟩
  | _ => cases h

theorem Tiny.linked (h : Tiny module function callee block returnValue) :
    module.linked function = some callee := by
  rw [Module.linked, h.at_index, Option.filter_some, h.blocks]
  rfl

section Simulation

variable (accepted : module.Accepts f)
include accepted

variable {link' : FunctionId → Option Function}

/-- An instruction and what it became do the same. -/
theorem Module.Accepts.follows_expanded {depth : ℕ}
    (hlinked : LinkedAlike M module module.linked link' depth) {arguments : List RuntimeValue}
    {before s s' t : State M} {observed more : List (Observation M)} {b i : ℕ}
    (runs : Runs (Acts M module module.linked depth f) (fun _ => True) f
      (.entered f arguments before) observed b i s)
    (hrel : Renames (fun v => v) {v | v < f.nextValueId} s t) {instruction : Instruction}
    (hat : f.instructionAt b i = some instruction)
    (hacts : Acts M module module.linked depth f instruction s more s') :
    ∃ group t', (expandedGroups (inlineCandidates module.functions) f b)[i]? = some group ∧
      Stretch (Acts M module link' depth (f.withInlined (inlineCandidates module.functions))) group
        t more t' ∧ Renames (fun v => v) {v | v < f.nextValueId} s' t' := by
  obtain ⟨block, hblock, hi⟩ := Function.instructionAt_eq_some.mp hat
  obtain ⟨hexpanded, _, hgroups⟩ := accepted.expanded_block hblock
  obtain ⟨next, hnext, hgroup⟩ := hgroups i instruction hi
  cases hinlined : inlineInstruction (inlineCandidates module.functions) f.id instruction next with
  | none =>
      rw [replacedBy, hinlined] at hgroup
      have hself := instruction.rename_self
      have hkeeps := accepted.keeps_expanded runs instruction.kind.operands
      have hresult := (accepted.expandsFresh hat).1
      have hinj : Set.InjOn (fun v => v) {v | v < f.nextValueId} := fun _ _ _ _ heq => heq
      rcases acts_cases hacts with hdirect | ⟨below, rfl, hcalled⟩
      · have hnone : instruction.kind.callee module.linked = none →
            instruction.kind.callee link' = none := by
          cases instruction.kind with
          | call function => exact hlinked.1 function
          | _ => exact fun h => h
        obtain ⟨t', hdirect', hrel'⟩ := hrel.direct hinj hkeeps hresult hnone hdirect
        rw [hself] at hdirect'
        exact ⟨_, t', hgroup, .singleton hdirect'.acts, hrel'⟩
      · have hlink : ∀ callee arguments before observed after returned,
            instruction.kind.callee module.linked = some callee →
            Reaches (Acts M module module.linked below callee) module callee arguments before
              observed after (some (.returned returned)) →
            ∃ callee', instruction.kind.callee link' = some callee' ∧
              Reaches (Acts M module link' below callee') module callee' arguments before observed
                after (some (.returned returned)) := by
          intro callee arguments before observed after returned hcallee hreaches
          obtain ⟨function, operands, hkind, hlink⟩ := InstructionKind.callee_eq_some hcallee
          rw [hkind]
          exact hlinked.2 below rfl function callee _ _ _ _ _ hlink hreaches
        obtain ⟨t', hcalled', hrel'⟩ :=
          hrel.called hinj (fun v hv value hbound => (hkeeps v hv value hbound).1) hresult
            hlink hcalled
        rw [hself] at hcalled'
        exact ⟨_, t', hgroup, .singleton (Or.inr hcalled'), hrel'⟩
  | some inlined =>
      rw [replacedBy, hinlined] at hgroup
      obtain ⟨function, operands, callee, body, returnValue, h⟩ :=
        inlined_of_inlineInstruction accepted.verified hinlined
      -- the copy is part of the expanded caller
      have hcopy : ∀ p ∈ resultsOf inlined.1,
          (f.withInlined (inlineCandidates module.functions)).typeOf p.value = some p.ty := by
        intro p hp
        refine accepted.distinct_withInlined.typeOf_eq_some.mpr (mem_append_right _
          (mem_flatMap.mpr ⟨_, mem_of_getElem? hexpanded, mem_append_right _ ?_⟩))
        obtain ⟨copied, hcopied, hresult⟩ := mem_filterMap.mp hp
        exact mem_filterMap.mpr
          ⟨copied, mem_flatten.mpr ⟨_, mem_of_getElem? hgroup, hcopied⟩, hresult⟩
      rcases acts_cases hacts with ⟨hnone, _⟩ | ⟨below, rfl, hcalled⟩
      · rw [h.kind, InstructionKind.callee, h.tiny.linked] at hnone
        cases hnone
      · obtain ⟨t', hstretch, hrel'⟩ := h.follows accepted runs.reachable hat hnext
          (fun v ty hv => accepted.typeOf_withInlined hv) hcopy h.tiny.linked hrel hcalled
        exact ⟨_, t', hgroup, hstretch, hrel'⟩

theorem Module.Accepts.simulates_expanded {depth : ℕ}
    (hlinked : LinkedAlike M module module.linked link' depth) (arguments : List RuntimeValue)
    (before : State M) :
    Simulates (Acts M module module.linked depth f)
      (Acts M module link' depth (f.withInlined (inlineCandidates module.functions)))
      (fun _ => True) module f (f.withInlined (inlineCandidates module.functions))
      (.entered f arguments before) (Renames (fun v => v) {v | v < f.nextValueId}) (fun b => b)
      (expandedGroups (inlineCandidates module.functions) f) where
  entry := rfl
  block _ hblock := by
    obtain ⟨hexpanded, hlength, _⟩ := accepted.expanded_block hblock
    exact ⟨_, hexpanded, rfl, hlength⟩
  step runs hrel hat hacts := accepted.follows_expanded hlinked runs hrel hat hacts
  edge {observed b s t block target t₀ arguments values} runs hrel hblock _ hgoto hvalues
      htarget := by
    obtain ⟨hexpanded, _, _⟩ := accepted.expanded_block hblock
    obtain ⟨htarget', _, _⟩ := accepted.expanded_block htarget
    have hK : ∀ v ∈ block.terminator.operands, ∀ value, s.env v = some value →
        v ∈ {v | v < f.nextValueId} := fun v hv value hbound =>
      (accepted.keeps_expanded runs block.terminator.operands v hv value hbound).1
    have hparameters : ∀ p ∈ target.parameters, p.value ∈ {v | v < f.nextValueId} :=
      fun p hp => Function.lt_nextValueId (mem_append_right _
        (mem_flatMap.mpr ⟨target, mem_of_getElem? htarget, mem_append_left _ hp⟩))
    refine ⟨_, arguments, _, hexpanded, ?_, ?_, htarget', ?_⟩
    · have hgoto' := hrel.goto (fun target => target) hK hgoto
      rw [Terminator.mapOperands_self, Terminator.mapTargets_self, map_id'] at hgoto'
      exact hgoto'
    · have hvalues' := hrel.values
        (fun v hv => hK v (Terminator.arguments_subset_of_goto hgoto hv)) hvalues
      rwa [map_id'] at hvalues'
    · have hbind := hrel.bind (fun _ _ _ _ heq => heq) hparameters values
      rwa [map_rename_self] at hbind
  returned {observed b s t block value values} runs hrel hblock hreturn hvalues := by
    obtain ⟨hexpanded, _, _⟩ := accepted.expanded_block hblock
    refine ⟨_, value, hexpanded, hreturn, ?_⟩
    have hvalues' := hrel.values (fun v hv other hbound =>
      (accepted.keeps_expanded runs value.toList v hv other hbound).1) hvalues
    rwa [map_id'] at hvalues'
  panicked {observed b i s t instruction checked} runs hrel hat hrequest := by
    obtain ⟨block, hblock, hi⟩ := Function.instructionAt_eq_some.mp hat
    obtain ⟨_, _, hgroups⟩ := accepted.expanded_block hblock
    obtain ⟨next, _, hgroup⟩ := hgroups i instruction hi
    cases hinlined : inlineInstruction (inlineCandidates module.functions) f.id instruction
        next with
    | none =>
        rw [replacedBy, hinlined] at hgroup
        have hrequest' := hrel.request
          (accepted.keeps_expanded runs instruction.kind.operands) hrequest
        rw [instruction.rename_self] at hrequest'
        exact ⟨instruction, [], hgroup, hrequest'⟩
    | some inlined =>
        -- a call checks nothing itself
        obtain ⟨function, operands, callee, body, returnValue, h⟩ :=
          inlined_of_inlineInstruction accepted.verified hinlined
        obtain ⟨_, hoperation⟩ := request_eq_some.mp hrequest
        rw [h.kind] at hoperation
        cases hoperation

end Simulation

/-- Within a tiny function nothing is seen, and no check fails. -/
theorem Tiny.within (h : Tiny module function callee block returnValue)
    {arguments : List RuntimeValue} {before after : State M} {ending : Option Ending}
    (hwithin : Within M module link depth callee arguments before observed after ending)
    (hending : ∀ e ∈ ending, ∃ checked, e = .panicked checked) :
    observed = [] ∧ after = before.outside ∧ ending = none := by
  have hpure : ∀ {b i : ℕ} {instruction : Instruction},
      callee.instructionAt b i = some instruction → instruction.kind.isPure = true := by
    intro b i instruction hat
    obtain ⟨contents, hcontents, hi⟩ := Function.instructionAt_eq_some.mp hat
    have hmem := mem_of_getElem? hcontents
    rw [h.blocks, mem_singleton] at hmem
    subst hmem
    exact isPure_of_isPureScalar (h.pure _ (mem_of_getElem? hi))
  cases hwithin with
  | here hreaches =>
      obtain ⟨b, i, s, runs, rfl, hends⟩ := hreaches
      obtain ⟨_, hstretch⟩ := h.stretch runs
      obtain ⟨rfl, houtside⟩ := Stretch.of_isPureScalar
        (fun instruction hmem => h.pure instruction (mem_of_mem_take hmem)) hstretch
      refine ⟨rfl, houtside.trans (State.outside_bind ..), ?_⟩
      cases ending with
      | none => rfl
      | some e =>
          obtain ⟨checked, rfl⟩ := hending e rfl
          cases hends _ rfl with
          | panicked hat hrequest =>
              obtain ⟨value, hcompute⟩ := compute_of_isPure (hpure hat)
                (request_eq_some.mp hrequest).2
              cases hcompute
  | inside runs hat hcallee =>
      rw [callee_of_isPure (hpure hat)] at hcallee
      cases hcallee

/-! ## The modules before and after -/

theorem inlineTinyFunctions_getElem? (module : Module) (k : ℕ) :
    (inlineTinyFunctions module).1.functions[k]? =
      (module.functions[k]?).map (Function.inlineTiny (inlineCandidates module.functions)) :=
  getElem?_map ..

theorem Function.inlineTiny_blocks_isEmpty (candidates : List (FunctionId × Function))
    (h : f.blocks = []) : (f.inlineTiny candidates).blocks = [] := by
  have hexpanded : (f.withInlined candidates).blocks = [] := by
    rw [withInlined, h]
    rfl
  unfold inlineTiny
  split
  · exact hexpanded
  · exact congrArg (map _) hexpanded

theorem linked_inlineTiny_eq_none {k : ℕ} (h : module.linked k = none) :
    (inlineTinyFunctions module).1.linked k = none := by
  rw [Module.linked, inlineTinyFunctions_getElem?]
  cases hindex : module.functions[k]? with
  | none => rfl
  | some f =>
      have hblocks : f.blocks = [] := by
        simpa [Module.linked, hindex, Option.filter_eq_none_iff] using h
      rw [Option.map_some, Option.filter_some,
        Function.inlineTiny_blocks_isEmpty (inlineCandidates module.functions) hblocks]
      rfl

section

variable (hverified : module.verify = [])
include hverified

theorem inlineTiny_block {k : ℕ} (hf : module.functions[k]? = some f) {b : ℕ} {block : Block}
    (hblock : f.blocks[b]? = some block) :
    ∃ block', (f.inlineTiny (inlineCandidates module.functions)).blocks[b]? = some block' := by
  have accepted : module.Accepts f := ⟨hverified, mem_of_getElem? hf⟩
  obtain ⟨hexpanded, _, _⟩ := accepted.expanded_block hblock
  unfold Function.inlineTiny
  split
  · exact ⟨_, hexpanded⟩
  · exact ⟨_, (getElem?_map ..).trans (congrArg _ hexpanded)⟩

theorem linked_inlineTiny {k : ℕ} (hf : module.linked k = some f) :
    (inlineTinyFunctions module).1.linked k =
      some (f.inlineTiny (inlineCandidates module.functions)) := by
  obtain ⟨hindex, hbody⟩ := Option.filter_eq_some_iff.mp hf
  have hfirst : ∃ block, f.blocks[0]? = some block := by
    cases hblocks : f.blocks with
    | nil => simp [hblocks] at hbody
    | cons block => exact ⟨block, rfl⟩
  obtain ⟨block, hblock⟩ := hfirst
  obtain ⟨block', hblock'⟩ := inlineTiny_block hverified hindex hblock
  rw [Module.linked, inlineTinyFunctions_getElem?, hindex, Option.map_some]
  refine Option.filter_eq_some_iff.mpr ⟨rfl, ?_⟩
  cases hblocks : (f.inlineTiny (inlineCandidates module.functions)).blocks with
  | nil =>
      rw [hblocks] at hblock'
      cases hblock'
  | cons => rfl

end

section Activations

variable {link' : FunctionId → Option Function} {depth : ℕ} {arguments : List RuntimeValue}
  {before : State M}

/-- Both callers are entered with the same values. -/
theorem renames_entered (f : Function) (candidates : List (FunctionId × Function))
    (arguments : List RuntimeValue) (before : State M) :
    Renames (fun v => v) {v | v < f.nextValueId} (State.entered f arguments before)
      (State.entered (f.withInlined candidates) arguments before) := by
  refine .entered (fun _ _ _ _ heq => heq) ?_ ?_ arguments before
  · exact (map_rename_self f.parameters).symm
  · exact fun p hp => Function.lt_nextValueId (mem_append_left _ hp)

variable {after : State M} {observed : List (Observation M)} {ending : Option Ending}

theorem Module.Accepts.reaches_withInlined (accepted : module.Accepts f)
    (hlinked : LinkedAlike M module module.linked link' depth)
    (h : Reaches (Acts M module module.linked depth f) module f arguments before observed after
      ending) :
    Reaches (Acts M module link' depth (f.withInlined (inlineCandidates module.functions))) module
      (f.withInlined (inlineCandidates module.functions)) arguments before observed after
      ending := by
  obtain ⟨b, i, s, runs, hafter, hends⟩ := h
  have simulates := accepted.simulates_expanded hlinked arguments before
  obtain ⟨t, runs', hrel⟩ := simulates.run (renames_entered f _ arguments before) runs
  exact ⟨_, _, t, runs', hrel.outside.trans hafter,
    fun e he => simulates.ends runs hrel (hends e he)⟩

theorem Module.Accepts.distinct_inlineTiny (accepted : module.Accepts f) :
    (f.inlineTiny (inlineCandidates module.functions)).Distinct := by
  unfold Function.inlineTiny
  split
  · exact accepted.distinct_withInlined
  · exact accepted.distinct_withInlined.renumberValues

theorem Module.Accepts.transforms_inlineTiny (accepted : module.Accepts f)
    (hcalls : f.inlinedCalls (inlineCandidates module.functions) ≠ 0) :
    Transforms (f.withInlined (inlineCandidates module.functions))
      (f.inlineTiny (inlineCandidates module.functions))
      (f.withInlined (inlineCandidates module.functions)).renumbered
      {v | v ∈ (f.withInlined (inlineCandidates module.functions)).numberingOrder} (fun b => b)
      fun _ => true := by
  rw [Function.inlineTiny, if_neg hcalls]
  exact accepted.distinct_withInlined.transforms_renumberValues

/-- The values of the expanded caller are numbered anew only if there is a copy in it. -/
theorem Module.Accepts.refines_inlineTiny (accepted : module.Accepts f)
    (link : FunctionId → Option Function) (depth : ℕ) :
    Refines M module link depth (f.withInlined (inlineCandidates module.functions))
      (f.inlineTiny (inlineCandidates module.functions)) := by
  by_cases hcalls : f.inlinedCalls (inlineCandidates module.functions) = 0
  · rw [Function.inlineTiny, if_pos hcalls]
    exact .refl _
  · exact (accepted.transforms_inlineTiny hcalls).refines

/-- **Calls return the same before and after**, however deep they are nested. -/
theorem linkedAlike_inlineTiny (hverified : module.verify = []) (depth : ℕ) :
    LinkedAlike M module module.linked (inlineTinyFunctions module).1.linked depth := by
  induction depth with
  | zero => exact ⟨fun _ => linked_inlineTiny_eq_none, fun _ hbelow => by cases hbelow⟩
  | succ depth ih =>
      refine ⟨fun _ => linked_inlineTiny_eq_none, ?_⟩
      intro below hbelow function callee arguments before observed after returned hlink hreaches
      obtain rfl : depth = below := Nat.succ.inj hbelow
      have accepted : module.Accepts callee :=
        ⟨hverified, mem_of_getElem? (Option.filter_eq_some_iff.mp hlink).1⟩
      have hexpanded := accepted.reaches_withInlined ih hreaches
      exact ⟨_, linked_inlineTiny hverified hlink,
        accepted.refines_inlineTiny _ _ _ _ _ _ _ hexpanded⟩

/-- A function that waits for a call, before and after: either the call is still there, or the copy
of the callee has come to the same. -/
theorem Module.Accepts.within_withInlined (accepted : module.Accepts f)
    (hlinked : LinkedAlike M module module.linked link' (depth + 1)) {s : State M}
    {more : List (Observation M)} {b i : ℕ} {instruction : Instruction}
    {callee callee' : Function} {values : List RuntimeValue}
    (runs : Runs (Acts M module module.linked (depth + 1) f) (fun _ => True) f
      (.entered f arguments before) observed b i s) (hat : f.instructionAt b i = some instruction)
    (hcallee : instruction.kind.callee module.linked = some callee)
    (hcallee' : instruction.kind.callee link' = some callee')
    (hvalues : s.values instruction.kind.operands = some values)
    (hwithin : Within M module module.linked depth callee values s more after ending)
    (hwithin' : Within M module link' depth callee' values s more after ending)
    (hending : ∀ e ∈ ending, ∃ checked, e = .panicked checked) :
    Within M module link' (depth + 1) (f.withInlined (inlineCandidates module.functions)) arguments
      before (observed ++ more) after ending := by
  have simulates := accepted.simulates_expanded hlinked arguments before
  obtain ⟨t, runs', hrel⟩ := simulates.run (renames_entered f _ arguments before) runs
  obtain ⟨block, hblock, hi⟩ := Function.instructionAt_eq_some.mp hat
  obtain ⟨_, _, hgroups⟩ := accepted.expanded_block hblock
  obtain ⟨next, _, hgroup⟩ := hgroups i instruction hi
  cases hinlined : inlineInstruction (inlineCandidates module.functions) f.id instruction next with
  | none =>
      rw [replacedBy, hinlined] at hgroup
      have hat' := simulates.instructionAt runs.reachable hblock hgroup
      have hkeeps := accepted.keeps_expanded runs instruction.kind.operands
      have hvalues' := hrel.values (fun v hv value hbound => (hkeeps v hv value hbound).1) hvalues
      rw [map_id'] at hvalues'
      exact .inside runs' hat' hcallee' hvalues' (hwithin'.of_outside hrel.outside) hending
  | some =>
      obtain ⟨function, operands, tiny, body, returnValue, h⟩ :=
        inlined_of_inlineInstruction accepted.verified hinlined
      rw [h.kind, InstructionKind.callee, h.tiny.linked] at hcallee
      obtain rfl := Option.some.inj hcallee
      obtain ⟨rfl, rfl, rfl⟩ := h.tiny.within hwithin hending
      rw [append_nil]
      exact .here ⟨_, _, t, runs', hrel.outside, fun e he => by cases he⟩

/-- **Functions with inlined calls do what they did before**, and so do those that they call. -/
theorem within_inlineTiny (hverified : module.verify = [])
    (h : Within M module module.linked depth f arguments before observed after ending) {k : ℕ}
    (hf : module.functions[k]? = some f) :
    Within M module (inlineTinyFunctions module).1.linked depth
      (f.inlineTiny (inlineCandidates module.functions)) arguments before observed after
      ending := by
  induction h generalizing k with
  | here hreaches =>
      have accepted : module.Accepts _ := ⟨hverified, mem_of_getElem? hf⟩
      exact .here (accepted.refines_inlineTiny _ _ _ _ _ _ _
        (accepted.reaches_withInlined (linkedAlike_inlineTiny hverified _) hreaches))
  | @inside depth f callee arguments values before s after observed more ending b i instruction
      runs hat hcallee hvalues hwithin hending ih =>
      have accepted : module.Accepts f := ⟨hverified, mem_of_getElem? hf⟩
      obtain ⟨function, operands, hkind, hlink⟩ := InstructionKind.callee_eq_some hcallee
      have hwithin' := ih (Option.filter_eq_some_iff.mp hlink).1
      have hcallee' : instruction.kind.callee (inlineTinyFunctions module).1.linked =
          some (callee.inlineTiny (inlineCandidates module.functions)) := by
        rw [hkind]
        exact linked_inlineTiny hverified hlink
      have hexpanded := accepted.within_withInlined (linkedAlike_inlineTiny hverified _) runs hat
        hcallee hcallee' hvalues hwithin hwithin' hending
      by_cases hcalls : f.inlinedCalls (inlineCandidates module.functions) = 0
      · rw [Function.inlineTiny, if_pos hcalls]
        exact hexpanded
      · exact (accepted.transforms_inlineTiny hcalls).within hexpanded

end Activations

/-- **Inlining keeps what every function does.**  Whatever may be seen of a function of a verified
module, in its own instructions or in those of functions that it calls, may be seen of it after
inlining, with the same memory and to the same end; and no two of its values are the same. -/
theorem inlineTinyFunctions_follows (hverified : module.verify = []) {k : ℕ}
    (hf : module.functions[k]? = some f) {depth : ℕ} {arguments : List RuntimeValue}
    {before after : State M} {observed : List (Observation M)} {ending : Option Ending}
    (h : Within M module module.linked depth f arguments before observed after ending) :
    ∃ g, (inlineTinyFunctions module).1.functions[k]? = some g ∧ g.Distinct ∧
      Within M (inlineTinyFunctions module).1 (inlineTinyFunctions module).1.linked depth g
        arguments before observed after ending := by
  have accepted : module.Accepts f := ⟨hverified, mem_of_getElem? hf⟩
  refine ⟨f.inlineTiny (inlineCandidates module.functions), ?_, accepted.distinct_inlineTiny, ?_⟩
  · rw [inlineTinyFunctions_getElem?, hf, Option.map_some]
  · have htypes : (inlineTinyFunctions module).1.types = module.types := rfl
    exact (within_inlineTiny hverified h hf).of_types htypes

/-- `fn doubled(x) { return x + x }`. -/
def doubled : Function :=
  .of [⟨0, 0⟩] 0 [.of 0 [] [.defining 1 0 (.binary .add 0 0)] (.ret (some 1))]

/-- `x = 5; y = doubled(x); return y`. -/
def doublesFive : Function :=
  { Function.of [] 0 [.of 0 []
      [.defining 0 0 (.constant (.integer 5)), .defining 1 0 (.call 0 [0])] (.ret (some 1))] with
    id := 1 }

def doublesModule : Module := ⟨[.integer true 32], [doubled, doublesFive]⟩

theorem Step.defining {value : ValueId} {ty : TypeId} {computed : RuntimeValue}
    (hrequest : (Instruction.defining value ty kind).request M module f s =
      some (.compute computed, values)) :
    Step M module f (.defining value ty kind) s .silent (s.define value computed) := by
  have hresult : (Instruction.defining value ty kind).result = some ⟨value, ty⟩ := rfl
  have hstep := Step.compute hrequest hresult
  exact hstep

theorem reaches_doubled (link : FunctionId → Option Function) (s : State cells) :
    Reaches (Acts cells doublesModule link 0 doubled) doublesModule doubled [.integer 32 5] s []
      s.outside (some (.returned [.integer 32 10])) := by
  have hrequest : (Instruction.defining 1 0 (.binary .add 0 0)).request cells doublesModule doubled
      (.entered doubled [.integer 32 5] s) =
        some (.compute (.integer 32 10), [.integer 32 5, .integer 32 5]) := rfl
  have hblock : doubled.blocks[0]? =
      some (.of 0 [] [.defining 1 0 (.binary .add 0 0)] (.ret (some 1))) := rfl
  refine ⟨0, 1, _, Runs.start.step rfl ⟨rfl, _, .defining hrequest, rfl⟩, rfl, fun e he => ?_⟩
  obtain rfl := Option.some.inj he
  exact .returned hblock rfl rfl

/-- The caller returns 10, and so does the caller with the callee inlined. -/
theorem follows_doublesFive :
    ∃ (after : State cells) (g : Function),
      (inlineTinyFunctions doublesModule).1.functions[1]? = some g ∧ g.Distinct ∧
        Within cells (inlineTinyFunctions doublesModule).1
          (inlineTinyFunctions doublesModule).1.linked 1 g [] blank [] after
          (some (.returned [.integer 32 10])) := by
  have hconstant : (Instruction.defining 0 0 (.constant (.integer 5))).request cells doublesModule
      doublesFive (.entered doublesFive [] blank) = some (.compute (.integer 32 5), []) := rfl
  have hblock : doublesFive.blocks[0]? = some (.of 0 []
      [.defining 0 0 (.constant (.integer 5)), .defining 1 0 (.call 0 [0])]
      (.ret (some 1))) := rfl
  have hcalled : Called cells doublesModule doublesModule.linked
      (Acts cells doublesModule doublesModule.linked 0) (.defining 1 0 (.call 0 [0]))
      ((State.entered doublesFive [] blank).define 0 (.integer 32 5)) []
      (((State.entered doublesFive [] blank).define 0 (.integer 32 5)).resume
        ((State.entered doublesFive [] blank).define 0 (.integer 32 5)).outside (some ⟨1, 0⟩)
        [.integer 32 10]) :=
    ⟨doubled, _, _, _, rfl, rfl, reaches_doubled _ _, rfl⟩
  have hfirst : Runs (Acts cells doublesModule doublesModule.linked 1 doublesFive) (fun _ => True)
      doublesFive (.entered doublesFive [] blank) [] 0 1
      ((State.entered doublesFive [] blank).define 0 (.integer 32 5)) :=
    Runs.start.step rfl (Or.inl ⟨rfl, _, .defining hconstant, rfl⟩)
  have hreaches : ∃ after, Reaches (Acts cells doublesModule doublesModule.linked 1 doublesFive)
      doublesModule doublesFive [] blank [] after (some (.returned [.integer 32 10])) := by
    refine ⟨_, 0, 2, _, hfirst.step rfl (Or.inr hcalled), rfl, fun e he => ?_⟩
    obtain rfl := Option.some.inj he
    exact .returned hblock rfl rfl
  obtain ⟨after, hreaches⟩ := hreaches
  exact ⟨after, inlineTinyFunctions_follows rfl rfl (.here hreaches)⟩

end Jadren.Jir
