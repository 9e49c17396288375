import Jadren.Jir.Syntax
import Mathlib.Data.BitVec

/-!
# Folding constants

`foldConstants` replaces scalar instructions whose operands are known constants.  Integers of
all widths are kept in words of 128 bits, `u128` and `i128` in the source: `integerRaw` cuts a
stored constant down to its width, `normalizeInteger` turns a result into the constant that is
stored.  Arithmetic that the language checks ends with a `Panic` here, so that a pass that
returns has not panicked.  What the host computes with floating-point numbers is a parameter.
-/

namespace Jadren.Jir

namespace Folding

/-- A word of the host, `u128` or `i128`. -/
abbrev Word : Type := BitVec 128

/-- Why the pass would panic. -/
inductive Panic
  | overflow
  | divisionByZero
  | unreachableCode
  deriving DecidableEq, Repr

/-! ## Checked arithmetic of the host -/

/-- `<<` of the host. -/
def shiftLeft (x : Word) (n : ℕ) : Except Panic Word :=
  if n < 128 then .ok (x <<< n) else .error .overflow

/-- `>>` of an unsigned word. -/
def shiftRight (x : Word) (n : ℕ) : Except Panic Word :=
  if n < 128 then .ok (x >>> n) else .error .overflow

/-- `>>` of a signed word. -/
def signedShiftRight (x : Word) (n : ℕ) : Except Panic Word :=
  if n < 128 then .ok (x.sshiftRight n) else .error .overflow

/-- `-` of unsigned words. -/
def subtract (x y : Word) : Except Panic Word :=
  if y ≤ x then .ok (x - y) else .error .overflow

def divide (x y : Word) : Except Panic Word :=
  if y = 0 then .error .divisionByZero else .ok (x / y)

def remainder (x y : Word) : Except Panic Word :=
  if y = 0 then .error .divisionByZero else .ok (x % y)

/-- `i128::MIN` -/
def minimum : Word := BitVec.intMin 128

def signedDivide (x y : Word) : Except Panic Word :=
  if y = 0 then .error .divisionByZero
  else if x = minimum ∧ y = -1 then .error .overflow
  else .ok (x.sdiv y)

def signedRemainder (x y : Word) : Except Panic Word :=
  if y = 0 then .error .divisionByZero
  else if x = minimum ∧ y = -1 then .error .overflow
  else .ok (x.srem y)

/-! ## Integers of a width -/

def integerMask (bits : ℕ) : Except Panic Word :=
  if bits = 128 then .ok (BitVec.allOnes 128) else do subtract (← shiftLeft 1 bits) 1

def integerRaw (value : ℤ) (bits : ℕ) : Except Panic Word := do
  return BitVec.ofInt 128 value &&& (← integerMask bits)

def normalizeInteger (raw : Word) (bits : ℕ) (signed : Bool) : Except Panic Word := do
  let mask ← integerMask bits
  let raw := raw &&& mask
  if signed ∧ bits < 128 then
    if raw &&& (← shiftLeft 1 (bits - 1)) ≠ 0 then return raw ||| ~~~mask else return raw
  else return raw

def integerShape (types : List JirType) (ty : TypeId) : Option (Bool × ℕ) :=
  match types[ty]? with
  | some (.integer signed bits) => if 1 ≤ bits ∧ bits ≤ 128 then some (signed, bits) else none
  | _ => none

def floatWidth (types : List JirType) (ty : TypeId) : Option ℕ :=
  match types[ty]? with
  | some (.float bits) => if bits = 16 ∨ bits = 32 ∨ bits = 64 then some bits else none
  | _ => none

/-- What the host does with floating-point numbers of 32 and of 64 bits. -/
structure HostFloats where
  negate : (width bits : ℕ) → ℕ
  arithmetic : BinaryOp → (width left right : ℕ) → ℕ
  compare : ComparePredicate → (width left right : ℕ) → Bool
  convert : (source target bits : ℕ) → ℕ

variable (floats : HostFloats) (types : List JirType)

def foldFloatUnary (bits : ℕ) (resultType : TypeId) : Option Constant :=
  match floatWidth types resultType with
  | some 32 => some (.floatBits (floats.negate 32 bits))
  | some 64 => some (.floatBits (floats.negate 64 bits))
  | _ => none

def foldFloatBinary (op : BinaryOp) (left right : ℕ) (resultType : TypeId) : Option Constant :=
  match floatWidth types resultType, op with
  | some 32, .add | some 32, .subtract | some 32, .multiply | some 32, .divide
  | some 32, .remainder => some (.floatBits (floats.arithmetic op 32 left right))
  | some 64, .add | some 64, .subtract | some 64, .multiply | some 64, .divide
  | some 64, .remainder => some (.floatBits (floats.arithmetic op 64 left right))
  | _, _ => none

def foldFloatCompare (predicate : ComparePredicate) (left right width : ℕ) : Option Constant :=
  match width with
  | 32 => some (.bool (floats.compare predicate 32 left right))
  | 64 => some (.bool (floats.compare predicate 64 left right))
  | _ => none

/-! ## One instruction -/

structure KnownConstant where
  value : Constant
  ty : TypeId
  deriving DecidableEq, Repr

def foldUnary (op : UnaryOp) (operand : Option KnownConstant) (resultType : TypeId) :
    Except Panic (Option Constant) :=
  match operand with
  | none => return none
  | some operand =>
      match op, operand.value with
      | .negate, .integer value =>
          match integerShape types resultType with
          | none => return none
          | some (signed, bits) => do
              let raw ← integerRaw value bits
              return some (.integer (← normalizeInteger (-raw) bits signed).toInt)
      | .negate, .floatBits bits => return foldFloatUnary floats types bits resultType
      | .not, .bool value => return some (.bool (!value))
      | .not, .integer value | .bitNot, .integer value =>
          match integerShape types resultType with
          | none => return none
          | some (signed, bits) => do
              let raw ← integerRaw value bits
              return some (.integer (← normalizeInteger (~~~raw) bits signed).toInt)
      | _, _ => return none

/-- The word that the operation makes of two words of a width; `none` where it is not folded. -/
def foldRaw (op : BinaryOp) (signed : Bool) (bits : ℕ) (left right : Word) :
    Except Panic (Option Word) :=
  match op with
  | .add => return some (left + right)
  | .subtract => return some (left - right)
  | .multiply => return some (left * right)
  | .divide =>
      if right = 0 then return none
      else if signed then do
        let left ← normalizeInteger left bits true
        let right ← normalizeInteger right bits true
        if left = minimum ∧ right = -1 then return none
        return some (← signedDivide left right)
      else return some (← divide left right)
  | .remainder =>
      if right = 0 then return none
      else if signed then do
        let left ← normalizeInteger left bits true
        let right ← normalizeInteger right bits true
        if left = minimum ∧ right = -1 then return none
        return some (← signedRemainder left right)
      else return some (← remainder left right)
  | .bitAnd => return some (left &&& right)
  | .bitOr => return some (left ||| right)
  | .bitXor => return some (left ^^^ right)
  | .shiftLeft =>
      -- a shift that is no `u32` is not folded
      if 2 ^ 32 ≤ right.toNat ∨ bits ≤ right.toNat then return none
      else return some (← shiftLeft left right.toNat)
  | .shiftRight =>
      if 2 ^ 32 ≤ right.toNat ∨ bits ≤ right.toNat then return none
      else if signed then
        return some (← signedShiftRight (← normalizeInteger left bits true) right.toNat)
      else return some (← shiftRight left right.toNat)

def foldBinary (op : BinaryOp) (left right : Option KnownConstant) (resultType : TypeId) :
    Except Panic (Option Constant) :=
  match left, right with
  | some left, some right =>
      match left.value, right.value with
      | .bool left, .bool right =>
          match op with
          | .bitAnd => return some (.bool (left && right))
          | .bitOr => return some (.bool (left || right))
          | .bitXor => return some (.bool (left ^^ right))
          | _ => return none
      | .integer left, .integer right =>
          match integerShape types resultType with
          | none => return none
          | some (signed, bits) => do
              let left ← integerRaw left bits
              let right ← integerRaw right bits
              match ← foldRaw op signed bits left right with
              | none => return none
              | some raw => return some (.integer (← normalizeInteger raw bits signed).toInt)
      | .floatBits left, .floatBits right =>
          return foldFloatBinary floats types op left right resultType
      | _, _ => return none
  | _, _ => return none

/-- The order of two words of a width. -/
def compareInteger (left right : Word) (bits : ℕ) (signed : Bool) (predicate : ComparePredicate) :
    Except Panic Bool :=
  if signed then do
    let left ← normalizeInteger left bits true
    let right ← normalizeInteger right bits true
    match predicate with
    | .less => return left.slt right
    | .lessEqual => return left.sle right
    | .greater => return right.slt left
    | .greaterEqual => return right.sle left
    | .equal | .notEqual => throw .unreachableCode
  else
    match predicate with
    | .less => return left.ult right
    | .lessEqual => return left.ule right
    | .greater => return right.ult left
    | .greaterEqual => return right.ule left
    | .equal | .notEqual => throw .unreachableCode

def foldCompare (predicate : ComparePredicate) (left right : Option KnownConstant) :
    Except Panic (Option Constant) :=
  match left, right with
  | some left, some right =>
      if left.ty ≠ right.ty then return none
      else
        match left.value, right.value with
        | .bool leftValue, .bool rightValue =>
            match predicate with
            | .equal => return some (.bool (leftValue == rightValue))
            | .notEqual => return some (.bool (leftValue != rightValue))
            | _ => return none
        | .integer leftValue, .integer rightValue =>
            match integerShape types left.ty with
            | none => return none
            | some (signed, bits) => do
                let leftRaw ← integerRaw leftValue bits
                let rightRaw ← integerRaw rightValue bits
                match predicate with
                | .equal => return some (.bool (leftRaw == rightRaw))
                | .notEqual => return some (.bool (leftRaw != rightRaw))
                | _ => return some (.bool (← compareInteger leftRaw rightRaw bits signed predicate))
        | .floatBits leftBits, .floatBits rightBits =>
            match floatWidth types left.ty with
            | none => return none
            | some width => return foldFloatCompare floats predicate leftBits rightBits width
        | _, _ => return none
  | _, _ => return none

def foldCast (op : CastOp) (value : Option KnownConstant) (target : TypeId) :
    Except Panic (Option Constant) :=
  match value with
  | none => return none
  | some value =>
      match op, value.value with
      | .integerExtend, .integer stored | .integerTruncate, .integer stored =>
          match integerShape types target, integerShape types value.ty with
          | some (targetSigned, targetBits), some (sourceSigned, sourceBits) => do
              let source ← integerRaw stored sourceBits
              let source ←
                if op = .integerExtend ∧ sourceSigned then normalizeInteger source sourceBits true
                else pure source
              return some (.integer (← normalizeInteger source targetBits targetSigned).toInt)
          | _, _ => return none
      | .floatExtend, .floatBits bits | .floatTruncate, .floatBits bits =>
          match floatWidth types value.ty, floatWidth types target with
          | some 32, some 32 => return some (.floatBits (bits % 2 ^ 32))
          | some 32, some 64 => return some (.floatBits (floats.convert 32 64 bits))
          | some 64, some 32 => return some (.floatBits (floats.convert 64 32 bits))
          | some 64, some 64 => return some (.floatBits bits)
          | _, _ => return none
      | _, _ => return none

def foldSelect (condition whenTrue whenFalse : Option KnownConstant) : Option Constant :=
  match condition.map KnownConstant.value with
  | some (.bool true) => whenTrue.map KnownConstant.value
  | some (.bool false) => whenFalse.map KnownConstant.value
  | _ => none

def foldInstruction (kind : InstructionKind) (result : TypedValue)
    (known : ValueId → Option KnownConstant) : Except Panic (Option Constant) :=
  match kind with
  | .unary op operand => foldUnary floats types op (known operand) result.ty
  | .binary op left right => foldBinary floats types op (known left) (known right) result.ty
  | .compare predicate left right => foldCompare floats types predicate (known left) (known right)
  | .cast op value target => foldCast floats types op (known value) target
  | .select condition whenTrue whenFalse =>
      return foldSelect (known condition) (known whenTrue) (known whenFalse)
  | _ => return none

/-! ## The pass -/

/-- What is known while a function is gone through, and how many instructions were folded. -/
structure FoldState where
  known : ValueId → Option KnownConstant
  foldedInstructions : ℕ

/-- Folds one instruction and remembers its result if that is a constant. -/
def visitInstruction (instruction : Instruction) (s : FoldState) :
    Except Panic (Instruction × FoldState) :=
  match instruction.result with
  | none => return (instruction, s)
  | some result =>
      match instruction.kind with
      | .constant constant =>
          return (instruction,
            { s with known := Function.update s.known result.value (some ⟨constant, result.ty⟩) })
      | _ => do
          match ← foldInstruction floats types instruction.kind result s.known with
          | none => return (instruction, s)
          | some constant =>
              return ({ instruction with kind := .constant constant },
                { known := Function.update s.known result.value (some ⟨constant, result.ty⟩)
                  foldedInstructions := s.foldedInstructions + 1 })

def visitInstructions : List Instruction → FoldState → Except Panic (List Instruction × FoldState)
  | [], s => return ([], s)
  | instruction :: rest, s => do
      let (instruction, s) ← visitInstruction floats types instruction s
      let (rest, s) ← visitInstructions rest s
      return (instruction :: rest, s)

def visitBlocks : List Block → FoldState → Except Panic (List Block × FoldState)
  | [], s => return ([], s)
  | block :: rest, s => do
      let (instructions, s) ← visitInstructions floats types block.instructions s
      let (rest, s) ← visitBlocks rest s
      return ({ block with instructions } :: rest, s)

def foldFunction (f : Function) (stats : ℕ) : Except Panic (Function × ℕ) := do
  let (blocks, s) ← visitBlocks floats types f.blocks ⟨fun _ => none, stats⟩
  return ({ f with blocks }, s.foldedInstructions)

def foldFunctions : List Function → ℕ → Except Panic (List Function × ℕ)
  | [], stats => return ([], stats)
  | f :: rest, stats => do
      let (f, stats) ← foldFunction floats types f stats
      let (rest, stats) ← foldFunctions rest stats
      return (f :: rest, stats)

/-- Folds pure scalar instructions whose operands are known constants. -/
def foldConstants (module : Module) : Except Panic (Module × ℕ) := do
  let (functions, stats) ← foldFunctions floats module.types module.functions 0
  return ({ module with functions }, stats)

end Folding

end Jadren.Jir
