import Jadren.Jir.Folding
import Jadren.Library.NarrowWords

/-!
# Folded constants are exact

The pass computes in words of 128 bits what the instruction computes at its width: the
operands are cut down to the width and extended with zeros or with their sign, the operation
is done on the wide words, and the low bits of the result are the result (`rawExact`).  What
is stored is the number that the word of the width stands for, with its sign if the type has
one (`stored`, `exists_stored`).

So a folded instruction is replaced by the number of its two's-complement value at its width,
by the truth value of the comparison, or by the constant of the operand that is chosen
(`Exact`), and none of the host's checks fails, since the pass tests for each of them first
(`foldConstants_exact`).  On floating-point numbers the result is the one that the host
computes at the width of the type.
-/

namespace Jadren.Jir

namespace Folding

open NarrowWords

/-! ## Two's complement at a width -/

section

variable {w : ℕ}

def unaryWord (op : UnaryOp) (x : BitVec w) : BitVec w :=
  match op with
  | .negate => -x
  | .not | .bitNot => ~~~x

/-- A division by zero and a shift by the width or more have no result. -/
def binaryWord (op : BinaryOp) (signed : Bool) (x y : BitVec w) : Option (BitVec w) :=
  match op with
  | .add => some (x + y)
  | .subtract => some (x - y)
  | .multiply => some (x * y)
  | .divide => if y = 0 then none else some (if signed then x.sdiv y else x / y)
  | .remainder => if y = 0 then none else some (if signed then x.srem y else x % y)
  | .bitAnd => some (x &&& y)
  | .bitOr => some (x ||| y)
  | .bitXor => some (x ^^^ y)
  | .shiftLeft => if y.toNat < w then some (x <<< y.toNat) else none
  | .shiftRight =>
      if y.toNat < w then some (if signed then x.sshiftRight y.toNat else x >>> y.toNat) else none

def compareWord (predicate : ComparePredicate) (signed : Bool) (x y : BitVec w) : Bool :=
  match predicate with
  | .equal => x == y
  | .notEqual => x != y
  | .less => if signed then x.slt y else x.ult y
  | .lessEqual => if signed then x.sle y else x.ule y
  | .greater => if signed then y.slt x else y.ult x
  | .greaterEqual => if signed then y.sle x else y.ule x

/-- The number that is kept for a word: with its sign where the type has one.  A word of 128 bits is
kept as an `i128`, so with a sign in any case. -/
def stored (signed : Bool) (x : BitVec w) : ℤ := if signed ∨ w = 128 then x.toInt else x.toNat

/-- Only an extension looks at the sign. -/
def castWord (op : CastOp) (signed : Bool) (x : BitVec w) (target : ℕ) : BitVec target :=
  if op = .integerExtend ∧ signed then x.signExtend target else x.setWidth target

end

def binaryBool : BinaryOp → Bool → Bool → Option Bool
  | .bitAnd, x, y => some (x && y)
  | .bitOr, x, y => some (x || y)
  | .bitXor, x, y => some (x ^^ y)
  | _, _, _ => none

/-- A float at another width: the same bits at its own. -/
def castFloat (floats : HostFloats) (source target bits : ℕ) : ℕ :=
  if source = target then if source = 32 then bits % 2 ^ 32 else bits
  else floats.convert source target bits

/-- The constant is the exact result of the instruction on known constants.  Results on
floating-point numbers are what the host computes. -/
inductive Exact (floats : HostFloats) (types : List JirType)
    (known : ValueId → Option KnownConstant) (result : TypedValue) :
    InstructionKind → Constant → Prop
  | unary {op : UnaryOp} {operand : ValueId} {value : ℤ} {ty : TypeId} {signed : Bool} {w : ℕ}
      (operand_known : known operand = some ⟨.integer value, ty⟩)
      (shape : integerShape types result.ty = some (signed, w)) :
      Exact floats types known result (.unary op operand)
        (.integer (stored signed (unaryWord op (BitVec.ofInt w value))))
  | not {operand : ValueId} {value : Bool} {ty : TypeId}
      (operand_known : known operand = some ⟨.bool value, ty⟩) :
      Exact floats types known result (.unary .not operand) (.bool (!value))
  | binary {op : BinaryOp} {left right : ValueId} {x y : ℤ} {tyX tyY : TypeId} {signed : Bool}
      {w : ℕ} {word : BitVec w} (left_known : known left = some ⟨.integer x, tyX⟩)
      (right_known : known right = some ⟨.integer y, tyY⟩)
      (shape : integerShape types result.ty = some (signed, w))
      (exact : binaryWord op signed (BitVec.ofInt w x) (BitVec.ofInt w y) = some word) :
      Exact floats types known result (.binary op left right) (.integer (stored signed word))
  | logic {op : BinaryOp} {left right : ValueId} {x y z : Bool} {tyX tyY : TypeId}
      (left_known : known left = some ⟨.bool x, tyX⟩)
      (right_known : known right = some ⟨.bool y, tyY⟩) (exact : binaryBool op x y = some z) :
      Exact floats types known result (.binary op left right) (.bool z)
  | compare {predicate : ComparePredicate} {left right : ValueId} {x y : ℤ} {ty : TypeId}
      {signed : Bool} {w : ℕ} (left_known : known left = some ⟨.integer x, ty⟩)
      (right_known : known right = some ⟨.integer y, ty⟩)
      (shape : integerShape types ty = some (signed, w)) :
      Exact floats types known result (.compare predicate left right)
        (.bool (compareWord predicate signed (BitVec.ofInt w x) (BitVec.ofInt w y)))
  | equal {left right : ValueId} {x y : Bool} {ty : TypeId}
      (left_known : known left = some ⟨.bool x, ty⟩)
      (right_known : known right = some ⟨.bool y, ty⟩) :
      Exact floats types known result (.compare .equal left right) (.bool (x == y))
  | notEqual {left right : ValueId} {x y : Bool} {ty : TypeId}
      (left_known : known left = some ⟨.bool x, ty⟩)
      (right_known : known right = some ⟨.bool y, ty⟩) :
      Exact floats types known result (.compare .notEqual left right) (.bool (x != y))
  | cast {op : CastOp} {operand : ValueId} {value : ℤ} {ty target : TypeId}
      {signed targetSigned : Bool} {w w' : ℕ}
      (operand_known : known operand = some ⟨.integer value, ty⟩)
      (shape : integerShape types ty = some (signed, w))
      (target_shape : integerShape types target = some (targetSigned, w')) :
      Exact floats types known result (.cast op operand target)
        (.integer (stored targetSigned (castWord op signed (BitVec.ofInt w value) w')))
  | select {condition whenTrue whenFalse : ValueId} {value : Bool} {chosen : KnownConstant}
      {ty : TypeId} (condition_known : known condition = some ⟨.bool value, ty⟩)
      (chosen_known : known (if value then whenTrue else whenFalse) = some chosen) :
      Exact floats types known result (.select condition whenTrue whenFalse) chosen.value
  | floatNegate {operand : ValueId} {bits width : ℕ} {ty : TypeId}
      (operand_known : known operand = some ⟨.floatBits bits, ty⟩)
      (shape : floatWidth types result.ty = some width) (host : width = 32 ∨ width = 64) :
      Exact floats types known result (.unary .negate operand)
        (.floatBits (floats.negate width bits))
  | floatBinary {op : BinaryOp} {left right : ValueId} {x y width : ℕ} {tyX tyY : TypeId}
      (left_known : known left = some ⟨.floatBits x, tyX⟩)
      (right_known : known right = some ⟨.floatBits y, tyY⟩)
      (shape : floatWidth types result.ty = some width) (host : width = 32 ∨ width = 64) :
      Exact floats types known result (.binary op left right)
        (.floatBits (floats.arithmetic op width x y))
  | floatCompare {predicate : ComparePredicate} {left right : ValueId} {x y width : ℕ} {ty : TypeId}
      (left_known : known left = some ⟨.floatBits x, ty⟩)
      (right_known : known right = some ⟨.floatBits y, ty⟩)
      (shape : floatWidth types ty = some width) (host : width = 32 ∨ width = 64) :
      Exact floats types known result (.compare predicate left right)
        (.bool (floats.compare predicate width x y))
  | floatCast {op : CastOp} {operand : ValueId} {bits source width : ℕ} {ty target : TypeId}
      (operand_known : known operand = some ⟨.floatBits bits, ty⟩)
      (shape : floatWidth types ty = some source)
      (target_shape : floatWidth types target = some width) :
      Exact floats types known result (.cast op operand target)
        (.floatBits (castFloat floats source width bits))

/-- A computation goes on with what the first part returned. -/
theorem ok_bind {α β : Type} (value : α) (next : α → Except Panic β) :
    (Except.ok value >>= next) = next value := rfl

/-- No panic, and what is folded has the property. -/
def Yields {α : Type} (action : Except Panic (Option α)) (P : α → Prop) : Prop :=
  ∃ r, action = .ok r ∧ ∀ x, r = some x → P x

theorem yields_none {α : Type} {action : Except Panic (Option α)} {P : α → Prop}
    (h : action = .ok none) : Yields action P :=
  ⟨none, h, fun _ hx => nomatch hx⟩

theorem yields_some {α : Type} {action : Except Panic (Option α)} {P : α → Prop} {x : α}
    (h : action = .ok (some x)) (hx : P x) : Yields action P := by
  refine ⟨some x, h, ?_⟩
  intro y hy
  obtain rfl : x = y := Option.some_inj.mp hy
  exact hx

/-! ## Words of a width in words of the host -/

section

variable {w : ℕ}

theorem integerMask_eq (hw : w ≤ 128) : integerMask w = .ok (lowMask 128 w) := by
  unfold integerMask
  by_cases h : w = 128
  · subst h
    rw [if_pos rfl, lowMask_self]
  · have hlt : w < 128 := by omega
    have hle : (1 : Word) ≤ 1 <<< w := by
      show (1 : Word).toNat ≤ ((1 : Word) <<< w).toNat
      have hpow : 2 ^ w < 2 ^ 128 := Nat.pow_lt_pow_right (by decide) hlt
      have hone : 1 ≤ 2 ^ w := Nat.one_le_two_pow
      rw [BitVec.toNat_shiftLeft, Nat.shiftLeft_eq]
      show 1 ≤ 1 * 2 ^ w % 2 ^ 128
      rw [one_mul, Nat.mod_eq_of_lt hpow]
      exact hone
    rw [if_neg h, shiftLeft, if_pos hlt]
    show subtract (1 <<< w) 1 = _
    rw [subtract, if_pos hle, lowMask_eq hlt]
    rfl

theorem setWidth_ofInt (hw : w ≤ 128) (value : ℤ) :
    (BitVec.ofInt 128 value).setWidth w = BitVec.ofInt w value :=
  setWidth_eq_of_toInt hw (BitVec.toInt_ofInt _)

theorem integerRaw_eq (hw : w ≤ 128) (value : ℤ) :
    integerRaw value w = .ok ((BitVec.ofInt w value).setWidth 128) := by
  rw [integerRaw, integerMask_eq hw]
  show Except.ok (BitVec.ofInt 128 value &&& lowMask 128 w) = _
  rw [and_lowMask, setWidth_ofInt hw]

/-- A word of the host with the low bits of another, and zeros or the sign above them. -/
def extended (signed : Bool) (x : BitVec w) : Word :=
  if signed then x.signExtend 128 else x.setWidth 128

theorem normalizeInteger_eq (hpos : 0 < w) (hw : w ≤ 128) (raw : Word) (signed : Bool) :
    normalizeInteger raw w signed = .ok (extended signed (raw.setWidth w)) := by
  rw [normalizeInteger, integerMask_eq hw]
  show (if signed ∧ w < 128 then _ else pure (raw &&& lowMask 128 w)) = _
  rw [and_lowMask]
  cases signed with
  | false => rfl
  | true =>
      by_cases hlt : w < 128
      · rw [if_pos ⟨rfl, hlt⟩, shiftLeft, if_pos (by omega)]
        show (if (raw.setWidth w).setWidth 128 &&& (1 : Word) <<< (w - 1) ≠ 0 then _ else _) = _
        have hsign : ((raw.setWidth w).setWidth 128 &&& (1 : Word) <<< (w - 1) ≠ 0) ↔
            (raw.setWidth w).msb = true := and_twoPow_ne_zero hw hpos _
        by_cases hmsb : (raw.setWidth w).msb = true
        · rw [if_pos (hsign.mpr hmsb), setWidth_or_not_lowMask hmsb]
          rfl
        · rw [if_neg (mt hsign.mp hmsb), setWidth_eq_signExtend (by simpa using hmsb)]
          rfl
      · obtain rfl : w = 128 := by omega
        rw [if_neg (by simp)]
        show Except.ok _ = Except.ok (BitVec.signExtend 128 _)
        simp

theorem toNat_setWidth_eq (hw : w ≤ 128) (x : BitVec w) : (x.setWidth 128).toNat = x.toNat := by
  have hle : 2 ^ w ≤ 2 ^ 128 := Nat.pow_le_pow_right (by decide) hw
  rw [BitVec.toNat_setWidth, Nat.mod_eq_of_lt (x.isLt.trans_le hle)]

/-- The wide word is the number that the word stands for. -/
theorem toInt_extended (hw : w ≤ 128) (signed : Bool) (x : BitVec w) :
    (extended signed x).toInt = stored signed x := by
  unfold stored
  cases signed with
  | true =>
      rw [if_pos (.inl rfl)]
      exact BitVec.toInt_signExtend_of_le hw
  | false =>
      by_cases hall : w = 128
      · subst hall
        rw [if_pos (.inr rfl)]
        exact congrArg BitVec.toInt (BitVec.setWidth_eq x)
      · -- the sign bit of the wide word is not set
        have hpow : 2 ^ w ≤ 2 ^ 127 := Nat.pow_le_pow_right (by decide) (by omega)
        have hlt := x.isLt
        rw [if_neg (by simpa using hall), extended, if_neg (by decide), BitVec.toInt_eq_toNat_cond,
          toNat_setWidth_eq hw, if_pos (by omega)]

/-- What is stored for a wide word is the number that its low bits stand for. -/
theorem exists_stored (hpos : 0 < w) (hw : w ≤ 128) (raw : Word) (signed : Bool) :
    ∃ word, normalizeInteger raw w signed = .ok word ∧
      word.toInt = stored signed (raw.setWidth w) :=
  ⟨_, normalizeInteger_eq hpos hw raw signed, toInt_extended hw signed _⟩

theorem normalizeInteger_signed (hpos : 0 < w) (hw : w ≤ 128) (x : BitVec w) :
    normalizeInteger (x.setWidth 128) w true = .ok (x.signExtend 128) := by
  rw [normalizeInteger_eq hpos hw, setWidth_setWidth_cancel hw]
  rfl

/-! ## Operations -/

theorem setWidth_eq_zero (hw : w ≤ 128) {x : BitVec w} : x.setWidth 128 = 0 ↔ x = 0 := by
  have hzero : (0 : Word) = (0 : BitVec w).setWidth 128 := by simp
  rw [hzero, setWidth_inj hw]

theorem signExtend_ne_zero (hw : w ≤ 128) {x : BitVec w} (hx : x ≠ 0) :
    x.signExtend 128 ≠ 0 := by
  intro hzero
  apply hx
  rw [← setWidth_signExtend hw x, hzero]
  simp

/-- The low bits of the word that the operation comes to are the result. -/
def RawExact (op : BinaryOp) (signed : Bool) (x y : BitVec w) : Prop :=
  Yields (foldRaw op signed w (x.setWidth 128) (y.setWidth 128)) fun raw =>
    binaryWord op signed x y = some (raw.setWidth w)

theorem rawExact_divide (hpos : 0 < w) (hw : w ≤ 128) (signed : Bool) (x y : BitVec w) :
    RawExact .divide signed x y := by
  by_cases hy : y = 0
  · apply yields_none
    rw [foldRaw, if_pos ((setWidth_eq_zero hw).mpr hy)]
    rfl
  · have hwide : y.setWidth 128 ≠ 0 := mt (setWidth_eq_zero hw).mp hy
    cases signed with
    | false =>
        apply yields_some (x := x.setWidth 128 / y.setWidth 128)
        · rw [foldRaw, if_neg hwide, if_neg (by decide), divide, if_neg hwide]
          rfl
        · rw [binaryWord, if_neg hy, if_neg (by decide), setWidth_udiv hw]
    | true =>
        by_cases hmin : x.signExtend 128 = minimum ∧ y.signExtend 128 = -1
        · -- the one quotient that is no `i128`
          apply yields_none
          rw [foldRaw, if_neg hwide, if_pos rfl, normalizeInteger_signed hpos hw,
            normalizeInteger_signed hpos hw]
          exact if_pos hmin
        · apply yields_some (x := (x.signExtend 128).sdiv (y.signExtend 128))
          · rw [foldRaw, if_neg hwide, if_pos rfl, normalizeInteger_signed hpos hw,
              normalizeInteger_signed hpos hw]
            show (if _ ∧ _ then _ else _) = _
            rw [if_neg hmin, signedDivide, if_neg (signExtend_ne_zero hw hy), if_neg hmin]
            rfl
          · rw [binaryWord, if_neg hy, if_pos rfl, setWidth_sdiv hw]

theorem rawExact_remainder (hpos : 0 < w) (hw : w ≤ 128) (signed : Bool) (x y : BitVec w) :
    RawExact .remainder signed x y := by
  by_cases hy : y = 0
  · apply yields_none
    rw [foldRaw, if_pos ((setWidth_eq_zero hw).mpr hy)]
    rfl
  · have hwide : y.setWidth 128 ≠ 0 := mt (setWidth_eq_zero hw).mp hy
    cases signed with
    | false =>
        apply yields_some (x := x.setWidth 128 % y.setWidth 128)
        · rw [foldRaw, if_neg hwide, if_neg (by decide), remainder, if_neg hwide]
          rfl
        · rw [binaryWord, if_neg hy, if_neg (by decide), setWidth_umod hw]
    | true =>
        by_cases hmin : x.signExtend 128 = minimum ∧ y.signExtend 128 = -1
        · apply yields_none
          rw [foldRaw, if_neg hwide, if_pos rfl, normalizeInteger_signed hpos hw,
            normalizeInteger_signed hpos hw]
          exact if_pos hmin
        · apply yields_some (x := (x.signExtend 128).srem (y.signExtend 128))
          · rw [foldRaw, if_neg hwide, if_pos rfl, normalizeInteger_signed hpos hw,
              normalizeInteger_signed hpos hw]
            show (if _ ∧ _ then _ else _) = _
            rw [if_neg hmin, signedRemainder, if_neg (signExtend_ne_zero hw hy), if_neg hmin]
            rfl
          · rw [binaryWord, if_neg hy, if_pos rfl, setWidth_srem hw]

theorem rawExact_shiftLeft (hw : w ≤ 128) (signed : Bool) (x y : BitVec w) :
    RawExact .shiftLeft signed x y := by
  have hnat := toNat_setWidth_eq hw y
  by_cases hshift : 2 ^ 32 ≤ (y.setWidth 128).toNat ∨ w ≤ (y.setWidth 128).toNat
  · apply yields_none
    rw [foldRaw, if_pos hshift]
    rfl
  · have hlt : y.toNat < w := by omega
    apply yields_some (x := x.setWidth 128 <<< y.toNat)
    · rw [foldRaw, if_neg hshift, hnat, shiftLeft, if_pos (hlt.trans_le hw)]
      rfl
    · rw [binaryWord, if_pos hlt, BitVec.setWidth_shiftLeft_of_le hw,
        setWidth_setWidth_cancel hw]

theorem rawExact_shiftRight (hpos : 0 < w) (hw : w ≤ 128) (signed : Bool) (x y : BitVec w) :
    RawExact .shiftRight signed x y := by
  have hnat := toNat_setWidth_eq hw y
  by_cases hshift : 2 ^ 32 ≤ (y.setWidth 128).toNat ∨ w ≤ (y.setWidth 128).toNat
  · apply yields_none
    rw [foldRaw, if_pos hshift]
    rfl
  · have hlt : y.toNat < w := by omega
    have hhost : y.toNat < 128 := hlt.trans_le hw
    cases signed with
    | false =>
        apply yields_some (x := x.setWidth 128 >>> y.toNat)
        · rw [foldRaw, if_neg hshift, if_neg (by decide), hnat, shiftRight, if_pos hhost]
          rfl
        · rw [binaryWord, if_pos hlt, if_neg (by decide), setWidth_ushiftRight hw]
    | true =>
        apply yields_some (x := (x.signExtend 128).sshiftRight y.toNat)
        · rw [foldRaw, if_neg hshift, if_pos rfl, normalizeInteger_signed hpos hw, hnat]
          show (do return some (← signedShiftRight _ _)) = _
          rw [signedShiftRight, if_pos hhost]
          rfl
        · rw [binaryWord, if_pos hlt, if_pos rfl, setWidth_sshiftRight hw]

theorem rawExact (hpos : 0 < w) (hw : w ≤ 128) (op : BinaryOp) (signed : Bool) (x y : BitVec w) :
    RawExact op signed x y := by
  have hx : (x.setWidth 128).setWidth w = x := setWidth_setWidth_cancel hw x
  have hy : (y.setWidth 128).setWidth w = y := setWidth_setWidth_cancel hw y
  cases op with
  | add => exact yields_some rfl (by rw [BitVec.setWidth_add _ _ hw, hx, hy]; rfl)
  | subtract => exact yields_some rfl (by rw [setWidth_sub hw, hx, hy]; rfl)
  | multiply => exact yields_some rfl (by rw [BitVec.setWidth_mul _ _ hw, hx, hy]; rfl)
  | divide => exact rawExact_divide hpos hw signed x y
  | remainder => exact rawExact_remainder hpos hw signed x y
  | bitAnd => exact yields_some rfl (by rw [BitVec.setWidth_and, hx, hy]; rfl)
  | bitOr => exact yields_some rfl (by rw [BitVec.setWidth_or, hx, hy]; rfl)
  | bitXor => exact yields_some rfl (by rw [BitVec.setWidth_xor, hx, hy]; rfl)
  | shiftLeft => exact rawExact_shiftLeft hw signed x y
  | shiftRight => exact rawExact_shiftRight hpos hw signed x y

theorem compareInteger_eq (hpos : 0 < w) (hw : w ≤ 128) (x y : BitVec w) (signed : Bool)
    {predicate : ComparePredicate} (hequal : predicate ≠ .equal)
    (hnotEqual : predicate ≠ .notEqual) :
    compareInteger (x.setWidth 128) (y.setWidth 128) w signed predicate =
      .ok (compareWord predicate signed x y) := by
  cases signed with
  | false =>
      cases predicate <;> first | contradiction |
        (simp only [compareInteger, compareWord, BitVec.ult, BitVec.ule, toNat_setWidth_eq hw]
         rfl)
  | true =>
      rw [compareInteger.eq_def, if_pos rfl, normalizeInteger_signed hpos hw,
        normalizeInteger_signed hpos hw]
      cases predicate <;> first | contradiction |
        (simp only [compareWord, BitVec.slt, BitVec.sle, if_true,
           ← BitVec.toInt_signExtend_of_le hw]
         rfl)

end

/-! ## One instruction -/

section

variable (floats : HostFloats) (types : List JirType) (known : ValueId → Option KnownConstant)
  (result : TypedValue)

theorem integerShape_bounds {types : List JirType} {ty : TypeId} {signed : Bool} {w : ℕ}
    (h : integerShape types ty = some (signed, w)) : 0 < w ∧ w ≤ 128 := by
  unfold integerShape at h
  split at h
  · split at h
    · obtain ⟨-, rfl⟩ := Prod.mk.inj (Option.some_inj.mp h)
      assumption
    · exact nomatch h
  · exact nomatch h

theorem foldUnary_exact (op : UnaryOp) (operand : ValueId) :
    Yields (foldUnary floats types op (known operand) result.ty)
      (Exact floats types known result (.unary op operand)) := by
  cases hoperand : known operand with
  | none => exact yields_none rfl
  | some constant =>
      obtain ⟨value, ty⟩ := constant
      cases value with
      | integer value =>
          cases hshape : integerShape types result.ty with
          | none => cases op <;> exact yields_none (by simp only [foldUnary, hshape]; rfl)
          | some shape =>
              obtain ⟨signed, w⟩ := shape
              obtain ⟨hpos, hw⟩ := integerShape_bounds hshape
              -- the source computes in 128 bits and stores the low `w` of them
              have hraw := integerRaw_eq hw value
              cases op with
              | negate =>
                  obtain ⟨word, hword, hexact⟩ :=
                    exists_stored hpos hw (-(BitVec.ofInt w value).setWidth 128) signed
                  rw [BitVec.setWidth_neg_of_le hw, setWidth_setWidth_cancel hw] at hexact
                  apply yields_some _ (x := .integer word.toInt)
                    (by rw [hexact]; exact .unary hoperand hshape)
                  simp only [foldUnary, hshape, hraw]
                  show (do return some (Constant.integer (← normalizeInteger _ w signed).toInt)) = _
                  rw [hword]
                  rfl
              | not | bitNot =>
                  obtain ⟨word, hword, hexact⟩ :=
                    exists_stored hpos hw (~~~(BitVec.ofInt w value).setWidth 128) signed
                  rw [BitVec.setWidth_not hw, setWidth_setWidth_cancel hw] at hexact
                  apply yields_some _ (x := .integer word.toInt)
                    (by rw [hexact]; exact .unary hoperand hshape)
                  simp only [foldUnary, hshape, hraw]
                  show (do return some (Constant.integer (← normalizeInteger _ w signed).toInt)) = _
                  rw [hword]
                  rfl
      | bool =>
          cases op with
          | not => exact yields_some rfl (.not hoperand)
          | negate | bitNot => exact yields_none rfl
      | floatBits =>
          cases op with
          | negate =>
              refine ⟨_, rfl, fun c hc => ?_⟩
              unfold foldFloatUnary at hc
              split at hc <;> cases hc
              · exact .floatNegate hoperand ‹_› (.inl rfl)
              · exact .floatNegate hoperand ‹_› (.inr rfl)
          | not | bitNot => exact yields_none rfl
      | zero | null => cases op <;> exact yields_none rfl

theorem foldBinary_exact (op : BinaryOp) (left right : ValueId) :
    Yields (foldBinary floats types op (known left) (known right) result.ty)
      (Exact floats types known result (.binary op left right)) := by
  cases hleft : known left with
  | none => exact yields_none rfl
  | some leftConstant =>
    cases hright : known right with
    | none => exact yields_none rfl
    | some rightConstant =>
      obtain ⟨x, tyX⟩ := leftConstant
      obtain ⟨y, tyY⟩ := rightConstant
      cases x <;> cases y <;> try exact yields_none rfl
      case bool.bool x y =>
        cases op <;> first | exact yields_none rfl | exact yields_some rfl (.logic hleft hright rfl)
      case integer.integer x y =>
        cases hshape : integerShape types result.ty with
        | none => exact yields_none (by simp only [foldBinary, hshape]; rfl)
        | some shape =>
            obtain ⟨signed, w⟩ := shape
            obtain ⟨hpos, hw⟩ := integerShape_bounds hshape
            -- a result in 128 bits has the low bits of the one in `w`
            obtain ⟨r, hr, hexact⟩ :=
              rawExact hpos hw op signed (BitVec.ofInt w x) (BitVec.ofInt w y)
            simp only [foldBinary, hshape, integerRaw_eq hw, ok_bind, hr]
            cases r with
            | none => exact yields_none rfl
            | some raw =>
                obtain ⟨word, hword, hstored⟩ := exists_stored hpos hw raw signed
                have hvalue : binaryWord op signed (BitVec.ofInt w x) (BitVec.ofInt w y) =
                    some (raw.setWidth w) := hexact raw rfl
                apply yields_some _ (x := .integer word.toInt)
                  (by rw [hstored]; exact .binary hleft hright hshape hvalue)
                simp only [hword, ok_bind]
                rfl
      case floatBits.floatBits x y =>
        refine ⟨_, rfl, fun c hc => ?_⟩
        unfold foldFloatBinary at hc
        split at hc <;> cases hc <;>
          first
          | exact .floatBinary hleft hright ‹_› (.inl rfl)
          | exact .floatBinary hleft hright ‹_› (.inr rfl)

theorem setWidth_beq (hw : w ≤ 128) (x y : BitVec w) :
    (x.setWidth 128 == y.setWidth 128) = (x == y) := by
  rw [Bool.eq_iff_iff, beq_iff_eq, beq_iff_eq, setWidth_inj hw]

theorem foldCompare_exact (predicate : ComparePredicate) (left right : ValueId) :
    Yields (foldCompare floats types predicate (known left) (known right))
      (Exact floats types known result (.compare predicate left right)) := by
  cases hleft : known left with
  | none => exact yields_none rfl
  | some leftConstant =>
    cases hright : known right with
    | none => exact yields_none rfl
    | some rightConstant =>
      obtain ⟨x, tyX⟩ := leftConstant
      obtain ⟨y, tyY⟩ := rightConstant
      by_cases hty : tyX = tyY
      · subst hty
        cases x <;> cases y <;>
          try
            exact yields_none
              (by simp only [foldCompare, ne_eq, not_true_eq_false, if_false]; rfl)
        case bool.bool x y =>
          cases predicate <;> first
            | exact yields_none (if_neg (not_not.mpr rfl))
            | exact yields_some (if_neg (not_not.mpr rfl)) (.equal hleft hright)
            | exact yields_some (if_neg (not_not.mpr rfl)) (.notEqual hleft hright)
        case integer.integer x y =>
          cases hshape : integerShape types tyX with
          | none =>
              exact yields_none
                (by simp only [foldCompare, ne_eq, not_true_eq_false, if_false, hshape]; rfl)
          | some shape =>
              obtain ⟨signed, w⟩ := shape
              obtain ⟨hpos, hw⟩ := integerShape_bounds hshape
              apply yields_some _ (.compare hleft hright hshape)
              simp only [foldCompare, ne_eq, not_true_eq_false, if_false, hshape, integerRaw_eq hw]
              -- the comparison of the wide words is that of the operands
              have horder {predicate : ComparePredicate} :=
                @compareInteger_eq w hpos hw (BitVec.ofInt w x) (BitVec.ofInt w y) signed predicate
              cases predicate with
              | equal =>
                  exact congrArg (fun b => Except.ok (some (Constant.bool b)))
                    (setWidth_beq hw _ _)
              | notEqual =>
                  exact congrArg (fun b => Except.ok (some (Constant.bool !b)))
                    (setWidth_beq hw _ _)
              | less | lessEqual | greater | greaterEqual =>
                  show (do return some (Constant.bool (← compareInteger _ _ w signed _))) = _
                  rw [horder (by decide) (by decide)]
                  rfl
        case floatBits.floatBits x y =>
          cases hwidth : floatWidth types tyX with
          | none =>
              exact yields_none
                (by simp only [foldCompare, ne_eq, not_true_eq_false, if_false, hwidth]; rfl)
          | some width =>
              refine ⟨foldFloatCompare floats predicate x y width, ?_, ?_⟩
              · simp only [foldCompare, ne_eq, not_true_eq_false, if_false, hwidth]
                rfl
              · intro c hc
                unfold foldFloatCompare at hc
                split at hc <;> cases hc
                · exact .floatCompare hleft hright hwidth (.inl rfl)
                · exact .floatCompare hleft hright hwidth (.inr rfl)
      · exact yields_none (if_pos hty)

theorem narrow_signExtend {w w' : ℕ} (hw' : w' ≤ 128) (x : BitVec w) :
    (x.signExtend 128).setWidth w' = x.signExtend w' := by
  ext i hi
  simp [BitVec.getElem_signExtend, Nat.lt_of_lt_of_le hi hw']

theorem narrow_setWidth {w w' : ℕ} (hw' : w' ≤ 128) (x : BitVec w) :
    (x.setWidth 128).setWidth w' = x.setWidth w' := by
  ext i hi
  simp [Nat.lt_of_lt_of_le hi hw']

theorem foldInteger_exact {op : CastOp} {operand : ValueId} {value : ℤ} {ty target : TypeId}
    (hop : op = .integerExtend ∨ op = .integerTruncate)
    (hoperand : known operand = some ⟨.integer value, ty⟩) :
    Yields (foldCast floats types op (known operand) target)
      (Exact floats types known result (.cast op operand target)) := by
  rw [hoperand]
  cases htarget : integerShape types target with
  | none =>
      apply yields_none
      rcases hop with rfl | rfl <;> simp only [foldCast, htarget] <;> rfl
  | some targetShape =>
    cases hshape : integerShape types ty with
    | none =>
        apply yields_none
        rcases hop with rfl | rfl <;> simp only [foldCast, htarget, hshape] <;> rfl
    | some shape =>
      obtain ⟨targetSigned, w'⟩ := targetShape
      obtain ⟨signed, w⟩ := shape
      obtain ⟨hpos', hw'⟩ := integerShape_bounds htarget
      obtain ⟨hpos, hw⟩ := integerShape_bounds hshape
      let x := BitVec.ofInt w value
      -- the word between the two widths
      let wide : Word :=
        if op = .integerExtend ∧ signed then x.signExtend 128 else x.setWidth 128
      have hwide : wide.setWidth w' = castWord op signed x w' := by
        by_cases hextend : op = .integerExtend ∧ signed
        · simp only [wide, castWord, if_pos hextend]
          exact narrow_signExtend hw' x
        · simp only [wide, castWord, if_neg hextend]
          exact narrow_setWidth hw' x
      obtain ⟨word, hword, hexact⟩ := exists_stored hpos' hw' wide targetSigned
      rw [hwide] at hexact
      apply yields_some _ (x := .integer word.toInt)
        (by rw [hexact]; exact .cast hoperand hshape htarget)
      have hsource : (if op = .integerExtend ∧ signed then normalizeInteger (x.setWidth 128) w true
          else pure (x.setWidth 128)) = .ok wide := by
        by_cases hextend : op = .integerExtend ∧ signed
        · simp only [wide, if_pos hextend, normalizeInteger_signed hpos hw]
        · simp only [wide, if_neg hextend]
          rfl
      have hfold : foldCast floats types op (some ⟨.integer value, ty⟩) target =
          (if op = .integerExtend ∧ signed then normalizeInteger (x.setWidth 128) w true
            else pure (x.setWidth 128)) >>= fun source => do
              return some (Constant.integer (← normalizeInteger source w' targetSigned).toInt) := by
        rcases hop with rfl | rfl <;> cases signed <;>
          simp only [foldCast, htarget, hshape, integerRaw_eq hw] <;> rfl
      rw [hfold, hsource]
      show (do return some (Constant.integer (← normalizeInteger wide w' targetSigned).toInt)) = _
      rw [hword]
      rfl

theorem foldCast_exact (op : CastOp) (operand : ValueId) (target : TypeId) :
    Yields (foldCast floats types op (known operand) target)
      (Exact floats types known result (.cast op operand target)) := by
  cases hoperand : known operand with
  | none => exact yields_none rfl
  | some constant =>
      obtain ⟨value, ty⟩ := constant
      cases value with
      | integer =>
          cases op with
          | integerExtend =>
              simpa only [hoperand] using
                foldInteger_exact floats types known result (.inl rfl) hoperand
          | integerTruncate =>
              simpa only [hoperand] using
                foldInteger_exact floats types known result (.inr rfl) hoperand
          | _ => exact yields_none rfl
      | floatBits =>
          cases op with
          | floatExtend | floatTruncate =>
              cases hsource : floatWidth types ty with
              | none =>
                  exact yields_none (by simp only [foldCast, hsource]; rfl)
              | some =>
                cases htarget : floatWidth types target with
                | none => exact yields_none (by simp only [foldCast, hsource, htarget]; rfl)
                | some =>
                    simp only [foldCast, hsource, htarget]
                    split <;> refine ⟨_, rfl, fun c hc => ?_⟩ <;> cases hc
                    all_goals
                      rename_i hsame hsame'
                      cases hsame
                      cases hsame'
                      exact .floatCast hoperand hsource htarget
          | _ => exact yields_none rfl
      | bool | zero | null => cases op <;> exact yields_none rfl

theorem foldSelect_exact (condition whenTrue whenFalse : ValueId) :
    Yields (.ok (foldSelect (known condition) (known whenTrue) (known whenFalse)))
      (Exact floats types known result (.select condition whenTrue whenFalse)) := by
  refine ⟨_, rfl, ?_⟩
  intro c hc
  unfold foldSelect at hc
  cases hcondition : known condition with
  | none => simp [hcondition] at hc
  | some constant =>
      obtain ⟨value, ty⟩ := constant
      cases value with
      | bool value =>
          have hchosen : (known (if value then whenTrue else whenFalse)).map
              KnownConstant.value = some c := by
            cases value <;> simpa [hcondition] using hc
          obtain ⟨chosen, hknown, rfl⟩ := Option.map_eq_some_iff.mp hchosen
          exact .select hcondition hknown
      | _ => simp [hcondition] at hc

/-- Whatever a kind of instruction is folded to is its exact result. -/
theorem foldInstruction_exact (kind : InstructionKind) :
    Yields (foldInstruction floats types kind result known)
    (Exact floats types known result kind) := by
  cases kind with
  | unary op operand => exact foldUnary_exact floats types known result op operand
  | binary op left right => exact foldBinary_exact floats types known result op left right
  | compare predicate left right =>
      exact foldCompare_exact floats types known result predicate left right
  | cast op operand target => exact foldCast_exact floats types known result op operand target
  | select condition whenTrue whenFalse =>
      exact foldSelect_exact floats types known result condition whenTrue whenFalse
  | _ => exact yields_none rfl

end

/-! ## What is left as it is -/

theorem binaryWord_eq_none_iff {w : ℕ} (op : BinaryOp) (signed : Bool) (x y : BitVec w) :
    binaryWord op signed x y = none ↔
      (op = .divide ∨ op = .remainder) ∧ y = 0 ∨
        (op = .shiftLeft ∨ op = .shiftRight) ∧ w ≤ y.toNat := by
  cases op <;> simp [binaryWord]

/-- An operation without a result is not folded. -/
theorem foldInstruction_eq_none (floats : HostFloats) {types : List JirType}
    {known : ValueId → Option KnownConstant} {result : TypedValue} {op : BinaryOp}
    {left right : ValueId} {x y : ℤ} {tyX tyY : TypeId} {signed : Bool} {w : ℕ}
    (hleft : known left = some ⟨.integer x, tyX⟩) (hright : known right = some ⟨.integer y, tyY⟩)
    (hshape : integerShape types result.ty = some (signed, w))
    (hnone : binaryWord op signed (BitVec.ofInt w x) (BitVec.ofInt w y) = none) :
    foldInstruction floats types (.binary op left right) result known = .ok none := by
  obtain ⟨r, hr, hexact⟩ := foldInstruction_exact floats types known result (.binary op left right)
  cases r with
  | none => exact hr
  | some constant =>
      -- what is exact has a result
      cases hexact constant rfl with
      | binary hleft' hright' hshape' hvalue =>
          rw [hleft] at hleft'
          rw [hright] at hright'
          rw [hshape] at hshape'
          cases hleft'
          cases hright'
          cases hshape'
          exact nomatch hnone.symm.trans hvalue
      | logic hleft' | floatBinary hleft' => exact nomatch hleft.symm.trans hleft'

/-! ## The pass -/

/-- What is known after an instruction. -/
def learn (known : ValueId → Option KnownConstant) (instruction : Instruction) :
    ValueId → Option KnownConstant :=
  match instruction.result, instruction.kind with
  | some result, .constant constant =>
      Function.update known result.value (some ⟨constant, result.ty⟩)
  | _, _ => known

/-- An instruction is kept, or replaced by its exact result. -/
inductive FoldsTo (floats : HostFloats) (types : List JirType)
    (known : ValueId → Option KnownConstant)
    (instruction : Instruction) : Instruction → Prop
  | kept : FoldsTo floats types known instruction instruction
  | folded {result : TypedValue} {constant : Constant}
      (has_result : instruction.result = some result)
      (exact : Exact floats types known result instruction.kind constant) :
      FoldsTo floats types known instruction { instruction with kind := .constant constant }

/-- Instruction after instruction, by the constants that the new instructions before it hold. -/
inductive AllFold (floats : HostFloats) (types : List JirType) :
    (ValueId → Option KnownConstant) → List Instruction → List Instruction → Prop
  | nil {known : ValueId → Option KnownConstant} : AllFold floats types known [] []
  | cons {known : ValueId → Option KnownConstant} {instruction instruction' : Instruction}
      {rest rest' : List Instruction} (head : FoldsTo floats types known instruction instruction')
      (tail : AllFold floats types (learn known instruction') rest rest') :
      AllFold floats types known (instruction :: rest) (instruction' :: rest')

theorem AllFold.append {floats : HostFloats} {types : List JirType}
    {known : ValueId → Option KnownConstant}
    {front front' back back' : List Instruction} (hfront : AllFold floats types known front front')
    (hback : AllFold floats types (front'.foldl learn known) back back') :
    AllFold floats types known (front ++ back) (front' ++ back') := by
  induction hfront with
  | nil => exact hback
  | cons head _ ih => exact .cons head (ih hback)

/-- A block but for its instructions. -/
def SameBlock (block block' : Block) : Prop :=
  block'.instructions.length = block.instructions.length ∧
    block' = { block with instructions := block'.instructions }

/-- A function is kept but for its instructions, and these fold. -/
structure FunctionFolds (floats : HostFloats) (types : List JirType) (f f' : Function) : Prop where
  frame : f' = { f with blocks := f'.blocks }
  blocks : List.Forall₂ SameBlock f.blocks f'.blocks
  instructions : AllFold floats types (fun _ => none) f.instructions f'.instructions

section

variable (floats : HostFloats) (types : List JirType)

theorem visitInstruction_spec (instruction : Instruction) (s : FoldState) :
    ∃ instruction' s', visitInstruction floats types instruction s = .ok (instruction', s') ∧
      FoldsTo floats types s.known instruction instruction' ∧
      s'.known = learn s.known instruction' := by
  obtain ⟨result, kind, span⟩ := instruction
  cases result with
  | none => exact ⟨_, _, rfl, .kept, by cases kind <;> rfl⟩
  | some result =>
      by_cases hconstant : ∃ constant, kind = .constant constant
      · obtain ⟨constant, rfl⟩ := hconstant
        exact ⟨_, _, rfl, .kept, rfl⟩
      · obtain ⟨r, hr, hexact⟩ := foldInstruction_exact floats types s.known result kind
        cases r with
        | none =>
            refine ⟨⟨some result, kind, span⟩, s, ?_, .kept, ?_⟩ <;>
              cases kind <;>
                first
                | exact absurd ⟨_, rfl⟩ hconstant
                | rfl
                | (simp only [visitInstruction, hr, ok_bind]; rfl)
        | some constant =>
            refine ⟨⟨some result, .constant constant, span⟩,
              ⟨Function.update s.known result.value (some ⟨constant, result.ty⟩),
                s.foldedInstructions + 1⟩, ?_, .folded rfl (hexact constant rfl), rfl⟩
            cases kind <;>
              first
              | exact absurd ⟨_, rfl⟩ hconstant
              | (simp only [visitInstruction, hr, ok_bind]; rfl)

theorem visitInstructions_spec (instructions : List Instruction) :
    ∀ s : FoldState, ∃ instructions' s',
      visitInstructions floats types instructions s = .ok (instructions', s') ∧
        AllFold floats types s.known instructions instructions' ∧
        s'.known = instructions'.foldl learn s.known := by
  induction instructions with
  | nil => exact fun s => ⟨[], s, rfl, .nil, rfl⟩
  | cons instruction rest ih =>
      intro s
      obtain ⟨instruction', s₁, hhead, hfold, hknown⟩ :=
        visitInstruction_spec floats types instruction s
      obtain ⟨rest', s₂, htail, hall, hafter⟩ := ih s₁
      refine ⟨instruction' :: rest', s₂, ?_, .cons hfold (hknown ▸ hall), ?_⟩
      · simp only [visitInstructions, hhead, htail, ok_bind]
        rfl
      · rw [hafter, hknown, List.foldl_cons]

theorem AllFold.length_eq {floats : HostFloats} {types : List JirType}
    {known : ValueId → Option KnownConstant}
    {instructions instructions' : List Instruction}
    (h : AllFold floats types known instructions instructions') :
    instructions'.length = instructions.length := by
  induction h with
  | nil => rfl
  | cons _ _ ih => simp [ih]

theorem visitBlocks_spec (blocks : List Block) :
    ∀ s : FoldState, ∃ blocks' s', visitBlocks floats types blocks s = .ok (blocks', s') ∧
      List.Forall₂ SameBlock blocks blocks' ∧
      AllFold floats types s.known (blocks.flatMap Block.instructions)
        (blocks'.flatMap Block.instructions) := by
  induction blocks with
  | nil => exact fun s => ⟨[], s, rfl, .nil, .nil⟩
  | cons block rest ih =>
      intro s
      obtain ⟨instructions, s₁, hhead, hfold, hknown⟩ :=
        visitInstructions_spec floats types block.instructions s
      obtain ⟨rest', s₂, htail, hblocks, hall⟩ := ih s₁
      refine ⟨{ block with instructions } :: rest', s₂, ?_,
        .cons ⟨hfold.length_eq, rfl⟩ hblocks, ?_⟩
      · simp only [visitBlocks, hhead, htail, ok_bind]
        rfl
      · rw [List.flatMap_cons, List.flatMap_cons]
        exact hfold.append (hknown ▸ hall)

theorem foldFunction_spec (f : Function) (stats : ℕ) :
    ∃ f' stats', foldFunction floats types f stats = .ok (f', stats') ∧
      FunctionFolds floats types f f' := by
  obtain ⟨blocks, s, hvisit, hblocks, hall⟩ :=
    visitBlocks_spec floats types f.blocks ⟨fun _ => none, stats⟩
  refine ⟨{ f with blocks }, s.foldedInstructions, ?_, ⟨rfl, hblocks, hall⟩⟩
  rw [foldFunction, hvisit]
  rfl

theorem foldFunctions_spec (functions : List Function) :
    ∀ stats, ∃ functions' stats',
      foldFunctions floats types functions stats = .ok (functions', stats') ∧
        List.Forall₂ (FunctionFolds floats types) functions functions' := by
  induction functions with
  | nil => exact fun stats => ⟨[], stats, rfl, .nil⟩
  | cons f rest ih =>
      intro stats
      obtain ⟨f', stats₁, hhead, hfold⟩ := foldFunction_spec floats types f stats
      obtain ⟨rest', stats₂, htail, hrest⟩ := ih stats₁
      refine ⟨f' :: rest', stats₂, ?_, .cons hfold hrest⟩
      simp only [foldFunctions, hhead, htail, ok_bind]
      rfl

/-- **Folding is exact.**  The pass comes to its end without a panic, and all it changes are
instructions that become the constants of their exact results; a division or a remainder by zero
and a shift by the width or more stay. -/
theorem foldConstants_exact (module : Module) :
    (∃ module' foldedInstructions,
      foldConstants floats module = .ok (module', foldedInstructions) ∧
        module'.types = module.types ∧
        List.Forall₂ (FunctionFolds floats module.types) module.functions module'.functions) ∧
      ∀ (known : ValueId → Option KnownConstant) (result : TypedValue) (op : BinaryOp)
        (left right : ValueId) (x y : ℤ) (tyX tyY : TypeId) (signed : Bool) (w : ℕ),
        known left = some ⟨.integer x, tyX⟩ → known right = some ⟨.integer y, tyY⟩ →
        integerShape module.types result.ty = some (signed, w) →
        ((op = .divide ∨ op = .remainder) ∧ BitVec.ofInt w y = 0 ∨
          (op = .shiftLeft ∨ op = .shiftRight) ∧ w ≤ (BitVec.ofInt w y).toNat) →
        foldInstruction floats module.types (.binary op left right) result known = .ok none := by
  constructor
  · obtain ⟨functions, stats, hfold, hall⟩ :=
      foldFunctions_spec floats module.types module.functions 0
    refine ⟨{ module with functions }, stats, ?_, rfl, hall⟩
    rw [foldConstants, hfold]
    rfl
  · intro known result op left right x y tyX tyY signed w hleft hright hshape hnone
    exact foldInstruction_eq_none floats hleft hright hshape
      ((binaryWord_eq_none_iff op signed _ _).mpr hnone)

end

end Folding

end Jadren.Jir
