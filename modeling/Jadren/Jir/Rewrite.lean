import Jadren.Jir.Verifier

/-!
# Rewriting values

What the passes that replace or remove instructions share: a table of
replacements, chains of replacements followed to their end, operands rewritten
throughout a function, and values numbered anew without gaps.  What such a pass
did to a function is said instruction by instruction (`Function.BlockWise`).
-/

namespace Jadren.Jir

/-- Values to be replaced by others. -/
abbrev Replacements := List (ValueId × ValueId)

namespace Replacements

/-- A later replacement of a value supersedes an earlier one. -/
def insert (replacements : Replacements) (value replacement : ValueId) : Replacements :=
  (value, replacement) :: replacements.filter fun entry => entry.1 != value

/-- The value to use for a value. -/
def remap (replacements : Replacements) (value : ValueId) : ValueId :=
  (replacements.lookup value).getD value

/-- Follows replacements for a number of steps, or until there is none. -/
def follow (replacements : Replacements) : ℕ → ValueId → ValueId
  | 0, value => value
  | guard + 1, value =>
      match replacements.lookup value with
      | some next => follow replacements guard next
      | none => value

/-- The end of a chain of replacements. -/
def resolve (replacements : Replacements) (value : ValueId) : ValueId :=
  replacements.follow (replacements.length + 1) value

/-- Each replaced value with the end of its chain. -/
def resolved (replacements : Replacements) : Replacements :=
  replacements.map fun entry => (entry.1, replacements.resolve entry.1)

theorem lookup_insert (replacements : Replacements) (value replacement v : ValueId) :
    (replacements.insert value replacement).lookup v =
      if v = value then some replacement else replacements.lookup v := by
  by_cases hv : v = value
  · simp [insert, hv]
  · have hbeq : (v == value) = false := by simpa using hv
    rw [if_neg hv, insert, List.lookup_cons, hbeq]
    induction replacements with
    | nil => rfl
    | cons entry rest ih =>
        obtain ⟨key, target⟩ := entry
        by_cases hkey : key = value
        · have hne : (v == key) = false := by simpa [hkey] using hv
          simp [hkey, List.lookup_cons, hbeq, ih]
        · simp [hkey, List.lookup_cons, ih]

end Replacements

def Instruction.mapOperands (rename : ValueId → ValueId) (instruction : Instruction) :
    Instruction :=
  { instruction with kind := instruction.kind.mapOperands rename }

def Instruction.mapResult (rename : ValueId → ValueId) (instruction : Instruction) : Instruction :=
  { instruction with
    result := instruction.result.map fun result => { result with value := rename result.value } }

/-- A block whose operands are renamed. -/
def Block.mapOperands (rename : ValueId → ValueId) (block : Block) : Block :=
  { block with
    instructions := block.instructions.map (Instruction.mapOperands rename)
    terminator := block.terminator.mapOperands rename }

namespace Function

variable (f : Function)

/-- The values of a function in the order in which they are numbered: parameters,
parameters of the blocks, results. -/
def numberingOrder : List ValueId :=
  f.parameters.map TypedValue.value ++
    f.blocks.flatMap (fun block => block.parameters.map TypedValue.value) ++
    f.instructions.filterMap fun instruction => instruction.result.map TypedValue.value

/-- The number of a value; a value without a definition keeps its own. -/
def renumbered (v : ValueId) : ValueId :=
  if v ∈ f.numberingOrder then f.numberingOrder.idxOf v else v

/-- Numbers the values of a function anew.  Each value is defined once, so the
number given to a definition is the one its uses get. -/
def renumberValues : Function :=
  { f with
    parameters := f.parameters.map fun p => { p with value := f.renumbered p.value }
    blocks := f.blocks.map fun block =>
      { (block.mapOperands f.renumbered) with
        parameters := block.parameters.map fun p => { p with value := f.renumbered p.value }
        instructions := block.instructions.map fun instruction =>
          (instruction.mapOperands f.renumbered).mapResult f.renumbered } }

end Function

/-! ## Blocks rewritten instruction by instruction -/

/-- Each instruction of a list became some instructions, as its position and it say. -/
inductive Rewritten (becomes : ℕ → Instruction → List Instruction → Prop) :
    ℕ → List Instruction → List Instruction → Prop
  | nil {i : ℕ} : Rewritten becomes i [] []
  | cons {i : ℕ} {instruction : Instruction} {kept rest rest' : List Instruction}
      (h : becomes i instruction kept) (hrest : Rewritten becomes (i + 1) rest rest') :
      Rewritten becomes i (instruction :: rest) (kept ++ rest')

/-- A function is another one but for the instructions in its blocks, and those are what the
other's have become. -/
structure Function.BlockWise (f f' : Function)
    (becomes : ℕ → ℕ → Instruction → List Instruction → Prop) : Prop where
  same : f' = { f with blocks := f'.blocks }
  length : f'.blocks.length = f.blocks.length
  blocks : ∀ b block, f.blocks[b]? = some block → ∃ instructions,
    f'.blocks[b]? = some { block with instructions := instructions } ∧
      Rewritten (becomes b) 0 block.instructions instructions

theorem Rewritten.filter (p : Instruction → Bool) (i : ℕ) (instructions : List Instruction) :
    Rewritten (fun _ instruction kept => kept = if p instruction then [instruction] else []) i
      instructions (instructions.filter p) := by
  induction instructions generalizing i with
  | nil => exact .nil
  | cons instruction rest ih =>
      have hcons : Rewritten (fun _ instruction kept => kept = if p instruction then [instruction]
          else []) i (instruction :: rest)
          ((if p instruction then [instruction] else []) ++ rest.filter p) :=
        .cons rfl (ih (i + 1))
      cases hp : p instruction <;> simpa [hp] using hcons

end Jadren.Jir
