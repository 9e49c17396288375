import Jadren.Runtime.BufferRuns
import Jadren.Runtime.StringTexts
import Mathlib.Data.List.Induction

/-!
# Runs of string operations

A program calls the operations on the header at one place in any order, with any arguments
and whatever the allocator does, and changes other memory in between.  The header owns the
text that the calls since the last clear have given it; no call faults, and one that fails
has changed nothing.

What a caller owes is that the pointer to the header is that place or null, and that a
range it lends can be read and is apart from the string (`StringOperation.Permitted`).
-/

namespace Jadren.Runtime

open Program List

/-! ## Operations -/

/-- An operation and its arguments. -/
inductive StringOperation
  | create (capacity : ℕ)
  | fromUtf8 (bytes : Pointer) (length : ℕ)
  | reserve (string : Pointer) (minimumCapacity : ℕ)
  | append (string bytes : Pointer) (length : ℕ)
  | clear (string : Pointer)
  | destroy (string : Pointer)

/-- What a successful call does to the text. -/
inductive StringEvent
  | starts (text : List Byte)
  | appends (range : List Byte)

/-- The text after these calls. -/
def textOf (events : List StringEvent) : List Byte :=
  events.foldl (fun text event => match event with
    | .starts text => text
    | .appends range => text ++ range) []

theorem textOf_starts (events : List StringEvent) (text : List Byte) :
    textOf (events ++ [.starts text]) = text := by
  unfold textOf
  rw [foldl_append, foldl_cons, foldl_nil]

theorem textOf_appends (events : List StringEvent) (range : List Byte) :
    textOf (events ++ [.appends range]) = textOf events ++ range := by
  unfold textOf
  rw [foldl_append, foldl_cons, foldl_nil]

namespace StringOperation

/-- The call; a new string becomes that of the header at `p`. -/
def call (A : Allocator) (p : Pointer) : StringOperation → StringCall Unit
  | create capacity => do
    let string ← stringCreate A capacity
    storeBuffer p string
  | fromUtf8 bytes length => do
    let string ← stringFromUtf8 A bytes length
    storeBuffer p string
  | reserve string minimumCapacity => stringReserve A string minimumCapacity
  | append string bytes length => stringAppendUtf8 A string bytes length
  | clear string => stringClear string
  | destroy string => stringDestroy string

/-- The documented contract of the pointers: the header, and a range that can be read and is
apart from the string. -/
def Permitted (p : Pointer) (w : World) : StringOperation → Prop
  | create _ => True
  | fromUtf8 bytes length => length ≠ 0 → ¬ bytes.isNull →
      ∃ source, w.memory.read bytes length = some source
  | append string bytes length => (string = p ∨ string.isNull) ∧
      (length ≠ 0 → ¬ bytes.isNull → ∃ source, w.memory.read bytes length = some source ∧
        ∀ string text spare, Owns w.memory p string text spare → Borrowed w p string bytes source)
  | reserve string _ => string = p ∨ string.isNull
  | clear string => string = p ∨ string.isNull
  | destroy string => string = p ∨ string.isNull

/-- The bytes at a pointer; none are read for an empty range. -/
def rangeAt (w : World) (bytes : Pointer) (length : ℕ) : List Byte :=
  (w.memory.read bytes length).getD []

/-- What the call does to the text if it succeeds. -/
def event (w : World) : StringOperation → Option StringEvent
  | create _ => some (.starts [])
  | fromUtf8 bytes length => some (.starts (rangeAt w bytes length))
  | reserve _ _ => none
  | append _ bytes length => some (.appends (rangeAt w bytes length))
  | clear _ => some (.starts [])
  | destroy _ => some (.starts [])

end StringOperation

section Calls

variable {p q : Pointer} {w : World} {H : Heap} {string : Utf8String} {text spare : List Byte}
  {events : List StringEvent}

/-- A successful call leaves a header that owns this text, and what is not the string's as it
was; a new string leaves the old block too. -/
def Succeeds (w : World) (p : Pointer) (string : Utf8String) (text : List Byte) (w' : World) :
    Prop :=
  ∃ old string' spare', (old = string ∨ old = .empty) ∧ Owns w'.memory p string' text spare' ∧
    Changes w w' p old string'

namespace StringOperation

/-- What a lent range holds, unless the call refuses it. -/
theorem exists_range {bytes : Pointer} {length : ℕ} {P : List Byte → Prop}
    (h : length ≠ 0 → ¬ bytes.isNull →
      ∃ source, w.memory.read bytes length = some source ∧ P source) :
    ∃ source, source.length = length ∧
      (length ≠ 0 → ¬ bytes.isNull → w.memory.read bytes length = some source ∧ P source) ∧
      ((length ≠ 0 → ¬ bytes.isNull) → rangeAt w bytes length = source) := by
  by_cases hzero : length = 0
  · refine ⟨[], hzero.symm, fun hne => absurd hzero hne, fun _ => ?_⟩
    unfold rangeAt
    cases hread : w.memory.read bytes length with
    | none => rfl
    | some => exact eq_nil_of_length_eq_zero ((length_read hread).trans hzero)
  by_cases hnull : bytes.isNull
  · exact ⟨replicate length 0, length_replicate, fun _ h => absurd hnull h,
      fun h => absurd hnull (h hzero)⟩
  · obtain ⟨source, hread, hsource⟩ := h hzero hnull
    refine ⟨source, length_read hread, fun _ _ => ⟨hread, hsource⟩, fun _ => ?_⟩
    unfold rangeAt
    rw [hread]
    rfl

/-- The calls that begin with the check of the pointer to the header. -/
theorem wp_null {f : StringCall Unit} {Q : Unit → World → Prop} (hnull : q.isNull) :
    wp (do
        requireRuntime
        failIf q.isNull .nullPointer
        f) Q (Untouched w) w := by
  refine wp_bind (wp_requireRuntime (wp_check ?_ fun h => ?_))
  · exact untouched _ StringStatus.noConfusion
  · exact absurd hnull h

section Specs

variable (h : Owns w.memory p string (textOf events) spare)
include h

theorem create_spec {capacity : ℕ} :
    wp ((create capacity).call H.toAllocator p)
      (fun _ => Succeeds w p string (textOf (events ++ [.starts []]))) (Untouched w) w := by
  rw [textOf_starts]
  refine wp_then stringCreate_spec fun created w' hcreated => ?_
  refine wp_mono (wp_storeCreated h.header hcreated) ?_ fun _ _ h => h
  rintro _ w'' ⟨spare', howns, hchanges⟩
  exact ⟨_, _, spare', .inr rfl, howns, hchanges⟩

theorem fromUtf8_spec {bytes : Pointer} {length : ℕ}
    (hop : (fromUtf8 bytes length).Permitted p w) :
    wp ((fromUtf8 bytes length).call H.toAllocator p)
      (fun _ => Succeeds w p string (textOf (events ++ [.starts (rangeAt w bytes length)])))
      (Untouched w) w := by
  obtain ⟨source, hlength, hread, hrange⟩ := exists_range (P := fun _ => True)
    fun hne hnull => (hop hne hnull).imp fun _ h => ⟨h, trivial⟩
  refine wp_then (stringFromUtf8_spec hlength fun hne hnull => (hread hne hnull).1) ?_
  rintro created w' ⟨hgiven, hcreated⟩
  refine wp_mono (wp_storeCreated h.header hcreated) ?_ fun _ _ h => h
  rintro _ w'' ⟨spare', howns, hchanges⟩
  rw [textOf_starts, hrange hgiven]
  exact ⟨_, _, spare', .inr rfl, howns, hchanges⟩

theorem append_spec {bytes : Pointer} {length : ℕ} (hop : (append q bytes length).Permitted p w) :
    wp ((append q bytes length).call H.toAllocator p)
      (fun _ => Succeeds w p string (textOf (events ++ [.appends (rangeAt w bytes length)])))
      (Untouched w) w := by
  obtain ⟨rfl | hnull, hlent⟩ := hop
  · obtain ⟨source, hlength, hread, hrange⟩ := exists_range hlent
    refine wp_mono (stringAppendUtf8_spec h hlength fun hne hnull =>
      (hread hne hnull).2 _ _ _ h) ?_ fun _ _ h => h
    rintro _ w' ⟨hgiven, string', spare', howns, hchanges⟩
    rw [textOf_appends, hrange hgiven]
    exact ⟨_, _, spare', .inl rfl, howns, hchanges⟩
  · exact wp_null hnull

theorem reserve_spec {minimumCapacity : ℕ} (hop : (reserve q minimumCapacity).Permitted p w) :
    wp ((reserve q minimumCapacity).call H.toAllocator p)
      (fun _ => Succeeds w p string (textOf events)) (Untouched w) w := by
  obtain rfl | hnull := hop
  · refine wp_mono (stringReserve_spec h) ?_ fun _ _ h => h
    rintro _ w' ⟨string', spare', howns, -, hchanges⟩
    exact ⟨_, _, spare', .inl rfl, howns, hchanges⟩
  · exact wp_null hnull

theorem clear_spec (hop : (clear q).Permitted p w) :
    wp ((clear q).call H.toAllocator p)
      (fun _ => Succeeds w p string (textOf (events ++ [.starts []]))) (Untouched w) w := by
  rw [textOf_starts]
  obtain rfl | hnull := hop
  · refine wp_mono (stringClear_spec h) ?_ fun _ _ h => h
    rintro _ w' ⟨string', spare', howns, hchanges⟩
    exact ⟨_, _, spare', .inl rfl, howns, hchanges⟩
  · exact wp_null hnull

theorem destroy_spec (hop : (destroy q).Permitted p w) :
    wp ((destroy q).call H.toAllocator p)
      (fun _ => Succeeds w p string (textOf (events ++ [.starts []]))) (Untouched w) w := by
  rw [textOf_starts]
  obtain rfl | hnull := hop
  · refine wp_mono (stringDestroy_spec h) ?_ fun _ _ h => h
    rintro _ w' ⟨howns, -, hchanges⟩
    exact ⟨_, _, [], .inl rfl, howns, hchanges⟩
  · exact wp_null hnull

/-- Every call does what its name says to the text, or fails and changes nothing. -/
theorem call_spec {op : StringOperation} (hop : op.Permitted p w) :
    wp (op.call H.toAllocator p)
      (fun _ => Succeeds w p string (textOf (events ++ (op.event w).toList))) (Untouched w) w := by
  cases op with
  | create => exact create_spec h
  | fromUtf8 => exact fromUtf8_spec h hop
  | append => exact append_spec h hop
  | clear => exact clear_spec h hop
  | destroy => exact destroy_spec h hop
  | reserve =>
    rw [show textOf (events ++ (event w (reserve _ _)).toList) = textOf events from
      congrArg textOf (append_nil _)]
    exact reserve_spec h hop

end Specs

end StringOperation

end Calls

/-! ## Runs -/

/-- The string of the header at `p` is as it was. -/
def Leaves (p : Pointer) (w w' : World) : Prop :=
  w'.memory.read p bufferSize = w.memory.read p bufferSize ∧
    ∀ string text spare, Owns w.memory p string text spare → string.capacity ≠ 0 →
      w'.memory string.pointer.base = w.memory string.pointer.base

/-- The runs of a program that calls the operations on the header at `p`, which is empty at
first, and in between changes what is not the string's. -/
def strings (p : Pointer) : System StringEvent where
  State := World
  initial w := w.memory.read p bufferSize = some Buffer.empty.toBytes
  step w event w' :=
    (∃ H : Heap, ∃ op : StringOperation, op.Permitted p w ∧
      ((op.call H.toAllocator p w = some (.ok (), w') ∧ event = op.event w) ∨
        ∃ status, op.call H.toAllocator p w = some (.error status, w') ∧ event = none)) ∨
    (Leaves p w w' ∧ event = none)

variable {p : Pointer}

/-- The header owns the text of the events so far. -/
theorem owns_of_run {events : List StringEvent} {w : World} (run : (strings p).Run events w) :
    ∃ string spare, Owns w.memory p string (textOf events) spare := by
  apply run.invariant (P := fun events w => ∃ string spare,
    Owns (World.memory w) p string (textOf events) spare)
  · intro w hempty
    exact ⟨.empty, [], holdsText_empty _, hempty, fun hne => absurd rfl hne⟩
  rintro events w event w' ⟨string, spare, h⟩ (⟨H, op, hop, hcall⟩ | ⟨⟨hheader, hblock⟩, rfl⟩)
  · have hspec := StringOperation.call_spec (H := H) h hop
    unfold wp at hspec
    obtain ⟨hcall, rfl⟩ | ⟨status, hcall, rfl⟩ := hcall
    · rw [hcall] at hspec
      obtain ⟨-, string', spare', -, howns, -⟩ := hspec
      exact ⟨string', spare', howns⟩
    · rw [hcall] at hspec
      obtain ⟨-, rfl⟩ := hspec
      exact ⟨string, spare, by rw [Option.toList_none, append_nil]; exact h⟩
  · rw [Option.toList_none, append_nil]
    exact ⟨string, spare, h.toHoldsText.congr (hblock _ _ _ h), hheader.trans h.header, h.apart⟩

/-- Wherever a program has got to, the header owns the text of the calls so far: its first
`length` bytes, valid UTF-8, in an allocation of `capacity` bytes.  The next call does to the
text what its name says, or fails and changes nothing; it does not fault. -/
theorem owns_and_calls_of_run {events : List StringEvent} {w : World}
    (run : (strings p).Run events w) :
    ∃ string spare, Owns w.memory p string (textOf events) spare ∧
      IsUtf8 (textOf events) ∧ string.length ≤ string.capacity ∧
      (string.length ≠ 0 →
        w.memory.read string.pointer string.length = some (textOf events)) ∧
      (string.capacity ≠ 0 → ∃ object, w.memory string.pointer.base = some object ∧
        object.layout = ⟨string.capacity, 1⟩) ∧
      ∀ (H : Heap) (op : StringOperation), op.Permitted p w →
        wp (op.call H.toAllocator p)
          (fun _ => Succeeds w p string (textOf (events ++ (op.event w).toList)))
          (Untouched w) w := by
  obtain ⟨string, spare, h⟩ := owns_of_run run
  refine ⟨string, spare, h, h.valid, h.toHoldsText.length_le, h.toHoldsText.read,
    fun hcapacity => ?_, fun H op hop => StringOperation.call_spec h hop⟩
  obtain ⟨-, object, hobject, -, hlayout⟩ := h.block hcapacity
  exact ⟨object, hobject, ((stringLayout_checked _).of_eq_ok hlayout).eq⟩

namespace Sample

def heap : Heap where
  toAllocator := allocator
  alloc_le h := by
    obtain ⟨-, hsome⟩ := Option.ite_none_right_eq_some.mp h
    obtain rfl := Option.some.inj hsome
    exact (by decide : 4096 ≤ u64Max)
  realloc_le := nofun

def place : Pointer := ⟨12288, 0⟩

def emptyHeader : Object := ⟨⟨24, 8⟩, Buffer.empty.toBytes, rfl⟩

/-- An empty string, and a byte to append. -/
def blank : World where
  initialized := true
  header := none
  memory := fun base => if base = 12288 then some emptyHeader
    else if base = 8192 then some storage else none

/-- Appending the byte. -/
def appendByte : StringOperation := .append place source 1

theorem permitted_appendByte : appendByte.Permitted place blank := by
  refine ⟨.inl rfl, fun _ _ => ⟨[9], rfl, fun string text spare h => ?_⟩⟩
  have hempty : string = .empty := by
    have hbytes := Option.some.inj (h.header.symm.trans (rfl : _ = some Buffer.empty.toBytes))
    rw [← h.storable.ofBytes_toBytes, hbytes, Buffer.ofBytes_empty]
  subst hempty
  exact ⟨rfl, fun hne => absurd rfl hne, fun h => absurd h (by decide)⟩

end Sample

theorem owns_and_calls_of_run_append :
    ∃ w string spare, Owns (World.memory w) Sample.place string [9] spare ∧
      string.length ≤ string.capacity := by
  have start : (strings Sample.place).Run [] Sample.blank := .start rfl
  obtain ⟨string, spare, howns, -, -, -, -, hcalls⟩ := owns_and_calls_of_run start
  have hcall := hcalls Sample.heap Sample.appendByte Sample.permitted_appendByte
  have hok : (Sample.appendByte.call Sample.heap.toAllocator Sample.place Sample.blank).map
      (fun result => result.1.toOption.isSome) = some true := by decide
  obtain ⟨_, w, hresult, -⟩ | ⟨status, w, hresult, -⟩ := wp_iff.mp hcall
  · have hstep : (strings Sample.place).step Sample.blank
        (Sample.appendByte.event Sample.blank) w :=
      .inl ⟨Sample.heap, Sample.appendByte, Sample.permitted_appendByte, .inl ⟨hresult, rfl⟩⟩
    obtain ⟨string, spare, howns, -, hle, -⟩ := owns_and_calls_of_run (start.step hstep)
    exact ⟨w, string, spare, howns, hle⟩
  · rw [hresult] at hok
    cases hok

end Jadren.Runtime
