import Mathlib.Data.Nat.Notation

/-!
# The stable hasher

Fingerprints of types and of packages are made with one 64-bit FNV-1a stream.  A field goes in
after its length, so that its bytes are not taken for those of the next.
-/

namespace Jadren.Determinism

def fnv1aOffset : UInt64 := 0xcbf29ce484222325
def fnv1aPrime : UInt64 := 0x00000100000001b3

def utf8Bytes (text : List Char) : List UInt8 := text.flatMap String.utf8EncodeChar

/-- Streaming FNV-1a hasher. -/
structure StableHasher where
  state : UInt64
  deriving DecidableEq

namespace StableHasher

def new : StableHasher := ⟨fnv1aOffset⟩

def update (hasher : StableHasher) (bytes : List UInt8) : StableHasher :=
  ⟨bytes.foldl (fun state byte => (state ^^^ byte.toUInt64) * fnv1aPrime) hasher.state⟩

/-- The eight bytes of a number, the low ones first. -/
def toLeBytes (value : UInt64) : List UInt8 :=
  (List.range 8).map fun i => (value >>> (8 * i).toUInt64).toUInt8

def writeU64 (hasher : StableHasher) (value : UInt64) : StableHasher :=
  hasher.update (toLeBytes value)

def writeBytes (hasher : StableHasher) (bytes : List UInt8) : StableHasher :=
  (hasher.writeU64 bytes.length.toUInt64).update bytes

def writeStr (hasher : StableHasher) (value : List Char) : StableHasher :=
  hasher.writeBytes (utf8Bytes value)

/-- A stream apart from those of other purposes. -/
def withDomain (domain : List Char) : StableHasher := new.writeStr domain

end StableHasher

def fingerprintBytes (domain : List Char) (bytes : List UInt8) : UInt64 :=
  ((StableHasher.withDomain domain).writeBytes bytes).state

end Jadren.Determinism
