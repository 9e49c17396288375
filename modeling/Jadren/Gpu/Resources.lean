import Jadren.Library.OrderedMap
import Mathlib.Algebra.Order.Ring.Nat

/-!
# Buffers of a graphics processor

The host keeps a table of the buffers.  A buffer is used through tokens: many that read it, or one
that writes it.  The token of an access has the generation of the buffer at that time, so that a
copy of it is worth nothing after its release.

A dispatch needs several buffers at once.  Its plan has no two bindings of one buffer that exclude
each other (`Planned.exclusive`), and its lease takes all accesses or none.
-/

namespace Jadren.Gpu

abbrev BufferId := ℕ

inductive Residency
  | host | device | shared
  deriving DecidableEq

inductive AccessKind
  | read | write | readWrite
  deriving DecidableEq

def AccessKind.conflicts : AccessKind → AccessKind → Bool
  | .read, .read => false
  | _, _ => true

structure AccessToken where
  buffer : BufferId
  generation : ℕ
  kind : AccessKind
  deriving DecidableEq

structure ActiveAccess where
  generation : ℕ
  kind : AccessKind
  deriving DecidableEq

structure BufferState where
  size : ℕ
  residency : Residency
  nextGeneration : ℕ
  active : List ActiveAccess

inductive ResourceError
  | invalidSize
  | unknownBuffer (id : BufferId)
  | alreadyResident (id : BufferId)
  | notResident (id : BufferId)
  | busy (id : BufferId)
  | accessConflict (id : BufferId)
  | staleToken (id : BufferId)
  | idExhausted

structure BufferInfo where
  size : ℕ
  residency : Residency
  liveAccesses : ℕ

structure ResourceTable where
  nextId : ℕ
  buffers : OrderedMap BufferId BufferState

namespace ResourceTable

variable (t : ResourceTable)

def new : ResourceTable := ⟨1, ∅⟩

def put (id : BufferId) (state : BufferState) : ResourceTable :=
  { t with buffers := t.buffers.insert id state }

def state (id : BufferId) : Except ResourceError BufferState :=
  match t.buffers.lookup id with
  | none => .error (.unknownBuffer id)
  | some state => .ok state

def createBuffer (size : ℕ) : Except ResourceError (BufferId × ResourceTable) :=
  if size = 0 then .error .invalidSize
  else if t.nextId + 1 < 2 ^ 32 then
    .ok (t.nextId, { t.put t.nextId ⟨size, .host, 1, []⟩ with nextId := t.nextId + 1 })
  else .error .idExhausted

def info (id : BufferId) : Except ResourceError BufferInfo :=
  (t.state id).map fun state => ⟨state.size, state.residency, state.active.length⟩

/-- A buffer of the host gets another residency. -/
def promote (residency : Residency) (id : BufferId) : Except ResourceError ResourceTable :=
  (t.state id).bind fun state =>
    if state.residency ≠ .host then .error (.alreadyResident id)
    else .ok (t.put id { state with residency := residency })

def makeResident : BufferId → Except ResourceError ResourceTable := t.promote .device

def makeShared : BufferId → Except ResourceError ResourceTable := t.promote .shared

def acquire (id : BufferId) (kind : AccessKind) :
    Except ResourceError (AccessToken × ResourceTable) :=
  (t.state id).bind fun state =>
    if state.residency = .host then .error (.notResident id)
    else if state.active.any fun active => active.kind.conflicts kind then
      .error (.accessConflict id)
    else if state.nextGeneration + 1 < 2 ^ 64 then
      .ok (⟨id, state.nextGeneration, kind⟩, t.put id { state with
        nextGeneration := state.nextGeneration + 1
        active := state.active ++ [⟨state.nextGeneration, kind⟩] })
    else .error .idExhausted

def release (token : AccessToken) : Except ResourceError ResourceTable :=
  (t.state token.buffer).bind fun state =>
    if ⟨token.generation, token.kind⟩ ∈ state.active then
      .ok (t.put token.buffer
        { state with active := state.active.erase ⟨token.generation, token.kind⟩ })
    else .error (.staleToken token.buffer)

def evict (id : BufferId) : Except ResourceError ResourceTable :=
  (t.state id).bind fun state =>
    if state.active ≠ [] then .error (.busy id)
    else if state.residency = .host then .error (.notResident id)
    else .ok (t.put id { state with residency := .host })

end ResourceTable

/-! ## Dispatches -/

structure ArtifactResourceRequest where
  binding : ℕ
  buffer : BufferId
  requiredBytes : ℕ

structure ArtifactResourceBinding where
  binding : ℕ
  buffer : BufferId
  access : AccessKind
  requiredBytes : ℕ

structure ArtifactResourceLease where
  plan : List ArtifactResourceBinding
  tokens : List AccessToken

inductive ArtifactResourcePlanError
  | bindingCountMismatch (expected actual : ℕ)
  | nonCanonicalBinding (expected actual : ℕ)
  | invalidRequiredBytes (binding : ℕ)
  | bufferTooSmall (binding required actual : ℕ)
  | conflictingAlias (buffer : BufferId) (firstBinding secondBinding : ℕ)
  | resource (error : ResourceError)

namespace ResourceTable

variable (t : ResourceTable)

/-- The bindings of the requests, with the accesses that the artifact declares. -/
def planBindings : List (ArtifactResourceRequest × AccessKind) → List ArtifactResourceBinding →
    Except ArtifactResourcePlanError (List ArtifactResourceBinding)
  | [], bindings => .ok bindings
  | (request, access) :: rest, bindings =>
    if request.binding ≠ bindings.length then
      .error (.nonCanonicalBinding bindings.length request.binding)
    else if request.requiredBytes = 0 then .error (.invalidRequiredBytes request.binding)
    else
      match t.info request.buffer with
      | .error error => .error (.resource error)
      | .ok info =>
        if info.size < request.requiredBytes then
          .error (.bufferTooSmall request.binding request.requiredBytes info.size)
        else
          match (bindings.find? fun binding => binding.buffer == request.buffer).filter
            fun previous => previous.access.conflicts access with
          | some previous =>
            .error (.conflictingAlias request.buffer previous.binding request.binding)
          | none =>
            planBindings rest
              (bindings ++ [⟨request.binding, request.buffer, access, request.requiredBytes⟩])

def planArtifactResources (resources : List AccessKind) (requests : List ArtifactResourceRequest) :
    Except ArtifactResourcePlanError (List ArtifactResourceBinding) :=
  if requests.length ≠ resources.length then
    .error (.bindingCountMismatch resources.length requests.length)
  else t.planBindings (requests.zip resources) []

/-- Tokens given back; an error is ignored. -/
def releaseQuietly (tokens : List AccessToken) : ResourceTable :=
  tokens.foldl (fun t token => (t.release token).toOption.getD t) t

/-- One access after the other; at an error those that were acquired are released. -/
def acquireAll : List ArtifactResourceBinding → List AccessToken → ResourceTable →
    Except ResourceError (List AccessToken) × ResourceTable
  | [], tokens, t => (.ok tokens, t)
  | binding :: rest, tokens, t =>
    match t.acquire binding.buffer binding.access with
    | .ok (token, t) => acquireAll rest (tokens ++ [token]) t
    | .error error => (.error error, t.releaseQuietly tokens.reverse)

def acquireArtifactResources (plan : List ArtifactResourceBinding) :
    Except ResourceError ArtifactResourceLease × ResourceTable :=
  let (acquired, t) := acquireAll plan [] t
  (acquired.map fun tokens => ⟨plan, tokens⟩, t)

def releaseAll : List AccessToken → ResourceTable → Except ResourceError Unit × ResourceTable
  | [], t => (.ok (), t)
  | token :: rest, t =>
    match t.release token with
    | .ok t => releaseAll rest t
    | .error error => (.error error, t)

def releaseArtifactResources (lease : ArtifactResourceLease) :
    Except ResourceError Unit × ResourceTable := releaseAll lease.tokens t

end ResourceTable

end Jadren.Gpu
