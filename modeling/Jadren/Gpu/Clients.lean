import Jadren.Gpu.Leases

/-!
# Clients of a buffer table

Clients keep the tokens that they are given, copy them and release them when they like, also twice;
a lease they hold once.  Whatever they do, a token is released at most once, the live accesses are
those of the tokens not released and of the leases, and no two of one buffer exclude each other
(`accesses_are_safe`).  A lease takes all accesses of its plan or none (`lease_is_atomic`), and that
of a plan that was made is refused only if a buffer of it is not resident, is in use or has too few
generations left (`planned_lease`).
-/

namespace Jadren.Gpu

open ResourceTable List

variable {plan : List ArtifactResourceBinding}

/-! ## Runs -/

inductive Call
  | createBuffer (size : ℕ)
  | makeResident (id : BufferId)
  | makeShared (id : BufferId)
  | acquire (id : BufferId) (kind : AccessKind)
  | release (token : ℕ)
  | evict (id : BufferId)
  | acquireArtifactResources (plan : List ArtifactResourceBinding)
  | releaseArtifactResources (lease : ℕ)

/-- The table, the tokens that clients were given, those released and the leases that are held. -/
structure Host where
  table : ResourceTable
  tokens : List AccessToken
  released : List AccessToken
  leases : List ArtifactResourceLease

namespace Host

variable (h : Host)

def start : Host := ⟨.new, [], [], []⟩

def withTable : Except ResourceError ResourceTable → Host
  | .ok t => { h with table := t }
  | .error _ => h

/-- A token or a lease is named by its place among those that clients have. -/
def step : Call → Host
  | .createBuffer size => h.withTable ((h.table.createBuffer size).map Prod.snd)
  | .makeResident id => h.withTable (h.table.makeResident id)
  | .makeShared id => h.withTable (h.table.makeShared id)
  | .acquire id kind =>
    match h.table.acquire id kind with
    | .ok (token, t) => { h with table := t, tokens := h.tokens ++ [token] }
    | .error _ => h
  | .release i =>
    match h.tokens[i]? with
    | none => h
    | some token =>
      match h.table.release token with
      | .ok t => { h with table := t, released := h.released ++ [token] }
      | .error _ => h
  | .evict id => h.withTable (h.table.evict id)
  | .acquireArtifactResources plan =>
    match h.table.acquireArtifactResources plan with
    | (.ok lease, t) => { h with table := t, leases := lease :: h.leases }
    | (.error _, t) => { h with table := t }
  | .releaseArtifactResources i =>
    match h.leases[i]? with
    | none => h
    | some lease =>
      { h with
        table := (h.table.releaseArtifactResources lease).2
        leases := h.leases.eraseIdx i }

def run (calls : List Call) : Host := calls.foldl step start

def leased : List AccessToken := h.leases.flatMap ArtifactResourceLease.tokens

structure Kept : Prop where
  ledger : Ledger h.table (h.leased ++ h.tokens) h.released
  released : ∀ token ∈ h.released, token ∈ h.tokens

variable {h}

theorem Kept.not_released (hkept : h.Kept) {token : AccessToken} (hmem : token ∈ h.leased) :
    token ∉ h.released := fun hreleased =>
  (nodup_append.mp hkept.ledger.givenOnce).2.2 token hmem token
    (hkept.released token hreleased) rfl

theorem Kept.withTable (hkept : h.Kept) {result : Except ResourceError ResourceTable}
    (hresult : ∀ t, result = .ok t → Ledger t (h.leased ++ h.tokens) h.released) :
    (h.withTable result).Kept := by
  cases result with
  | ok t => exact ⟨hresult t rfl, hkept.released⟩
  | error => exact hkept

theorem Kept.lease (hkept : h.Kept) (plan : List ArtifactResourceBinding) :
    (h.step (.acquireArtifactResources plan)).Kept := by
  have htaken := hkept.ledger.acquireArtifactResources plan
  simp only [step, ResourceTable.acquireArtifactResources]
  generalize acquireAll plan [] h.table = result at htaken ⊢
  rcases result with ⟨error | tokens, t⟩
  · exact ⟨htaken, hkept.released⟩
  · refine ⟨?_, hkept.released⟩
    have hledger := htaken.1
    rwa [← append_assoc] at hledger

/-- The tokens of a held lease are those at the head of the ledger, up to their order. -/
theorem Kept.leased_perm {i : ℕ} {lease : ArtifactResourceLease} (hi : h.leases[i]? = some lease) :
    (h.leased ++ h.tokens).Perm (lease.tokens ++
      ((h.leases.eraseIdx i).flatMap ArtifactResourceLease.tokens ++ h.tokens)) := by
  obtain ⟨hlt, rfl⟩ := List.getElem?_eq_some_iff.mp hi
  rw [← append_assoc, ← flatMap_cons]
  exact ((getElem_cons_eraseIdx_perm hlt).symm.flatMap_right _).append_right _

theorem Kept.releaseLease (hkept : h.Kept) {i : ℕ} {lease : ArtifactResourceLease}
    (hi : h.leases[i]? = some lease) :
    ∃ t', h.table.releaseArtifactResources lease = (.ok (), t') ∧
      Ledger t' ((h.leases.eraseIdx i).flatMap ArtifactResourceLease.tokens ++ h.tokens)
        h.released := by
  refine (hkept.ledger.perm (leased_perm hi)).releaseAll fun token htoken => ?_
  exact hkept.not_released (mem_flatMap.mpr ⟨lease, mem_of_getElem? hi, htoken⟩)

theorem Kept.step (hkept : h.Kept) (call : Call) : (h.step call).Kept := by
  -- a call that fails leaves the table and what is held as they were
  cases call with
  | createBuffer size =>
      refine hkept.withTable fun t hcreate => ?_
      cases hresult : h.table.createBuffer size with
      | error => simp [hresult, Except.map] at hcreate
      | ok created =>
          obtain ⟨id, t'⟩ := created
          rw [hresult] at hcreate
          exact Except.ok.inj hcreate ▸ hkept.ledger.createBuffer hresult
  | makeResident | makeShared => exact hkept.withTable fun t => hkept.ledger.promote (by decide)
  | evict => exact hkept.withTable fun t => hkept.ledger.evict
  | acquire =>
      simp only [Host.step]
      split
      next token t hacquire =>
        refine ⟨?_, fun other hother => mem_append_left _ (hkept.released other hother)⟩
        have hledger := hkept.ledger.acquire hacquire
        rwa [append_assoc] at hledger
      next => exact hkept
  | release =>
      simp only [Host.step]
      split
      next => exact hkept
      next token hi =>
        split
        next t hrelease =>
          refine ⟨hkept.ledger.release hrelease, fun other hother => ?_⟩
          rcases mem_append.mp hother with hother | hother
          · exact hkept.released other hother
          · rw [mem_singleton.mp hother]
            exact mem_of_getElem? (l := h.tokens) hi
        next => exact hkept
  | acquireArtifactResources plan => exact hkept.lease plan
  | releaseArtifactResources =>
      simp only [Host.step]
      split
      next => exact hkept
      next lease hi =>
        obtain ⟨t', hrelease, hledger⟩ := hkept.releaseLease hi
        rw [hrelease]
        exact ⟨hledger, hkept.released⟩

theorem run_kept (calls : List Call) : (run calls).Kept :=
  foldlRecOn calls Host.step (motive := Kept)
    ⟨ledger_new, fun _ h => absurd h not_mem_nil⟩ fun _ hkept call _ => hkept.step call

end Host

/-- What holds of the accesses whatever clients do. -/
theorem accesses_are_safe (calls : List Call) :
    let h := Host.run calls
    (∀ token, h.table.Live token ↔
      token ∈ h.tokens ∧ token ∉ h.released ∨ ∃ lease ∈ h.leases, token ∈ lease.tokens) ∧
    (∀ token other, h.table.Live token → h.table.Live other → token.buffer = other.buffer →
      token = other ∨ token.kind.conflicts other.kind = false) ∧
    (∀ token, h.table.Live token → ∀ state, h.table.buffers.lookup token.buffer = some state →
      state.residency ≠ .host) ∧
    (h.leased ++ h.tokens).Nodup ∧ h.released.Nodup ∧
    (∀ token ∈ h.tokens, (∃ t, h.table.release token = .ok t) ↔ token ∉ h.released) ∧
    ∀ lease ∈ h.leases, (h.table.releaseArtifactResources lease).1 = .ok () := by
  intro h
  have hkept := Host.run_kept calls
  have hlive : ∀ token, h.table.Live token ↔
      token ∈ h.tokens ∧ token ∉ h.released ∨ ∃ lease ∈ h.leases, token ∈ lease.tokens := by
    intro token
    rw [hkept.ledger.live, mem_append, ← mem_flatMap]
    constructor
    · exact fun ⟨hmem, hnot⟩ => hmem.symm.imp_left fun hmem => ⟨hmem, hnot⟩
    · rintro (⟨hmem, hnot⟩ | hmem)
      · exact ⟨.inr hmem, hnot⟩
      · exact ⟨.inl hmem, hkept.not_released hmem⟩
  refine ⟨hlive, ?_, ?_, hkept.ledger.givenOnce, hkept.ledger.releasedOnce, ?_, ?_⟩
  · -- two live accesses of one buffer are entries of one list
    rintro token other ⟨state, hlookup, hmem⟩ ⟨found, hfound, hmem'⟩ hbuffer
    obtain rfl := Option.some.inj (hlookup.symm.trans (hbuffer ▸ hfound))
    refine ((hkept.ledger.sound _ _ hlookup).exclusive _ hmem _ hmem').imp_left fun heq => ?_
    obtain ⟨hgeneration, hkind⟩ := ActiveAccess.mk.inj heq
    cases token
    cases other
    simp_all
  · rintro token ⟨found, hfound, hmem⟩ state hlookup hhost
    obtain rfl := Option.some.inj (hlookup.symm.trans hfound)
    rw [(hkept.ledger.sound _ _ hlookup).resident hhost] at hmem
    exact absurd hmem not_mem_nil
  · intro token htoken
    constructor
    · rintro ⟨t, hrelease⟩
      obtain ⟨state, hlookup, hmem, -⟩ := release_eq_ok.mp hrelease
      exact ((hkept.ledger.mem_active hlookup).mp hmem).2
    · exact fun hnot => release_eq_ok_of_live
        ((hkept.ledger.live token).mpr ⟨mem_append_right _ htoken, hnot⟩)
  · intro lease hlease
    obtain ⟨i, hi⟩ := mem_iff_getElem?.mp hlease
    obtain ⟨t, hrelease, -⟩ := hkept.releaseLease hi
    rw [hrelease]

/-! ## One lease -/

/-- A lease takes an access for each binding, each with a token of its own that nobody was given
before, or nothing. -/
theorem lease_is_atomic (calls : List Call) (plan : List ArtifactResourceBinding) :
    let h := Host.run calls
    let t := h.table
    match t.acquireArtifactResources plan with
    | (.ok lease, t') => lease.plan = plan ∧
        lease.tokens.map (fun token => (token.buffer, token.kind)) =
          plan.map (fun binding => (binding.buffer, binding.access)) ∧
        lease.tokens.Nodup ∧ (∀ token ∈ lease.tokens, token ∉ h.leased ++ h.tokens) ∧
        ∀ token, t'.Live token ↔ t.Live token ∨ token ∈ lease.tokens
    | (.error _, t') => (∀ id, t'.info id = t.info id) ∧ ∀ token, t'.Live token ↔ t.Live token := by
  intro h t
  have hledger := (Host.run_kept calls).ledger
  have htaken := hledger.acquireArtifactResources plan
  have halike : t.Alike (acquireAll plan [] t).2 := .acquireAll plan
  unfold ResourceTable.acquireArtifactResources
  generalize acquireAll plan [] t = result at htaken halike ⊢
  rcases result with ⟨error | tokens, t'⟩
  · refine ⟨hledger.info_eq htaken halike, fun token => ?_⟩
    rw [hledger.live, Ledger.live htaken]
  · obtain ⟨htaken, hnot, htokens⟩ := htaken
    obtain ⟨honce, -, hnew⟩ := nodup_append.mp htaken.givenOnce
    refine ⟨rfl, htokens, honce, fun token hmem hgiven => hnew token hmem token hgiven rfl,
      fun token => ?_⟩
    rw [hledger.live, htaken.live, mem_append]
    constructor
    · exact fun ⟨hmem, hreleased⟩ => hmem.symm.imp_left fun hmem => ⟨hmem, hreleased⟩
    · rintro (⟨hmem, hreleased⟩ | hmem)
      · exact ⟨.inr hmem, hreleased⟩
      · exact ⟨.inl hmem, hnot token hmem⟩

/-- The lease of a plan, whenever it was made, is granted unless a buffer of it is not resident, has
an access that excludes the binding's, or has too few generations left. -/
theorem planned_lease {earlier : ResourceTable} {resources : List AccessKind}
    {requests : List ArtifactResourceRequest}
    (hplan : earlier.planArtifactResources resources requests = .ok plan) (t : ResourceTable) :
    (∃ lease t', t.acquireArtifactResources plan = (.ok lease, t')) ↔
      ∀ binding ∈ plan, t.Admits plan binding := by
  have hiff : (∃ all t', acquireAll plan [] t = (.ok all, t')) ↔ _ :=
    acquireAll_ok_iff (planArtifactResources_exclusive hplan)
  rw [← hiff]
  unfold ResourceTable.acquireArtifactResources
  generalize acquireAll plan [] t = result
  rcases result with ⟨error | all, t'⟩
  · simp [Except.map]
  · simp [Except.map]

/-- Two bindings may read one buffer. -/
theorem sharedReads_leased :
    let t := (Host.run [.createBuffer 8, .makeResident 1]).table
    ∃ plan, t.planArtifactResources [.read, .read] [⟨0, 1, 8⟩, ⟨1, 1, 4⟩] = .ok plan ∧
      ∀ binding ∈ plan, t.Admits plan binding := by
  intro t
  have hplan : t.planArtifactResources [.read, .read] [⟨0, 1, 8⟩, ⟨1, 1, 4⟩] =
      .ok [⟨0, 1, .read, 8⟩, ⟨1, 1, .read, 4⟩] := rfl
  exact ⟨_, hplan, (planned_lease hplan t).mp ⟨_, _, rfl⟩⟩

end Jadren.Gpu
