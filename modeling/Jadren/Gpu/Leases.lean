import Jadren.Gpu.ResourceRuns
import Mathlib.Data.List.Pairwise
import Mathlib.Data.List.Perm.Basic

/-!
# Leases of buffers

A lease acquires the accesses of its plan one after the other and gives back what it has when one is
refused (`Ledger.Taken`), after which sizes, residencies and live accesses are the same
(`Ledger.info_eq`).  No two bindings of a plan exclude each other, so that an access of a lease is
never refused because of another one of it (`acquireAll_ok_iff`).
-/

namespace Jadren.Gpu

open List

variable {t t' : ResourceTable} {token : AccessToken} {id : BufferId} {kind : AccessKind}
  {given released tokens : List AccessToken} {plan : List ArtifactResourceBinding}

/-! ## Accesses given back -/

theorem Ledger.perm (h : Ledger t given released) {given' : List AccessToken}
    (hperm : given.Perm given') : Ledger t given' released where
  below := h.below
  sound := h.sound
  live token := by rw [h.live, hperm.mem_iff]
  older token htoken := h.older token (hperm.mem_iff.mpr htoken)
  givenOnce := hperm.nodup h.givenOnce
  releasedOnce := h.releasedOnce
  releasedGiven token htoken := hperm.mem_iff.mp (h.releasedGiven token htoken)

/-- A token that is given back leaves no trace. -/
theorem Ledger.giveBack (h : Ledger t (token :: given) released) (hnot : token ∉ released) :
    ∃ t', t.release token = .ok t' ∧ Ledger t' given released := by
  obtain ⟨t', hrelease⟩ :=
    ResourceTable.release_eq_ok_of_live ((h.live token).mpr ⟨mem_cons_self, hnot⟩)
  obtain ⟨hnew, honce⟩ := nodup_cons.mp h.givenOnce
  have hrest : ∀ other ∈ released, other ∈ given := fun other hother =>
    (mem_cons.mp (h.releasedGiven other hother)).resolve_left fun heq => hnot (heq ▸ hother)
  have h' := h.release hrelease
  refine ⟨t', hrelease, h'.below, h'.sound, fun other => ?_,
    fun other hother => h'.older other (mem_cons_of_mem _ hother), honce, h.releasedOnce,
    hrest⟩
  rw [h'.live, mem_cons, mem_append, mem_singleton, not_or]
  constructor
  · rintro ⟨hmem, hother, hne⟩
    exact ⟨hmem.resolve_left hne, hother⟩
  · rintro ⟨hmem, hother⟩
    exact ⟨.inr hmem, hother, fun heq => hnew (heq ▸ hmem)⟩

variable (h : Ledger t (tokens ++ given) released)
include h

theorem Ledger.releaseAll
    (hnot : ∀ token ∈ tokens, token ∉ released) :
    ∃ t', ResourceTable.releaseAll tokens t = (.ok (), t') ∧ Ledger t' given released := by
  induction tokens generalizing t with
  | nil => exact ⟨t, rfl, h⟩
  | cons token tokens ih =>
      obtain ⟨t', hrelease, h'⟩ := h.giveBack (hnot token mem_cons_self)
      simp only [ResourceTable.releaseAll, hrelease]
      exact ih h' fun other hother => hnot other (mem_cons_of_mem _ hother)

theorem Ledger.releaseQuietly
    (hnot : ∀ token ∈ tokens, token ∉ released) :
    Ledger (t.releaseQuietly tokens) given released := by
  induction tokens generalizing t with
  | nil => exact h
  | cons token tokens ih =>
      obtain ⟨t', hrelease, h'⟩ := h.giveBack (hnot token mem_cons_self)
      simp only [ResourceTable.releaseQuietly, foldl_cons, hrelease]
      exact ih h' fun other hother => hnot other (mem_cons_of_mem _ hother)

omit h

/-- What one lease does to the ledger. -/
def Ledger.Taken (given released : List AccessToken) (plan : List ArtifactResourceBinding) :
    Except ResourceError (List AccessToken) × ResourceTable → Prop
  | (.ok tokens, t) => Ledger t (tokens ++ given) released ∧ (∀ token ∈ tokens, token ∉ released) ∧
      tokens.map (fun token => (token.buffer, token.kind)) =
        plan.map fun binding => (binding.buffer, binding.access)
  | (.error _, t) => Ledger t given released

include h

/-- A lease acquires one more access. -/
theorem Ledger.acquireNext
    (hacquire : t.acquire id kind = .ok (token, t')) :
    Ledger t' ((tokens ++ [token]) ++ given) released ∧ token ∉ released := by
  have h' := h.acquire hacquire
  have hnew : token ∉ tokens ++ given := fun hmem =>
    (nodup_append.mp h'.givenOnce).2.2 token hmem token (mem_singleton_self _) rfl
  refine ⟨h'.perm ?_, fun hreleased => hnew (h.releasedGiven token hreleased)⟩
  rw [append_assoc, append_assoc]
  exact perm_append_comm.append_left tokens

/-- The tokens that a lease has are those of the bindings before the rest of its plan. -/
theorem Ledger.acquireAll {before : List ArtifactResourceBinding}
    (hnot : ∀ token ∈ tokens, token ∉ released)
    (hbefore : tokens.map (fun token => (token.buffer, token.kind)) =
      before.map fun binding => (binding.buffer, binding.access)) :
    Ledger.Taken given released (before ++ plan) (ResourceTable.acquireAll plan tokens t) := by
  induction plan generalizing tokens before t with
  | nil => exact ⟨h, hnot, by simpa using hbefore⟩
  | cons binding rest ih =>
      unfold ResourceTable.acquireAll
      split
      next token t' hacquire =>
        obtain ⟨hledger, hnew⟩ := h.acquireNext hacquire
        obtain ⟨state, -, -, -, -, htoken, -⟩ := ResourceTable.acquire_eq_ok.mp hacquire
        have hnot' : ∀ other ∈ tokens ++ [token], other ∉ released := by
          intro other hother
          rcases mem_append.mp hother with hother | hother
          · exact hnot other hother
          · exact mem_singleton.mp hother ▸ hnew
        have hbefore' : (tokens ++ [token]).map (fun token => (token.buffer, token.kind)) =
            (before ++ [binding]).map fun binding => (binding.buffer, binding.access) := by
          rw [map_append, map_append, hbefore, htoken]
          rfl
        rw [append_cons]
        exact ih hledger hnot' hbefore'
      next =>
        have hperm : (tokens ++ given).Perm (tokens.reverse ++ given) :=
          (reverse_perm tokens).symm.append_right given
        exact (h.perm hperm).releaseQuietly fun other hother =>
          hnot other (mem_reverse.mp hother)

omit h

theorem Ledger.acquireArtifactResources (h : Ledger t given released)
    (plan : List ArtifactResourceBinding) :
    Ledger.Taken given released plan (ResourceTable.acquireAll plan [] t) := by
  show Ledger.Taken given released ([] ++ plan) (ResourceTable.acquireAll plan [] t)
  exact Ledger.acquireAll h (fun _ h => absurd h not_mem_nil) rfl

/-! ## Sizes and residencies -/

namespace ResourceTable

/-- Sizes and residencies are those of another table. -/
def Alike (t t' : ResourceTable) : Prop :=
  ∀ id, (t.buffers.lookup id).map (fun state => (state.size, state.residency)) =
    (t'.buffers.lookup id).map fun state => (state.size, state.residency)

theorem Alike.put {state state' : BufferState} (hlookup : t.buffers.lookup id = some state)
    (hsize : state'.size = state.size) (hresidency : state'.residency = state.residency) :
    t.Alike (t.put id state') := by
  intro other
  rw [lookup_put]
  split
  next heq => rw [heq, hlookup, Option.map_some, Option.map_some, hsize, hresidency]
  next => rfl

theorem Alike.trans {t'' : ResourceTable} (h : t.Alike t') (h' : t'.Alike t'') : t.Alike t'' :=
  fun id => (h id).trans (h' id)

theorem Alike.release (h : t.release token = .ok t') : t.Alike t' := by
  obtain ⟨state, hlookup, -, rfl⟩ := release_eq_ok.mp h
  exact .put hlookup rfl rfl

theorem Alike.acquire (h : t.acquire id kind = .ok (token, t')) : t.Alike t' := by
  obtain ⟨state, hlookup, -, -, -, -, rfl⟩ := acquire_eq_ok.mp h
  exact .put hlookup rfl rfl

theorem Alike.releaseQuietly (tokens : List AccessToken) : t.Alike (t.releaseQuietly tokens) := by
  induction tokens generalizing t with
  | nil => exact fun _ => rfl
  | cons token tokens ih =>
      unfold ResourceTable.releaseQuietly at ih ⊢
      rw [foldl_cons]
      cases hrelease : t.release token with
      | ok => exact (Alike.release hrelease).trans ih
      | error => exact ih

theorem Alike.acquireAll (plan : List ArtifactResourceBinding) :
    t.Alike (ResourceTable.acquireAll plan tokens t).2 := by
  induction plan generalizing t tokens with
  | nil => exact fun _ => rfl
  | cons binding rest ih =>
      unfold ResourceTable.acquireAll
      split
      next token t' hacquire => exact (Alike.acquire hacquire).trans ih
      next => exact .releaseQuietly _

end ResourceTable

theorem Ledger.info_eq (h : Ledger t given released) (h' : Ledger t' given released)
    (halike : t.Alike t') (id : BufferId) : t'.info id = t.info id := by
  have hid := halike id
  unfold ResourceTable.info ResourceTable.state
  cases hlookup : t.buffers.lookup id with
  | none =>
      cases hlookup' : t'.buffers.lookup id with
      | none => rfl
      | some => simp [hlookup, hlookup'] at hid
  | some state =>
      cases hlookup' : t'.buffers.lookup id with
      | none => simp [hlookup, hlookup'] at hid
      | some state' =>
          have hsame : ∀ token : AccessToken, token.buffer = id →
              (⟨token.generation, token.kind⟩ ∈ state.active ↔
                ⟨token.generation, token.kind⟩ ∈ state'.active) := by
            rintro token rfl
            exact (h.mem_active hlookup).trans (h'.mem_active hlookup').symm
          have hperm : state.active.Perm state'.active :=
            (perm_ext_iff_of_nodup (h.sound id state hlookup).nodup
              (h'.sound id state' hlookup').nodup).mpr fun a => hsame ⟨id, a.generation, a.kind⟩ rfl
          simp only [hlookup, hlookup', Option.map_some, Option.some.injEq, Prod.mk.injEq] at hid
          simp only [Except.map, hid.1, hid.2, hperm.length_eq]

/-! ## Plans -/

/-- No two bindings of one buffer exclude each other. -/
def Exclusive (plan : List ArtifactResourceBinding) : Prop :=
  plan.Pairwise fun binding other =>
    binding.buffer = other.buffer → binding.access.conflicts other.access = false

theorem AccessKind.conflicts_eq_false {a b : AccessKind} :
    a.conflicts b = false ↔ a = .read ∧ b = .read := by
  cases a <;> cases b <;> simp [conflicts]

theorem Exclusive.compatible (h : Exclusive plan) {binding other : ArtifactResourceBinding}
    (hbinding : binding ∈ plan) (hother : other ∈ plan) (hne : binding ≠ other)
    (hbuffer : binding.buffer = other.buffer) : binding.access.conflicts other.access = false := by
  have : Std.Symm fun binding other : ArtifactResourceBinding =>
      binding.buffer = other.buffer → binding.access.conflicts other.access = false :=
    ⟨fun a b hab hbuffer => AccessKind.conflicts_comm a.access b.access ▸ hab hbuffer.symm⟩
  exact List.Pairwise.forall h hbinding hother hne hbuffer

/-- The first binding of a buffer speaks for all of them. -/
theorem Exclusive.append (h : Exclusive plan) {buffer : BufferId} {access : AccessKind}
    (hfirst : (plan.find? fun binding => binding.buffer == buffer).filter
      (fun previous => previous.access.conflicts access) = none) (binding requiredBytes : ℕ) :
    Exclusive (plan ++ [⟨binding, buffer, access, requiredBytes⟩]) := by
  refine pairwise_append.mpr ⟨h, pairwise_singleton _ _, fun other hother new hnew => ?_⟩
  rw [mem_singleton.mp hnew]
  intro hbuffer
  cases hfind : plan.find? fun binding => binding.buffer == buffer with
  | none => exact absurd (beq_iff_eq.mpr hbuffer) (find?_eq_none.mp hfind other hother)
  | some previous =>
      have hprevious : previous.access = .read ∧ access = .read := by
        rw [← AccessKind.conflicts_eq_false]
        simpa [hfind] using hfirst
      have hsame : previous.buffer = buffer := by simpa using find?_some hfind
      have hmem : previous ∈ plan := mem_of_find?_eq_some hfind
      rw [hprevious.2]
      -- the first binding is read, and every other one may stand next to it
      by_cases heq : other = previous
      · rw [heq, hprevious.1]
        rfl
      · have hread := h.compatible hother hmem heq (hbuffer.trans hsame.symm)
        rw [(AccessKind.conflicts_eq_false.mp hread).1]
        rfl

theorem planBindings_exclusive {pairs : List (ArtifactResourceRequest × AccessKind)}
    {bindings : List ArtifactResourceBinding} (h : Exclusive bindings)
    (hplan : t.planBindings pairs bindings = .ok plan) : Exclusive plan := by
  induction pairs generalizing bindings with
  | nil =>
      cases hplan
      exact h
  | cons pair rest ih =>
      obtain ⟨request, access⟩ := pair
      simp only [ResourceTable.planBindings] at hplan
      split at hplan
      · cases hplan
      split at hplan
      · cases hplan
      split at hplan
      · cases hplan
      split at hplan
      · cases hplan
      split at hplan
      next => cases hplan
      next hfirst => exact ih (h.append hfirst _ _) hplan

theorem planArtifactResources_exclusive {resources : List AccessKind}
    {requests : List ArtifactResourceRequest}
    (hplan : t.planArtifactResources resources requests = .ok plan) : Exclusive plan := by
  unfold ResourceTable.planArtifactResources at hplan
  split at hplan
  · cases hplan
  · exact planBindings_exclusive .nil hplan

namespace ResourceTable

/-- The access of a binding can be acquired, with those of other bindings of its buffer. -/
def Admits (t : ResourceTable) (plan : List ArtifactResourceBinding)
    (binding : ArtifactResourceBinding) : Prop :=
  ∃ state, t.buffers.lookup binding.buffer = some state ∧ state.residency ≠ .host ∧
    (∀ a ∈ state.active, a.kind.conflicts binding.access = false) ∧
    state.nextGeneration + plan.countP (fun other => other.buffer == binding.buffer) < 2 ^ 64

/-- Acquiring the first access of a plan leaves the others to be acquired. -/
theorem admits_cons {binding other : ArtifactResourceBinding} {plan : List ArtifactResourceBinding}
    (hacquire : t.acquire binding.buffer binding.access = .ok (token, t'))
    (hexclusive : binding.buffer = other.buffer →
      binding.access.conflicts other.access = false) :
    t.Admits (binding :: plan) other ↔ t'.Admits plan other := by
  obtain ⟨state, hlookup, hresident, -, -, -, rfl⟩ := acquire_eq_ok.mp hacquire
  unfold Admits
  simp only [lookup_put, countP_cons]
  by_cases hbuffer : other.buffer = binding.buffer
  · have hcompatible := hexclusive hbuffer.symm
    simp only [hbuffer, hlookup, if_true, Option.some.injEq, exists_eq_left', mem_append,
      mem_singleton, BEq.rfl, or_imp, forall_and, forall_eq, hcompatible, and_true]
    refine and_congr_right fun _ => and_congr_right fun _ => ?_
    rw [Nat.add_right_comm, Nat.add_assoc]
  · have hne : (binding.buffer == other.buffer) = false :=
      beq_eq_false_iff_ne.mpr fun heq => hbuffer heq.symm
    simp only [hbuffer, hne, if_false, Bool.false_eq_true, Nat.add_zero]

theorem acquire_of_admits {binding : ArtifactResourceBinding}
    (h : t.Admits (binding :: plan) binding) :
    ∃ token t', t.acquire binding.buffer binding.access = .ok (token, t') := by
  obtain ⟨state, hlookup, hresident, hnone, hroom⟩ := h
  refine ⟨_, _, acquire_eq_ok.mpr ⟨state, hlookup, hresident, hnone, ?_, rfl, rfl⟩⟩
  rw [countP_cons_of_pos (by simp)] at hroom
  omega

/-- After the first access was acquired, it was admitted if the others are. -/
theorem admits_head {binding : ArtifactResourceBinding}
    (hacquire : t.acquire binding.buffer binding.access = .ok (token, t'))
    (hrest : ∀ other ∈ plan, t'.Admits plan other) : t.Admits (binding :: plan) binding := by
  obtain ⟨state, hlookup, hresident, hnone, hroom, -, rfl⟩ := acquire_eq_ok.mp hacquire
  refine ⟨state, hlookup, hresident, hnone, ?_⟩
  rw [countP_cons_of_pos (by simp)]
  rcases Nat.eq_zero_or_pos (plan.countP fun other => other.buffer == binding.buffer) with
    hzero | hpos
  · rwa [hzero]
  · -- another binding of the buffer has counted what is left of the plan
    obtain ⟨other, hother, hbuffer⟩ := countP_pos_iff.mp hpos
    obtain ⟨found, hfound, -, -, hcount⟩ := hrest other hother
    rw [beq_iff_eq] at hbuffer
    rw [hbuffer, lookup_put, if_pos rfl] at hfound
    obtain rfl := Option.some.inj hfound
    rw [hbuffer] at hcount
    simp only at hcount
    omega

theorem acquireAll_ok_iff (hexclusive : Exclusive plan) :
    (∃ all t', acquireAll plan tokens t = (.ok all, t')) ↔
      ∀ binding ∈ plan, t.Admits plan binding := by
  induction plan generalizing t tokens with
  | nil => simp [acquireAll]
  | cons binding rest ih =>
      obtain ⟨hhead, hrest⟩ := pairwise_cons.mp hexclusive
      rw [forall_mem_cons]
      unfold acquireAll
      split
      next token t' hacquire =>
        rw [ih hrest]
        have hothers : (∀ other ∈ rest, t'.Admits rest other) ↔
            ∀ other ∈ rest, t.Admits (binding :: rest) other :=
          forall₂_congr fun other hother => (admits_cons hacquire (hhead other hother)).symm
        exact ⟨fun h => ⟨admits_head hacquire h, hothers.mp h⟩, fun h => hothers.mpr h.2⟩
      next error hacquire =>
        constructor
        · rintro ⟨all, t', h⟩
          cases h
        · rintro ⟨h, -⟩
          obtain ⟨token, t', hok⟩ := acquire_of_admits h
          cases hacquire.symm.trans hok

end ResourceTable

end Jadren.Gpu
