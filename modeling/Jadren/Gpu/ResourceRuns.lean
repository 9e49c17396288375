import Jadren.Gpu.Resources

/-!
# What the calls of a buffer table keep

A ledger has the tokens that were given and those released.  The live accesses are those given and
not released, no two of one buffer exclude each other, and a buffer of the host has none (`Ledger`).
Every call keeps this, with the token that it gives or takes.
-/

namespace Jadren.Gpu

variable {t t' : ResourceTable} {token : AccessToken} {id : BufferId} {kind : AccessKind}

/-! ## Single calls -/

namespace ResourceTable

theorem state_eq_ok {state : BufferState} :
    t.state id = .ok state ↔ t.buffers.lookup id = some state := by
  unfold ResourceTable.state
  cases t.buffers.lookup id <;> simp

@[simp] theorem lookup_put (t : ResourceTable) (id other : BufferId) (state : BufferState) :
    (t.put id state).buffers.lookup other =
      if other = id then some state else t.buffers.lookup other :=
  OrderedMap.lookup_update _ _ _ _

theorem bind_eq_ok {ε α β : Type} {x : Except ε α} {f : α → Except ε β} {b : β} :
    x.bind f = .ok b ↔ ∃ a, x = .ok a ∧ f a = .ok b := by
  cases x <;> simp [Except.bind]

theorem acquire_eq_ok : t.acquire id kind = .ok (token, t') ↔
    ∃ state, t.buffers.lookup id = some state ∧ state.residency ≠ .host ∧
      (∀ a ∈ state.active, a.kind.conflicts kind = false) ∧ state.nextGeneration + 1 < 2 ^ 64 ∧
      token = ⟨id, state.nextGeneration, kind⟩ ∧ t' = t.put id { state with
        nextGeneration := state.nextGeneration + 1
        active := state.active ++ [⟨state.nextGeneration, kind⟩] } := by
  unfold acquire
  rw [bind_eq_ok]
  refine exists_congr fun state => ?_
  rw [state_eq_ok]
  refine and_congr_right fun _ => ?_
  split_ifs with hhost hconflict hroom
  · simp [hhost]
  · simp only [false_iff]
    rintro ⟨-, hnone, -⟩
    obtain ⟨a, ha, hconflicts⟩ := List.any_eq_true.mp hconflict
    exact Bool.false_ne_true ((hnone a ha).symm.trans hconflicts)
  · have hnone : ∀ a ∈ state.active, a.kind.conflicts kind = false := by
      simpa using hconflict
    simp only [Except.ok.injEq, Prod.mk.injEq]
    exact ⟨fun h => ⟨hhost, hnone, hroom, h.1.symm, h.2.symm⟩,
      fun h => ⟨h.2.2.2.1.symm, h.2.2.2.2.symm⟩⟩
  · exact ⟨fun h => (nomatch h), fun h => absurd h.2.2.1 hroom⟩

theorem release_eq_ok : t.release token = .ok t' ↔
    ∃ state, t.buffers.lookup token.buffer = some state ∧
      ⟨token.generation, token.kind⟩ ∈ state.active ∧ t' = t.put token.buffer
        { state with active := state.active.erase ⟨token.generation, token.kind⟩ } := by
  unfold release
  rw [bind_eq_ok]
  refine exists_congr fun state => ?_
  rw [state_eq_ok]
  refine and_congr_right fun _ => ?_
  split_ifs with hlive
  · simp [hlive, eq_comm]
  · simp [hlive]

/-- The access of a token goes on. -/
def Live (t : ResourceTable) (token : AccessToken) : Prop :=
  ∃ state, t.buffers.lookup token.buffer = some state ∧
    ⟨token.generation, token.kind⟩ ∈ state.active

theorem release_eq_ok_of_live (h : t.Live token) : ∃ t', t.release token = .ok t' := by
  obtain ⟨state, hlookup, hmem⟩ := h
  exact ⟨_, release_eq_ok.mpr ⟨state, hlookup, hmem, rfl⟩⟩

end ResourceTable

/-! ## What is kept -/

structure BufferState.Sound (b : BufferState) : Prop where
  nodup : b.active.Nodup
  older : ∀ a ∈ b.active, a.generation < b.nextGeneration
  exclusive : ∀ a ∈ b.active, ∀ a' ∈ b.active, a = a' ∨ a.kind.conflicts a'.kind = false
  resident : b.residency = .host → b.active = []

/-- The live accesses of a table are those of the tokens given and not released. -/
structure Ledger (t : ResourceTable) (given released : List AccessToken) : Prop where
  below : ∀ id state, t.buffers.lookup id = some state → id < t.nextId
  sound : ∀ id state, t.buffers.lookup id = some state → state.Sound
  live : ∀ token, t.Live token ↔ token ∈ given ∧ token ∉ released
  older : ∀ token ∈ given, ∃ state, t.buffers.lookup token.buffer = some state ∧
    token.generation < state.nextGeneration
  givenOnce : given.Nodup
  releasedOnce : released.Nodup
  releasedGiven : ∀ token ∈ released, token ∈ given

variable {given released : List AccessToken}

theorem AccessKind.conflicts_comm (a b : AccessKind) : a.conflicts b = b.conflicts a := by
  cases a <;> cases b <;> rfl

theorem ledger_new : Ledger .new [] [] := by
  refine ⟨?_, ?_, fun token => ⟨?_, fun h => absurd h.1 List.not_mem_nil⟩, ?_, .nil, .nil, ?_⟩
  · exact fun _ _ h => nomatch h
  · exact fun _ _ h => nomatch h
  · rintro ⟨state, h, -⟩
    cases h
  · exact fun _ h => absurd h List.not_mem_nil
  · exact fun _ h => absurd h List.not_mem_nil

variable (h : Ledger t given released)
include h

/-- A buffer becomes another one with the same accesses. -/
theorem Ledger.put {state state' : BufferState}
    (hlookup : t.buffers.lookup id = some state) (hsound : state'.Sound)
    (hgeneration : state.nextGeneration ≤ state'.nextGeneration)
    {given' released' : List AccessToken}
    (hgiven : ∀ token ∈ given', token ∈ given ∨ token.buffer = id ∧
      token.generation < state'.nextGeneration)
    (honce : given'.Nodup) (hreleasedOnce : released'.Nodup)
    (hreleased : ∀ token ∈ released', token ∈ given')
    (hlive : ∀ token, (if token.buffer = id then
      ⟨token.generation, token.kind⟩ ∈ state'.active else t.Live token) ↔
        token ∈ given' ∧ token ∉ released') :
    Ledger (t.put id state') given' released' := by
  refine ⟨fun other found hfound => ?_, fun other found hfound => ?_, fun token => ?_,
    fun token htoken => ?_, honce, hreleasedOnce, hreleased⟩
  · rw [ResourceTable.lookup_put] at hfound
    split at hfound
    next heq => exact heq ▸ h.below id state hlookup
    next => exact h.below other found hfound
  · rw [ResourceTable.lookup_put] at hfound
    split at hfound
    next => exact Option.some.inj hfound ▸ hsound
    next => exact h.sound other found hfound
  · rw [← hlive]
    unfold ResourceTable.Live
    rw [ResourceTable.lookup_put]
    split
    next => simp
    next => rfl
  · rw [ResourceTable.lookup_put]
    rcases hgiven token htoken with hold | ⟨hbuffer, hlt⟩
    · obtain ⟨found, hfound, hlt⟩ := h.older token hold
      split
      next heq =>
        rw [heq, hlookup] at hfound
        exact ⟨state', rfl, (Option.some.inj hfound ▸ hlt).trans_le hgeneration⟩
      next => exact ⟨found, hfound, hlt⟩
    · exact ⟨state', if_pos hbuffer, hlt⟩

theorem Ledger.mem_active {state : BufferState}
    (hlookup : t.buffers.lookup token.buffer = some state) :
    ⟨token.generation, token.kind⟩ ∈ state.active ↔ token ∈ given ∧ token ∉ released := by
  rw [← h.live]
  exact ⟨fun hmem => ⟨state, hlookup, hmem⟩, fun ⟨found, hfound, hmem⟩ =>
    Option.some.inj (hfound.symm.trans hlookup) ▸ hmem⟩

theorem Ledger.acquire
    (hacquire : t.acquire id kind = .ok (token, t')) : Ledger t' (given ++ [token]) released := by
  obtain ⟨state, hlookup, hresident, hnone, -, rfl, rfl⟩ := ResourceTable.acquire_eq_ok.mp hacquire
  have hsound := h.sound id state hlookup
  -- generations go up, so the new token was never given before
  have hnew : (⟨id, state.nextGeneration, kind⟩ : AccessToken) ∉ given := by
    intro hgiven
    obtain ⟨found, hfound, hlt⟩ := h.older _ hgiven
    obtain rfl := Option.some.inj (hlookup.symm.trans hfound)
    exact lt_irrefl _ hlt
  refine h.put hlookup ?_ (Nat.le_succ _) ?_ ?_ h.releasedOnce ?_ fun token => ?_
  · refine ⟨?_, fun a ha => ?_, fun a ha a' ha' => ?_, fun hhost => absurd hhost hresident⟩
    · refine hsound.nodup.append (List.nodup_singleton _) fun a ha hmem => ?_
      rw [List.mem_singleton.mp hmem] at ha
      exact lt_irrefl _ (hsound.older _ ha)
    · rcases List.mem_append.mp ha with ha | ha
      · exact Nat.lt_succ_of_lt (hsound.older a ha)
      · rw [List.mem_singleton.mp ha]
        exact Nat.lt_succ_self _
    · rcases List.mem_append.mp ha with ha | ha <;> rcases List.mem_append.mp ha' with ha' | ha'
      · exact hsound.exclusive a ha a' ha'
      · rw [List.mem_singleton.mp ha']
        exact .inr (hnone a ha)
      · rw [List.mem_singleton.mp ha, AccessKind.conflicts_comm]
        exact .inr (hnone a' ha')
      · exact .inl ((List.mem_singleton.mp ha).trans (List.mem_singleton.mp ha').symm)
  · intro token htoken
    rcases List.mem_append.mp htoken with hold | hmem
    · exact .inl hold
    · rw [List.mem_singleton.mp hmem]
      exact .inr ⟨rfl, Nat.lt_succ_self _⟩
  · exact h.givenOnce.append (List.nodup_singleton _) fun a ha hmem =>
      hnew (List.mem_singleton.mp hmem ▸ ha)
  · exact fun token htoken => List.mem_append_left _ (h.releasedGiven token htoken)
  · have hsame : ∀ {token : AccessToken}, token = ⟨id, state.nextGeneration, kind⟩ →
        token ∉ released := fun heq hreleased => hnew (heq ▸ h.releasedGiven _ hreleased)
    by_cases hbuffer : token.buffer = id
    · rw [if_pos hbuffer]
      have hold := h.mem_active (hbuffer ▸ hlookup)
      obtain ⟨buffer, generation, kind'⟩ := token
      obtain rfl : buffer = id := hbuffer
      simp only [List.mem_append, List.mem_singleton, hold, AccessToken.mk.injEq, true_and,
        ActiveAccess.mk.injEq]
      refine ⟨fun hmem => hmem.elim (fun hmem => ⟨.inl hmem.1, hmem.2⟩) fun heq => ⟨.inr heq, ?_⟩,
        fun hmem => hmem.1.imp_left fun hgiven => ⟨hgiven, hmem.2⟩⟩
      exact hsame (by rw [heq.1, heq.2])
    · rw [if_neg hbuffer, h.live, List.mem_append, List.mem_singleton]
      refine and_congr_left fun _ => ⟨.inl, fun hmem => hmem.resolve_right fun heq => ?_⟩
      exact hbuffer (by rw [heq])

theorem Ledger.release (hrelease : t.release token = .ok t') :
    Ledger t' given (released ++ [token]) := by
  obtain ⟨state, hlookup, hmem, rfl⟩ := ResourceTable.release_eq_ok.mp hrelease
  have hsound := h.sound token.buffer state hlookup
  obtain ⟨hgiven, hnot⟩ := (h.mem_active hlookup).mp hmem
  refine h.put hlookup ?_ ?_ (fun _ htoken => .inl htoken) h.givenOnce ?_ ?_ fun other => ?_
  · refine ⟨hsound.nodup.erase _, fun a ha => hsound.older a (List.mem_of_mem_erase ha),
      fun a ha a' ha' => hsound.exclusive a (List.mem_of_mem_erase ha) a'
        (List.mem_of_mem_erase ha'), fun hhost => ?_⟩
    simp [hsound.resident hhost]
  · exact le_rfl
  · exact h.releasedOnce.append (List.nodup_singleton _) fun a ha heq =>
      hnot (List.mem_singleton.mp heq ▸ ha)
  · intro other hother
    rcases List.mem_append.mp hother with hother | heq
    · exact h.releasedGiven other hother
    · exact List.mem_singleton.mp heq ▸ hgiven
  · rw [List.mem_append, List.mem_singleton, not_or, ← and_assoc]
    by_cases hbuffer : other.buffer = token.buffer
    · rw [if_pos hbuffer, hsound.nodup.mem_erase_iff, h.mem_active (hbuffer ▸ hlookup), and_comm]
      refine and_congr_right fun _ => not_congr ⟨fun heq => ?_, fun heq => by rw [heq]⟩
      obtain ⟨buffer, generation, kind⟩ := other
      obtain ⟨hgeneration, hkind⟩ := ActiveAccess.mk.inj heq
      obtain rfl : buffer = token.buffer := hbuffer
      simp only at hgeneration hkind
      rw [hgeneration, hkind]
    · rw [if_neg hbuffer, h.live]
      exact ⟨fun hlive => ⟨hlive, fun heq => hbuffer (by rw [heq])⟩, And.left⟩

theorem Ledger.move {state : BufferState}
    (hlookup : t.buffers.lookup id = some state) {residency : Residency}
    (hidle : residency = .host → state.active = []) :
    Ledger (t.put id { state with residency := residency }) given released := by
  obtain ⟨hnodup, holder, hexclusive, -⟩ := h.sound id state hlookup
  refine h.put hlookup ?_ ?_ (fun _ => .inl) h.givenOnce h.releasedOnce h.releasedGiven
    fun token => ?_
  · exact ⟨hnodup, holder, hexclusive, hidle⟩
  · exact le_rfl
  have hactive : t.buffers.lookup token.buffer = some state →
      (⟨token.generation, token.kind⟩ ∈ state.active ↔ token ∈ given ∧ token ∉ released) :=
    h.mem_active
  split
  next hbuffer => exact hactive (hbuffer ▸ hlookup)
  next => exact h.live token

theorem Ledger.promote {residency : Residency}
    (hne : residency ≠ .host) (hpromote : t.promote residency id = .ok t') :
    Ledger t' given released := by
  obtain ⟨state, hstate, hpromote⟩ := ResourceTable.bind_eq_ok.mp hpromote
  split_ifs at hpromote
  obtain rfl := Except.ok.inj hpromote
  exact h.move (ResourceTable.state_eq_ok.mp hstate) fun heq => absurd heq hne

theorem Ledger.evict (hevict : t.evict id = .ok t') :
    Ledger t' given released := by
  obtain ⟨state, hstate, hevict⟩ := ResourceTable.bind_eq_ok.mp hevict
  split_ifs at hevict with hbusy
  obtain rfl := Except.ok.inj hevict
  exact h.move (ResourceTable.state_eq_ok.mp hstate) fun _ => not_not.mp hbusy

theorem Ledger.createBuffer {size : ℕ}
    (hcreate : t.createBuffer size = .ok (id, t')) : Ledger t' given released := by
  unfold ResourceTable.createBuffer at hcreate
  split_ifs at hcreate
  obtain ⟨rfl, rfl⟩ := Prod.mk.inj (Except.ok.inj hcreate)
  have hnew : t.buffers.lookup t.nextId = none :=
    Option.eq_none_iff_forall_ne_some.mpr fun state hstate => lt_irrefl _ (h.below _ state hstate)
  have hlookup : ∀ id, (t.put t.nextId ⟨size, .host, 1, []⟩).buffers.lookup id =
      if id = t.nextId then some ⟨size, .host, 1, []⟩ else t.buffers.lookup id := fun id =>
    ResourceTable.lookup_put t t.nextId id _
  refine ⟨fun id state hstate => ?_, fun id state hstate => ?_, fun token => ?_,
    fun token htoken => ?_, h.givenOnce, h.releasedOnce, h.releasedGiven⟩
  · show id < t.nextId + 1
    simp only [hlookup] at hstate
    split at hstate
    next heq => exact heq ▸ Nat.lt_succ_self _
    next => exact Nat.lt_succ_of_lt (h.below id state hstate)
  · simp only [hlookup] at hstate
    split at hstate
    next =>
      obtain rfl := Option.some.inj hstate
      exact ⟨.nil, fun _ h => absurd h List.not_mem_nil, fun _ h => absurd h List.not_mem_nil,
        fun _ => rfl⟩
    next => exact h.sound id state hstate
  · rw [← h.live]
    unfold ResourceTable.Live
    simp only [hlookup]
    split
    next heq => simp [heq, hnew]
    next => rfl
  · obtain ⟨state, hstate, hlt⟩ := h.older token htoken
    refine ⟨state, ?_, hlt⟩
    simp only [hlookup]
    rw [if_neg fun heq : token.buffer = t.nextId => ?_, hstate]
    rw [heq, hnew] at hstate
    cases hstate

end Jadren.Gpu
