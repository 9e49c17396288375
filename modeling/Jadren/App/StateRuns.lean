import Jadren.App.StateDocument
import Jadren.Library.Transition

/-!
# Runs of calls on the state

The entries in use are a finite map: they stand in the first slots, have different keys that are
safe, and values of one of the five kinds.  A call that fails changes nothing, with one exception:
`app_state_add_float` with a key that is not there takes a slot before it checks that the sum can be
written, and leaves the slot without a kind if it cannot.  For the two integers there is no such
case, since a sum that starts at zero does not overflow.

* `careful_change`: one call that writes, by what it accepts;
* `exact_of_run`: runs without the exception.
-/

namespace Jadren.App

namespace StateStore

open Function Option Int64

variable {entries entries' : Entries} {slot : Slot} {key : Text} {s : Store}

def kinds : List ℕ := [kindInt, kindUint, kindBool, kindText, kindFloat]

/-- The entries in use are a finite map in the first slots. -/
structure Sound (entries : Entries) : Prop where
  contiguous : ∀ i j, i ≤ j → (entries j).used = true → (entries i).used = true
  distinct : ∀ i j, (entries i).used = true → (entries j).used = true →
    (entries i).key = (entries j).key → i = j
  safe : ∀ i, (entries i).used = true → keyIsSafe (entries i).key = true
  kinded : ∀ i, (entries i).used = true → (entries i).kind ∈ kinds

theorem sound_clearEntries : Sound clearEntries := by
  constructor <;> intro i <;> simp [clearEntries, clearEntry]

/-! ## Slots -/

theorem findIn_eq_some (h : findIn entries key = some slot) :
    (entries slot).used = true ∧ (entries slot).key = key := by
  have hfound := List.find?_some h
  simpa using hfound

theorem findIn_eq_none_iff : findIn entries key = none ↔
    ∀ i, (entries i).used = true → (entries i).key ≠ key := by
  simp [findIn, slots]

/-- A slot that was taken is the first free one. -/
theorem slotIn_cases (h : slotIn entries key = some (slot, entries')) :
    (findIn entries key = some slot ∧ entries' = entries) ∨
    (findIn entries key = none ∧ (entries slot).used = false ∧
      (∀ i < slot, (entries i).used = true) ∧
      entries' = update entries slot ((entries slot).taken key)) := by
  unfold slotIn at h
  split at h
  next found hfound =>
    cases h
    exact .inl ⟨hfound, rfl⟩
  next hnone =>
    obtain ⟨free, hfree, heq⟩ := map_eq_some_iff.mp h
    cases heq
    refine .inr ⟨hnone, ?_, ?_, rfl⟩
    · simpa using List.find?_some hfree
    · intro i hi
      obtain ⟨-, k, hk, hget, hbefore⟩ := List.find?_eq_some_iff_getElem.mp hfree
      have hindex : slot.val = k := by
        rw [← hget]
        simp [slots]
      have hused := hbefore i.val (hindex ▸ hi)
      simpa [slots] using hused

theorem slotIn_used (h : slotIn entries key = some (slot, entries')) :
    (entries' slot).used = true ∧ (entries' slot).key = key := by
  rcases slotIn_cases h with ⟨hfound, rfl⟩ | ⟨-, -, -, rfl⟩
  · exact findIn_eq_some hfound
  · simp [Entry.taken]

/-- All slots before the one of a key are in use, and no other slot is that of the key. -/
theorem Sound.of_slotIn (sound : Sound entries) (h : slotIn entries key = some (slot, entries')) :
    (∀ i < slot, (entries i).used = true) ∧
      (∀ i, i ≠ slot → (entries i).used = true → (entries i).key ≠ key) ∧
      ∀ entry, update entries' slot entry = update entries slot entry := by
  rcases slotIn_cases h with ⟨hfound, rfl⟩ | ⟨hnone, -, hbefore, rfl⟩
  · obtain ⟨hused, hkey⟩ := findIn_eq_some hfound
    refine ⟨fun i hi => sound.contiguous i slot hi.le hused, fun i hne hi heq => ?_, fun _ => rfl⟩
    exact hne (sound.distinct i slot hi hused (heq.trans hkey.symm))
  · exact ⟨hbefore, fun i _ hi => findIn_eq_none_iff.mp hnone i hi,
      fun entry => update_idem _ _ _⟩

/-- Writing an entry of a kind into the slot of its key. -/
theorem Sound.write (sound : Sound entries) (hsafe : keyIsSafe key = true)
    (h : slotIn entries key = some (slot, entries')) {entry : Entry} (hused : entry.used = true)
    (hkey : entry.key = key) (hkind : entry.kind ∈ kinds) :
    Sound (update entries' slot entry) := by
  obtain ⟨hbefore, hother, hupdate⟩ := sound.of_slotIn h
  have hwritten : update entries slot entry slot = entry := update_self ..
  have hrest : ∀ i, i ≠ slot → update entries slot entry i = entries i := fun i hi =>
    update_of_ne hi _ _
  rw [hupdate]
  constructor
  · intro i j hij hj
    -- the slot is a used one, or the first that is not
    rcases lt_trichotomy i slot with hi | rfl | hi
    · rw [hrest i hi.ne]
      exact hbefore i hi
    · rw [hwritten, hused]
    · rw [hrest i hi.ne']
      rw [hrest j (hi.trans_le hij).ne'] at hj
      exact sound.contiguous i j hij hj
  · intro i j hi hj heq
    -- another entry with the key would have been found instead of the slot
    by_cases his : i = slot <;> by_cases hjs : j = slot
    · rw [his, hjs]
    · subst his
      rw [hwritten, hrest j hjs, hkey] at heq
      rw [hrest j hjs] at hj
      exact absurd heq.symm (hother j hjs hj)
    · subst hjs
      rw [hwritten, hrest i his, hkey] at heq
      rw [hrest i his] at hi
      exact absurd heq (hother i his hi)
    · rw [hrest i his] at hi heq
      rw [hrest j hjs] at hj heq
      exact sound.distinct i j hi hj heq
  · intro i hi
    by_cases his : i = slot
    · subst his
      rw [hwritten, hkey, hsafe]
    · rw [hrest i his] at hi ⊢
      exact sound.safe i hi
  · intro i hi
    by_cases his : i = slot
    · subst his
      rw [hwritten]
      exact hkind
    · rw [hrest i his] at hi ⊢
      exact sound.kinded i hi

/-! ## Removal -/

/-- A sound state but for one entry in use, which is about to be overwritten. -/
structure Gap (entries : Entries) (slot : Slot) : Prop where
  contiguous : ∀ i j, i ≤ j → (entries j).used = true → (entries i).used = true
  used : (entries slot).used = true
  distinct : ∀ i j, i ≠ slot → j ≠ slot → (entries i).used = true → (entries j).used = true →
    (entries i).key = (entries j).key → i = j
  safe : ∀ i, (entries i).used = true → keyIsSafe (entries i).key = true
  kinded : ∀ i, (entries i).used = true → (entries i).kind ∈ kinds

theorem Sound.gap (sound : Sound entries) (hused : (entries slot).used = true) :
    Gap entries slot where
  contiguous := sound.contiguous
  used := hused
  distinct i j _ _ := sound.distinct i j
  safe := sound.safe
  kinded := sound.kinded

/-- Nothing is behind the gap: it is cleared. -/
theorem Gap.clear (gap : Gap entries slot) (hlast : ∀ i, slot < i → (entries i).used = false) :
    Sound (update entries slot clearEntry) := by
  have hcleared : (update entries slot clearEntry slot).used = false := by
    rw [update_self]
    rfl
  have hrest : ∀ i, (update entries slot clearEntry i).used = true →
      i ≠ slot ∧ (entries i).used = true ∧ update entries slot clearEntry i = entries i := by
    intro i hi
    have hne : i ≠ slot := by
      rintro rfl
      rw [hcleared] at hi
      cases hi
    rw [update_of_ne hne] at hi ⊢
    exact ⟨hne, hi, rfl⟩
  constructor
  · intro i j hij hj
    obtain ⟨hne, hused, -⟩ := hrest j hj
    have hlt : j < slot := by
      refine lt_of_le_of_ne (not_lt.mp fun hgt => ?_) hne
      rw [hlast j hgt] at hused
      cases hused
    rw [update_of_ne (hij.trans_lt hlt).ne]
    exact gap.contiguous i j hij hused
  · intro i j hi hj heq
    obtain ⟨hi', hused, hentry⟩ := hrest i hi
    obtain ⟨hj', hused', hentry'⟩ := hrest j hj
    rw [hentry, hentry'] at heq
    exact gap.distinct i j hi' hj' hused hused' heq
  · intro i hi
    obtain ⟨-, hused, hentry⟩ := hrest i hi
    rw [hentry]
    exact gap.safe i hused
  · intro i hi
    obtain ⟨-, hused, hentry⟩ := hrest i hi
    rw [hentry]
    exact gap.kinded i hused

/-- The entry behind the gap moves into it, and leaves the gap where it was. -/
theorem Gap.move (gap : Gap entries slot) {next : Slot} (hne : next ≠ slot)
    (hused : (entries next).used = true) :
    Gap (update entries slot (entries next)) next := by
  -- all entries are old ones, and none is that of the gap
  have hentry : ∀ i, update entries slot (entries next) i =
      entries (if i = slot then next else i) := by
    intro i
    by_cases hi : i = slot
    · rw [hi, update_self, if_pos rfl]
    · rw [update_of_ne hi, if_neg hi]
  have hflag : ∀ i, (update entries slot (entries next) i).used = (entries i).used := by
    intro i
    rw [hentry]
    split_ifs with hi
    · rw [hi, hused, gap.used]
    · rfl
  constructor
  · intro i j hij hj
    rw [hflag] at hj ⊢
    exact gap.contiguous i j hij hj
  · rw [hflag, hused]
  · intro i j hi hj hi' hj' heq
    have hoff : ∀ k : Slot, (if k = slot then next else k) ≠ slot := by
      intro k
      split_ifs with hk
      · exact hne
      · exact hk
    rw [hentry i, hentry j] at heq
    rw [hentry] at hi' hj'
    have hsame := gap.distinct _ _ (hoff i) (hoff j) hi' hj' heq
    split_ifs at hsame with his hjs hjs
    · rw [his, hjs]
    · exact absurd hsame.symm hj
    · exact absurd hsame hi
    · exact hsame
  · intro i hi
    rw [hentry] at hi ⊢
    exact gap.safe _ hi
  · intro i hi
    rw [hentry] at hi ⊢
    exact gap.kinded _ hi

theorem Gap.closeGap {slot : ℕ} {h : slot < stateMaxEntries} (gap : Gap entries ⟨slot, h⟩) :
    Sound (closeGap entries slot) := by
  fun_induction StateStore.closeGap entries slot with
  | case1 entries slot hnext hfree =>
      refine gap.clear fun i hi => ?_
      rw [← Bool.not_eq_true]
      intro hused
      have hle : (⟨slot + 1, hnext⟩ : Slot) ≤ i := hi
      rw [gap.contiguous _ i hle hused] at hfree
      cases hfree
  | case2 entries slot hnext hused ih =>
      have hused' : (entries ⟨slot + 1, hnext⟩).used = true := by simpa using hused
      refine ih (h := hnext) (gap.move (fun heq => ?_) hused')
      exact absurd (congrArg Fin.val heq) (Nat.succ_ne_self slot)
  | case3 entries slot hlast =>
      have hslot : (⟨slot, h⟩ : Slot) = Fin.last _ := by
        apply Fin.ext
        show slot = 31
        have hlt : slot < 32 := h
        have hge : ¬slot + 1 < 32 := hlast
        omega
      rw [hslot] at gap
      exact gap.clear fun i hi => absurd (Fin.le_last i) (not_le.mpr hi)

/-! ## Calls that change an entry -/

/-- The revision apart, both the state and its backup are sound. -/
def Inv (s : Store) : Prop := Sound s.entries ∧ Sound s.backup

@[simp] theorem bumpRevision_entries (s : Store) : (bumpRevision s).entries = s.entries := by
  unfold bumpRevision
  split <;> rfl

@[simp] theorem bumpRevision_backup (s : Store) : (bumpRevision s).backup = s.backup := by
  unfold bumpRevision
  split <;> rfl

/-- The call fails and changes nothing, or it succeeds and keeps the state sound. -/
def Careful (call : StoreCall) (s : Store) : Prop :=
  call s = (false, s) ∨ ((call s).1 = true ∧ (Inv s → Inv (call s).2))

variable {call : StoreCall}

theorem Careful.unchanged (h : Careful call s) (hfails : (call s).1 = false) : (call s).2 = s := by
  rcases h with h | ⟨hsucceeds, -⟩
  · rw [h]
  · rw [hfails] at hsucceeds
    cases hsucceeds

theorem Careful.keeps (h : Careful call s) (inv : Inv s) : Inv (call s).2 := by
  rcases h with h | ⟨-, hkeeps⟩
  · rw [h]
    exact inv
  · exact hkeeps inv

theorem Careful.of_eq {call' : StoreCall} (h : call s = call' s) (hcall : Careful call' s) :
    Careful call s := by
  unfold Careful
  rw [h]
  exact hcall

/-- Checks before a call. -/
theorem Careful.of_check {refused : Prop} [Decidable refused] (h : ¬refused → Careful call s) :
    Careful (fun s' => if refused then (false, s') else call s') s := by
  by_cases hrefused : refused
  · exact .inl (if_pos hrefused)
  · exact (h hrefused).of_eq (if_neg hrefused)

theorem Careful.ifRevision {expectedRevision : ℕ}
    (h : s.revision = expectedRevision → Careful call s) :
    Careful (ifRevision expectedRevision call) s := by
  by_cases hrevision : s.revision = expectedRevision
  · exact (h hrevision).of_eq (if_neg (not_not.mpr hrevision))
  · exact .inl (if_pos hrevision)

/-- The key is not there, and a slot is free for it. -/
def Takes (key : Text) (s : Store) : Prop :=
  findIn s.entries key = none ∧ ∃ slot, (s.entries slot).used = false

theorem Takes.slotIn (h : Takes key s) : ∃ slot, (s.entries slot).used = false ∧
    slotIn s.entries key =
      some (slot, update s.entries slot ((s.entries slot).taken key)) := by
  obtain ⟨hnone, free, hfree⟩ := h
  unfold StateStore.slotIn
  rw [hnone]
  cases hfind : slots.find? fun slot => !(s.entries slot).used with
  | none =>
      have hall := List.find?_eq_none.mp hfind free (List.mem_finRange free)
      rw [hfree] at hall
      exact absurd rfl hall
  | some slot =>
      have hslot : (s.entries slot).used = false := by simpa using List.find?_some hfind
      exact ⟨slot, hslot, rfl⟩

/-- What is accepted as the new entry has the key of the old one, and a kind. -/
def Accepts (accept : Entry → Option Entry) : Prop :=
  ∀ old new, accept old = some new → new.used = old.used ∧ new.key = old.key ∧ new.kind ∈ kinds

/-- **A call that writes an entry**: it is careful if a new entry would be accepted, or the key is
there, or there is no slot for it. -/
theorem careful_change {accept : Entry → Option Entry} (haccept : Accepts accept)
    (hsafe : keyIsSafe key = true)
    (hnew : Takes key s → ∀ entry, entry.kind = 0 → (accept entry).isSome = true) :
    Careful (change key accept) s := by
  unfold Careful change
  cases hslot : slotIn s.entries key with
  | none => exact .inl rfl
  | some taken =>
      obtain ⟨slot, entries⟩ := taken
      dsimp only
      cases hentry : accept (entries slot) with
      | none =>
          refine .inl ?_
          rcases slotIn_cases hslot with ⟨-, rfl⟩ | ⟨hnone, hfree, -, hentries⟩
          · rfl
          · -- the slot was taken for the key, and refused
            have hkind : (entries slot).kind = 0 := by
              rw [hentries, update_self]
              rfl
            have haccepted := hnew ⟨hnone, slot, hfree⟩ _ hkind
            rw [hentry] at haccepted
            cases haccepted
      | some =>
          refine .inr ⟨rfl, fun inv => ⟨?_, ?_⟩⟩
          · obtain ⟨hused, hkey, hkind⟩ := haccept _ _ hentry
            obtain ⟨hused', hkey'⟩ := slotIn_used hslot
            rw [bumpRevision_entries]
            exact inv.1.write hsafe hslot (hused.trans hused') (hkey.trans hkey') hkind
          · rw [bumpRevision_backup]
            exact inv.2

/-! ## The calls -/

theorem careful_set {write : Entry → Entry} (hused : ∀ entry, (write entry).used = entry.used)
    (hkey : ∀ entry, (write entry).key = entry.key) (hkind : ∀ entry, (write entry).kind ∈ kinds)
    (hsafe : keyIsSafe key = true) : Careful (change key fun entry => some (write entry)) s := by
  refine careful_change (fun old new h => ?_) hsafe fun _ _ _ => rfl
  obtain rfl := some.inj h
  exact ⟨hused old, hkey old, hkind old⟩

theorem mem_kinds : kindInt ∈ kinds ∧ kindUint ∈ kinds ∧ kindBool ∈ kinds ∧ kindText ∈ kinds ∧
    kindFloat ∈ kinds := by decide

theorem careful_setInt (key : Text) (value : Int64) : Careful (setInt key value) s :=
  Careful.of_check fun hsafe => careful_set (fun _ => rfl) (fun _ => rfl) (fun _ => mem_kinds.1)
    (by simpa using hsafe)

theorem careful_setUint (key : Text) (value : UInt64) : Careful (setUint key value) s :=
  Careful.of_check fun hsafe => careful_set (fun _ => rfl) (fun _ => rfl) (fun _ => mem_kinds.2.1)
    (by simpa using hsafe)

theorem careful_setBool (key : Text) (value : Bool) : Careful (setBool key value) s :=
  Careful.of_check fun hsafe => careful_set (fun _ => rfl) (fun _ => rfl) (fun _ => mem_kinds.2.2.1)
    (by simpa using hsafe)

theorem careful_setFloat (key : Text) (value : Double) : Careful (setFloat key value) s :=
  Careful.of_check fun hchecks => careful_set (fun _ => rfl) (fun _ => rfl)
    (fun _ => mem_kinds.2.2.2.2) (by
      simp only [Bool.or_eq_true, Bool.not_eq_true', not_or, Bool.not_eq_false] at hchecks
      exact hchecks.1)

theorem careful_setText (key : Text) (value : TextValue) : Careful (setText key value) s := by
  cases value with
  | none => exact .inl rfl
  | some =>
      exact Careful.of_check fun hchecks => careful_set (fun _ => rfl) (fun _ => rfl)
        (fun _ => mem_kinds.2.2.2.1) (by
          simp only [Bool.or_eq_true, Bool.not_eq_true', not_or, Bool.not_eq_false] at hchecks
          exact hchecks.1)

variable {entry : Entry}

theorem current_of_kind_zero {α : Type} {kind : ℕ} {zero : α} {value : Entry → α}
    (h : entry.kind = 0) : current kind zero value entry = some zero := if_pos h

/-- A sum that starts at zero does not overflow. -/
theorem addedInt_of_kind_zero (delta : Int64) (h : entry.kind = 0) :
    (addedInt delta entry).isSome = true := by
  have hfits : ¬((0 < delta ∧ maxValue - delta < 0) ∨
      (delta < 0 ∧ 0 < minValue - delta)) := by
    have hlt := delta.toInt_lt
    have hle := delta.le_toInt
    rintro (⟨hpositive, hover⟩ | ⟨hnegative, hunder⟩)
    · rw [lt_iff_toInt_lt] at hpositive hover
      rw [toInt_sub, Int.bmod_eq_of_le] at hover
      all_goals simp only [toInt_zero, toInt_maxValue] at *
      all_goals omega
    · rw [lt_iff_toInt_lt] at hnegative hunder
      rw [toInt_sub, Int.bmod_eq_of_le] at hunder
      all_goals simp only [toInt_zero, toInt_minValue] at *
      all_goals omega
  rw [addedInt, current_of_kind_zero h, bind_some, if_neg hfits]
  rfl

theorem addedUint_of_kind_zero (delta : UInt64) (h : entry.kind = 0) :
    (addedUint delta entry).isSome = true := by
  rw [addedUint, current_of_kind_zero h, bind_some, if_neg UInt64.not_lt_zero]
  rfl

variable {delta : Double}

theorem addedFloat_of_kind_zero (h : entry.kind = 0) :
    (addedFloat delta entry).isSome = isStorable (Double.add 0 delta) := by
  rw [addedFloat, current_of_kind_zero h, bind_some]
  cases isStorable (Double.add 0 delta) <;> rfl

theorem accepts_addedInt (delta : Int64) : Accepts (addedInt delta) := by
  intro old new h
  obtain ⟨start, -, h⟩ := bind_eq_some_iff.mp h
  split_ifs at h
  cases h
  exact ⟨rfl, rfl, mem_kinds.1⟩

theorem accepts_addedUint (delta : UInt64) : Accepts (addedUint delta) := by
  intro old new h
  obtain ⟨start, -, h⟩ := bind_eq_some_iff.mp h
  split_ifs at h
  cases h
  exact ⟨rfl, rfl, mem_kinds.2.1⟩

theorem accepts_addedFloat (delta : Double) : Accepts (addedFloat delta) := by
  intro old new h
  obtain ⟨start, -, h⟩ := bind_eq_some_iff.mp h
  split_ifs at h
  cases h
  exact ⟨rfl, rfl, mem_kinds.2.2.2.2⟩

theorem careful_addInt (key : Text) (delta : Int64) : Careful (addInt key delta) s :=
  Careful.of_check fun hsafe => careful_change (accepts_addedInt delta) (by simpa using hsafe)
    fun _ _ hkind => addedInt_of_kind_zero delta hkind

theorem careful_addUint (key : Text) (delta : UInt64) : Careful (addUint key delta) s :=
  Careful.of_check fun hsafe => careful_change (accepts_addedUint delta) (by simpa using hsafe)
    fun _ _ hkind => addedUint_of_kind_zero delta hkind

/-- The addition takes a slot, and the sum cannot be written. -/
structure FloatLeaks (key : Text) (delta : Double) (s : Store) : Prop where
  safe : keyIsSafe key = true
  finite : delta.isFinite = true
  takes : Takes key s
  notStorable : isStorable (Double.add 0 delta) = false

theorem careful_addFloat (h : ¬FloatLeaks key delta s) : Careful (addFloat key delta) s := by
  refine Careful.of_check fun hchecks => ?_
  simp only [Bool.or_eq_true, Bool.not_eq_true', not_or, Bool.not_eq_false] at hchecks
  obtain ⟨hsafe, hfinite⟩ := hchecks
  refine careful_change (accepts_addedFloat delta) hsafe fun htakes entry hkind => ?_
  rw [addedFloat_of_kind_zero hkind]
  by_contra hstorable
  exact h ⟨hsafe, hfinite, htakes, Bool.not_eq_true _ ▸ hstorable⟩

/-- A leak: the call fails, and one more slot is in use, without a kind. -/
theorem changed_of_floatLeaks (h : FloatLeaks key delta s) :
    (addFloat key delta s).1 = false ∧ (addFloat key delta s).2 ≠ s ∧
      ¬Sound (addFloat key delta s).2.entries := by
  obtain ⟨slot, hfree, hslot⟩ := h.takes.slotIn
  have hrefused : addedFloat delta ((s.entries slot).taken key) = none := by
    rw [← not_isSome_iff_eq_none, addedFloat_of_kind_zero rfl, h.notStorable]
    exact Bool.false_ne_true
  have hcall : addFloat key delta s = (false, { s with
      entries := update s.entries slot ((s.entries slot).taken key) }) := by
    unfold addFloat
    rw [h.safe, h.finite, if_neg (by decide)]
    unfold change
    rw [hslot]
    dsimp only
    rw [update_self, hrefused]
  rw [hcall]
  refine ⟨rfl, fun heq => ?_, fun sound => ?_⟩
  · have hused := congrArg (fun s : Store => (s.entries slot).used) heq
    dsimp only at hused
    rw [update_self, hfree] at hused
    exact Bool.false_ne_true hused.symm
  · have hkind := sound.kinded slot
    dsimp only at hkind
    rw [update_self] at hkind
    have hnone : (0 : ℕ) ∉ kinds := by decide
    exact hnone (hkind rfl)

/-! ## Documents -/

theorem accepts_parsedEntry (value : RawValue) : Accepts (parsedEntry value) := by
  intro old new h
  cases value with
  | string =>
      unfold parsedEntry at h
      dsimp only at h
      split_ifs at h
      cases h
      exact ⟨rfl, rfl, mem_kinds.2.2.2.1⟩
  | plain =>
      unfold parsedEntry at h
      dsimp only at h
      split_ifs at h
      · cases h
        exact ⟨rfl, rfl, mem_kinds.2.2.1⟩
      · cases h
        exact ⟨rfl, rfl, mem_kinds.2.2.1⟩
      · obtain ⟨value, -, rfl⟩ := map_eq_some_iff.mp h
        exact ⟨rfl, rfl, mem_kinds.2.2.2.2⟩
      · obtain ⟨value, -, rfl⟩ := map_eq_some_iff.mp h
        exact ⟨rfl, rfl, mem_kinds.1⟩
      · obtain ⟨value, -, rfl⟩ := map_eq_some_iff.mp h
        exact ⟨rfl, rfl, mem_kinds.2.1⟩

theorem Sound.parseValue {value : RawValue} (sound : Sound entries)
    (h : parseValue value key entries = some entries') : Sound entries' := by
  unfold StateStore.parseValue at h
  split_ifs at h with hsafe
  split at h
  · cases h
  next slot taken hslot =>
    obtain ⟨entry, hentry, rfl⟩ := map_eq_some_iff.mp h
    obtain ⟨hused, hkey, hkind⟩ := accepts_parsedEntry value _ _ hentry
    obtain ⟨hused', hkey'⟩ := slotIn_used hslot
    exact sound.write (by simpa using hsafe) hslot (hused.trans hused') (hkey.trans hkey') hkind

variable {text : Text}

theorem Sound.finished (sound : Sound entries) (h : finished text entries = some entries') :
    Sound entries' := by
  unfold StateStore.finished at h
  split_ifs at h
  cases h
  exact sound

theorem Sound.parseMembers (sound : Sound entries) (h : parseMembers text entries = some entries') :
    Sound entries' := by
  fun_induction StateStore.parseMembers text entries with
  | case1 => cases h
  | case2 => exact sound.finished h
  | case3 => cases h
  | case4 => cases h
  | case5 => cases h
  | case6 _ _ _ _ _ _ _ _ _ _ _ hvalue _ _ _ _ ih => exact ih (sound.parseValue hvalue) h
  | case7 _ _ _ _ _ _ _ _ _ _ _ hvalue => exact (sound.parseValue hvalue).finished h
  | case8 => cases h

theorem sound_parseDocument (h : parseDocument text clearEntries = some entries) :
    Sound entries := by
  unfold parseDocument at h
  split at h
  · exact sound_clearEntries.parseMembers h
  · cases h

theorem careful_loadDocument (document : Text) : Careful (loadDocument document) s := by
  unfold Careful loadDocument
  cases hparse : parseDocument document clearEntries with
  | none => exact .inl rfl
  | some =>
      refine .inr ⟨rfl, fun inv => ⟨?_, ?_⟩⟩
      · rw [bumpRevision_entries]
        exact sound_parseDocument hparse
      · rw [bumpRevision_backup]
        exact inv.2

theorem careful_load (fileSize : ℕ) (document : Text) : Careful (load fileSize document) s :=
  Careful.of_check fun _ => careful_loadDocument _

theorem careful_loadJsonExact (input : Option Text) (inputLength : ℕ) :
    Careful (loadJsonExact input inputLength) s := by
  cases input with
  | none => exact .inl rfl
  | some => exact Careful.of_check fun _ => careful_loadDocument _

/-! ## The other calls -/

theorem careful_remove (key : Text) : Careful (remove key) s := by
  refine Careful.of_check fun _ => ?_
  unfold Careful
  dsimp only
  cases hfind : findIn s.entries key with
  | none => exact .inl rfl
  | some =>
      refine .inr ⟨rfl, fun inv => ⟨?_, ?_⟩⟩
      · rw [bumpRevision_entries]
        exact (inv.1.gap (findIn_eq_some hfind).1).closeGap
      · rw [bumpRevision_backup]
        exact inv.2

theorem careful_clear : Careful clear s := by
  refine .inr ⟨rfl, fun inv => ⟨?_, ?_⟩⟩
  · unfold clear
    rw [bumpRevision_entries]
    exact sound_clearEntries
  · unfold clear
    rw [bumpRevision_backup]
    exact inv.2

theorem careful_txBegin : Careful txBegin s := by
  unfold Careful txBegin
  split_ifs
  · exact .inl rfl
  · exact .inr ⟨rfl, fun inv => ⟨inv.1, inv.1⟩⟩

theorem careful_txCommit : Careful txCommit s := by
  unfold Careful txCommit
  split_ifs
  · exact .inl rfl
  · exact .inr ⟨rfl, fun inv => ⟨inv.1, sound_clearEntries⟩⟩

theorem careful_txRollback : Careful txRollback s := by
  unfold Careful txRollback
  split_ifs
  · exact .inl rfl
  · refine .inr ⟨rfl, fun inv => ⟨?_, ?_⟩⟩
    · rw [bumpRevision_entries]
      exact inv.2
    · rw [bumpRevision_backup]
      exact sound_clearEntries

theorem careful_setTextBytesWithin (key : Text) (bytes : Option Text) (length : ℕ) :
    Careful (setTextBytesWithin key bytes length) s :=
  Careful.of_check fun _ => careful_setText key _

/-! ## Runs -/

inductive Call
  | setInt (key : Text) (value : Int64)
  | setIntIfRevision (key : Text) (value : Int64) (expectedRevision : ℕ)
  | addInt (key : Text) (delta : Int64)
  | addIntIfRevision (key : Text) (delta : Int64) (expectedRevision : ℕ)
  | setUint (key : Text) (value : UInt64)
  | setUintIfRevision (key : Text) (value : UInt64) (expectedRevision : ℕ)
  | addUint (key : Text) (delta : UInt64)
  | addUintIfRevision (key : Text) (delta : UInt64) (expectedRevision : ℕ)
  | setFloat (key : Text) (value : Double)
  | setFloatIfRevision (key : Text) (value : Double) (expectedRevision : ℕ)
  | addFloat (key : Text) (delta : Double)
  | addFloatIfRevision (key : Text) (delta : Double) (expectedRevision : ℕ)
  | setBool (key : Text) (value : Bool)
  | setBoolIfRevision (key : Text) (value : Bool) (expectedRevision : ℕ)
  | setText (key : Text) (value : TextValue)
  | setTextIfRevision (key : Text) (value : TextValue) (expectedRevision : ℕ)
  | setTextBytes (key : Text) (bytes : Option Text) (length : ℕ)
  | setTextBytesIfRevision (key : Text) (bytes : Option Text) (length expectedRevision : ℕ)
  | setTextBytesIfModelRevision (key : Text) (bytes : Option Text)
      (length modelRevision expectedRevision : ℕ)
  | remove (key : Text)
  | removeIfRevision (key : Text) (expectedRevision : ℕ)
  | clear
  | txBegin
  | txCommit
  | txRollback
  | load (fileSize : ℕ) (document : Text)
  | loadJsonExact (input : Option Text) (inputLength : ℕ)

namespace Call

def perform : Call → StoreCall
  | setInt key value => StateStore.setInt key value
  | setIntIfRevision key value expected => StateStore.setIntIfRevision key value expected
  | addInt key delta => StateStore.addInt key delta
  | addIntIfRevision key delta expected => StateStore.addIntIfRevision key delta expected
  | setUint key value => StateStore.setUint key value
  | setUintIfRevision key value expected => StateStore.setUintIfRevision key value expected
  | addUint key delta => StateStore.addUint key delta
  | addUintIfRevision key delta expected => StateStore.addUintIfRevision key delta expected
  | setFloat key value => StateStore.setFloat key value
  | setFloatIfRevision key value expected => StateStore.setFloatIfRevision key value expected
  | addFloat key delta => StateStore.addFloat key delta
  | addFloatIfRevision key delta expected => StateStore.addFloatIfRevision key delta expected
  | setBool key value => StateStore.setBool key value
  | setBoolIfRevision key value expected => StateStore.setBoolIfRevision key value expected
  | setText key value => StateStore.setText key value
  | setTextIfRevision key value expected => StateStore.setTextIfRevision key value expected
  | setTextBytes key bytes length => StateStore.setTextBytes key bytes length
  | setTextBytesIfRevision key bytes length expected =>
    StateStore.setTextBytesIfRevision key bytes length expected
  | setTextBytesIfModelRevision key bytes length modelRevision expected =>
    StateStore.setTextBytesIfModelRevision key bytes length modelRevision expected
  | remove key => StateStore.remove key
  | removeIfRevision key expected => StateStore.removeIfRevision key expected
  | clear => StateStore.clear
  | txBegin => StateStore.txBegin
  | txCommit => StateStore.txCommit
  | txRollback => StateStore.txRollback
  | load fileSize document => StateStore.load fileSize document
  | loadJsonExact input inputLength => StateStore.loadJsonExact input inputLength

/-- An addition of a double to a key that is not there, with a sum that cannot be written. -/
def Leaks (s : Store) : Call → Prop
  | addFloat key delta => FloatLeaks key delta s
  | addFloatIfRevision key delta expected => s.revision = expected ∧ FloatLeaks key delta s
  | _ => False

theorem careful (call : Call) (h : ¬call.Leaks s) : Careful call.perform s := by
  cases call with
  | setInt key value => exact careful_setInt key value
  | setIntIfRevision key value => exact .ifRevision fun _ => careful_setInt key value
  | addInt key delta => exact careful_addInt key delta
  | addIntIfRevision key delta => exact .ifRevision fun _ => careful_addInt key delta
  | setUint key value => exact careful_setUint key value
  | setUintIfRevision key value => exact .ifRevision fun _ => careful_setUint key value
  | addUint key delta => exact careful_addUint key delta
  | addUintIfRevision key delta => exact .ifRevision fun _ => careful_addUint key delta
  | setFloat key value => exact careful_setFloat key value
  | setFloatIfRevision key value => exact .ifRevision fun _ => careful_setFloat key value
  | addFloat => exact careful_addFloat h
  | addFloatIfRevision =>
      exact .ifRevision fun hrevision => careful_addFloat fun hleaks => h ⟨hrevision, hleaks⟩
  | setBool key value => exact careful_setBool key value
  | setBoolIfRevision key value => exact .ifRevision fun _ => careful_setBool key value
  | setText key value => exact careful_setText key value
  | setTextIfRevision key value => exact .ifRevision fun _ => careful_setText key value
  | setTextBytes key => exact careful_setText key _
  | setTextBytesIfRevision key bytes length =>
      exact .ifRevision fun _ => careful_setTextBytesWithin key bytes length
  | setTextBytesIfModelRevision key bytes length =>
      exact .of_check fun _ => careful_setTextBytesWithin key bytes length
  | remove key => exact careful_remove key
  | removeIfRevision key => exact .ifRevision fun _ => careful_remove key
  | clear => exact careful_clear
  | txBegin => exact careful_txBegin
  | txCommit => exact careful_txCommit
  | txRollback => exact careful_txRollback
  | load fileSize document => exact careful_load fileSize document
  | loadJsonExact input inputLength => exact careful_loadJsonExact input inputLength

/-- A call that leaks fails and changes the state. -/
theorem changed_of_leaks {call : Call} (h : call.Leaks s) :
    (call.perform s).1 = false ∧ (call.perform s).2 ≠ s ∧ ¬Sound (call.perform s).2.entries := by
  cases call with
  | addFloat => exact changed_of_floatLeaks h
  | addFloatIfRevision key delta expected =>
      have hcall : (addFloatIfRevision key delta expected).perform s =
          StateStore.addFloat key delta s :=
        if_neg (not_not.mpr h.1)
      rw [hcall]
      exact changed_of_floatLeaks h.2
  | _ => exact absurd h id

end Call

/-- The calls an application makes, one after the other. -/
def system : System Call where
  State := Store
  initial s := s = initial
  step s event s' := ∃ call : Call, event = some call ∧ s' = (call.perform s).2

/-- The runs in which no call leaks. -/
def leakless : System Call := system.restrict fun s event _ => ∀ call ∈ event, ¬call.Leaks s

/-- What is expected of a call in a state: the entries stay a finite map, and if the call fails
nothing changes. -/
def Exact (s : Store) (call : Call) : Prop :=
  Sound (call.perform s).2.entries ∧ ((call.perform s).1 = false → (call.perform s).2 = s)

theorem inv_of_run {calls : List Call} {s : Store} (run : leakless.Run calls s) : Inv s := by
  let P := fun (_ : List Call) (s : leakless.State) => Inv s
  refine run.invariant (P := P) ?_ ?_
  · rintro s rfl
    exact ⟨sound_clearEntries, sound_clearEntries⟩
  · rintro trace s event s' inv ⟨⟨call, rfl, rfl⟩, hleaks⟩
    exact (call.careful (hleaks call rfl)).keeps inv

/-- **Runs without a leak**: the entries are a finite map, and the next call does what is expected
if and only if it does not leak either. -/
theorem exact_of_run {calls : List Call} {s : Store} (run : leakless.Run calls s) :
    Sound s.entries ∧ ∀ call : Call, Exact s call ↔ ¬call.Leaks s := by
  have inv := inv_of_run run
  refine ⟨inv.1, fun call => ⟨fun hexact hleaks => ?_, fun hleaks => ?_⟩⟩
  · exact (Call.changed_of_leaks hleaks).2.2 hexact.1
  · have hcareful := call.careful hleaks
    exact ⟨(hcareful.keeps inv).1, hcareful.unchanged⟩

/-- After one was added to a key that was not there. -/
theorem exact_of_run_addFloat :
    Sound ((Call.addFloat [107] 0x3FF0000000000000#64).perform initial).2.entries ∧
      ∀ call : Call, Exact ((Call.addFloat [107] 0x3FF0000000000000#64).perform initial).2 call ↔
        ¬call.Leaks ((Call.addFloat [107] 0x3FF0000000000000#64).perform initial).2 := by
  apply @exact_of_run [Call.addFloat [107] 0x3FF0000000000000#64]
  have hstart : leakless.Run [] initial := .start rfl
  refine hstart.step ⟨⟨_, rfl, rfl⟩, fun call hcall hleaks => ?_⟩
  -- the sum has a decimal form
  cases hcall
  exact absurd hleaks.notStorable (by decide +kernel)

/-- Two to the sixty-fourth is added to a key that is not there. -/
theorem not_exact_large :
    system.Run [] initial ∧ ¬Exact initial (.addFloat [107] 0x43F0000000000000#64) := by
  have htakes : Takes [107] initial := by
    refine ⟨findIn_eq_none_iff.mpr fun slot hused => ?_, ⟨0, by decide⟩, rfl⟩
    cases hused
  have hleaks : Call.Leaks initial (.addFloat [107] 0x43F0000000000000#64) :=
    ⟨by decide, by decide +kernel, htakes, by decide +kernel⟩
  exact ⟨.start rfl, fun hexact => (Call.changed_of_leaks hleaks).2.2 hexact.1⟩

end StateStore

end Jadren.App
