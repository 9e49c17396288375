import Mathlib.Data.List.Sort

/-!
# Finite maps kept in key order

A map is the list of its entries by increasing key.  `update` is the one way to
change a map: it rewrites the value of a key, with `none` for a key that has no
value yet, and puts a new key at its place in the order.

`lookup_update` says what a map holds after it, which is all that reasoning about
the contents needs; `keys_nodup` is for those that count keys.
-/

namespace Jadren

open List

/-- A finite map, as the list of its entries by increasing key. -/
structure OrderedMap (K V : Type) [LinearOrder K] where
  entries : List (K × V)
  sorted : entries.Pairwise fun a b => a.1 < b.1

namespace OrderedMap

variable {K V : Type} [LinearOrder K]

def empty : OrderedMap K V := ⟨[], List.Pairwise.nil⟩

instance : EmptyCollection (OrderedMap K V) := ⟨empty⟩

def keys (m : OrderedMap K V) : List K := m.entries.map Prod.fst

def values (m : OrderedMap K V) : List V := m.entries.map Prod.snd

def lookup (m : OrderedMap K V) (k : K) : Option V :=
  (m.entries.find? fun entry => decide (entry.1 = k)).map Prod.snd

def contains (m : OrderedMap K V) (k : K) : Bool := (m.lookup k).isSome

/-- Rewrites the value of a key in a list of entries by increasing key. -/
def updateEntries (k : K) (f : Option V → V) : List (K × V) → List (K × V)
  | [] => [(k, f none)]
  | (key, value) :: rest =>
      if k < key then (k, f none) :: (key, value) :: rest
      else if k = key then (k, f (some value)) :: rest
      else (key, value) :: updateEntries k f rest

variable {k : K}

theorem key_mem_updateEntries {f : Option V → V} {entries : List (K × V)} {entry : K × V}
    (h : entry ∈ updateEntries k f entries) : entry.1 = k ∨ entry ∈ entries := by
  induction entries with
  | nil =>
      simp only [updateEntries, mem_singleton] at h
      exact .inl (by rw [h])
  | cons head rest ih =>
      obtain ⟨key, value⟩ := head
      simp only [updateEntries] at h
      split at h
      · rcases mem_cons.mp h with rfl | hmem
        · exact .inl rfl
        · exact .inr hmem
      · split at h
        · rcases mem_cons.mp h with rfl | hmem
          · exact .inl rfl
          · exact .inr (mem_cons_of_mem _ hmem)
        · rcases mem_cons.mp h with rfl | hmem
          · exact .inr mem_cons_self
          · exact (ih hmem).imp id (mem_cons_of_mem _)

theorem sorted_updateEntries (k : K) (f : Option V → V) {entries : List (K × V)}
    (h : entries.Pairwise fun a b => a.1 < b.1) :
    (updateEntries k f entries).Pairwise fun a b => a.1 < b.1 := by
  induction entries with
  | nil => exact pairwise_singleton _ _
  | cons head rest ih =>
      obtain ⟨key, value⟩ := head
      rw [pairwise_cons] at h
      obtain ⟨hhead, hrest⟩ := h
      simp only [updateEntries]
      split
      · rename_i hlt
        refine pairwise_cons.mpr ⟨?_, pairwise_cons.mpr ⟨hhead, hrest⟩⟩
        intro entry hentry
        rcases mem_cons.mp hentry with rfl | hentry
        · exact hlt
        · exact lt_trans hlt (hhead entry hentry)
      · rename_i hge
        split
        · rename_i heq
          subst heq
          exact pairwise_cons.mpr ⟨hhead, hrest⟩
        · rename_i hne
          refine pairwise_cons.mpr ⟨?_, ih hrest⟩
          intro entry hentry
          rcases key_mem_updateEntries hentry with hkey | hentry
          · rw [hkey]
            exact lt_of_le_of_ne (not_lt.mp hge) (Ne.symm hne)
          · exact hhead entry hentry

/-- Rewrites the value of a key; a key without a value gets one. -/
def update (m : OrderedMap K V) (k : K) (f : Option V → V) : OrderedMap K V :=
  ⟨updateEntries k f m.entries, sorted_updateEntries k f m.sorted⟩

def insert (m : OrderedMap K V) (k : K) (v : V) : OrderedMap K V := m.update k fun _ => v

/-- The same keys with other values. -/
def mapValues {W : Type} (m : OrderedMap K V) (f : K → V → W) : OrderedMap K W :=
  ⟨m.entries.map fun entry => (entry.1, f entry.1 entry.2), m.sorted.map _ fun _ _ h => h⟩

@[simp] theorem entries_empty : (∅ : OrderedMap K V).entries = [] := rfl

variable {m m' : OrderedMap K V}

theorem ext_entries (h : m.entries = m'.entries) : m = m' := by
  cases m; cases m'
  simpa using h

instance [DecidableEq V] : DecidableEq (OrderedMap K V) := fun m m' =>
  decidable_of_iff (m.entries = m'.entries) ⟨ext_entries, congrArg entries⟩

/-- A key after all others is inserted at the end. -/
theorem entries_insert_last (v : V) (h : ∀ entry ∈ m.entries, entry.1 < k) :
    (m.insert k v).entries = m.entries ++ [(k, v)] := by
  obtain ⟨entries, sorted⟩ := m
  show updateEntries k (fun _ => v) entries = _
  induction entries with
  | nil => rfl
  | cons head rest ih =>
      obtain ⟨hhead, hrest⟩ := forall_mem_cons.mp h
      rw [updateEntries, if_neg (not_lt.mpr hhead.le), if_neg (ne_of_gt hhead),
        ih (pairwise_cons.mp sorted).2 hrest, cons_append]

/-! ## What a map holds -/

variable {v : V}

theorem lookup_iff_mem : m.lookup k = some v ↔ (k, v) ∈ m.entries := by
  obtain ⟨entries, sorted⟩ := m
  simp only [lookup]
  induction entries with
  | nil => simp
  | cons head rest ih =>
      obtain ⟨key, value⟩ := head
      rw [pairwise_cons] at sorted
      obtain ⟨hhead, hrest⟩ := sorted
      by_cases hkey : key = k
      · subst hkey
        have hfresh : (key, v) ∉ rest := fun hmem => lt_irrefl key (hhead (key, v) hmem)
        simp [hfresh, eq_comm]
      · have hne : (k, v) ≠ (key, value) := fun h => hkey (congrArg Prod.fst h).symm
        simp [hkey, hne, ih hrest]

@[simp] theorem lookup_empty (k : K) : (∅ : OrderedMap K V).lookup k = none := rfl

private theorem find?_updateEntries {j : K} {f : Option V → V} {entries : List (K × V)}
    (sorted : entries.Pairwise fun a b => a.1 < b.1) :
    ((updateEntries k f entries).find? fun entry => decide (entry.1 = j)).map Prod.snd =
      if j = k then some (f ((entries.find? fun entry => decide (entry.1 = k)).map Prod.snd))
      else (entries.find? fun entry => decide (entry.1 = j)).map Prod.snd := by
  induction entries with
  | nil =>
      by_cases hjk : j = k
      · simp [updateEntries, hjk]
      · simp [updateEntries, hjk, Ne.symm hjk]
  | cons head rest ih =>
      obtain ⟨key, value⟩ := head
      rw [pairwise_cons] at sorted
      obtain ⟨hhead, hrest⟩ := sorted
      simp only [updateEntries]
      split
      · rename_i hlt
        -- the new key comes before every key of the list
        have habsent : ∀ entry ∈ (key, value) :: rest, ¬ entry.1 = k := by
          intro entry hentry
          rcases mem_cons.mp hentry with rfl | hentry
          · exact (ne_of_lt hlt).symm
          · exact (ne_of_lt (lt_trans hlt (hhead entry hentry))).symm
        have hnone : ((key, value) :: rest).find? (fun entry => decide (entry.1 = k)) = none := by
          rw [find?_eq_none]
          intro entry hentry
          simpa using habsent entry hentry
        by_cases hjk : j = k
        · subst hjk
          simp [hnone]
        · rw [find?_cons_of_neg (by simpa using Ne.symm hjk)]
          simp [hjk]
      · split
        · rename_i heq
          subst heq
          by_cases hjk : j = k
          · subst hjk
            simp
          · simp [hjk, Ne.symm hjk]
        · rename_i hne
          by_cases hjk : j = k
          · subst hjk
            simp [Ne.symm hne, ih hrest]
          · by_cases hkey : key = j
            · simp [hkey, hjk]
            · simp [hkey, hjk, ih hrest]

/-- A map after an update: the updated key has its new value, the others keep theirs. -/
theorem lookup_update (m : OrderedMap K V) (k j : K) (f : Option V → V) :
    (m.update k f).lookup j = if j = k then some (f (m.lookup k)) else m.lookup j :=
  find?_updateEntries m.sorted

theorem ext_lookup (h : ∀ k, m.lookup k = m'.lookup k) : m = m' := by
  have hirrefl : Std.Irrefl fun a b : K × V => a.1 < b.1 := ⟨fun a => lt_irrefl a.1⟩
  refine ext_entries (m.sorted.eq_of_mem_iff m'.sorted fun entry => ?_)
  obtain ⟨k, v⟩ := entry
  rw [← lookup_iff_mem, ← lookup_iff_mem, h]

@[simp] theorem lookup_mapValues {W : Type} (m : OrderedMap K V) (f : K → V → W) (k : K) :
    (m.mapValues f).lookup k = (m.lookup k).map (f k) := by
  simp only [lookup, mapValues, find?_map, Option.map_map]
  cases hfound : m.entries.find? fun entry => decide (entry.1 = k) with
  | none => simp [Function.comp_def, hfound]
  | some entry =>
      have hkey : entry.1 = k := by simpa using find?_some hfound
      simp [Function.comp_def, hfound, hkey]

/-- What a map holds after many insertions was inserted or there before. -/
theorem mem_of_lookup_foldl_insert {entries : List (K × V)}
    (h : (entries.foldl (fun m entry => m.insert entry.1 entry.2) m).lookup k = some v) :
    (k, v) ∈ entries ∨ m.lookup k = some v := by
  induction entries generalizing m with
  | nil => exact .inr h
  | cons entry rest ih =>
      obtain hrest | hhead := ih h
      · exact .inl (mem_cons_of_mem _ hrest)
      · replace hhead := (lookup_update m entry.1 k fun _ => entry.2).symm.trans hhead
        split at hhead
        next hkey =>
          obtain rfl := Option.some.inj hhead
          exact .inl (hkey ▸ mem_cons_self)
        next => exact .inr hhead

theorem isSome_lookup_foldl_insert {entries : List (K × V)}
    (h : (∃ v, (k, v) ∈ entries) ∨ (m.lookup k).isSome) :
    ((entries.foldl (fun m entry => m.insert entry.1 entry.2) m).lookup k).isSome := by
  induction entries generalizing m with
  | nil => exact h.resolve_left fun ⟨_, hmem⟩ => nomatch hmem
  | cons entry rest ih =>
      refine ih ?_
      show _ ∨ ((m.update entry.1 fun _ => entry.2).lookup k).isSome
      rw [lookup_update]
      by_cases hkey : k = entry.1
      · exact .inr (by rw [if_pos hkey]; rfl)
      · rw [if_neg hkey]
        refine h.imp_left fun ⟨v, hmem⟩ => ⟨v, (mem_cons.mp hmem).resolve_left fun heq => ?_⟩
        exact hkey (congrArg Prod.fst heq)

/-- A map of entries that give no key two values. -/
theorem lookup_foldl_insert {entries : List (K × V)}
    (h : ∀ v', (k, v) ∈ entries → (k, v') ∈ entries → v = v') :
    (entries.foldl (fun m entry => m.insert entry.1 entry.2) (∅ : OrderedMap K V)).lookup k =
      some v ↔ (k, v) ∈ entries := by
  refine ⟨fun hlookup => ?_, fun hmem => ?_⟩
  · exact (mem_of_lookup_foldl_insert hlookup).resolve_right nofun
  · obtain ⟨v', hlookup⟩ := Option.isSome_iff_exists.mp
      (isSome_lookup_foldl_insert (m := ∅) (.inl ⟨v, hmem⟩))
    have hmem' := (mem_of_lookup_foldl_insert hlookup).resolve_right nofun
    rw [h v' hmem hmem', hlookup]

@[simp] theorem mem_keys : k ∈ m.keys ↔ ∃ v, m.lookup k = some v := by
  simp [keys, lookup_iff_mem]

theorem keys_nodup (m : OrderedMap K V) : m.keys.Nodup := by
  rw [keys, Nodup, pairwise_map]
  exact m.sorted.imp fun h => ne_of_lt h

theorem contains_iff : m.contains k = true ↔ k ∈ m.keys := by
  rw [contains, Option.isSome_iff_exists, mem_keys]

end OrderedMap

end Jadren
