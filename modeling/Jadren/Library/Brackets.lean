import Mathlib.Data.List.Induction

/-!
# Brackets in a stream

Some entries of a stream open a bracket for a key and some close one.  `Bracketed` says that
brackets do not overlap: one that is opened is closed exactly once, for its own key, before the
next is opened, and only what is open is closed.

A machine that writes such a stream knows at most one open key.  `Leaves` follows it entry by
entry; `Leaves.bracketed` is the rule the developments use.
-/

namespace Jadren

open List

variable {E K : Type*} {opens closes : E → Option K}

/-- The brackets of a stream do not overlap and match. -/
structure Bracketed (opens closes : E → Option K) (stream : List E) : Prop where
  /-- Between an opening entry and the next there is one closing entry, of the same key. -/
  closed_once : ∀ before between after e f a, stream = before ++ e :: between ++ f :: after →
    opens e = some a → opens f ≠ none → (∀ x ∈ between, opens x = none) →
    ∃ p c q, between = p ++ c :: q ∧ closes c = some a ∧ ∀ x ∈ p ++ q, closes x = none
  /-- A closing entry comes after an opening one of its key, with neither between. -/
  opened : ∀ before after c a, stream = before ++ c :: after → closes c = some a →
    ∃ p e q, before = p ++ e :: q ∧ opens e = some a ∧ ∀ x ∈ q, opens x = none ∧ closes x = none

/-- The stream is bracketed so far, and the key left open is the given one. -/
inductive Leaves (opens closes : E → Option K) : List E → Option K → Prop
  | nil : Leaves opens closes [] none
  | opening {stream : List E} {e : E} {a : K} (h : Leaves opens closes stream none)
      (ho : opens e = some a) (hc : closes e = none) : Leaves opens closes (stream ++ [e]) (some a)
  | closing {stream : List E} {e : E} {a : K} (h : Leaves opens closes stream (some a))
      (ho : opens e = none) (hc : closes e = some a) : Leaves opens closes (stream ++ [e]) none
  | other {stream : List E} {e : E} {o : Option K} (h : Leaves opens closes stream o)
      (ho : opens e = none) (hc : closes e = none) : Leaves opens closes (stream ++ [e]) o

namespace Leaves

variable {stream : List E} {o : Option K}

/-- Entries that neither open nor close leave open what was. -/
theorem quiet (h : Leaves opens closes stream o) {more : List E}
    (hmore : ∀ x ∈ more, opens x = none ∧ closes x = none) :
    Leaves opens closes (stream ++ more) o := by
  induction more generalizing stream with
  | nil => rwa [append_nil]
  | cons x more ih =>
      have hx := hmore x mem_cons_self
      have hstep : Leaves opens closes (stream ++ [x]) o := h.other hx.1 hx.2
      have hrest := ih hstep fun y hy => hmore y (mem_cons_of_mem x hy)
      rwa [append_assoc, singleton_append] at hrest

/-- The key that was open before the last entry. -/
theorem before_last {e : E} (h : Leaves opens closes (stream ++ [e]) o) :
    ∃ o', Leaves opens closes stream o' ∧
      (opens e ≠ none → o' = none) ∧ ∀ a, closes e = some a → o' = some a := by
  generalize hstream : stream ++ [e] = whole at h
  cases h with
  | nil => exact absurd hstream (by simp)
  | opening h ho hc =>
      obtain ⟨rfl, hlast⟩ := append_inj' hstream rfl
      obtain rfl : e = _ := by simpa using hlast
      exact ⟨none, h, fun _ => rfl, fun a ha => by simp [hc] at ha⟩
  | closing h ho hc =>
      obtain ⟨rfl, hlast⟩ := append_inj' hstream rfl
      obtain rfl : e = _ := by simpa using hlast
      exact ⟨_, h, fun hne => absurd ho hne, fun a ha => by rw [← hc, ha]⟩
  | other h ho hc =>
      obtain ⟨rfl, hlast⟩ := append_inj' hstream rfl
      obtain rfl : e = _ := by simpa using hlast
      exact ⟨_, h, fun hne => absurd ho hne, fun a ha => by simp [hc] at ha⟩

theorem earlier {more : List E} (h : Leaves opens closes (stream ++ more) o) :
    ∃ o', Leaves opens closes stream o' := by
  induction more using reverseRecOn generalizing o with
  | nil => exact ⟨o, by rwa [append_nil] at h⟩
  | append_singleton more e ih =>
      rw [← append_assoc] at h
      obtain ⟨o', h', -⟩ := h.before_last
      exact ih h'

/-- What the entries after the last opening one of the key `a` say about the key now open. -/
private def Since (closes : E → Option K) (a : K) (later : List E) : Option K → Prop
  | some b => b = a ∧ ∀ x ∈ later, closes x = none
  | none => ∃ p c q, later = p ++ c :: q ∧ closes c = some a ∧ ∀ x ∈ p ++ q, closes x = none

/-- The two ways to cut a stream at an opening entry after which nothing is opened: the cut is
at the last entry, or the last entry comes after it. -/
private theorem cut_cases {before later : List E} {e f : E}
    (h : stream ++ [f] = before ++ e :: later) :
    (later = [] ∧ f = e) ∨ ∃ later', later = later' ++ [f] ∧ stream = before ++ e :: later' := by
  rcases eq_nil_or_concat later with rfl | ⟨later', g, rfl⟩
  · obtain ⟨-, hlast⟩ := append_inj' h rfl
    exact .inl ⟨rfl, by simpa using hlast⟩
  · have hcut : stream ++ [f] = (before ++ e :: later') ++ [g] := by
      rw [h, concat_eq_append, append_assoc, cons_append]
    obtain ⟨hstream, hlast⟩ := append_inj' hcut rfl
    obtain rfl : f = g := by simpa using hlast
    exact .inr ⟨later', concat_eq_append, hstream⟩

private theorem since (h : Leaves opens closes stream o) {before later : List E} {e : E} {a : K}
    (hstream : stream = before ++ e :: later) (he : opens e = some a)
    (hlater : ∀ x ∈ later, opens x = none) : Since closes a later o := by
  induction h generalizing later with
  | nil => exact absurd hstream (by simp)
  | @opening stream f b h ho hc ih =>
      rcases cut_cases hstream with ⟨rfl, rfl⟩ | ⟨later', rfl, hcut⟩
      · rw [ho] at he
        exact ⟨Option.some.inj he, fun x hx => absurd hx not_mem_nil⟩
      · -- the last entry opens, but nothing after the cut does
        have hnone : opens f = none := hlater f (by simp)
        simp [ho] at hnone
  | @closing stream f b h ho hc ih =>
      rcases cut_cases hstream with ⟨rfl, rfl⟩ | ⟨later', rfl, hcut⟩
      · simp [ho] at he
      · obtain ⟨rfl, hquiet⟩ := ih hcut fun x hx => hlater x (mem_append_left _ hx)
        exact ⟨later', f, [], rfl, hc, by simpa using hquiet⟩
  | @other stream f o h ho hc ih =>
      rcases cut_cases hstream with ⟨rfl, rfl⟩ | ⟨later', rfl, hcut⟩
      · simp [ho] at he
      · have hsince := ih hcut fun x hx => hlater x (mem_append_left _ hx)
        cases o with
        | some =>
            obtain ⟨hb, hquiet⟩ := hsince
            refine ⟨hb, fun x hx => ?_⟩
            rcases mem_append.mp hx with hx | hx
            · exact hquiet x hx
            · rwa [mem_singleton.mp hx]
        | none =>
            obtain ⟨p, c, q, rfl, hclose, hquiet⟩ := hsince
            refine ⟨p, c, q ++ [f], by simp, hclose, fun x hx => ?_⟩
            rw [← append_assoc] at hx
            rcases mem_append.mp hx with hx | hx
            · exact hquiet x hx
            · rwa [mem_singleton.mp hx]

private theorem opened_last {a : K} (h : Leaves opens closes stream (some a)) :
    ∃ p e q, stream = p ++ e :: q ∧ opens e = some a ∧
      ∀ x ∈ q, opens x = none ∧ closes x = none := by
  generalize hkey : some a = o at h
  induction h with
  | nil | closing => exact absurd hkey (by simp)
  | @opening stream e b h ho hc ih =>
      obtain rfl : a = b := Option.some.inj hkey
      exact ⟨stream, e, [], rfl, ho, fun x hx => absurd hx not_mem_nil⟩
  | @other stream f o h ho hc ih =>
      obtain ⟨p, e, q, rfl, he, hquiet⟩ := ih hkey
      refine ⟨p, e, q ++ [f], by simp, he, fun x hx => ?_⟩
      rcases mem_append.mp hx with hx | hx
      · exact hquiet x hx
      · rw [mem_singleton.mp hx]
        exact ⟨ho, hc⟩

/-- A stream that a machine with one open key has followed is bracketed. -/
theorem bracketed (h : Leaves opens closes stream o) : Bracketed opens closes stream where
  closed_once := by
    intro before between after e f a hstream he hf hbetween
    rw [hstream, append_cons] at h
    obtain ⟨o', h'⟩ := h.earlier
    obtain ⟨o'', h'', hnone, -⟩ := h'.before_last
    obtain rfl := hnone hf
    exact h''.since rfl he hbetween
  opened := by
    intro before after c a hstream hc
    rw [hstream, append_cons] at h
    obtain ⟨o', h'⟩ := h.earlier
    obtain ⟨o'', h'', -, hopen⟩ := h'.before_last
    obtain rfl := hopen a hc
    exact h''.opened_last

end Leaves

end Jadren
