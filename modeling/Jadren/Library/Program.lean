import Mathlib.Data.List.Basic

/-!
# Programs that fail or fault

A program reads and changes a state.  It returns a value, or fails with an error, or
faults: it has done something with no meaning, like an access outside every object or
an addition that overflows.  A program that fails keeps the changes it has made so far.

`wp` is the weakest precondition for a pair of postconditions, one for returning and one
for failing; no state satisfies it from which the program faults.  There is one rule for
every way to build a program, and for a loop the rule of its invariant.
-/

namespace Jadren

/-- A program over the states `σ` that faults (`none`), fails with an error, or returns. -/
def Program (σ ε α : Type*) := σ → Option (Except ε α × σ)

namespace Program

universe u

variable {σ ε ι : Type*} {α β : Type u}

instance : Monad (Program σ ε) where
  pure a := fun s => some (.ok a, s)
  bind x f := fun s =>
    match x s with
    | none => none
    | some (.error e, s') => some (.error e, s')
    | some (.ok a, s') => f a s'

/-- Return the error `e`. -/
def fail (e : ε) : Program σ ε α := fun s => some (.error e, s)

/-- Return the error `e` if `c` holds. -/
def failIf (c : Prop) [Decidable c] (e : ε) : Program σ ε Unit := if c then fail e else pure ()

/-- The program if `c` holds. -/
def onlyIf (c : Prop) [Decidable c] (x : Program σ ε Unit) : Program σ ε Unit :=
  if c then x else pure ()

/-- One program or the other. -/
def choose (c : Prop) [Decidable c] (x y : Program σ ε α) : Program σ ε α := if c then x else y

/-- The value of a check, or its error. -/
def ofExcept (r : Except ε α) : Program σ ε α := fun s => some (r, s)

/-- The value, or the error `e` if there is none. -/
def orFail (o : Option α) (e : ε) : Program σ ε α := ofExcept (o.elim (.error e) .ok)

/-- The value of an operation that has no meaning without one. -/
def demand (o : Option α) : Program σ ε α := fun s => o.map fun a => (.ok a, s)

/-- The program with its errors renamed. -/
def mapError {ε' : Type*} (g : ε → ε') (x : Program σ ε α) : Program σ ε' α := fun s =>
  (x s).map fun result => (result.1.mapError g, result.2)

/-- The state. -/
def get : Program σ ε σ := fun s => some (.ok s, s)

/-- Change the state. -/
def modify (f : σ → σ) : Program σ ε Unit := fun s => some (.ok (), f s)

/-- The body for every entry of the list in turn. -/
def forEach (body : ι → Program σ ε Unit) : List ι → Program σ ε Unit
  | [] => pure ()
  | x :: xs => do
    body x
    forEach body xs

section Outcome

variable {x : Program σ ε α} {f : α → Program σ ε β} {s s' : σ}

theorem bind_of_error {e : ε} (h : x s = some (.error e, s')) :
    (x >>= f) s = some (.error e, s') := by
  have hbind : (x >>= f) s = match x s with
      | none => none
      | some (Except.error e, s') => some (Except.error e, s')
      | some (Except.ok a, s') => f a s' := rfl
  rw [hbind, h]

theorem bind_of_ok {a : α} (h : x s = some (.ok a, s')) : (x >>= f) s = f a s' := by
  have hbind : (x >>= f) s = match x s with
      | none => none
      | some (Except.error e, s') => some (Except.error e, s')
      | some (Except.ok a, s') => f a s' := rfl
  rw [hbind, h]

end Outcome

/-- From `s` the program does not fault; if it returns then `Q` holds, and if it fails
then `E` does. -/
def wp (x : Program σ ε α) (Q : α → σ → Prop) (E : ε → σ → Prop) (s : σ) : Prop :=
  match x s with
  | none => False
  | some (.ok a, s') => Q a s'
  | some (.error e, s') => E e s'

variable {Q Q' : α → σ → Prop} {E E' : ε → σ → Prop} {s : σ}

variable {x : Program σ ε α}

theorem wp_iff :
    wp x Q E s ↔ (∃ a s', x s = some (.ok a, s') ∧ Q a s') ∨
      ∃ e s', x s = some (.error e, s') ∧ E e s' := by
  unfold wp
  constructor
  · intro h
    split at h
    next => exact h.elim
    next a s' hx => exact .inl ⟨a, s', hx, h⟩
    next e s' hx => exact .inr ⟨e, s', hx, h⟩
  · intro h
    obtain ⟨a, s', hx, hQ⟩ | ⟨e, s', hx, hE⟩ := h
    · rw [hx]
      exact hQ
    · rw [hx]
      exact hE

theorem wp_mono (h : wp x Q E s) (hQ : ∀ a s', Q a s' → Q' a s') (hE : ∀ e s', E e s' → E' e s') :
    wp x Q' E' s := by
  obtain ⟨a, s', hx, ha⟩ | ⟨e, s', hx, he⟩ := wp_iff.mp h
  · exact wp_iff.mpr (.inl ⟨a, s', hx, hQ a s' ha⟩)
  · exact wp_iff.mpr (.inr ⟨e, s', hx, hE e s' he⟩)

/-- A program has one outcome. -/
theorem wp_forall {Q : ι → α → σ → Prop} [Nonempty ι] (h : ∀ i, wp x (Q i) E s) :
    wp x (fun a s' => ∀ i, Q i a s') E s := by
  unfold wp at h ⊢
  cases hx : x s with
  | none =>
    rw [hx] at h
    exact h (Classical.arbitrary ι)
  | some result =>
    obtain ⟨e | a, s'⟩ := result
    · rw [hx] at h
      exact h (Classical.arbitrary ι)
    · rw [hx] at h
      exact h

theorem wp_and (h : wp x Q E s) (h' : wp x Q' E s) : wp x (fun a s' => Q a s' ∧ Q' a s') E s := by
  obtain ⟨a, s', hx, ha⟩ | ⟨e, s', hx, he⟩ := wp_iff.mp h
  · obtain ⟨b, s'', hx', hb⟩ | ⟨e, s'', hx', -⟩ := wp_iff.mp h'
    · cases hx.symm.trans hx'
      exact wp_iff.mpr (.inl ⟨a, s', hx, ha, hb⟩)
    · cases hx.symm.trans hx'
  · exact wp_iff.mpr (.inr ⟨e, s', hx, he⟩)

variable {f : α → Program σ ε β}

theorem wp_bind_iff {Q : β → σ → Prop} :
    wp (x >>= f) Q E s ↔ wp x (fun a => wp (f a) Q E) E s := by
  have hbind : (x >>= f) s = match x s with
      | none => none
      | some (Except.error e, s') => some (Except.error e, s')
      | some (Except.ok a, s') => f a s' := rfl
  unfold wp
  rw [hbind]
  cases x s with
  | none => rfl
  | some result =>
    obtain ⟨e | a, s'⟩ := result
    · rfl
    · rfl

theorem wp_bind {Q : β → σ → Prop} (h : wp x (fun a => wp (f a) Q E) E s) : wp (x >>= f) Q E s :=
  wp_bind_iff.mpr h

variable {a : α}

theorem wp_pure (h : Q a s) : wp (pure a) Q E s := h

variable {e : ε}

theorem wp_fail (h : E e s) : wp (fail e) Q E s := h

/-- The rule of a sequence, the first program of which is known to meet `Q`. -/
theorem wp_then {R : β → σ → Prop} (hx : wp x Q E s) (hf : ∀ a s', Q a s' → wp (f a) R E s') :
    wp (x >>= f) R E s :=
  wp_bind (wp_mono hx hf fun _ _ h => h)

variable {c : Prop}

theorem wp_failIf [Decidable c] {Q : Unit → σ → Prop} (hE : c → E e s) (hQ : ¬ c → Q () s) :
    wp (failIf c e) Q E s := by
  unfold failIf
  split
  next h => exact wp_fail (hE h)
  next h => exact wp_pure (hQ h)

/-- A check before the rest, with an error that is right whatever is checked. -/
theorem wp_check [Decidable c] {β : Type} {f : Unit → Program σ ε β} {Q : β → σ → Prop}
    (hE : E e s) (hQ : ¬ c → wp (f ()) Q E s) : wp (failIf c e >>= f) Q E s :=
  wp_bind (wp_failIf (fun _ => hE) hQ)

theorem wp_mapError {ε' : Type*} {g : ε → ε'} {F : ε' → σ → Prop}
    (h : wp x Q (fun e => F (g e)) s) : wp (mapError g x) Q F s := by
  unfold wp at h
  unfold wp mapError
  cases hx : x s with
  | none =>
    rw [hx] at h
    exact h
  | some result =>
    obtain ⟨e | a, s'⟩ := result
    · rw [hx] at h
      exact h
    · rw [hx] at h
      exact h

theorem wp_onlyIf [Decidable c] {x : Program σ ε Unit} {Q : Unit → σ → Prop} (h : c → wp x Q E s)
    (hQ : ¬ c → Q () s) : wp (onlyIf c x) Q E s := by
  unfold onlyIf
  split
  next hc => exact h hc
  next hc => exact wp_pure (hQ hc)

theorem wp_choose [Decidable c] {y : Program σ ε α} (hx : c → wp x Q E s) (hy : ¬ c → wp y Q E s) :
    wp (choose c x y) Q E s := by
  unfold choose
  split
  next hc => exact hx hc
  next hc => exact hy hc

/-! ### Checks -/

/-- The check returns a value with `P` or an error with `F`. -/
def Checked (r : Except ε α) (P : α → Prop) (F : ε → Prop) : Prop :=
  match r with
  | .ok a => P a
  | .error e => F e

section Checked

variable {P : α → Prop} {F : ε → Prop}

theorem checked_ok {a : α} (h : P a) : Checked (.ok a : Except ε α) P F := h

theorem checked_error {e : ε} (h : F e) : Checked (.error e : Except ε α) P F := h

theorem checked_elim {o : Option α} {e : ε} (hF : F e) (hP : ∀ a, o = some a → P a) :
    Checked (o.elim (.error e) .ok) P F := by
  cases o with
  | none => exact hF
  | some a => exact hP a rfl

variable {r : Except ε α}

theorem checked_ite {c : Prop} [Decidable c] {r' : Except ε α} (h : c → Checked r P F)
    (h' : ¬ c → Checked r' P F) : Checked (if c then r else r') P F := by
  split
  next hc => exact h hc
  next hc => exact h' hc

theorem checked_unless {c : Prop} [Decidable c] {e : ε} (hF : F e) (h : ¬ c → Checked r P F) :
    Checked (if c then .error e else r) P F :=
  checked_ite (fun _ => hF) h

theorem checked_bind {f : α → Except ε β} {R : β → Prop} (h : Checked r P F)
    (hf : ∀ a, P a → Checked (f a) R F) : Checked (r >>= f) R F := by
  cases r with
  | error => exact h
  | ok a => exact hf a h

theorem checked_mapError {ε' : Type*} {g : ε → ε'} {F' : ε' → Prop} (h : Checked r P F)
    (hg : ∀ e, F e → F' (g e)) : Checked (r.mapError g) P F' := by
  cases r with
  | error e => exact hg e h
  | ok => exact h

variable (h : Checked r P F)
include h

theorem checked_mono {P' : α → Prop} {F' : ε → Prop} (hP : ∀ a, P a → P' a)
    (hF : ∀ e, F e → F' e) : Checked r P' F' := by
  cases r with
  | error e => exact hF e h
  | ok a => exact hP a h

/-- What is known of an outcome, with the outcome. -/
theorem Checked.with_eq :
    Checked r (fun a => r = .ok a ∧ P a) (fun e => r = .error e ∧ F e) := by
  cases r with
  | error => exact ⟨rfl, h⟩
  | ok => exact ⟨rfl, h⟩

/-- The rule of a check in a program. -/
theorem wp_checked (hE : ∀ e, F e → E e s) (hQ : ∀ a, r = .ok a → P a → Q a s) :
    wp (ofExcept r) Q E s := by
  cases r with
  | error e => exact hE e h
  | ok a => exact hQ a rfl h

theorem Checked.of_eq_ok {a : α} (hr : r = .ok a) : P a := by
  subst hr
  exact h

end Checked

variable {o : Option α}

theorem wp_orFail (hE : o = none → E e s) (hQ : ∀ a, o = some a → Q a s) :
    wp (orFail o e) Q E s := by
  cases o with
  | none => exact hE rfl
  | some a => exact hQ a rfl

theorem wp_none (h : E e s) : wp (orFail (none : Option α) e) Q E s := h

theorem wp_some (ho : o = some a) (h : Q a s) : wp (orFail o e) Q E s := by
  subst ho
  exact h

theorem wp_demand (ho : o = some a) (h : Q a s) : wp (demand o) Q E s := by
  subst ho
  exact h

theorem wp_get {Q : σ → σ → Prop} (h : Q s s) : wp get Q E s := h

theorem wp_modify {f : σ → σ} {Q : Unit → σ → Prop} (h : Q () (f s)) : wp (modify f) Q E s := h

/-- The rule of a loop: `I` counts the rounds that are over. -/
theorem wp_forEach {body : ι → Program σ ε Unit} {xs : List ι} {I : ℕ → σ → Prop}
    (hstep : ∀ i x s, xs[i]? = some x → I i s → wp (body x) (fun _ => I (i + 1)) E s)
    (hstart : I 0 s) : wp (forEach body xs) (fun _ => I xs.length) E s := by
  induction xs generalizing I s with
  | nil => exact hstart
  | cons x xs ih =>
    unfold forEach
    refine wp_then (hstep 0 x s rfl hstart) fun _ s' h => ?_
    exact ih (I := fun i => I (i + 1)) (fun i y s hy => hstep (i + 1) y s hy) h

end Program

end Jadren
