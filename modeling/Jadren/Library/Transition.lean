import Mathlib.Data.List.Basic

/-!
# Labelled transition systems

A system has initial states and steps; a step may carry an event, and a step
without one is silent.  The events of a path, in order, are its trace.

Two rules are what the developments below use.  `Run.invariant`: what holds
initially and is kept by every step holds at the end of every run.
`Simulation.run`: a relation that every step of one system can follow in another,
event by event, turns every run of the first into a run of the second with the
same trace.
-/

namespace Jadren

/-- A transition system whose steps may carry events. -/
structure System (E : Type) where
  State : Type
  initial : State → Prop
  step : State → Option E → State → Prop

namespace System

variable {E : Type} {S T : System E}

/-- A sequence of steps from one state to another and the events they carry. -/
inductive Path (S : System E) (s : S.State) : List E → S.State → Prop
  | refl : Path S s [] s
  | step {trace : List E} {s' s'' : S.State} {event : Option E} (path : Path S s trace s')
      (hstep : S.step s' event s'') : Path S s (trace ++ event.toList) s''

/-- A path from an initial state. -/
def Run (S : System E) (trace : List E) (s : S.State) : Prop :=
  ∃ start, S.initial start ∧ S.Path start trace s

/-- The end of some run. -/
def Reachable (S : System E) (s : S.State) : Prop := ∃ trace, S.Run trace s

theorem Run.start {s : S.State} (h : S.initial s) : S.Run [] s := ⟨s, h, .refl⟩

theorem Run.step {trace : List E} {s s' : S.State} {event : Option E} (run : S.Run trace s)
    (hstep : S.step s event s') : S.Run (trace ++ event.toList) s' := by
  obtain ⟨start, hstart, path⟩ := run
  exact ⟨start, hstart, path.step hstep⟩

/-- The events up to some point are the trace of a run that stops there. -/
theorem Run.earlier {earlier later : List E} {s : S.State} (run : S.Run (earlier ++ later) s) :
    ∃ s', S.Run earlier s' := by
  obtain ⟨start, hstart, path⟩ := run
  generalize htrace : earlier ++ later = trace at path
  induction path generalizing later with
  | refl =>
      obtain ⟨rfl, -⟩ := List.append_eq_nil_iff.mp htrace
      exact ⟨start, .start hstart⟩
  | @step trace s' s'' event path hstep ih =>
      rcases List.eq_nil_or_concat later with rfl | ⟨init, last, rfl⟩
      · rw [List.append_nil] at htrace
        exact ⟨s'', htrace ▸ ⟨start, hstart, path.step hstep⟩⟩
      · cases event with
        | none => exact ih (by simpa using htrace)
        | some =>
            rw [List.concat_eq_append, ← List.append_assoc, Option.toList_some] at htrace
            exact ih (List.append_inj' htrace rfl).1

variable {P : S.State → Prop} {trace : List E} {s : S.State}

/-- What every step keeps holds along a path, of its events and the state. -/
theorem Path.invariant_trace {P : List E → S.State → Prop} {s' : S.State}
    (path : S.Path s trace s') (hs : P [] s)
    (hstep : ∀ trace s event s', P trace s → S.step s event s' → P (trace ++ event.toList) s') :
    P trace s' := by
  induction path with
  | refl => exact hs
  | step _ h ih => exact hstep _ _ _ _ ih h

theorem Path.invariant {s' : S.State} (path : S.Path s trace s') (hs : P s)
    (hstep : ∀ s event s', P s → S.step s event s' → P s') : P s' :=
  path.invariant_trace (P := fun _ s => P s) hs fun _ => hstep

/-- What holds initially and is kept by every step holds of the trace and the state of a run. -/
theorem Run.invariant {P : List E → S.State → Prop} (run : S.Run trace s)
    (hinitial : ∀ s, S.initial s → P [] s)
    (hstep : ∀ trace s event s', P trace s → S.step s event s' → P (trace ++ event.toList) s') :
    P trace s := by
  obtain ⟨start, hstart, path⟩ := run
  exact path.invariant_trace (hinitial start hstart) hstep

theorem Reachable.step {s' : S.State} {event : Option E} (h : S.Reachable s)
    (hstep : S.step s event s') : S.Reachable s' := by
  obtain ⟨trace, run⟩ := h
  exact ⟨_, run.step hstep⟩

theorem Reachable.invariant (h : S.Reachable s) (hinitial : ∀ s, S.initial s → P s)
    (hstep : ∀ s event s', P s → S.step s event s' → P s') : P s := by
  obtain ⟨trace, start, hstart, path⟩ := h
  exact path.invariant (hinitial start hstart) hstep

/-- The system with only those steps that meet a condition. -/
def restrict (S : System E) (allowed : S.State → Option E → S.State → Prop) : System E :=
  { S with step := fun s event s' => S.step s event s' ∧ allowed s event s' }

variable {allowed : S.State → Option E → S.State → Prop}

theorem Path.of_restrict {s s' : (S.restrict allowed).State}
    (path : (S.restrict allowed).Path s trace s') : @Path E S s trace s' := by
  induction path with
  | refl => exact .refl
  | step _ hstep ih => exact ih.step hstep.1

/-- A condition that every step meets is no restriction. -/
theorem Path.to_restrict (hall : ∀ s event s', allowed s event s') {s' : S.State}
    (path : S.Path s trace s') : @Path E (S.restrict allowed) s trace s' := by
  induction path with
  | refl => exact .refl
  | step _ hstep ih => exact ih.step ⟨hstep, hall _ _ _⟩

theorem Reachable.of_restrict (h : (S.restrict allowed).Reachable s) : S.Reachable s := by
  obtain ⟨trace, start, hstart, path⟩ := h
  exact ⟨trace, start, hstart, path.of_restrict⟩

/-- A relation that lets the second system follow every step of the first.  A silent step may be
followed by staying where it is. -/
structure Simulation (S T : System E) where
  rel : S.State → T.State → Prop
  initial : ∀ s, S.initial s → ∃ t, T.initial t ∧ rel s t
  step : ∀ s event s' t, rel s t → S.step s event s' →
    (event = none ∧ rel s' t) ∨ ∃ t', T.step t event t' ∧ rel s' t'

/-- Every run of the first system is matched by a run of the second with the same trace. -/
theorem Simulation.run (sim : Simulation S T) {trace : List E} {s : S.State} (run : S.Run trace s) :
    ∃ t, T.Run trace t ∧ sim.rel s t := by
  obtain ⟨start, hstart, path⟩ := run
  induction path with
  | refl =>
      obtain ⟨t, ht, hrel⟩ := sim.initial _ hstart
      exact ⟨t, .start ht, hrel⟩
  | step _ h ih =>
      obtain ⟨t, ht, hrel⟩ := ih
      rcases sim.step _ _ _ _ hrel h with ⟨rfl, hstay⟩ | ⟨t', hmove, hrel'⟩
      · exact ⟨t, by simpa using ht, hstay⟩
      · exact ⟨t', ht.step hmove, hrel'⟩

end System

end Jadren
