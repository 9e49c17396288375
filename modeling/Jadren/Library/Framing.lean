import Mathlib.Algebra.Order.Ring.Nat
import Mathlib.Data.List.Infix

/-!
# Framing a stream

A detector looks at a buffer of bounded size and returns the length of the frame that the buffer
begins with, or zero.  If a frame that is detected stays the same however the buffer is extended,
the frames of a stream do not depend on the pieces in which the stream arrives: two receivers of
one stream never disagree, and they have the same frames when neither can detect another.
-/

namespace Jadren

open List

/-- A detector of frames in buffers up to a capacity. -/
structure Framing (α : Type*) where
  capacity : ℕ
  detect : List α → ℕ
  le : ∀ buffer, detect buffer ≤ buffer.length
  fits : ∀ buffer, 0 < detect buffer → buffer.length ≤ capacity
  extend : ∀ buffer more, 0 < detect buffer → (buffer ++ more).length ≤ capacity →
    detect (buffer ++ more) = detect buffer

namespace Framing

variable {α : Type*} {F : Framing α} {buffer stream fed more : List α}
  {frames frames' : List (List α)}

/-- No frame is detected before it is complete. -/
theorem detect_take {m : ℕ} (h : m < F.detect buffer) : F.detect (buffer.take m) = 0 := by
  by_contra hne
  have hfits : (buffer.take m ++ buffer.drop m).length ≤ F.capacity := by
    rw [take_append_drop]
    exact F.fits buffer (Nat.zero_lt_of_lt h)
  have hsame := F.extend (buffer.take m) (buffer.drop m) (Nat.pos_of_ne_zero hne) hfits
  rw [take_append_drop] at hsame
  have hle := F.le (buffer.take m)
  rw [← hsame, length_take] at hle
  omega

/-- Two beginnings of a stream in which a frame is detected have the same frame. -/
theorem detect_take_unique {k k' : ℕ} (h : 0 < F.detect (stream.take k))
    (h' : 0 < F.detect (stream.take k')) :
    F.detect (stream.take k) = F.detect (stream.take k') := by
  -- the longer beginning extends the shorter
  have hextend : ∀ {i j : ℕ}, i ≤ j → 0 < F.detect (stream.take i) → 0 < F.detect (stream.take j) →
      F.detect (stream.take j) = F.detect (stream.take i) := by
    intro i j hij hi hj
    have hcut : stream.take i ++ (stream.take j).drop i = stream.take j := by
      have htake : (stream.take j).take i = stream.take i := by
        rw [take_take, Nat.min_eq_left hij]
      rw [← htake, take_append_drop]
    have hsame := F.extend (stream.take i) ((stream.take j).drop i) hi (by
      rw [hcut]
      exact F.fits _ hj)
    rwa [hcut] at hsame
  rcases Nat.le_total k k' with hle | hle
  · exact (hextend hle h h').symm
  · exact hextend hle h' h

/-- The stream begins with the frames, each detected in some beginning of what is left. -/
inductive Cuts (F : Framing α) : List α → List (List α) → Prop
  | nil {stream : List α} : Cuts F stream []
  | cons {stream : List α} {k : ℕ} {frames : List (List α)} (h : 0 < F.detect (stream.take k))
      (rest : Cuts F (stream.drop (F.detect (stream.take k))) frames) :
      Cuts F stream (stream.take (F.detect (stream.take k)) :: frames)

theorem Cuts.append (h : Cuts F stream frames) (more : List α) :
    Cuts F (stream ++ more) frames := by
  induction h with
  | nil => exact .nil
  | @cons stream k frames h rest ih =>
      have hle : F.detect (stream.take k) ≤ stream.length := (F.le _).trans (by simp)
      -- looking no further than the stream as it was
      have hsame : (stream ++ more).take (min k stream.length) = stream.take k := by
        rw [take_append_of_le_length (Nat.min_le_right _ _), ← take_eq_take_min]
      have hcut : (stream ++ more).take (F.detect (stream.take k)) =
          stream.take (F.detect (stream.take k)) := take_append_of_le_length hle
      rw [← drop_append_of_le_length hle] at ih
      rw [← hsame] at h ih hcut ⊢
      rw [← hcut]
      exact .cons h ih

/-- One more frame at the end. -/
theorem Cuts.concat (h : Cuts F stream frames) (hstream : stream = frames.flatten ++ buffer)
    (hdetect : 0 < F.detect buffer) :
    Cuts F stream (frames ++ [buffer.take (F.detect buffer)]) := by
  induction h with
  | @nil stream =>
      obtain rfl : stream = buffer := hstream
      have hall : stream.take stream.length = stream := take_length
      rw [← hall] at hdetect
      have hone : Cuts F stream [stream.take (F.detect (stream.take stream.length))] :=
        .cons hdetect .nil
      rwa [hall] at hone
  | @cons stream k frames h rest ih =>
      refine .cons h (ih ?_)
      have hle : F.detect (stream.take k) ≤ stream.length := (F.le _).trans (by simp)
      have hdrop : stream.drop (F.detect (stream.take k)) =
          (stream.take (F.detect (stream.take k)) ++ (frames.flatten ++ buffer)).drop
            (F.detect (stream.take k)) := by
        rw [← append_assoc, ← flatten_cons, ← hstream]
      rw [hdrop, drop_left' (by simp [hle])]

/-- Of two ways to begin a stream with frames one goes on where the other ends. -/
theorem Cuts.comparable (h : Cuts F stream frames) (h' : Cuts F stream frames') :
    frames <+: frames' ∨ frames' <+: frames := by
  induction h generalizing frames' with
  | nil => exact .inl nil_prefix
  | cons h rest ih =>
      cases h' with
      | nil => exact .inr nil_prefix
      | cons h' rest' =>
          rw [detect_take_unique h' h] at rest' ⊢
          rcases ih rest' with hprefix | hprefix
          · exact .inl ((prefix_cons_inj _).mpr hprefix)
          · exact .inr ((prefix_cons_inj _).mpr hprefix)

/-- What is left after some of the frames begins with the others. -/
theorem Cuts.after {first : List (List α)} (h : Cuts F stream (first ++ frames))
    (hstream : stream = first.flatten ++ buffer) : Cuts F buffer frames := by
  induction first generalizing stream with
  | nil =>
      obtain rfl : stream = buffer := hstream
      exact h
  | cons frame first ih =>
      generalize hall : frame :: first ++ frames = all at h
      cases h with
      | nil => exact absurd hall (by simp)
      | @cons _ k rest h hrest =>
          obtain ⟨rfl, rfl⟩ := List.cons.inj hall
          have hle : F.detect (stream.take k) ≤ stream.length := (F.le _).trans (by simp)
          apply ih hrest
          have hdrop : stream.drop (F.detect (stream.take k)) =
              (stream.take (F.detect (stream.take k)) ++ (first.flatten ++ buffer)).drop
                (F.detect (stream.take k)) := by
            rw [← append_assoc, ← flatten_cons, ← hstream]
          rw [hdrop, drop_left' (by simp [hle])]

/-! ## Receivers -/

/-- A receiver that has been fed some bytes in pieces, the frames it has taken and its buffer. -/
inductive Receives (F : Framing α) : List α → List (List α) → List α → Prop
  | start : Receives F [] [] []
  | append {fed : List α} {frames : List (List α)} {buffer : List α} (chunk : List α)
      (h : Receives F fed frames buffer) (hfits : (buffer ++ chunk).length ≤ F.capacity) :
      Receives F (fed ++ chunk) frames (buffer ++ chunk)
  | take {fed : List α} {frames : List (List α)} {buffer : List α}
      (h : Receives F fed frames buffer) (hdetect : 0 < F.detect buffer) :
      Receives F fed (frames ++ [buffer.take (F.detect buffer)]) (buffer.drop (F.detect buffer))

/-- The frames and the buffer are all the bytes, and the frames are cut where the stream says. -/
theorem Receives.cuts (h : Receives F fed frames buffer) :
    fed = frames.flatten ++ buffer ∧ Cuts F fed frames ∧ buffer.length ≤ F.capacity := by
  induction h with
  | start => exact ⟨rfl, .nil, Nat.zero_le _⟩
  | append chunk _ hfits ih =>
      obtain ⟨hfed, hcuts, -⟩ := ih
      exact ⟨by rw [hfed, append_assoc], hcuts.append chunk, hfits⟩
  | take _ hdetect ih =>
      obtain ⟨hfed, hcuts, hlength⟩ := ih
      refine ⟨?_, hcuts.concat hfed hdetect, ?_⟩
      · rw [hfed, flatten_append, flatten_singleton, append_assoc,
          take_append_drop]
      · rw [length_drop]
        omega

/-- A receiver that can detect no further frame has all frames that another has. -/
theorem Receives.prefix_of_drained {buffer' : List α} (h : Receives F fed frames buffer)
    (h' : Receives F fed frames' buffer') (hdrained : F.detect buffer = 0) :
    frames' <+: frames := by
  obtain ⟨hfed, hcuts, hlength⟩ := h.cuts
  obtain ⟨-, hcuts', -⟩ := h'.cuts
  rcases hcuts.comparable hcuts' with ⟨others, rfl⟩ | hprefix
  · have hothers : Cuts F buffer others := hcuts'.after hfed
    generalize hall : others = all at hothers
    cases hothers with
    | nil => simp
    | @cons _ k rest hdetect _ =>
        -- the next frame of the other is detected in a part of the buffer, so in the buffer
        have hsame := F.extend (buffer.take k) (buffer.drop k) hdetect (by
          rwa [take_append_drop])
        rw [take_append_drop] at hsame
        omega
  · exact hprefix

/-- Receivers of one stream that can detect no further frame have the same frames. -/
theorem Receives.unique {buffer' : List α} (h : Receives F fed frames buffer)
    (h' : Receives F fed frames' buffer') (hdrained : F.detect buffer = 0)
    (hdrained' : F.detect buffer' = 0) : frames = frames' ∧ buffer = buffer' := by
  have hle := h'.prefix_of_drained h hdrained'
  have hge := h.prefix_of_drained h' hdrained
  obtain rfl : frames = frames' :=
    hle.eq_of_length (Nat.le_antisymm hle.length_le hge.length_le)
  exact ⟨rfl, append_cancel_left (h.cuts.1.symm.trans h'.cuts.1)⟩

end Framing

end Jadren
