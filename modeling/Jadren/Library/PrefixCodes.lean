import Mathlib.Data.List.Nodup

/-!
# Codes that are read back

A code writes what is to be seen of a value as a list of words.  It is read back if, in front of
anything, two values have the same code exactly when they look the same.  `given` is what is known
of the two values: that they are good, and how far they have already been seen to be the same.
Codes that are read back are put together one after the other, the later knowing what the earlier
has shown, which is how a length or a tag in front decides how what follows is to be read.
-/

namespace Jadren

open List

variable {α β W ι : Type*}

/-- Values with the same code in front of anything look the same, and the other way round. -/
def ReadsBack (given same : α → α → Prop) (code : α → List W) : Prop :=
  ∀ ⦃a b⦄ (rest rest' : List W), given a b →
    (code a ++ rest = code b ++ rest' ↔ same a b ∧ rest = rest')

namespace ReadsBack

variable {given given' same same' : α → α → Prop} {code code' : α → List W}

variable (h : ReadsBack given same code)
include h

theorem code_eq_iff {a b : α} (hgiven : given a b) :
    code a = code b ↔ same a b := by
  have hiff := h [] [] hgiven
  rwa [append_nil, append_nil, and_iff_left rfl] at hiff

theorem mono (hgiven : ∀ a b, given' a b → given a b) :
    ReadsBack given' same code := fun a b rest rest' hab => h rest rest' (hgiven a b hab)

theorem congr
    (hsame : ∀ a b, given a b → (same a b ↔ same' a b)) : ReadsBack given same' code := by
  intro a b rest rest' hab
  rw [h rest rest' hab, hsame a b hab]

theorem comap (f : β → α) :
    ReadsBack (fun a b => given (f a) (f b)) (fun a b => same (f a) (f b))
      (fun a => code (f a)) := fun _ _ rest rest' hab => h rest rest' hab

theorem of_eq (hcode : ∀ a, code' a = code a) :
    ReadsBack given same code' := by
  intro a b rest rest' hab
  rw [hcode a, hcode b, h rest rest' hab]

/-- Words that are always the same say nothing. -/
theorem prefixed (words : List W) :
    ReadsBack given same (fun a => words ++ code a) := by
  intro a b rest rest' hab
  rw [append_assoc, append_assoc, append_cancel_left_eq, h rest rest' hab]

omit h

/-- Codes of one length are read back if they are told apart. -/
theorem fixed (hlength : ∀ a b, given a b → (code a).length = (code b).length)
    (hcode : ∀ a b, given a b → (code a = code b ↔ same a b)) : ReadsBack given same code := by
  intro a b rest rest' hab
  rw [← hcode a b hab]
  constructor
  · intro h
    exact append_inj h (hlength a b hab)
  · rintro ⟨hwords, rfl⟩
    rw [hwords]

/-- A list of words is read back once its length is known. -/
theorem words (f : α → List W) (hlength : ∀ a b, given a b → (f a).length = (f b).length) :
    ReadsBack given (fun a b => f a = f b) f := fixed hlength fun _ _ _ => Iff.rfl

include h

/-- The second code is read knowing what the first has shown. -/
theorem append
    (h' : ReadsBack (fun a b => given a b ∧ same a b) same' code') :
    ReadsBack given (fun a b => same a b ∧ same' a b) (fun a => code a ++ code' a) := by
  intro a b rest rest' hab
  rw [append_assoc, append_assoc, h _ _ hab, and_assoc]
  constructor
  · rintro ⟨hsame, htail⟩
    exact ⟨hsame, (h' rest rest' ⟨hab, hsame⟩).mp htail⟩
  · rintro ⟨hsame, htail⟩
    exact ⟨hsame, (h' rest rest' ⟨hab, hsame⟩).mpr htail⟩

omit h

theorem nil (given : α → α → Prop) :
    ReadsBack given (fun _ _ => True) (fun _ => ([] : List W)) := by
  intro a b rest rest' _
  rw [nil_append, nil_append, true_and]

/-- One of two codes by a condition, which is known. -/
theorem ite (cond : α → Prop) [DecidablePred cond] (hcond : ∀ a b, given a b → (cond a ↔ cond b))
    (h : ReadsBack given same code) (h' : ReadsBack given same' code') :
    ReadsBack given (fun a b => if cond a then same a b else same' a b)
      (fun a => if cond a then code a else code' a) := by
  intro a b rest rest' hab
  dsimp only
  by_cases ha : cond a
  · rw [if_pos ha, if_pos ((hcond a b hab).mp ha), if_pos ha]
    exact h rest rest' hab
  · rw [if_neg ha, if_neg fun hb => ha ((hcond a b hab).mpr hb), if_neg ha]
    exact h' rest rest' hab

theorem flatMap {code : ι → α → List W} {same : ι → α → α → Prop} (indices : List ι)
    (h : ∀ i ∈ indices, ReadsBack given (same i) (code i)) :
    ReadsBack given (fun a b => ∀ i ∈ indices, same i a b)
      (fun a => indices.flatMap fun i => code i a) := by
  induction indices with
  | nil =>
      intro a b rest rest' _
      simp
  | cons i indices ih =>
      have htail : ReadsBack (fun a b => given a b ∧ same i a b)
          (fun a b => ∀ j ∈ indices, same j a b) (fun a => indices.flatMap fun j => code j a) :=
        (ih fun j hj => h j (mem_cons_of_mem i hj)).mono fun _ _ hab => hab.1
      have hboth := (h i mem_cons_self).append htail
      simp only [flatMap_cons]
      refine hboth.congr fun a b _ => ?_
      rw [List.forall_mem_cons]

/-- The same for indices that depend on the value, once they are known. -/
theorem flatMap_of_eq {code : ι → α → List W} {same : ι → α → α → Prop} (indices : α → List ι)
    (hindices : ∀ a b, given a b → indices a = indices b)
    (h : ∀ i, ReadsBack given (same i) (code i)) :
    ReadsBack given (fun a b => ∀ i ∈ indices a, same i a b)
      (fun a => (indices a).flatMap fun i => code i a) := by
  intro a b rest rest' hab
  have hiff := flatMap (indices a) (fun i _ => h i) rest rest' hab
  dsimp only at hiff ⊢
  rw [← hindices a b hab]
  exact hiff

end ReadsBack

end Jadren
