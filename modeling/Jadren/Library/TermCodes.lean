import Jadren.Library.Unification
import Mathlib.Data.List.Basic

/-!
# Prefix codes of terms

A code writes a term as a list of words: the words of its symbol, then its children
one after the other, with nothing to close them.  Such a code can be read back if the
words of a symbol can be told from what follows them and a symbol says how many
children there are (`encode_append_inj`).  So two codes are equal only for equal terms,
and none is a proper prefix of another.
-/

namespace Jadren.Unification

namespace Term

open List

variable {S V W : Type}

/-- A term without variables, all of whose symbols are good. -/
inductive Ground (good : S → Prop) : Term S V → Prop
  | node {symbol : S} {children : List (Term S V)} (symbol_good : good symbol)
      (children_ground : ∀ t ∈ children, Ground good t) : Ground good (.node symbol children)

/-- A term whose symbols have the number of children that goes with them. -/
inductive Ranked (arity : S → ℕ) : Term S V → Prop
  | var (v : V) : Ranked arity (.var v)
  | node {symbol : S} {children : List (Term S V)}
      (length_children : children.length = arity symbol)
      (children_ranked : ∀ t ∈ children, Ranked arity t) : Ranked arity (.node symbol children)

/-- The words of the symbols in the order in which they stand in the term. -/
def encode (head : S → List W) : Term S V → List W
  | .var _ => []
  | .node symbol children => head symbol ++ (children.map fun t => t.encode head).flatten

@[simp] theorem encode_node (head : S → List W) (symbol : S) (children : List (Term S V)) :
    (Term.node symbol children).encode head =
      head symbol ++ (children.map fun t => t.encode head).flatten := by
  rw [encode]

/-- The words of a good symbol are told from those of another and from what follows. -/
def HeadsReadBack (good : S → Prop) (head : S → List W) : Prop :=
  ∀ s s' rest rest', good s → good s' → head s ++ rest = head s' ++ rest' → s = s' ∧ rest = rest'

variable {good : S → Prop} {arity : S → ℕ} {head : S → List W}

/-- Codes of as many terms, one after the other, are read back if each of the first is. -/
theorem flatten_encode_append_inj {ts us : List (Term S V)} (hlength : ts.length = us.length)
    (hread : ∀ t ∈ ts, ∀ u ∈ us, ∀ rest rest', t.encode head ++ rest = u.encode head ++ rest' →
      t = u ∧ rest = rest') {rest rest' : List W}
    (h : (ts.map fun t => t.encode head).flatten ++ rest =
      (us.map fun u => u.encode head).flatten ++ rest') : ts = us ∧ rest = rest' := by
  induction ts generalizing us with
  | nil =>
      obtain rfl : us = [] := length_eq_zero_iff.mp hlength.symm
      exact ⟨rfl, by simpa using h⟩
  | cons t ts ih =>
      cases us with
      | nil => cases hlength
      | cons u =>
          simp only [List.map_cons, flatten_cons, append_assoc] at h
          obtain ⟨rfl, htail⟩ := hread t mem_cons_self u mem_cons_self _ _ h
          obtain ⟨rfl, hrest⟩ := ih (Nat.succ.inj hlength)
            (fun t' ht' u' hu' => hread t' (mem_cons_of_mem _ ht') u' (mem_cons_of_mem _ hu'))
            htail
          exact ⟨rfl, hrest⟩

/-- **A code is read back** in front of anything. -/
theorem encode_append_inj (hheads : HeadsReadBack good head) {t u : Term S V}
    (ht : t.Ground good) (hrankT : t.Ranked arity) (hu : u.Ground good) (hrankU : u.Ranked arity)
    {rest rest' : List W} (h : t.encode head ++ rest = u.encode head ++ rest') :
    t = u ∧ rest = rest' := by
  induction t generalizing u rest rest' with
  | var => cases ht
  | node symbol children ih =>
      obtain ⟨hgood, hchildren⟩ := ht
      obtain ⟨hgood', hchildren'⟩ := hu
      obtain _ | ⟨hlength, hranked⟩ := hrankT
      obtain _ | ⟨hlength', hranked'⟩ := hrankU
      rw [encode_node, encode_node, append_assoc, append_assoc] at h
      obtain ⟨rfl, htail⟩ := hheads _ _ _ _ hgood hgood' h
      obtain ⟨rfl, hrest⟩ := flatten_encode_append_inj (hlength.trans hlength'.symm)
        (fun t ht u hu rest rest' h => ih t ht (hchildren t ht) (hranked t ht) (hchildren' u hu)
          (hranked' u hu) h) htail
      exact ⟨rfl, hrest⟩

/-- No code is a proper prefix of another. -/
theorem eq_of_encode_isPrefix (hheads : HeadsReadBack good head) {t u : Term S V}
    (ht : t.Ground good) (hrankT : t.Ranked arity) (hu : u.Ground good) (hrankU : u.Ranked arity)
    (h : t.encode head <+: u.encode head) : t = u := by
  obtain ⟨rest, hrest⟩ := h
  have heq : t.encode head ++ rest = u.encode head ++ [] := by rw [hrest, append_nil]
  exact (encode_append_inj hheads ht hrankT hu hrankU heq).1

end Term

end Jadren.Unification
