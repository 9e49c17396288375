import Jadren.Syntax.Nesting
import Mathlib.Data.List.TakeWhile

/-!
# Dealing out the tokens

The tokens are in order and do not overlap.  The children of a node are apart and in order, so
the tokens split at a child into those that end before it, those that begin before its end, and
the rest.  `Touches` says which tokens the middle part has for the nodes below the child; a token
that begins before a node and ends in it is among them, one that ends after a node that it touches
makes the pass fail.
-/

namespace Jadren.Syntax

open List Intervals

variable {TokenKind : Type}

/-! ### What a tree holds -/

mutual

/-- The tokens below an element, in the order of the tree. -/
def SyntaxElement.tokens : SyntaxElement TokenKind → List (Token TokenKind)
  | .node _ _ children => tokensOf children
  | .token token => [token]

def tokensOf : List (SyntaxElement TokenKind) → List (Token TokenKind)
  | [] => []
  | child :: children => child.tokens ++ tokensOf children

end

mutual

/-- The nodes of an element, parents first, each with the tokens below it. -/
def SyntaxElement.entries :
    SyntaxElement TokenKind → List (NodeSpec × List (Token TokenKind))
  | .node kind span children => (⟨kind, span⟩, tokensOf children) :: entriesOf children
  | .token _ => []

def entriesOf : List (SyntaxElement TokenKind) → List (NodeSpec × List (Token TokenKind))
  | [] => []
  | child :: children => child.entries ++ entriesOf children

end

@[simp] theorem tokensOf_append (xs ys : List (SyntaxElement TokenKind)) :
    tokensOf (xs ++ ys) = tokensOf xs ++ tokensOf ys := by
  induction xs with
  | nil => simp [tokensOf]
  | cons x xs ih => simp [tokensOf, ih]

@[simp] theorem entriesOf_append (xs ys : List (SyntaxElement TokenKind)) :
    entriesOf (xs ++ ys) = entriesOf xs ++ entriesOf ys := by
  induction xs with
  | nil => simp [entriesOf]
  | cons x xs ih => simp [entriesOf, ih]

@[simp] theorem tokensOf_map_token (tokens : List (Token TokenKind)) :
    tokensOf (tokens.map .token) = tokens := by
  induction tokens with
  | nil => rfl
  | cons t tokens ih => simp [tokensOf, SyntaxElement.tokens, ih]

@[simp] theorem entriesOf_map_token (tokens : List (Token TokenKind)) :
    entriesOf (tokens.map .token) = [] := by
  induction tokens with
  | nil => rfl
  | cons t tokens ih => simp [entriesOf, SyntaxElement.entries, ih]

/-! ### Tokens and one node -/

/-- A part of the token lies in the node, or the token is empty and lies between its ends. -/
def Touches (node : Span) (token : Token TokenKind) : Prop :=
  token.span.start < node.stop ∧ node.start < token.span.stop

instance (node : Span) : DecidablePred (@Touches TokenKind node) :=
  fun _ => inferInstanceAs (Decidable (_ ∧ _))

/-- The tokens of the list that touch the node. -/
def touching (node : Span) (tokens : List (Token TokenKind)) : List (Token TokenKind) :=
  tokens.filter fun t => decide (Touches node t)

/-- The token begins before the end of the node and ends after it. -/
def CrossesEnd (node : Span) (token : Token TokenKind) : Prop :=
  token.span.start < node.stop ∧ node.stop < token.span.stop

def InOrder (tokens : List (Token TokenKind)) : Prop :=
  tokens.Pairwise fun a b => a.span.stop ≤ b.span.start

theorem not_of_mem_dropWhile {α : Type*} {p : α → Bool} {xs : List α}
    (h : xs.Pairwise fun a b => p b = true → p a = true) {x : α} (hx : x ∈ xs.dropWhile p) :
    p x = false := by
  induction xs with
  | nil => exact absurd hx not_mem_nil
  | cons y xs ih =>
      obtain ⟨hhead, htail⟩ := pairwise_cons.mp h
      cases hy : p y with
      | true =>
          rw [dropWhile_cons_of_pos hy] at hx
          exact ih htail hx
      | false =>
          rw [dropWhile_cons_of_neg (by simp [hy])] at hx
          rcases mem_cons.mp hx with rfl | hx
          · exact hy
          · exact Bool.eq_false_iff.mpr fun hp => by simp [hhead x hx hp] at hy

variable {node : Span} {tokens own rest : List (Token TokenKind)}

theorem childTokens_eq_ok (h : childTokens node tokens = .ok (own, rest)) :
    own = tokens.takeWhile (fun t => decide (t.span.start < node.stop)) ∧
      rest = tokens.dropWhile (fun t => decide (t.span.start < node.stop)) ∧
      ∀ t ∈ own, t.span.stop ≤ node.stop := by
  induction tokens generalizing own with
  | nil =>
      obtain ⟨rfl, rfl⟩ : [] = own ∧ [] = rest := by simpa [childTokens] using h
      simp
  | cons t tokens ih =>
      simp only [childTokens] at h
      split at h
      next hstart =>
        split at h
        · cases h
        next hstop =>
          cases hrest : childTokens node tokens with
          | error =>
              rw [hrest] at h
              cases h
          | ok pair =>
              obtain ⟨own', rest'⟩ := pair
              rw [hrest] at h
              obtain ⟨rfl, rfl⟩ : t :: own' = own ∧ rest' = rest := by
                simpa using Except.ok.inj h
              obtain ⟨rfl, hdrop, hstops⟩ := ih hrest
              simp only [hstart, decide_true, takeWhile_cons_of_pos,
                dropWhile_cons_of_pos, true_and]
              exact ⟨hdrop, forall_mem_cons.mpr ⟨not_lt.mp hstop, hstops⟩⟩
      next hstart =>
        obtain ⟨rfl, rfl⟩ : [] = own ∧ t :: tokens = rest := by simpa using Except.ok.inj h
        simp [hstart]

theorem childTokens_eq_error {e : SyntaxBuildError} (h : childTokens node tokens = .error e) :
    ∃ t ∈ tokens, CrossesEnd node t := by
  induction tokens generalizing e with
  | nil => simp [childTokens] at h
  | cons t tokens ih =>
      simp only [childTokens] at h
      split at h
      next hstart =>
        split at h
        next hstop => exact ⟨t, mem_cons_self, hstart, hstop⟩
        next hstop =>
          cases hrest : childTokens node tokens with
          | error =>
              obtain ⟨u, hu, hcross⟩ := ih hrest
              exact ⟨u, mem_cons_of_mem t hu, hcross⟩
          | ok =>
              rw [hrest] at h
              cases h
      · cases h

/-- The tokens at a child: before it, at it, and after it. -/
structure Cut (node : Span) (tokens before own rest : List (Token TokenKind)) : Prop where
  split : tokens = before ++ own ++ rest
  before_stop : ∀ t ∈ before, t.span.stop ≤ node.start
  own_touches : ∀ t ∈ own, Touches node t
  own_stop : ∀ t ∈ own, t.span.stop ≤ node.stop
  rest_start : ∀ t ∈ rest, node.stop ≤ t.span.start

theorem cut_of_childTokens (horder : InOrder tokens)
    (h : childTokens node (tokens.dropWhile fun t => decide (t.span.stop ≤ node.start)) =
      .ok (own, rest)) :
    Cut node tokens (tokens.takeWhile fun t => decide (t.span.stop ≤ node.start)) own rest := by
  obtain ⟨hown, hrest, hstops⟩ := childTokens_eq_ok h
  have hafter : ∀ t ∈ tokens.dropWhile (fun t => decide (t.span.stop ≤ node.start)),
      node.start < t.span.stop := by
    intro t ht
    have hnot := not_of_mem_dropWhile (horder.imp fun {a b} hab hb => ?_) ht
    · simpa using hnot
    · have ha := b.span.ordered
      simp only [decide_eq_true_eq] at hb ⊢
      omega
  have horder' : InOrder (tokens.dropWhile fun t => decide (t.span.stop ≤ node.start)) :=
    List.Pairwise.sublist (dropWhile_sublist _) horder
  refine ⟨?_, ?_, ?_, hstops, ?_⟩
  · rw [hown, hrest, append_assoc, takeWhile_append_dropWhile,
      takeWhile_append_dropWhile]
  · exact fun t ht => by simpa using mem_takeWhile_imp ht
  · intro t ht
    rw [hown] at ht
    exact ⟨by simpa using mem_takeWhile_imp ht, hafter t ((takeWhile_sublist _).mem ht)⟩
  · intro t ht
    rw [hrest] at ht
    have hnot := not_of_mem_dropWhile (horder'.imp fun {a b} hab hb => ?_) ht
    · simpa using hnot
    · have ha := a.span.ordered
      simp only [decide_eq_true_eq] at hb ⊢
      omega

namespace Cut

variable {before : List (Token TokenKind)} (cut : Cut node tokens before own rest)
  {inner : Span}

include cut

/-- The tokens at the child are those that touch it, and hold those that touch a node in it. -/
theorem filter_inside (hstart : node.start ≤ inner.start) (hstop : inner.stop ≤ node.stop) :
    touching inner tokens = touching inner own := by
  have hbefore : touching inner before = [] := by
    refine filter_eq_nil_iff.mpr fun t ht => ?_
    have hstop' := cut.before_stop t ht
    rw [decide_eq_true_eq]
    rintro ⟨-, htouch⟩
    omega
  have hrest : touching inner rest = [] := by
    refine filter_eq_nil_iff.mpr fun t ht => ?_
    have hstart' := cut.rest_start t ht
    rw [decide_eq_true_eq]
    rintro ⟨htouch, -⟩
    omega
  simp only [touching] at hbefore hrest ⊢
  rw [cut.split, filter_append, filter_append, hbefore, hrest, nil_append,
    append_nil]

theorem filter_self : touching node tokens = own := by
  rw [cut.filter_inside le_rfl le_rfl]
  exact filter_eq_self.mpr fun t ht => by simpa using cut.own_touches t ht

/-- Nodes after the child touch only what comes after it. -/
theorem filter_after (hnode : node.start < node.stop) (hstart : node.stop ≤ inner.start) :
    touching inner tokens = touching inner rest := by
  have hearly : touching inner (before ++ own) = [] := by
    refine filter_eq_nil_iff.mpr fun t ht => ?_
    rw [decide_eq_true_eq]
    rintro ⟨-, htouch⟩
    rcases mem_append.mp ht with ht | ht
    · have := cut.before_stop t ht
      omega
    · have := cut.own_stop t ht
      omega
  simp only [touching] at hearly ⊢
  rw [cut.split, filter_append, hearly, nil_append]

theorem not_crossesEnd {t : Token TokenKind} (ht : t ∈ tokens) : ¬ CrossesEnd node t := by
  rintro ⟨hstart, hstop⟩
  have hnode := node.ordered
  rw [cut.split] at ht
  rcases mem_append.mp ht with ht | ht
  · rcases mem_append.mp ht with ht | ht
    · have := cut.before_stop t ht
      omega
    · have := cut.own_stop t ht
      omega
  · have := cut.rest_start t ht
    omega

/-- What crosses the end of a node in the child is among the tokens of the child. -/
theorem mem_own {t : Token TokenKind} (ht : t ∈ tokens) (hcross : CrossesEnd inner t)
    (hstart : node.start ≤ inner.start) (hstop : inner.stop ≤ node.stop) : t ∈ own := by
  have htouches : Touches node t := by
    have hinner := inner.ordered
    obtain ⟨hstart', hstop'⟩ := hcross
    constructor <;> omega
  rw [← cut.filter_self]
  exact mem_filter.mpr ⟨ht, by simpa using htouches⟩

/-- What crosses the end of a node after the child comes after the child. -/
theorem mem_rest {t : Token TokenKind} (ht : t ∈ tokens) (hcross : CrossesEnd inner t)
    (hnode : node.start < node.stop) (hstart : node.stop ≤ inner.start) : t ∈ rest := by
  obtain ⟨hstart', hstop'⟩ := hcross
  have hinner := inner.ordered
  rw [cut.split] at ht
  rcases mem_append.mp ht with ht | ht
  · rcases mem_append.mp ht with ht | ht
    · have := cut.before_stop t ht
      omega
    · have := cut.own_stop t ht
      omega
  · exact ht

end Cut

/-! ### The nodes below a list of children -/

section Build

variable {root : Span} {nodes : List NodeSpec} (h : Prepared root nodes)
  {nesting : Nesting nodes.length} {cs : List (Fin nodes.length)} {c : Fin nodes.length}
  {children : List (SyntaxElement TokenKind)}

/-- No token crosses the end of a node under the list. -/
def NoneCrosses (cs : List (Fin nodes.length)) (tokens : List (Token TokenKind)) : Prop :=
  ∀ i, h.intervals.Under cs i → ∀ t ∈ tokens, ¬ CrossesEnd (spanAt nodes i) t

/-- The nodes under the list, in order, each with the tokens that touch it. -/
def entriesUnder (cs : List (Fin nodes.length)) (tokens : List (Token TokenKind)) :
    List (NodeSpec × List (Token TokenKind)) :=
  ((finRange nodes.length).filter (h.intervals.Under cs)).map fun i =>
    (nodes.get i, touching (spanAt nodes i) tokens)

theorem entriesUnder_congr {tokens' : List (Token TokenKind)}
    (heq : ∀ i, h.intervals.Under cs i →
      touching (spanAt nodes i) tokens = touching (spanAt nodes i) tokens') :
    entriesUnder h cs tokens = entriesUnder h cs tokens' := by
  refine map_congr_left fun i hi => ?_
  rw [heq i (by simpa using hi)]

variable {before : List (Token TokenKind)}

variable (hupto : Upto h.intervals nodes.length nesting)
include hupto

theorem entriesUnder_cons
    (cut : Cut (spanAt nodes c) tokens before own rest)
    (hcs : ∀ d ∈ cs, h.intervals.stop c ≤ h.intervals.start d) :
    entriesUnder h (c :: cs) tokens =
      (nodes.get c, own) :: entriesUnder h (nesting.directChildren c) own ++
        entriesUnder h cs rest := by
  have hchildren : ∀ d, d ∈ nesting.directChildren c ↔ h.intervals.IsParent c d := fun d => by
    rw [hupto.children_mem, and_iff_right d.isLt]
  have hc := h.intervals.nonempty c
  have hinside : entriesUnder h (nesting.directChildren c) tokens =
      entriesUnder h (nesting.directChildren c) own := by
    refine entriesUnder_congr h fun i hi => ?_
    have henc := (hupto.isLaminar.under_children hchildren i).mp hi
    exact cut.filter_inside (start_le (I := h.intervals) henc.1.le) henc.2
  have hafter : entriesUnder h cs tokens = entriesUnder h cs rest :=
    entriesUnder_congr h fun i hi => cut.filter_after hc (hi.start_le hcs)
  have hself : touching (spanAt nodes c) tokens = own := cut.filter_self
  rw [← hinside, ← hafter, entriesUnder, hupto.isLaminar.filter_under_cons hchildren hcs,
    map_append, map_cons, hself]
  rfl

theorem noneCrosses_cons
    (cut : Cut (spanAt nodes c) tokens before own rest)
    (hcs : ∀ d ∈ cs, h.intervals.stop c ≤ h.intervals.start d) :
    NoneCrosses h (c :: cs) tokens ↔
      NoneCrosses h (nesting.directChildren c) own ∧ NoneCrosses h cs rest := by
  have hchildren : ∀ d, d ∈ nesting.directChildren c ↔ h.intervals.IsParent c d := fun d => by
    rw [hupto.children_mem, and_iff_right d.isLt]
  have hunder := hupto.isLaminar.under_children hchildren
  have hc := h.intervals.nonempty c
  have hown : ∀ t ∈ own, t ∈ tokens := fun t ht => by rw [cut.split]; simp [ht]
  have hrest : ∀ t ∈ rest, t ∈ tokens := fun t ht => by rw [cut.split]; simp [ht]
  constructor
  · intro hnone
    refine ⟨fun i hi t ht => ?_, fun i hi t ht => ?_⟩
    · exact hnone i (under_cons.mpr (.inl (.inr ((hunder i).mp hi)))) t (hown t ht)
    · exact hnone i (under_cons.mpr (.inr hi)) t (hrest t ht)
  · rintro ⟨hinside, hafter⟩ i hi t ht hcross
    rcases under_cons.mp hi with (rfl | henc) | hi
    · exact cut.not_crossesEnd ht hcross
    · have hmem := cut.mem_own ht hcross (start_le (I := h.intervals) henc.1.le) henc.2
      exact hinside i ((hunder i).mpr henc) t hmem hcross
    · exact hafter i hi t (cut.mem_rest ht hcross hc (hi.start_le hcs)) hcross

omit hupto

/-- The tokens are dealt out to the nodes under the list, and some are left over. -/
structure Dealt (cs : List (Fin nodes.length)) (tokens : List (Token TokenKind))
    (children : List (SyntaxElement TokenKind)) (rest : List (Token TokenKind)) : Prop where
  noneCrosses : NoneCrosses h cs tokens
  tokens_eq : tokensOf children ++ rest = tokens
  entries_eq : entriesOf children = entriesUnder h cs tokens

theorem Dealt.nil : Dealt h [] tokens [] tokens := by
  refine ⟨fun i hi => absurd hi under_nil, rfl, ?_⟩
  simp [entriesOf, entriesUnder, Under]

/-- A child with everything under it, before what is dealt to the later ones. -/
theorem Dealt.cons (hupto : Upto h.intervals nodes.length nesting)
    (cut : Cut (spanAt nodes c) tokens before own rest)
    (hcs : ∀ d ∈ cs, h.intervals.stop c ≤ h.intervals.start d)
    {more : List (SyntaxElement TokenKind)} {left : List (Token TokenKind)}
    (hchild : Dealt h (nesting.directChildren c) own children [])
    (hmore : Dealt h cs rest more left) :
    Dealt h (c :: cs) tokens
      (before.map .token ++ [.node (nodes.get c).kind (nodes.get c).span children] ++ more)
      left where
  noneCrosses := (noneCrosses_cons h hupto cut hcs).mpr ⟨hchild.noneCrosses, hmore.noneCrosses⟩
  tokens_eq := by
    have hown : tokensOf children = own := by simpa using hchild.tokens_eq
    rw [cut.split, ← hmore.tokens_eq, ← hown]
    simp [tokensOf, SyntaxElement.tokens]
  entries_eq := by
    have hown : tokensOf children = own := by simpa using hchild.tokens_eq
    rw [entriesUnder_cons h hupto cut hcs, ← hchild.entries_eq, ← hmore.entries_eq]
    simp [entriesOf, SyntaxElement.entries, hown]

/-- Building fails exactly if a token crosses the end of a node under the list, and gives else a
node with everything under the list dealt out. -/
def Builds (cs : List (Fin nodes.length)) (tokens : List (Token TokenKind)) (kind : SyntaxKind)
    (span : Span) (outcome : Except SyntaxBuildError (SyntaxElement TokenKind)) : Prop :=
  (∃ e, outcome = .error e) ∧ ¬ NoneCrosses h cs tokens ∨
    ∃ children, outcome = .ok (.node kind span children) ∧ Dealt h cs tokens children []

include hupto

/-- The loop over the children, where each child is built from its own tokens. -/
theorem foldlM_attachChild
    {build : Fin nodes.length → List (Token TokenKind) →
      Except SyntaxBuildError (SyntaxElement TokenKind)}
    (hbuild : ∀ c ∈ cs, ∀ own, InOrder own → Builds h (nesting.directChildren c) own
      (nodes.get c).kind (nodes.get c).span (build c own))
    (hcs : cs.Pairwise fun a b => h.intervals.stop a ≤ h.intervals.start b)
    (done : List (SyntaxElement TokenKind)) (horder : InOrder tokens) :
    (∃ e, cs.foldlM (attachChild nodes build) (done, tokens) = .error e) ∧
        ¬ NoneCrosses h cs tokens ∨
      ∃ children rest, cs.foldlM (attachChild nodes build) (done, tokens) =
        .ok (done ++ children, rest) ∧ Dealt h cs tokens children rest := by
  -- the children lie in order, so what one leaves is dealt to those behind it
  induction cs generalizing done tokens with
  | nil => exact .inr ⟨[], tokens, by simp [pure, Except.pure], Dealt.nil h⟩
  | cons c cs ih =>
      obtain ⟨hhead, htail⟩ := pairwise_cons.mp hcs
      rw [foldlM_cons]
      cases hown : childTokens (spanAt nodes c)
          (tokens.dropWhile fun t => decide (t.span.stop ≤ (spanAt nodes c).start)) with
      | error e =>
          refine .inl ⟨⟨e, by simp [attachChild, hown, bind, Except.bind]⟩, fun hnone => ?_⟩
          obtain ⟨t, ht, hcross⟩ := childTokens_eq_error hown
          exact hnone c (under_cons.mpr (.inl (.inl rfl))) t
            ((dropWhile_sublist _).mem ht) hcross
      | ok pair =>
          obtain ⟨own, rest⟩ := pair
          have cut := cut_of_childTokens horder hown
          have hnone := noneCrosses_cons h hupto cut hhead
          obtain ⟨hfront, hrestOrder, -⟩ := pairwise_append.mp (cut.split ▸ horder)
          obtain ⟨-, hownOrder, -⟩ := pairwise_append.mp hfront
          rcases hbuild c mem_cons_self own hownOrder with ⟨⟨e, he⟩, hcross⟩ |
            ⟨children, hnode, hchild⟩
          · refine .inl ⟨⟨e, by simp [attachChild, hown, he, bind, Except.bind]⟩, ?_⟩
            exact fun hall => hcross (hnone.mp hall).1
          have hstep : attachChild nodes build (done, tokens) c =
              .ok (done ++ ((tokens.takeWhile fun t =>
                decide (t.span.stop ≤ (spanAt nodes c).start)).map .token ++
                  [.node (nodes.get c).kind (nodes.get c).span children]), rest) := by
            simp [attachChild, hown, hnode, bind, Except.bind, pure, Except.pure]
          rw [hstep]
          rcases ih (fun d hd => hbuild d (mem_cons_of_mem c hd)) htail
              (done ++ _) hrestOrder with ⟨⟨e, he⟩, hcross⟩ | ⟨more, left, hmore, hdealt⟩
          · exact .inl ⟨⟨e, he⟩, fun hall => hcross (hnone.mp hall).2⟩
          · refine .inr ⟨_, left, ?_, Dealt.cons h hupto cut hhead hchild hdealt⟩
            rw [append_assoc done] at hmore
            exact hmore

theorem directChildren_apart
    (c : Fin nodes.length) : (nesting.directChildren c).Pairwise
      fun a b => h.intervals.stop a ≤ h.intervals.start b := by
  refine (hupto.children_sorted c).imp_of_mem fun {a b} ha hb hab => ?_
  exact hupto.isLaminar.apart hab (.inr
    ⟨((hupto.children_mem c a).mp ha).2, ((hupto.children_mem c b).mp hb).2⟩)

theorem rootChildren_apart :
    nesting.rootChildren.Pairwise fun a b => h.intervals.stop a ≤ h.intervals.start b := by
  refine hupto.root_sorted.imp_of_mem fun {a b} ha hb hab => ?_
  exact hupto.isLaminar.apart (p := a) hab (.inl
    ⟨((hupto.root_mem a).mp ha).2, ((hupto.root_mem b).mp hb).2⟩)

/-- A depth above the number of nodes from the first child on is enough, since children come
after their parents. -/
theorem buildNode_builds {depth : ℕ}
    (hpos : 0 < depth) (hdepth : ∀ c ∈ cs, nodes.length - c.val < depth) (kind : SyntaxKind)
    (span : Span) (hcs : cs.Pairwise fun a b => h.intervals.stop a ≤ h.intervals.start b)
    (horder : InOrder tokens) :
    Builds h cs tokens kind span (buildNode nodes nesting depth kind span cs tokens) := by
  induction depth generalizing cs tokens kind span with
  | zero => exact absurd hpos (lt_irrefl 0)
  | succ depth ih =>
      have hbuild : ∀ c ∈ cs, ∀ own : List (Token TokenKind), InOrder own →
          Builds h (nesting.directChildren c) own (nodes.get c).kind (nodes.get c).span
            (buildNode nodes nesting depth (nodes.get c).kind (nodes.get c).span
              (nesting.directChildren c) own) := by
        intro c hc own hown
        have hc' := hdepth c hc
        refine ih (by omega) (fun d hd => ?_) _ _ (directChildren_apart h hupto c) hown
        have hlt := Fin.lt_def.mp ((hupto.children_mem c d).mp hd).2.1.1
        omega
      rcases foldlM_attachChild h hupto hbuild hcs [] horder with ⟨⟨e, he⟩, hcross⟩ |
        ⟨children, rest, hfold, hdealt⟩
      · refine .inl ⟨⟨e, ?_⟩, hcross⟩
        simp only [buildNode, he, bind, Except.bind]
      · refine .inr ⟨children ++ rest.map .token, ?_, hdealt.noneCrosses, ?_, ?_⟩
        · simp only [buildNode, hfold, bind, Except.bind, pure, Except.pure, nil_append]
        · simpa using hdealt.tokens_eq
        · simpa using hdealt.entries_eq

end Build

end Jadren.Syntax
