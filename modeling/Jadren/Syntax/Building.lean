import Jadren.Syntax.Dealing

/-!
# The whole tree

`SyntaxTree::build` gives a tree exactly if the tokens and the nodes pass their checks, the nodes
are nested or apart, and no token crosses the end of a node.  Of the two sides on which a token
can straddle a node only that one is looked at: a token that begins before a node and ends inside
it is dealt out to the node.  Without such tokens every node has the tokens that lie inside it.
-/

namespace Jadren.Syntax

open List

variable {TokenKind : Type} {root : Span} {tokens : List (Token TokenKind)} {nodes : List NodeSpec}

/-! ### Tokens -/

/-- The tokens of the file, in order, none overlapping the next. -/
structure TokensOk (root : Span) (tokens : List (Token TokenKind)) : Prop where
  inRoot : ∀ t ∈ tokens, t.span.source = root.source ∧ root.start ≤ t.span.start ∧
    t.span.stop ≤ root.stop
  inOrder : InOrder tokens

theorem validateTokensFrom_iff {previous : Option Span} :
    validateTokensFrom root previous tokens = .ok () ↔
      TokensOk root tokens ∧ ∀ p ∈ previous, ∀ t ∈ tokens.head?, p.stop ≤ t.span.start := by
  induction tokens generalizing previous with
  | nil =>
      have hnil : TokensOk root ([] : List (Token TokenKind)) := ⟨by simp, List.Pairwise.nil⟩
      simp [validateTokensFrom, hnil]
  | cons t tokens ih =>
      have htokens : TokensOk root (t :: tokens) ↔
          (t.span.source = root.source ∧ root.start ≤ t.span.start ∧ t.span.stop ≤ root.stop) ∧
          TokensOk root tokens ∧ ∀ u ∈ tokens.head?, t.span.stop ≤ u.span.start := by
        constructor
        · rintro ⟨hroot, horder⟩
          obtain ⟨hhead, htail⟩ := pairwise_cons.mp horder
          obtain ⟨ht, hrest⟩ := forall_mem_cons.mp hroot
          exact ⟨ht, ⟨hrest, htail⟩, fun u hu => hhead u (mem_of_mem_head? hu)⟩
        · rintro ⟨ht, ⟨hrest, htail⟩, hhead⟩
          refine ⟨forall_mem_cons.mpr ⟨ht, hrest⟩, pairwise_cons.mpr ⟨?_, htail⟩⟩
          -- what holds of the next token holds of those after it
          cases tokens with
          | nil => simp
          | cons u =>
              have hu := hhead u rfl
              refine forall_mem_cons.mpr ⟨hu, fun w hw => ?_⟩
              exact hu.trans (u.span.ordered.trans ((pairwise_cons.mp htail).1 w hw))
      rw [htokens]
      simp only [validateTokensFrom]
      split
      next hout =>
        simp only [reduceCtorEq, false_iff]
        rintro ⟨⟨⟨h1, h2, h3⟩, -⟩, -⟩
        omega
      next hin =>
        have hin' : t.span.source = root.source ∧ root.start ≤ t.span.start ∧
            t.span.stop ≤ root.stop := by omega
        cases previous with
        | none => simp [ih, hin']
        | some p =>
            simp only
            split
            next hover =>
              simp only [reduceCtorEq, false_iff]
              rintro ⟨-, hp⟩
              exact absurd (hp p rfl t rfl) (not_le.mpr hover)
            next hover => simp [ih, hin', not_lt.mp hover]

theorem validateTokens_iff : validateTokens root tokens = .ok () ↔ TokensOk root tokens := by
  rw [validateTokens, validateTokensFrom_iff]
  simp

/-! ### Nodes -/

def NestedOrApart (a b : Span) : Prop :=
  (a.start ≤ b.start ∧ b.stop ≤ a.stop) ∨ (b.start ≤ a.start ∧ a.stop ≤ b.stop) ∨
    a.stop ≤ b.start ∨ b.stop ≤ a.start

/-- Non-empty nodes of the file, pairwise distinct and nested or apart. -/
structure NodesOk (root : Span) (nodes : List NodeSpec) : Prop where
  source : ∀ node ∈ nodes, node.span.source = root.source
  inRoot : ∀ node ∈ nodes, root.start ≤ node.span.start ∧ node.span.stop ≤ root.stop
  nonempty : ∀ node ∈ nodes, node.span.start < node.span.stop
  pairs : nodes.Pairwise fun a b => a.span ≠ b.span ∧ NestedOrApart a.span b.span

theorem NodesOk.perm {nodes' : List NodeSpec} (h : NodesOk root nodes) (hperm : nodes.Perm nodes') :
    NodesOk root nodes' where
  source node hnode := h.source node (hperm.mem_iff.mpr hnode)
  inRoot node hnode := h.inRoot node (hperm.mem_iff.mpr hnode)
  nonempty node hnode := h.nonempty node (hperm.mem_iff.mpr hnode)
  pairs := by
    refine (hperm.pairwise_iff fun {a b} hab => ⟨hab.1.symm, ?_⟩).mp h.pairs
    rcases hab.2 with h | h | h | h
    exacts [Or.inr (.inl h), .inl h, .inr (.inr (.inr h)), .inr (.inr (.inl h))]

theorem nodeLe_iff {a b : NodeSpec} :
    nodeLe a b = true ↔ a.span.start < b.span.start ∨ a.span.start = b.span.start ∧
      (b.span.stop < a.span.stop ∨ b.span.stop = a.span.stop ∧
        syntaxKindOrder a.kind ≤ syntaxKindOrder b.kind) := by
  simp [nodeLe]

theorem pairwise_mergeSort (nodes : List NodeSpec) :
    (nodes.mergeSort nodeLe).Pairwise fun a b => nodeLe a b = true := by
  refine List.pairwise_mergeSort (fun a b c hab hbc => ?_) (fun a b => ?_) nodes
  · rw [nodeLe_iff] at hab hbc ⊢
    omega
  · rw [Bool.or_eq_true, nodeLe_iff, nodeLe_iff]
    omega

theorem span_eq {a b : Span} (hsource : a.source = b.source) (hstart : a.start = b.start)
    (hstop : a.stop = b.stop) : a = b := by
  cases a; cases b
  simp only at hsource hstart hstop
  subst hsource hstart hstop
  rfl

/-- Sorted nodes pass the check exactly if they are distinct non-empty nodes of the file. -/
theorem validateNodes_iff (hsorted : nodes.Pairwise fun a b => nodeLe a b = true) :
    validateNodes root nodes = .ok () ↔ Prepared root nodes := by
  induction nodes with
  | nil => simp [validateNodes, show Prepared root [] from ⟨by simp, by simp, by simp, .nil⟩]
  | cons node nodes ih =>
      obtain ⟨hle, htail⟩ := pairwise_cons.mp hsorted
      have hprepared : Prepared root (node :: nodes) ↔
          (node.span.source = root.source ∧ node.span.start < node.span.stop ∧
            root.start ≤ node.span.start ∧ node.span.stop ≤ root.stop) ∧ Prepared root nodes ∧
          ∀ next ∈ nodes.head?, next.span ≠ node.span := by
        constructor
        · rintro ⟨hsource, hroot, hnonempty, hpairs⟩
          obtain ⟨hs, hsource⟩ := forall_mem_cons.mp hsource
          obtain ⟨hr, hroot⟩ := forall_mem_cons.mp hroot
          obtain ⟨hn, hnonempty⟩ := forall_mem_cons.mp hnonempty
          obtain ⟨hhead, hpairs⟩ := pairwise_cons.mp hpairs
          refine ⟨⟨hs, hn, hr⟩, ⟨hsource, hroot, hnonempty, hpairs⟩, fun next hnext heq => ?_⟩
          have hlt := (hhead next (mem_of_mem_head? hnext)).2 (by rw [heq])
          rw [heq] at hlt
          exact absurd hlt (lt_irrefl _)
        · rintro ⟨⟨hs, hn, hr⟩, ⟨hsource, hroot, hnonempty, hpairs⟩, hnext⟩
          refine ⟨forall_mem_cons.mpr ⟨hs, hsource⟩, forall_mem_cons.mpr ⟨hr, hroot⟩,
            forall_mem_cons.mpr ⟨hn, hnonempty⟩, pairwise_cons.mpr ⟨?_, hpairs⟩⟩
          intro b hb
          have hab := nodeLe_iff.mp (hle b hb)
          refine ⟨by omega, fun hstart => ?_⟩
          -- with equal spans the next node, which stands between them, has the same span
          cases nodes with
          | nil => exact absurd hb not_mem_nil
          | cons next =>
              have hne := hnext next rfl
              have hnode := nodeLe_iff.mp (hle next mem_cons_self)
              have hsame := hsource next mem_cons_self
              by_contra hstop
              refine hne (span_eq (hsame.trans hs.symm) ?_ ?_) <;>
              · rcases mem_cons.mp hb with rfl | hb
                · omega
                · have hbetween := nodeLe_iff.mp ((pairwise_cons.mp htail).1 b hb)
                  omega
      rw [hprepared]
      simp only [validateNodes, Span.isEmpty, beq_iff_eq]
      have hordered := node.span.ordered
      split
      next hout =>
        simp only [reduceCtorEq, false_iff]
        rintro ⟨h, -⟩
        omega
      next hin =>
        have hin' : node.span.source = root.source ∧ node.span.start < node.span.stop ∧
            root.start ≤ node.span.start ∧ node.span.stop ≤ root.stop := by omega
        have hdup : nodes.head?.any (fun next => decide (next.span = node.span)) = true ↔
            ¬ ∀ next ∈ nodes.head?, next.span ≠ node.span := by
          cases nodes <;> simp
        split
        next hsame =>
          simp only [reduceCtorEq, false_iff]
          exact fun h => hdup.mp hsame h.2.2
        next hsame =>
          rw [ih htail]
          exact ⟨fun h => ⟨hin', h, not_not.mp (mt hdup.mpr hsame)⟩, fun h => h.2.1⟩

/-- Distinct nodes that are nested or apart are, once sorted, those that are let through and form a
laminar family. -/
theorem nodesOk_iff (hsorted : nodes.Pairwise fun a b => nodeLe a b = true) :
    NodesOk root nodes ↔ ∃ h : Prepared root nodes, h.intervals.Laminar := by
  constructor
  · intro h
    have hpairs : nodes.Pairwise fun a b => a.span.start ≤ b.span.start ∧
        (a.span.start = b.span.start → b.span.stop < a.span.stop) := by
      refine List.Pairwise.imp_of_mem (fun {a b} ha hb hab => ?_) (hsorted.and h.pairs)
      have hle := nodeLe_iff.mp hab.1
      refine ⟨by omega, fun hstart => ?_⟩
      by_contra hstop
      exact hab.2.1 (span_eq ((h.source a ha).trans (h.source b hb).symm) hstart (by omega))
    refine ⟨⟨h.source, h.inRoot, h.nonempty, hpairs⟩, fun p c hpc => ?_⟩
    have hstrict := pairwise_iff_get.mp hpairs p c hpc
    have hp := h.nonempty _ (get_mem nodes p)
    have hc := h.nonempty _ (get_mem nodes c)
    have hnested := (pairwise_iff_get.mp h.pairs p c hpc).2
    simp only [Intervals.Encloses, Prepared.intervals, spanAt, NestedOrApart] at hnested ⊢
    omega
  · rintro ⟨h, hlaminar⟩
    refine ⟨h.source, h.inRoot, h.nonempty, pairwise_iff_get.mpr fun p c hpc => ?_⟩
    have hstrict := pairwise_iff_get.mp h.sorted p c hpc
    refine ⟨fun heq => ?_, ?_⟩
    · rw [heq] at hstrict
      exact absurd (hstrict.2 rfl) (lt_irrefl _)
    · rcases hlaminar p c hpc with henc | hapart
      · exact .inl ⟨hstrict.1, henc.2⟩
      · exact .inr (.inr (.inl hapart))

/-! ### Trees -/

/-- No token begins before the end of a node and ends after it. -/
def NoneCrossesEnd (nodes : List NodeSpec) (tokens : List (Token TokenKind)) : Prop :=
  ∀ node ∈ nodes, ∀ t ∈ tokens, ¬ CrossesEnd node.span t

theorem noneCrosses_root (h : Prepared root nodes) {nesting : Nesting nodes.length}
    (hupto : Upto h.intervals nodes.length nesting) (i : Fin nodes.length) :
    h.intervals.Under nesting.rootChildren i := by
  obtain ⟨r, hr, hri⟩ := h.intervals.exists_root i
  exact ⟨r, (hupto.root_mem r).mpr ⟨r.isLt, hr⟩, hri⟩

/-- The root of the tree: `Span::new` from the start of the file. -/
def rootSpan (source sourceLen : ℕ) : Span := ⟨source, 0, sourceLen, Nat.zero_le _⟩

variable {source sourceLen : ℕ}

theorem build_nodes (h : Prepared root nodes) (horder : InOrder tokens) :
    let outcome := (nest nodes).bind fun nesting =>
      buildNode nodes nesting (nodes.length + 1) .root root nesting.rootChildren tokens
    (∃ e, outcome = .error e) ∧ ¬ (h.intervals.Laminar ∧ NoneCrossesEnd nodes tokens) ∨
      ∃ tree, outcome = .ok tree ∧ (h.intervals.Laminar ∧ NoneCrossesEnd nodes tokens) ∧
        tree.tokens = tokens ∧ tree.entries = (⟨.root, root⟩, tokens) ::
          nodes.map fun node => (node, touching node.span tokens) := by
  intro outcome
  rcases nest_cases h with ⟨nesting, hnest, hupto⟩ | ⟨⟨e, he⟩, hlaminar⟩
  · have hunder := noneCrosses_root h hupto
    have hnone : NoneCrosses h nesting.rootChildren tokens ↔ NoneCrossesEnd nodes tokens := by
      constructor
      · intro hall node hnode
        obtain ⟨i, rfl⟩ := get_of_mem hnode
        exact hall i (hunder i)
      · exact fun hall i _ => hall _ (get_mem nodes i)
    have hbuilds := buildNode_builds h hupto (Nat.succ_pos nodes.length)
      (fun c _ => by omega) .root root (rootChildren_apart h hupto) horder
    have houtcome : outcome =
        buildNode nodes nesting (nodes.length + 1) .root root nesting.rootChildren tokens := by
      simp only [outcome, hnest, Except.bind]
    rcases hbuilds with ⟨⟨e, he⟩, hcross⟩ | ⟨children, hok, hdealt⟩
    · exact .inl ⟨⟨e, houtcome.trans he⟩, fun hall => hcross (hnone.mpr hall.2)⟩
    · refine .inr ⟨_, houtcome.trans hok,
        ⟨hupto.isLaminar, hnone.mp hdealt.noneCrosses⟩, ?_, ?_⟩
      · simpa [SyntaxElement.tokens] using hdealt.tokens_eq
      · have htokens : tokensOf children = tokens := by simpa using hdealt.tokens_eq
        have hall : (finRange nodes.length).filter (h.intervals.Under nesting.rootChildren) =
            finRange nodes.length := filter_eq_self.mpr fun i _ => by simpa using hunder i
        rw [SyntaxElement.entries, htokens, hdealt.entries_eq, entriesUnder, hall]
        have hget : nodes = (finRange nodes.length).map nodes.get := by
          rw [← ofFn_eq_map, ofFn_get]
        congr 1
        conv_rhs => rw [hget, map_map]
        rfl
  · refine .inl ⟨⟨e, ?_⟩, fun hall => hlaminar hall.1⟩
    simp only [outcome, he, Except.bind]

/-- When a tree is built, and what it holds: the tokens in their order, and the nodes in the order
of the sort, each with the tokens that touch it. -/
theorem build_cases (source sourceLen : ℕ) (tokens : List (Token TokenKind))
    (nodes : List NodeSpec) :
    (∃ e, build source sourceLen tokens nodes = .error e) ∧
        ¬ (TokensOk (rootSpan source sourceLen) tokens ∧
          NodesOk (rootSpan source sourceLen) nodes ∧ NoneCrossesEnd nodes tokens) ∨
      ∃ tree, build source sourceLen tokens nodes = .ok tree ∧
        (TokensOk (rootSpan source sourceLen) tokens ∧
          NodesOk (rootSpan source sourceLen) nodes ∧ NoneCrossesEnd nodes tokens) ∧
        tree.tokens = tokens ∧
        tree.entries = (⟨.root, rootSpan source sourceLen⟩, tokens) ::
          (nodes.mergeSort nodeLe).map fun node => (node, touching node.span tokens) := by
  have hroot : Span.new source 0 sourceLen = some (rootSpan source sourceLen) :=
    dif_pos (Nat.zero_le _)
  have hsorted := pairwise_mergeSort nodes
  have hperm := mergeSort_perm nodes nodeLe
  have hends : NoneCrossesEnd (nodes.mergeSort nodeLe) tokens ↔ NoneCrossesEnd nodes tokens :=
    forall_congr' fun node => imp_congr_left hperm.mem_iff
  have hnodes : NodesOk (rootSpan source sourceLen) nodes ↔
      ∃ h : Prepared (rootSpan source sourceLen) (nodes.mergeSort nodeLe), h.intervals.Laminar := by
    rw [← nodesOk_iff hsorted]
    exact ⟨fun h => h.perm hperm.symm, fun h => h.perm hperm⟩
  -- the checks in the order of the source; each failure refutes its own condition
  cases htokens : validateTokens (rootSpan source sourceLen) tokens with
  | error e =>
      refine .inl ⟨⟨e, by simp [build, hroot, htokens, bind, Except.bind]⟩, fun hall => ?_⟩
      simp [validateTokens_iff.mpr hall.1] at htokens
  | ok _ =>
      have hok := validateTokens_iff.mp htokens
      cases hcheck : validateNodes (rootSpan source sourceLen) (nodes.mergeSort nodeLe) with
      | error e =>
          refine .inl ⟨⟨e, by simp [build, hroot, htokens, hcheck, bind, Except.bind]⟩, ?_⟩
          rintro ⟨-, hall, -⟩
          obtain ⟨h, -⟩ := hnodes.mp hall
          simp [(validateNodes_iff hsorted).mpr h] at hcheck
      | ok _ =>
          have h := (validateNodes_iff hsorted).mp hcheck
          have hbuild : build source sourceLen tokens nodes =
              (nest (nodes.mergeSort nodeLe)).bind fun nesting =>
                buildNode (nodes.mergeSort nodeLe) nesting ((nodes.mergeSort nodeLe).length + 1)
                  .root (rootSpan source sourceLen) nesting.rootChildren tokens := by
            simp only [build, hroot, htokens, hcheck, Option.elim, bind, Except.bind]
          rcases build_nodes h hok.inOrder with ⟨⟨e, he⟩, hbad⟩ | ⟨tree, htree, hgood, hholds⟩
          · refine .inl ⟨⟨e, hbuild.trans he⟩, ?_⟩
            rintro ⟨-, hall, hend⟩
            obtain ⟨h', hlaminar⟩ := hnodes.mp hall
            exact hbad ⟨hlaminar, hends.mpr hend⟩
          · exact .inr ⟨tree, hbuild.trans htree,
              ⟨hok, hnodes.mpr ⟨h, hgood.1⟩, hends.mp hgood.2⟩, hholds⟩

/-! ### Tokens on the two sides of a node -/

/-- The token begins before the node and ends in it or after it. -/
def CrossesStart (node : Span) (token : Token TokenKind) : Prop :=
  token.span.start < node.start ∧ node.start < token.span.stop

/-- A token that touches the node and lies between its ends. -/
def LiesIn (node : Span) (token : Token TokenKind) : Prop :=
  Touches node token ∧ node.start ≤ token.span.start ∧ token.span.stop ≤ node.stop

instance (node : Span) : DecidablePred (@LiesIn TokenKind node) :=
  fun _ => inferInstanceAs (Decidable (_ ∧ _))

/-- A token that touches the node and does not lie in it. -/
def Straddles (node : Span) (token : Token TokenKind) : Prop :=
  Touches node token ∧ ¬ LiesIn node token

theorem straddles_iff {node : Span} (hnode : node.start < node.stop) {token : Token TokenKind} :
    Straddles node token ↔ CrossesStart node token ∨ CrossesEnd node token := by
  have htoken := token.span.ordered
  simp only [Straddles, LiesIn, Touches, CrossesStart, CrossesEnd]
  omega

/-- What the tree promises: it is built exactly for tokens in order and nodes that are nested or
apart with no token on a boundary, and holds every token once, in order, and every node once, with
exactly the tokens that lie in it. -/
structure Faithful (source sourceLen : ℕ) (tokens : List (Token TokenKind))
    (nodes : List NodeSpec) : Prop where
  built_iff : (∃ tree, build source sourceLen tokens nodes = .ok tree) ↔
    TokensOk (rootSpan source sourceLen) tokens ∧ NodesOk (rootSpan source sourceLen) nodes ∧
      ∀ node ∈ nodes, ∀ t ∈ tokens, ¬ Straddles node.span t
  holds : ∀ tree, build source sourceLen tokens nodes = .ok tree →
    tree.tokens = tokens ∧ ∃ sorted : List NodeSpec, sorted.Perm nodes ∧
      tree.entries = (⟨.root, rootSpan source sourceLen⟩, tokens) ::
        sorted.map fun node => (node, tokens.filter fun t => decide (LiesIn node.span t))

/-- The nodes and tokens are such that a tree is built, and a token begins before a node and ends
in it. -/
def AcceptsStraddling (source sourceLen : ℕ) (tokens : List (Token TokenKind))
    (nodes : List NodeSpec) : Prop :=
  TokensOk (rootSpan source sourceLen) tokens ∧ NodesOk (rootSpan source sourceLen) nodes ∧
    NoneCrossesEnd nodes tokens ∧ ∃ node ∈ nodes, ∃ t ∈ tokens, CrossesStart node.span t

theorem faithful_iff (source sourceLen : ℕ) (tokens : List (Token TokenKind))
    (nodes : List NodeSpec) :
    Faithful source sourceLen tokens nodes ↔
      ¬ AcceptsStraddling source sourceLen tokens nodes := by
  have hcases := build_cases source sourceLen tokens nodes
  constructor
  · -- a straddling token across a start only is accepted, which is unfaithful
    rintro h ⟨htokens, hnodes, hends, node, hnode, t, ht, hcross⟩
    obtain ⟨tree, htree, -⟩ := hcases.resolve_left fun hbad => hbad.2 ⟨htokens, hnodes, hends⟩
    have hno := (h.built_iff.mp ⟨tree, htree⟩).2.2 node hnode t ht
    exact hno ((straddles_iff (hnodes.nonempty node hnode)).mpr (.inl hcross))
  · intro hnot
    have hends : NodesOk (rootSpan source sourceLen) nodes →
        (∀ node ∈ nodes, ∀ t ∈ tokens, ¬ Straddles node.span t) → NoneCrossesEnd nodes tokens :=
      fun hnodes hno node hnode t ht hcross =>
        hno node hnode t ht ((straddles_iff (hnodes.nonempty node hnode)).mpr (.inr hcross))
    rcases hcases with ⟨⟨e, he⟩, hbad⟩ | ⟨tree, htree, ⟨htokens, hnodes, hend⟩, hall, hentries⟩
    · refine ⟨⟨fun ⟨tree, htree⟩ => ?_, fun h => ?_⟩, fun tree htree => ?_⟩
      · rw [he] at htree
        cases htree
      · exact absurd ⟨h.1, h.2.1, hends h.2.1 h.2.2⟩ hbad
      · rw [he] at htree
        cases htree
    · -- no token crosses a start either, so touching a node is lying in it
      have hstart : ∀ node ∈ nodes, ∀ t ∈ tokens, ¬ CrossesStart node.span t :=
        fun node hnode t ht hcross =>
          hnot ⟨htokens, hnodes, hend, node, hnode, t, ht, hcross⟩
      have hno : ∀ node ∈ nodes, ∀ t ∈ tokens, ¬ Straddles node.span t := by
        intro node hnode t ht hstraddles
        rcases (straddles_iff (hnodes.nonempty node hnode)).mp hstraddles with hcross | hcross
        · exact hstart node hnode t ht hcross
        · exact hend node hnode t ht hcross
      refine ⟨⟨fun _ => ⟨htokens, hnodes, hno⟩, fun _ => ⟨tree, htree⟩⟩, fun tree' htree' => ?_⟩
      obtain rfl : tree = tree' := Except.ok.inj (htree.symm.trans htree')
      refine ⟨hall, nodes.mergeSort nodeLe, mergeSort_perm nodes nodeLe, ?_⟩
      rw [hentries]
      congr 1
      refine map_congr_left fun node hnode => ?_
      have hnode' := (mergeSort_perm nodes nodeLe).mem_iff.mp hnode
      refine congrArg (Prod.mk node) (filter_congr fun t ht => ?_)
      refine decide_eq_decide.mpr ⟨fun htouch => ?_, fun hin => hin.1⟩
      by_contra hin
      exact hno node hnode' t ht ⟨htouch, hin⟩

/-- A word from 0 to 6 with a node from 2 to 6: the whole word is put into the node. -/
theorem straddling_word_accepted :
    let word : Token Unit := ⟨(), ⟨0, 0, 6, by decide⟩⟩
    let node : NodeSpec := ⟨.block, ⟨0, 2, 6, by decide⟩⟩
    build 0 6 [word] [node] =
        .ok (.node .root (rootSpan 0 6) [.node .block node.span [.token word]]) ∧
      ¬ Faithful 0 6 [word] [node] := by
  intro word node
  have hbuilt : build 0 6 [word] [node] =
      .ok (.node .root (rootSpan 0 6) [.node .block node.span [.token word]]) := by
    unfold build
    rw [mergeSort_singleton]
    rfl
  refine ⟨hbuilt, fun h => ?_⟩
  -- by the claim the word lies on the boundary of the node
  have hno := (h.built_iff.mp ⟨_, hbuilt⟩).2.2 node mem_cons_self word mem_cons_self
  exact hno ((straddles_iff (by decide)).mpr (.inl ⟨by decide, by decide⟩))

end Jadren.Syntax
