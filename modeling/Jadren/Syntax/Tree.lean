import Mathlib.Data.List.FinRange

/-!
# Building the syntax tree

The parser hands over the tokens of a file and the spans of the grammar nodes, in any order.  The
tree is built in two passes: the sorted spans are nested with a stack, which gives every node the
list of its direct children, and then the tokens are dealt out to the nodes, child by child.
-/

namespace Jadren.Syntax

/-- Half-open range of bytes of one source file.  `Span::new` gives only ordered ranges. -/
structure Span where
  source : ℕ
  start : ℕ
  stop : ℕ
  ordered : start ≤ stop
  deriving DecidableEq

def Span.new (source start stop : ℕ) : Option Span :=
  if h : start ≤ stop then some ⟨source, start, stop, h⟩ else none

def Span.isEmpty (span : Span) : Bool := span.start == span.stop

inductive SyntaxKind where
  | root | moduleDeclaration | importDeclaration | annotation | functionDeclaration | externBlock
  | externFunctionDeclaration | structDeclaration | componentDeclaration | enumDeclaration
  | genericParameterList | genericParameter | parameterList | parameter | pathType | arrayType
  | capabilityType | functionType | fieldDeclaration | enumVariant | enumVariantField | block
  | bindingStatement | returnStatement | regionStatement | whileStatement | forStatement
  | breakStatement | continueStatement | nameExpression | literalExpression | unaryExpression
  | binaryExpression | callExpression | fieldExpression | indexExpression | tryExpression
  | castExpression | arrayExpression | structExpression | structFieldInitializer | groupExpression
  | blockExpression | ifExpression | matchExpression | matchArm | wildcardPattern | pathPattern
  | constructorPattern | literalPattern | error
  deriving DecidableEq

structure NodeSpec where
  kind : SyntaxKind
  span : Span
  deriving DecidableEq

/-- A token of the lexer, of which the tree only reads the span. -/
structure Token (TokenKind : Type) where
  kind : TokenKind
  span : Span

/-- A child of a node: a node of its own, or a token. -/
inductive SyntaxElement (TokenKind : Type) where
  | node (kind : SyntaxKind) (span : Span) (children : List (SyntaxElement TokenKind))
  | token (token : Token TokenKind)

/-- `tooDeep` is not an error of the source: it marks the end of the bound on the depth, which is
never reached. -/
inductive SyntaxBuildError where
  | invalidRootSpan
  | tokenOutsideRoot (token : Span)
  | overlappingTokens (previous current : Span)
  | nodeOutsideRoot (node : Span)
  | duplicateNodeSpan (node : Span)
  | crossingNodes (left right : Span)
  | tokenCrossesNode (token node : Span)
  | tooDeep

def strictlyContains (parent child : Span) : Bool :=
  parent.source == child.source && parent.start ≤ child.start && child.stop ≤ parent.stop &&
    (parent.start < child.start || child.stop < parent.stop)

def spansOverlap (left right : Span) : Bool :=
  left.source == right.source && left.start < right.stop && right.start < left.stop

def syntaxKindOrder (kind : SyntaxKind) : ℕ := kind.ctorIdx

variable {TokenKind : Type}

/-! ### Checks -/

def validateTokensFrom (root : Span) :
    Option Span → List (Token TokenKind) → Except SyntaxBuildError Unit
  | _, [] => .ok ()
  | previous, token :: rest =>
    if token.span.source ≠ root.source ∨ token.span.start < root.start ∨
        token.span.stop > root.stop then
      .error (.tokenOutsideRoot token.span)
    else
      match previous with
      | some previous =>
        if previous.stop > token.span.start then
          .error (.overlappingTokens previous token.span)
        else validateTokensFrom root (some token.span) rest
      | none => validateTokensFrom root (some token.span) rest

def validateTokens (root : Span) (tokens : List (Token TokenKind)) :
    Except SyntaxBuildError Unit :=
  validateTokensFrom root none tokens

/-- The order of the sort: by start, the longer of two nodes with one start first. -/
def nodeLe (left right : NodeSpec) : Bool :=
  left.span.start < right.span.start ||
    left.span.start == right.span.start &&
      (right.span.stop < left.span.stop ||
        right.span.stop == left.span.stop &&
          syntaxKindOrder left.kind ≤ syntaxKindOrder right.kind)

def validateNodes (root : Span) : List NodeSpec → Except SyntaxBuildError Unit
  | [] => .ok ()
  | node :: rest =>
    if node.span.source ≠ root.source ∨ node.span.isEmpty ∨ node.span.start < root.start ∨
        node.span.stop > root.stop then
      .error (.nodeOutsideRoot node.span)
    else if rest.head?.any (fun next => next.span = node.span) then
      .error (.duplicateNodeSpan node.span)
    else validateNodes root rest

/-! ### Nesting -/

/-- Who contains whom, by the indices of the sorted nodes.  The top of the stack comes first. -/
structure Nesting (n : ℕ) where
  stack : List (Fin n)
  directChildren : Fin n → List (Fin n)
  rootChildren : List (Fin n)

def Nesting.empty (n : ℕ) : Nesting n := ⟨[], fun _ => [], []⟩

section Nodes

variable (nodes : List NodeSpec)

def spanAt (index : Fin nodes.length) : Span := (nodes.get index).span

/-- The stack without the nodes that end before the next one. -/
def popStack (index : Fin nodes.length) :
    List (Fin nodes.length) → Except SyntaxBuildError (List (Fin nodes.length))
  | [] => .ok []
  | parent :: rest =>
    if strictlyContains (spanAt nodes parent) (spanAt nodes index) then .ok (parent :: rest)
    else if spansOverlap (spanAt nodes parent) (spanAt nodes index) then
      .error (.crossingNodes (spanAt nodes parent) (spanAt nodes index))
    else popStack index rest

/-- The node becomes the last child of the node on top of the stack, or of the root. -/
def Nesting.push {n : ℕ} (nesting : Nesting n) (index : Fin n) (stack : List (Fin n)) :
    Nesting n :=
  match stack with
  | parent :: _ =>
    { nesting with
      stack := index :: stack
      directChildren := Function.update nesting.directChildren parent
        (nesting.directChildren parent ++ [index]) }
  | [] =>
    { nesting with stack := [index], rootChildren := nesting.rootChildren ++ [index] }

def nestStep (nesting : Nesting nodes.length) (index : Fin nodes.length) :
    Except SyntaxBuildError (Nesting nodes.length) := do
  let stack ← popStack nodes index nesting.stack
  pure (nesting.push index stack)

def nest : Except SyntaxBuildError (Nesting nodes.length) :=
  (List.finRange nodes.length).foldlM (nestStep nodes) (Nesting.empty nodes.length)

/-! ### Dealing out the tokens -/

/-- The tokens that begin before the end of a node, which must not end after it, and the rest. -/
def childTokens (node : Span) :
    List (Token TokenKind) →
      Except SyntaxBuildError (List (Token TokenKind) × List (Token TokenKind))
  | [] => .ok ([], [])
  | token :: rest =>
    if token.span.start < node.stop then
      if token.span.stop > node.stop then .error (.tokenCrossesNode token.span node)
      else do
        let (own, rest) ← childTokens node rest
        pure (token :: own, rest)
    else .ok ([], token :: rest)

/-- One turn of the loop over the children: the tokens that end before the child, and the child
with its tokens. -/
def attachChild (build : Fin nodes.length → List (Token TokenKind) →
      Except SyntaxBuildError (SyntaxElement TokenKind))
    (state : List (SyntaxElement TokenKind) × List (Token TokenKind)) (child : Fin nodes.length) :
    Except SyntaxBuildError (List (SyntaxElement TokenKind) × List (Token TokenKind)) := do
  let ends := fun token : Token TokenKind => decide (token.span.stop ≤ (spanAt nodes child).start)
  let (own, rest) ← childTokens (spanAt nodes child) (state.2.dropWhile ends)
  let node ← build child own
  pure (state.1 ++ (state.2.takeWhile ends).map .token ++ [node], rest)

/-- Builds a node with the given children from its tokens. -/
def buildNode (nesting : Nesting nodes.length) :
    ℕ → SyntaxKind → Span → List (Fin nodes.length) → List (Token TokenKind) →
      Except SyntaxBuildError (SyntaxElement TokenKind)
  | 0, _, _, _, _ => .error .tooDeep
  | depth + 1, kind, span, childIndices, tokens => do
    let build := fun child own =>
      buildNode nesting depth (nodes.get child).kind (nodes.get child).span
        (nesting.directChildren child) own
    let (children, rest) ← childIndices.foldlM (attachChild nodes build) ([], tokens)
    pure (.node kind span (children ++ rest.map .token))

end Nodes

/-- `SyntaxTree::build`, which gives the root of the tree. -/
def build (source sourceLen : ℕ) (tokens : List (Token TokenKind)) (nodes : List NodeSpec) :
    Except SyntaxBuildError (SyntaxElement TokenKind) := do
  let rootSpan ← (Span.new source 0 sourceLen).elim (.error .invalidRootSpan) .ok
  validateTokens rootSpan tokens
  let nodes := nodes.mergeSort nodeLe
  validateNodes rootSpan nodes
  let nesting ← nest nodes
  buildNode nodes nesting (nodes.length + 1) .root rootSpan nesting.rootChildren tokens

end Jadren.Syntax
