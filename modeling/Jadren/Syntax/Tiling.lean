import Jadren.Syntax.Lexer

/-!
# The tokens tile the text

Every step of the lexer starts and ends between two characters and ends behind its start, so no
slice fails, the lexer comes to the end of every text, and its tokens lie one behind the other.

The lexer only checks a literal; a later phase decodes it.  What holds them together is `Logical`:
a literal that is closed and has no invalid escape has a body that reads as a list of characters,
and `decodeQuoted` reads the same list.
-/

namespace Jadren.Syntax

open Text (isWhitespace)
open Utf8 List

/-- The range lies in another. -/
def Span.Within (inner outer : Span) : Prop :=
  inner.source = outer.source ∧ outer.start ≤ inner.start ∧ inner.stop ≤ outer.stop

theorem Span.within_refl (span : Span) : span.Within span := ⟨rfl, le_rfl, le_rfl⟩

/-- The tokens lie one behind the other from the position to the end of the text. -/
inductive TilesFrom (source : ℕ) (text : List Char) : ℕ → List (Token TokenKind) → Prop
  | eof : TilesFrom source text (byteLen text) [⟨.eof, Span.empty source (byteLen text)⟩]
  | token {token : Token TokenKind} {rest : List (Token TokenKind)} (kind : token.kind ≠ .eof)
      (inSource : token.span.source = source) (nonempty : token.span.start < token.span.stop)
      (start : OnBoundary text token.span.start) (stop : OnBoundary text token.span.stop)
      (tiles : TilesFrom source text token.span.stop rest) :
      TilesFrom source text token.span.start (token :: rest)

/-- The body of a literal with this quote reads as these characters. -/
inductive Logical (quote : Char) : List Char → List Char → Prop
  | nil : Logical quote [] []
  | plain {c : Char} {body chars : List Char} (notQuote : c ≠ quote) (notEscape : c ≠ '\\')
      (sameLine : c ≠ '\r' ∧ c ≠ '\n') (rest : Logical quote body chars) :
      Logical quote (c :: body) (c :: chars)
  | escaped {e c : Char} {body chars : List Char} (escape : unescape e = some c)
      (rest : Logical quote body chars) : Logical quote ('\\' :: e :: body) (c :: chars)

/-- The quote around the literals of a category. -/
def TokenKind.quote : TokenKind → Option Char
  | .stringLiteral => some '"'
  | .charLiteral => some '\''
  | _ => none

namespace Lexer

variable {source : ℕ} {text rest : List Char} {c : Char} {p q r start fuel : ℕ}
  {test : Char → Bool}

/-! ## Forward steps -/

/-- From one position to another behind it, between two characters. -/
def Forward (text : List Char) (p q : ℕ) : Prop := p ≤ q ∧ ∃ rest, dropBytes text q = some rest

theorem Forward.refl (h : dropBytes text p = some rest) : Forward text p p := ⟨le_rfl, rest, h⟩

theorem Forward.trans (h : Forward text p q) (h' : Forward text q r) : Forward text p r :=
  ⟨h.1.trans h'.1, h'.2⟩

theorem forward_cons (h : dropBytes text p = some (c :: rest)) :
    Forward text p (p + c.utf8Size) :=
  ⟨Nat.le_add_right .., rest, dropBytes_cons h⟩

variable (h : dropBytes text p = some rest)
include h

theorem peekChar_eq : peekChar text p = some rest.head? := by
  unfold peekChar remaining
  rw [h]
  rfl

omit h

theorem startsWith_eq (symbol : List Char) (h : dropBytes text p = some rest) :
    startsWith text symbol p = some (symbol.isPrefixOf rest) := by
  unfold startsWith remaining
  rw [h]
  rfl

include h

theorem peekSecondChar_eq :
    peekSecondChar text p = some rest.tail.head? := by
  unfold peekSecondChar remaining
  rw [h]
  rfl

omit h

theorem advanceChar_cons (h : dropBytes text p = some (c :: rest)) :
    advanceChar text p = some (p + c.utf8Size) := by
  unfold advanceChar
  rw [peekChar_eq h]
  rfl

include h

theorem exists_advanceChar :
    ∃ q, advanceChar text p = some q ∧ Forward text p q := by
  cases rest with
  | nil =>
      refine ⟨p, ?_, .refl h⟩
      unfold advanceChar
      rw [peekChar_eq h]
      rfl
  | cons => exact ⟨_, advanceChar_cons h, forward_cons h⟩

theorem length_le_of_dropBytes : rest.length ≤ text.length := by
  obtain ⟨read, rfl, -⟩ := dropBytes_eq_some.mp h
  rw [length_append]
  exact Nat.le_add_left ..

omit h

theorem exists_advanceWhile (test : Char → Bool) (h : dropBytes text p = some rest)
    (hfuel : rest.length < fuel) :
    ∃ q, advanceWhile text test fuel p = some q ∧ Forward text p q := by
  induction fuel generalizing p rest with
  | zero => exact absurd hfuel (Nat.not_lt_zero _)
  | succ fuel ih =>
      unfold advanceWhile
      rw [peekChar_eq h]
      cases rest with
      | nil => exact ⟨p, rfl, .refl h⟩
      | cons c =>
          by_cases hc : test c = true
          · obtain ⟨q, hrun, hforward⟩ := ih (dropBytes_cons h) (Nat.lt_of_succ_lt_succ hfuel)
            refine ⟨q, ?_, (forward_cons h).trans hforward⟩
            simpa [hc, advanceChar_cons h] using hrun
          · exact ⟨p, by simp [hc], .refl h⟩

theorem exists_skipWhile (test : Char → Bool) (h : dropBytes text p = some rest) :
    ∃ q, skipWhile text test p = some q ∧ Forward text p q :=
  exists_advanceWhile test h (Nat.lt_succ_of_le (length_le_of_dropBytes h))

/-- A character that satisfies the test is skipped. -/
theorem exists_skipWhile_cons (test : Char → Bool) (hc : test c = true)
    (h : dropBytes text p = some (c :: rest)) :
    ∃ q, skipWhile text test p = some q ∧ Forward text p q ∧ p < q := by
  have hnext := dropBytes_cons h
  obtain ⟨q, hrun, hforward⟩ := exists_advanceWhile test hnext
    (Nat.lt_of_succ_le (length_le_of_dropBytes h))
  refine ⟨q, ?_, (forward_cons h).trans hforward, ?_⟩
  · unfold skipWhile advanceWhile
    rw [peekChar_eq h]
    simpa [hc, advanceChar_cons h] using hrun
  · exact Nat.lt_of_lt_of_le (Nat.lt_add_of_pos_right c.utf8Size_pos) hforward.1

include h

theorem forward_of_prefix {symbol : List Char}
    (hstarts : symbol.isPrefixOf rest = true) : ∃ rest', rest = symbol ++ rest' ∧
      dropBytes text (p + byteLen symbol) = some rest' := by
  obtain ⟨rest', rfl⟩ := isPrefixOf_iff_prefix.mp hstarts
  exact ⟨rest', rfl, dropBytes_add h⟩

theorem exists_slice (hforward : Forward text p q) :
    ∃ literal, Utf8.slice text p q = some literal := by
  obtain ⟨hle, rest', hrest'⟩ := hforward
  obtain ⟨read, rfl, rfl⟩ := exists_read h hrest' hle
  exact ⟨read, slice_of_dropBytes h⟩

omit h

theorem exists_blockCommentLoop (depth : ℕ) (h : dropBytes text p = some rest)
    (hfuel : rest.length < fuel) :
    ∃ q closed, blockCommentLoop text fuel depth p = some (q, closed) ∧ Forward text p q := by
  induction fuel generalizing p rest depth with
  | zero => exact absurd hfuel (Nat.not_lt_zero _)
  | succ fuel ih =>
      unfold blockCommentLoop
      split
      next hlt =>
        rw [startsWith_eq _ h, startsWith_eq _ h]
        by_cases hopen : ['/', '*'].isPrefixOf rest = true
        · obtain ⟨rest', rfl, hdrop⟩ := forward_of_prefix h hopen
          replace hdrop : dropBytes text (p + 2) = some rest' := hdrop
          obtain ⟨q, closed, hrun, hforward⟩ := ih (min (depth + 1) (2 ^ 32 - 1)) hdrop
            (by simp only [length_append, length_cons] at hfuel; omega)
          refine ⟨q, closed, ?_, Forward.trans ⟨Nat.le_add_right .., rest', hdrop⟩ hforward⟩
          simpa [hopen] using hrun
        · by_cases hclose : ['*', '/'].isPrefixOf rest = true
          · obtain ⟨rest', rfl, hdrop⟩ := forward_of_prefix h hclose
            replace hdrop : dropBytes text (p + 2) = some rest' := hdrop
            have hstep : Forward text p (p + 2) := ⟨Nat.le_add_right .., rest', hdrop⟩
            by_cases hdepth : depth - 1 = 0
            · exact ⟨p + 2, true, by simp [hdepth], hstep⟩
            · obtain ⟨q, closed, hrun, hforward⟩ := ih (depth - 1) hdrop
                (by simp only [length_append, length_cons] at hfuel; omega)
              refine ⟨q, closed, ?_, hstep.trans hforward⟩
              simpa [hopen, hclose, hdepth] using hrun
          · cases rest with
            | nil =>
                -- the position is before the end, so something is left
                have hlen := byteLen_of_dropBytes h
                rw [byteLen_nil] at hlen
                omega
            | cons =>
                obtain ⟨q, closed, hrun, hforward⟩ := ih depth (dropBytes_cons h)
                  (Nat.lt_of_succ_lt_succ hfuel)
                refine ⟨q, closed, ?_, (forward_cons h).trans hforward⟩
                simpa [hopen, hclose, advanceChar_cons h] using hrun
      next => exact ⟨p, false, rfl, .refl h⟩

/-! ## Literals -/

/-- What the loop of `lex_quoted` has found, when it started before this rest of the text. -/
structure Reads (source : ℕ) (text : List Char) (quote : Char) (rest : List Char)
    (found found' : Quoted) (new : List Diagnostic) : Prop where
  forward : Forward text found.position found'.position
  diagnostics : found'.diagnostics = found.diagnostics ++ new
  within : ∀ d ∈ new, d.span.source = source ∧ found.position ≤ d.span.start ∧
    d.span.stop ≤ found'.position
  logical : found'.closed = true → new = [] → ∃ body chars rest', rest = body ++ quote :: rest' ∧
    Logical quote body chars ∧
    found'.position = found.position + byteLen body + quote.utf8Size ∧
    found'.logicalCharacters = found.logicalCharacters + chars.length

theorem span_eq (h : p ≤ q) : span source p q = ⟨source, p, q, h⟩ := by
  unfold span Span.new
  rw [dif_pos h]
  rfl

theorem exists_unescape {c : Char} (h : isEscape c = true) : ∃ d, unescape c = some d := by
  simp only [isEscape, Bool.or_eq_true, beq_iff_eq] at h
  obtain (((((rfl | rfl) | rfl) | rfl) | rfl) | rfl) | rfl := h <;> exact ⟨_, rfl⟩

theorem Reads.behind {quote : Char} {rest' : List Char} {found' found'' : Quoted}
    {ds new : List Diagnostic} (h : Reads source text quote rest' found' found'' new)
    (found : Quoted) (read : List Char) (hrest : rest = read ++ rest')
    (hposition : found'.position = found.position + byteLen read)
    (hds : found'.diagnostics = found.diagnostics ++ ds)
    (hwithin : ∀ d ∈ ds, d.span.source = source ∧ found.position ≤ d.span.start ∧
      d.span.stop ≤ found'.position)
    (hlogical : ds = [] → ∀ body chars, Logical quote body chars →
      ∃ c, Logical quote (read ++ body) (c :: chars) ∧
        found'.logicalCharacters = found.logicalCharacters + 1) :
    Reads source text quote rest found found'' (ds ++ new) where
  forward := ⟨by have := h.forward.1; omega, h.forward.2⟩
  diagnostics := by rw [h.diagnostics, hds, append_assoc]
  within d hd := by
    obtain hd | hd := mem_append.mp hd
    · obtain ⟨hsource, hstart, hstop⟩ := hwithin d hd
      exact ⟨hsource, hstart, hstop.trans h.forward.1⟩
    · obtain ⟨hsource, hstart, hstop⟩ := h.within d hd
      exact ⟨hsource, by omega, hstop⟩
  logical hclosed hnone := by
    obtain ⟨hds, hnew⟩ := append_eq_nil_iff.mp hnone
    obtain ⟨body, chars, rest'', hbody, hread, hstop, hcount⟩ := h.logical hclosed hnew
    obtain ⟨c, hread', hcount'⟩ := hlogical hds body chars hread
    refine ⟨read ++ body, c :: chars, rest'', by rw [hrest, hbody, append_assoc], hread', ?_, ?_⟩
    · rw [hstop, hposition, byteLen_append]
      omega
    · rw [hcount, hcount', length_cons]
      omega

theorem exists_quotedLoop (source : ℕ) (quote : Char) {found : Quoted}
    (hopen : found.closed = false)
    (h : dropBytes text found.position = some rest) (hfuel : rest.length < fuel) :
    ∃ found' new, quotedLoop source text quote fuel found = some found' ∧
      Reads source text quote rest found found' new := by
  induction fuel generalizing found rest with
  | zero => exact absurd hfuel (Nat.not_lt_zero _)
  | succ fuel ih =>
      -- the loop ends here without a closing quote
      have hstop : Reads source text quote rest found found [] :=
        ⟨.refl h, (append_nil _).symm, nofun, fun hclosed =>
          absurd (hopen.symm.trans hclosed) Bool.false_ne_true⟩
      unfold quotedLoop
      rw [peekChar_eq h]
      cases rest with
      | nil => exact ⟨found, [], rfl, hstop⟩
      | cons c rest =>
          by_cases hquote : c = quote
          · subst hquote
            refine ⟨{ found with position := found.position + c.utf8Size, closed := true }, [],
              by simp [advanceChar_cons h], ⟨forward_cons h, (append_nil _).symm, nofun,
                fun _ _ => ⟨[], [], rest, rfl, .nil, rfl, rfl⟩⟩⟩
          by_cases hline : c = '\r' ∨ c = '\n'
          · exact ⟨found, [], by simp [hquote, hline], hstop⟩
          have hnext := dropBytes_cons h
          by_cases hescape : c = '\\'
          · subst hescape
            cases rest with
            | nil =>
                refine ⟨{ found with position := found.position + ('\\').utf8Size }, [],
                  by simp [hquote, advanceChar_cons h, peekChar_eq hnext], ⟨forward_cons h,
                    (append_nil _).symm, nofun, fun hclosed =>
                      absurd (hopen.symm.trans hclosed) Bool.false_ne_true⟩⟩
            | cons e rest =>
                have hfuel' : rest.length < fuel := by
                  simp only [length_cons] at hfuel
                  omega
                have hnext' := dropBytes_cons hnext
                by_cases hvalid : isEscape e = true
                · let found' := { found with
                    position := found.position + ('\\').utf8Size + e.utf8Size
                    logicalCharacters := found.logicalCharacters + 1 }
                  have hopen' : found'.closed = false := hopen
                  obtain ⟨found'', new, hrun, hreads⟩ := ih hopen' hnext' hfuel'
                  refine ⟨found'', new, ?_, hreads.behind found ['\\', e] rfl ?_
                    (append_nil _).symm nofun fun _ body chars hbody => ?_⟩
                  · simpa [hquote, advanceChar_cons h, peekChar_eq hnext, advanceChar_cons hnext,
                      hvalid] using hrun
                  · simp [found', Nat.add_assoc]
                  · obtain ⟨d, hd⟩ := exists_unescape hvalid
                    exact ⟨d, .escaped hd hbody, rfl⟩
                · let stop := found.position + ('\\').utf8Size + e.utf8Size
                  let d := invalidEscape e (span source found.position stop)
                  let found' := { found with
                    position := stop, diagnostics := found.diagnostics ++ [d] }
                  have hopen' : found'.closed = false := hopen
                  obtain ⟨found'', new, hrun, hreads⟩ := ih hopen' hnext' hfuel'
                  have hspan : d.span = ⟨source, found.position, stop, by omega⟩ :=
                    span_eq (by omega)
                  refine ⟨found'', [d] ++ new, ?_, hreads.behind found ['\\', e] rfl ?_ rfl
                    (forall_mem_singleton.mpr ?_) nofun⟩
                  · simpa [hquote, advanceChar_cons h, peekChar_eq hnext, advanceChar_cons hnext,
                      hvalid] using hrun
                  · simp [found', stop, Nat.add_assoc]
                  · rw [hspan]
                    exact ⟨rfl, le_rfl, le_rfl⟩
          · let found' := { found with
              position := found.position + c.utf8Size
              logicalCharacters := found.logicalCharacters + 1 }
            have hopen' : found'.closed = false := hopen
            obtain ⟨found'', new, hrun, hreads⟩ := ih hopen' hnext
              (Nat.lt_of_succ_lt_succ hfuel)
            refine ⟨found'', new, ?_, hreads.behind found [c] rfl ?_ (append_nil _).symm
              nofun fun _ body chars hbody => ⟨c, .plain hquote hescape (not_or.mp hline) hbody,
                rfl⟩⟩
            · simpa [hquote, hline, hescape, advanceChar_cons h] using hrun
            · simp [found']

/-- A closed literal that reads as characters, one character between single quotes. -/
def Literal (text : List Char) (quote : Char) (start stop : ℕ) : Prop :=
  ∃ body chars, Utf8.slice text start stop = some (quote :: body ++ [quote]) ∧
    Logical quote body chars ∧ (quote = '\'' → chars.length = 1)

/-! ## One token -/

/-- The lexer past a token of this category with these diagnostics. -/
structure Pushed (source : ℕ) (text : List Char) (lexer lexer' : Lexer) (kind : TokenKind)
    (diagnostics : List Diagnostic) : Prop where
  eq : lexer' = lexer.pushWith source kind lexer.position lexer'.position diagnostics
  forward : Forward text lexer.position lexer'.position
  nonempty : lexer.position < lexer'.position
  not_eof : kind ≠ .eof
  within : ∀ d ∈ diagnostics, d.span.Within (span source lexer.position lexer'.position)
  literal : ∀ quote, kind.quote = some quote → diagnostics = [] →
    Literal text quote lexer.position lexer'.position

variable {lexer : Lexer}

/-- A token that is not a literal, with at most diagnostics about the whole token. -/
theorem pushed_of_forward {kind : TokenKind} {ds : List Diagnostic}
    (hforward : Forward text lexer.position q) (hlt : lexer.position < q) (heof : kind ≠ .eof)
    (hquote : kind.quote = none) (hds : ∀ d ∈ ds, d.span = span source lexer.position q) :
    Pushed source text lexer (lexer.pushWith source kind lexer.position q ds) kind ds where
  eq := rfl
  forward := hforward
  nonempty := hlt
  not_eof := heof
  within d hd := (hds d hd).symm ▸ d.span.within_refl
  literal quote h := absurd (hquote.symm.trans h) (by simp)

/-- What one round of the lexer does. -/
def Steps (source : ℕ) (text : List Char) (lexer : Lexer) (result : Option Lexer) : Prop :=
  ∃ lexer' kind ds, result = some lexer' ∧ Pushed source text lexer lexer' kind ds

theorem steps_push {kind : TokenKind} (hforward : Forward text lexer.position q)
    (hlt : lexer.position < q) (heof : kind ≠ .eof) (hquote : kind.quote = none) :
    Steps source text lexer (some (lexer.push source kind lexer.position q)) :=
  ⟨_, kind, [], rfl, pushed_of_forward hforward hlt heof hquote nofun⟩

theorem steps_lexLineComment (h : dropBytes text lexer.position = some rest)
    (hstarts : ['/', '/'].isPrefixOf rest = true) :
    Steps source text lexer (lexLineComment source text lexer lexer.position) := by
  obtain ⟨rest', -, hdrop⟩ := forward_of_prefix h hstarts
  replace hdrop : dropBytes text (lexer.position + 2) = some rest' := hdrop
  obtain ⟨q, hskip, hforward⟩ := exists_skipWhile (fun c => !(c == '\r' || c == '\n')) hdrop
  have hlt : lexer.position < q := Nat.lt_of_lt_of_le (Nat.lt_add_of_pos_right two_pos) hforward.1
  unfold lexLineComment
  rw [startsWith_eq _ h, Option.bind_eq_bind, Option.bind_some, hskip]
  exact steps_push ⟨hlt.le, hforward.2⟩ hlt (by split <;> decide) (by split <;> rfl)

theorem steps_lexBlockComment (h : dropBytes text lexer.position = some rest)
    (hstarts : ['/', '*'].isPrefixOf rest = true) :
    Steps source text lexer (lexBlockComment source text lexer lexer.position) := by
  obtain ⟨rest', -, hdrop⟩ := forward_of_prefix h hstarts
  replace hdrop : dropBytes text (lexer.position + 2) = some rest' := hdrop
  obtain ⟨q, closed, hloop, hforward⟩ := exists_blockCommentLoop 1 hdrop
    (Nat.lt_succ_of_le (length_le_of_dropBytes hdrop))
  have hlt : lexer.position < q := Nat.lt_of_lt_of_le (Nat.lt_add_of_pos_right two_pos) hforward.1
  unfold lexBlockComment
  rw [startsWith_eq _ h, startsWith_eq _ h, Option.bind_eq_bind, Option.bind_some,
    Option.bind_eq_bind, Option.bind_some, hloop]
  refine ⟨_, _, _, rfl, pushed_of_forward ⟨hlt.le, hforward.2⟩ hlt (by split <;> decide)
    (by split <;> rfl) fun d hd => ?_⟩
  split at hd
  · cases hd
  · rw [mem_singleton.mp hd]
    rfl

theorem steps_lexQuoted {quote : Char} {kind : TokenKind} (hkind : kind.quote = some quote)
    (h : dropBytes text lexer.position = some (quote :: rest)) :
    Steps source text lexer (lexQuoted source text lexer lexer.position quote kind) := by
  have hnext := dropBytes_cons h
  let start : Quoted := ⟨lexer.position + quote.utf8Size, 0, false, []⟩
  have hopen : start.closed = false := rfl
  obtain ⟨found, new, hloop, hreads⟩ := exists_quotedLoop source quote hopen hnext
    (Nat.lt_succ_of_le (length_le_of_dropBytes hnext))
  have hforward : Forward text lexer.position found.position :=
    (forward_cons h).trans hreads.forward
  have hlt : lexer.position < found.position :=
    Nat.lt_of_lt_of_le (Nat.lt_add_of_pos_right quote.utf8Size_pos) hreads.forward.1
  unfold lexQuoted
  rw [advanceChar_cons h, Option.bind_eq_bind, Option.bind_some, hloop]
  refine ⟨_, _, _, rfl, rfl, hforward, hlt, ?_, fun d hd => ?_, fun quote' hquote hds => ?_⟩
  · rintro rfl
    cases hkind
  · show d.span.Within (span source lexer.position found.position)
    obtain hd | hd := mem_append.mp hd
    · rw [hreads.diagnostics] at hd
      obtain ⟨hsource, hstart, hstop⟩ := hreads.within d hd
      rw [span_eq hlt.le]
      exact ⟨hsource, (Nat.le_add_right ..).trans hstart, hstop⟩
    · -- the diagnostics behind the loop are about the whole token
      have hwhole : d.span = span source lexer.position found.position := by
        split at hd
        · rw [mem_singleton.mp hd]
          rfl
        · split at hd
          · rw [mem_singleton.mp hd]
            rfl
          · cases hd
      rw [hwhole]
      exact Span.within_refl _
  · obtain rfl : quote = quote' := Option.some.inj (hkind.symm.trans hquote)
    obtain ⟨hnew, hbehind⟩ := append_eq_nil_iff.mp hds
    rw [hreads.diagnostics] at hnew
    -- no diagnostic: the quote was closed, and a character literal holds one
    have hclosed : found.closed = true := by
      by_contra hopen
      simp [Bool.eq_false_iff.mpr hopen] at hbehind
    have hcount : quote = '\'' → found.logicalCharacters = 1 := fun hsingle => by
      by_contra hne
      simp [hclosed, hsingle, hne] at hbehind
    obtain ⟨body, chars, rest', hrest, hread, hstop, hlogical⟩ := hreads.logical hclosed hnew
    refine ⟨body, chars, ?_, hread, fun hsingle => ?_⟩
    · have hliteral : dropBytes text lexer.position =
          some ((quote :: body ++ [quote]) ++ rest') := by
        rw [h, hrest]
        simp
      have hlen : byteLen (quote :: body ++ [quote]) =
          quote.utf8Size + byteLen body + quote.utf8Size := by simp [Nat.add_assoc]
      have hposition : found.position = lexer.position + byteLen (quote :: body ++ [quote]) := by
        rw [hstop, hlen]
        show lexer.position + quote.utf8Size + _ + _ = _
        omega
      rw [hposition]
      exact slice_of_dropBytes hliteral
    · have hone := hcount hsingle
      rw [hlogical] at hone
      simpa [start] using hone

theorem steps_lexIdentifier (h : dropBytes text lexer.position = some (c :: rest)) :
    Steps source text lexer (lexIdentifier source text lexer lexer.position) := by
  obtain ⟨q, hskip, hforward⟩ := exists_skipWhile (fun c => c.isAlphanum || c == '_')
    (dropBytes_cons h)
  have hlt : lexer.position < q :=
    Nat.lt_of_lt_of_le (Nat.lt_add_of_pos_right c.utf8Size_pos) hforward.1
  obtain ⟨name, hname⟩ := exists_slice h ⟨hlt.le, hforward.2⟩
  unfold lexIdentifier
  rw [advanceChar_cons h, Option.bind_eq_bind, Option.bind_some, hskip, Option.bind_eq_bind,
    Option.bind_some, hname]
  refine steps_push ⟨hlt.le, hforward.2⟩ hlt ?_ ?_
  · cases Keyword.fromIdentifier name <;> nofun
  · cases Keyword.fromIdentifier name <;> rfl

include h

theorem exists_lexFraction :
    ∃ q found, lexFraction text p = some (q, found) ∧ Forward text p q := by
  unfold lexFraction
  rw [peekChar_eq h, startsWith_eq _ h, peekSecondChar_eq h]
  by_cases hpoint : rest.head? = some '.' ∧ ['.', '.'].isPrefixOf rest = false ∧
      rest.tail.head?.any Char.isDigit
  · obtain ⟨q, hadvance, hforward⟩ := exists_advanceChar h
    obtain ⟨rest', hrest'⟩ := hforward.2
    obtain ⟨r, hskip, hforward'⟩ := exists_skipWhile (fun c => c.isDigit || c == '_') hrest'
    refine ⟨r, true, ?_, hforward.trans hforward'⟩
    simp only [Option.bind_eq_bind, Option.bind_some, if_pos hpoint, hadvance]
    unfold consumeDigitsAndUnderscores
    rw [hskip]
    rfl
  · refine ⟨p, false, ?_, .refl h⟩
    simp only [Option.bind_eq_bind, Option.bind_some, if_neg hpoint]
    rfl

theorem exists_lexExponent :
    ∃ q found, lexExponent text p = some (q, found) ∧ Forward text p q := by
  unfold lexExponent
  rw [peekChar_eq h]
  by_cases hexponent : rest.head? = some 'e' ∨ rest.head? = some 'E'
  · obtain ⟨q, hadvance, hforward⟩ := exists_advanceChar h
    obtain ⟨rest', hrest'⟩ := hforward.2
    -- the sign may be missing
    obtain ⟨r, hsign, hforward'⟩ : ∃ r, (if rest'.head? = some '+' ∨ rest'.head? = some '-' then
        advanceChar text q else some q) = some r ∧ Forward text q r := by
      split
      · exact exists_advanceChar hrest'
      · exact ⟨q, rfl, .refl hrest'⟩
    obtain ⟨rest'', hrest''⟩ := hforward'.2
    obtain ⟨t, hskip, hforward''⟩ := exists_skipWhile (fun c => c.isDigit || c == '_') hrest''
    refine ⟨t, true, ?_, hforward.trans (hforward'.trans hforward'')⟩
    simp only [Option.bind_eq_bind, Option.bind_some, if_pos hexponent, hadvance,
      peekChar_eq hrest', Option.pure_def]
    unfold consumeDigitsAndUnderscores
    split at hsign
    next hs =>
      rw [if_pos hs, hsign, Option.bind_some, hskip]
      rfl
    next hs =>
      obtain rfl := Option.some.inj hsign
      rw [if_neg hs, hskip]
      rfl
  · refine ⟨p, false, ?_, .refl h⟩
    simp only [Option.bind_eq_bind, Option.bind_some, if_neg hexponent]
    rfl

omit h

theorem steps_lexNumber (h : dropBytes text lexer.position = some (c :: rest))
    (hdigit : c.isDigit = true) :
    Steps source text lexer (lexNumber source text lexer lexer.position) := by
  have hdigits : (c.isDigit || c == '_') = true := by rw [hdigit, Bool.true_or]
  obtain ⟨q, hskip, hforward, hlt⟩ :=
    exists_skipWhile_cons (fun c => c.isDigit || c == '_') hdigits h
  obtain ⟨rest', hrest'⟩ := hforward.2
  obtain ⟨r, fraction, hfraction, hforward'⟩ := exists_lexFraction hrest'
  obtain ⟨rest'', hrest''⟩ := hforward'.2
  obtain ⟨t, exponent, hexponent, hforward''⟩ := exists_lexExponent hrest''
  obtain ⟨rest₄, hrest₄⟩ := hforward''.2
  obtain ⟨u, hsuffix, hforward₄⟩ := exists_skipWhile Char.isAlphanum hrest₄
  have hall : Forward text lexer.position u :=
    hforward.trans (hforward'.trans (hforward''.trans hforward₄))
  have hstop : lexer.position < u :=
    Nat.lt_of_lt_of_le hlt (hforward'.trans (hforward''.trans hforward₄)).1
  obtain ⟨literal, hliteral⟩ := exists_slice h hall
  unfold lexNumber consumeDigitsAndUnderscores
  simp only [Option.bind_eq_bind, Option.bind_some, hskip, hfraction, hexponent, hsuffix, hliteral]
  refine ⟨_, _, _, rfl, pushed_of_forward hall hstop (by split <;> decide) (by split <;> rfl)
    fun d hd => ?_⟩
  split at hd
  · rw [mem_singleton.mp hd]
    rfl
  · cases hd

theorem matchSymbol_eq_some {kind : TokenKind} {width : ℕ}
    (h : matchSymbol rest = some (kind, width)) :
    kind ≠ .eof ∧ kind.quote = none ∧ 0 < width ∧
      ∃ symbol, symbol.isPrefixOf rest = true ∧ byteLen symbol = width := by
  obtain ⟨entry, hfind, heq⟩ := Option.map_eq_some_iff.mp h
  obtain ⟨rfl, rfl⟩ := Prod.mk.inj heq
  have htable : ∀ entry ∈ longSymbols ++ shortSymbols, entry.2 ≠ .eof ∧ entry.2.quote = none ∧
      0 < entry.1.length ∧ byteLen entry.1 = entry.1.length := by
    decide
  have hstarts := find?_some hfind
  obtain ⟨heof, hquote, hpos, hlen⟩ := htable entry (mem_of_find?_eq_some hfind)
  exact ⟨heof, hquote, hpos, entry.1, hstarts, hlen⟩

theorem steps_lexOne (h : dropBytes text lexer.position = some (c :: rest)) :
    Steps source text lexer (lexOne source text lexer) := by
  have hone := forward_cons h
  have hlt : lexer.position < lexer.position + c.utf8Size :=
    Nat.lt_add_of_pos_right c.utf8Size_pos
  unfold lexOne remaining
  simp only [h, Option.bind_eq_bind, Option.bind_some, head?_cons, advanceChar_cons h]
  -- the tests in the order of the source: mark, spaces, comments, literals, symbols
  split
  next => exact steps_push hone hlt nofun rfl
  split
  next =>
    obtain ⟨q, hskip, hforward⟩ := exists_skipWhile isWhitespace (dropBytes_cons h)
    rw [hskip]
    exact steps_push (hone.trans hforward) (Nat.lt_of_lt_of_le hlt hforward.1) nofun rfl
  split
  next hstarts => exact steps_lexLineComment h hstarts
  split
  next hstarts => exact steps_lexBlockComment h hstarts
  split
  next hquote =>
    subst hquote
    exact steps_lexQuoted rfl h
  split
  next hquote =>
    subst hquote
    exact steps_lexQuoted rfl h
  split
  next => exact steps_lexIdentifier h
  split
  next hdigit => exact steps_lexNumber h hdigit
  split
  next kind width hsymbol =>
    obtain ⟨heof, hquote, hpos, symbol, hstarts, hlen⟩ := matchSymbol_eq_some hsymbol
    obtain ⟨rest', -, hdrop⟩ := forward_of_prefix h hstarts
    rw [hlen] at hdrop
    exact steps_push ⟨Nat.le_add_right .., rest', hdrop⟩ (Nat.lt_add_of_pos_right hpos) heof hquote
  next =>
    refine ⟨_, _, _, rfl, pushed_of_forward hone hlt nofun rfl fun d hd => ?_⟩
    rw [mem_singleton.mp hd]
    rfl

/-! ## All tokens -/

/-- The literals among the tokens from a position on. -/
def LiteralsRead (text : List Char) (tokens : List (Token TokenKind))
    (diagnostics : List Diagnostic) : Prop :=
  ∀ token ∈ tokens, ∀ quote, token.kind.quote = some quote →
    (∀ d ∈ diagnostics, ¬ d.span.Within token.span) →
    Literal text quote token.span.start token.span.stop

theorem exists_runLoop (source : ℕ) (h : dropBytes text lexer.position = some rest)
    (hfuel : rest.length < fuel) :
    ∃ lexer' tokens, runLoop source text fuel lexer = some lexer' ∧
      lexer'.output.tokens = lexer.output.tokens ++ tokens ∧
      TilesFrom source text lexer.position
        (tokens ++ [⟨.eof, Span.empty source (byteLen text)⟩]) ∧
      (∃ ds, lexer'.output.diagnostics = lexer.output.diagnostics ++ ds) ∧
      LiteralsRead text tokens lexer'.output.diagnostics := by
  induction fuel generalizing lexer rest with
  | zero => exact absurd hfuel (Nat.not_lt_zero _)
  | succ fuel ih =>
      have hlen := byteLen_of_dropBytes h
      unfold runLoop
      cases rest with
      | nil =>
          rw [byteLen_nil, Nat.add_zero] at hlen
          refine ⟨lexer, [], by rw [if_neg (by omega)]; rfl, (append_nil _).symm, ?_,
            ⟨[], (append_nil _).symm⟩, nofun⟩
          rw [hlen]
          exact .eof
      | cons c rest =>
          have hpos := byteLen_pos (cons_ne_nil c rest)
          have hone : Steps source text lexer (lexOne source text lexer) := steps_lexOne h
          obtain ⟨lexer', kind, ds, hstep, hpushed⟩ := hone
          obtain ⟨rest', hrest'⟩ := hpushed.forward.2
          obtain ⟨read, hread, hposition⟩ := exists_read h hrest' hpushed.forward.1
          have hlength : rest'.length < (c :: rest).length := by
            have hread' : read ≠ [] := by
              rintro rfl
              exact absurd hpushed.nonempty (by rw [← hposition]; exact lt_irrefl _)
            rw [hread, length_append]
            exact Nat.lt_add_of_pos_left (length_pos_of_ne_nil hread')
          obtain ⟨lexer'', tokens, hrun, htokens, htiles, ⟨ds', hds'⟩, hliterals⟩ :=
            ih hrest' (by omega)
          have htokens' : lexer'.output.tokens = lexer.output.tokens ++
              [⟨kind, span source lexer.position lexer'.position⟩] := by rw [hpushed.eq]; rfl
          have hds : lexer'.output.diagnostics = lexer.output.diagnostics ++ ds := by
            rw [hpushed.eq]; rfl
          have hspan : span source lexer.position lexer'.position =
              ⟨source, lexer.position, lexer'.position, hpushed.forward.1⟩ := span_eq _
          refine ⟨lexer'', ⟨kind, span source lexer.position lexer'.position⟩ :: tokens, ?_, ?_, ?_,
            ⟨ds ++ ds', by rw [hds', hds, append_assoc]⟩, ?_⟩
          · rw [if_pos (by omega), hstep]
            exact hrun
          · rw [htokens, htokens', append_assoc, singleton_append]
          · let token : Token TokenKind := ⟨kind, span source lexer.position lexer'.position⟩
            have hstart : token.span.start = lexer.position := by simp only [token, hspan]
            have hstop : token.span.stop = lexer'.position := by simp only [token, hspan]
            have hsource : token.span.source = source := by simp only [token, hspan]
            have htile := TilesFrom.token hpushed.not_eof hsource
              (by rw [hstart, hstop]; exact hpushed.nonempty)
              (by rw [hstart]; exact onBoundary_of_dropBytes h)
              (by rw [hstop]; exact onBoundary_of_dropBytes hrest') (by rw [hstop]; exact htiles)
            rwa [hstart] at htile
          · refine forall_mem_cons.mpr ⟨fun quote hquote hnone => ?_, hliterals⟩
            -- a diagnostic of the token would be one about a part of it
            have hclean : ds = [] := eq_nil_iff_forall_not_mem.mpr fun d hd =>
              hnone d (by rw [hds', hds]; simp [hd]) (hpushed.within d hd)
            rw [hspan]
            exact hpushed.literal quote hquote hclean

end Lexer

/-! ## Decoding -/

theorem decodeBody_of_logical {quote : Char} {body chars : List Char}
    (h : Logical quote body chars) : decodeBody body = .ok chars := by
  induction h with
  | nil => rfl
  | plain notQuote notEscape sameLine rest ih =>
      rw [decodeBody.eq_def]
      simp only [ne_eq, notEscape, not_false_eq_true, if_true, ih]
      rfl
  | escaped escape rest ih =>
      simp only [decodeBody, ne_eq, not_true_eq_false, if_false, escape, ih]
      rfl

theorem decodeQuoted_of_logical {quote : Char} {body chars : List Char}
    (h : Logical quote body chars) :
    decodeQuoted (quote :: body ++ [quote]) quote = .ok (encode chars) := by
  have hstrip : (stripPrefix quote (quote :: body ++ [quote])).bind (stripSuffix quote) =
      some body := by
    simp [stripPrefix, stripSuffix]
  unfold decodeQuoted
  rw [hstrip]
  simp only [decodeBody_of_logical h]
  rfl

/-- The lexer comes to the end of every text with tokens that tile it, and the literals among
them that have no diagnostic are decoded to their characters. -/
theorem exists_lex (source : ℕ) (text : List Char) :
    ∃ output, lex source text = some output ∧ TilesFrom source text 0 output.tokens ∧
      ∀ token ∈ output.tokens, ∀ quote, token.kind.quote = some quote →
        (∀ d ∈ output.diagnostics, ¬ d.span.Within token.span) →
        ∃ body chars, Utf8.slice text token.span.start token.span.stop =
            some (quote :: body ++ [quote]) ∧
          Logical quote body chars ∧ (quote = '\'' → chars.length = 1) ∧
          decodeQuoted (quote :: body ++ [quote]) quote = .ok (encode chars) := by
  let start : Lexer := ⟨0, [], []⟩
  have hstart : dropBytes text start.position = some text := dropBytes_eq_some.mpr ⟨[], rfl, rfl⟩
  obtain ⟨lexer, tokens, hrun, htokens, htiles, -, hliterals⟩ :=
    Lexer.exists_runLoop source hstart (Nat.lt_succ_self _)
  rw [nil_append] at htokens
  refine ⟨_, by rw [lex, hrun]; rfl, by rw [htokens]; exact htiles, ?_⟩
  intro token hmem quote hquote hnone
  rw [htokens] at hmem
  obtain hmem | hmem := mem_append.mp hmem
  · obtain ⟨body, chars, hslice, hread, hsingle⟩ := hliterals token hmem quote hquote hnone
    exact ⟨body, chars, hslice, hread, hsingle, decodeQuoted_of_logical hread⟩
  · rw [mem_singleton.mp hmem] at hquote
    cases hquote

/-- A string with an escape and a character of two bytes, and an escaped character. -/
example : ((lex 0 ['"', '\\', 'n', 'é', '"', ' ', '\'', '\\', '\'', '\'']).map fun output =>
    (output.tokens.map fun token => (token.kind, token.span.start, token.span.stop),
      output.diagnostics.length)) =
    some ([(.stringLiteral, 0, 6), (.whitespace, 6, 7), (.charLiteral, 7, 11), (.eof, 11, 11)], 0) ∧
    decodeQuoted ['"', '\\', 'n', 'é', '"'] '"' = .ok (encode ['\n', 'é']) := by
  decide +kernel

end Jadren.Syntax
