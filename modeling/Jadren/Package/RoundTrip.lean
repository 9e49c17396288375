import Jadren.Package.Quoting

/-!
# Reading back the canonical text

Every line of the canonical text is read as what it was written from, except that a dependency
string comes back with the backslashes that the writer has put in.  So a manifest comes back as it
is exactly if its dependency strings need none; and as the writer can be undone, two manifests
with one canonical text are equal.

The written lines are read one by one, into what they were written from.  What the reader accepts is
`WellFormed`, so these are all the manifests there are.
-/

namespace Jadren.Package

open Jadren.Text (isWhitespace)
open List

/-! ### The lines of the canonical text -/

def DependencySpec.quoted : DependencySpec → DependencySpec
  | .version requirement => .version (quoteBody requirement)
  | .path directory => .path (quoteBody directory)

theorem quote_ne_nil (text : Text) : quote text ≠ [] := cons_ne_nil _ _

variable {text : Text}

theorem quote_head : ∀ c ∈ (quote text).head?, isWhitespace c = false := by
  intro c hc
  obtain rfl : '"' = c := by simpa [quote] using hc
  rfl

theorem quote_last : ∀ c ∈ (quote text).getLast?, isWhitespace c = false := by
  intro c hc
  have hlast : (quote text).getLast? = some '"' := getLast?_concat
  obtain rfl : '"' = c := by simpa [hlast] using hc
  rfl

theorem not_mem_word (h : IsWord text) {c : Char} (hc : isWordChar c = false) :
    c ∉ text := fun hmem => by simp [h c hmem] at hc

variable {key : Text} {name : SectionName} {state : Reading}

/-- A line that gives a quoted string to a key. -/
theorem parseLine_quoted (hkey : IsWord key) (hne : key ≠ [])
    (hcurrent : state.current = some name) (htext : IsPlain text) (number : ℕ) :
    parseLine number (key ++ " = ".toList ++ quote text) state =
      assign name key (quote text) number state := by
  refine parseLine_assignment hkey hne hcurrent ?_ quote_last (quote_ne_nil text) quote_head number
  have hbefore : '"' ∉ key ++ " = ".toList ∧ '#' ∉ key ++ " = ".toList := by
    constructor <;> intro hmem <;> rcases mem_append.mp hmem with hmem | hmem
    · exact not_mem_word hkey rfl hmem
    · exact absurd hmem (by decide)
    · exact not_mem_word hkey rfl hmem
    · exact absurd hmem (by decide)
  have hafter : '"' ∉ ([] : Text) ∧ '#' ∉ ([] : Text) := by simp
  have h := stripComment_quoted hbefore (isPlain_quoteBody htext).1 hafter
  rw [append_nil] at h
  exact h

theorem parseDependency_path (h : IsPlain text) (line : ℕ) :
    parseDependency ("\x7b path = ".toList ++ quote text ++ " \x7d".toList) line =
      .ok (.path (quoteBody text)) := by
  have hlast : ("\x7b path = ".toList ++ quote text ++ " \x7d".toList).getLast? = some '\x7d' := by
    rw [getLast?_append_of_ne_nil _ (by simp)]
    rfl
  have hbody : ("\x7b path = ".toList ++ quote text ++ " \x7d".toList).tail.dropLast =
      ' ' :: ("path = ".toList ++ quote text ++ [' ']) := by
    have hshape : "\x7b path = ".toList ++ quote text ++ " \x7d".toList =
        '\x7b' :: (' ' :: ("path = ".toList ++ quote text ++ [' ']) ++ ['\x7d']) := by simp
    rw [hshape, tail_cons, dropLast_concat]
  have htrim : trim (' ' :: ("path = ".toList ++ quote text ++ [' '])) =
      "path = ".toList ++ quote text := by
    have hhead : ∀ c ∈ ("path = ".toList ++ quote text).head?, isWhitespace c = false := by
      intro c hc
      obtain rfl : 'p' = c := by simpa using hc
      rfl
    rw [trim, Jadren.Text.trim_cons rfl, Jadren.Text.trim_concat rfl (by simp) hhead]
    refine trim_eq_self hhead ?_
    rw [getLast?_append_of_ne_nil _ (quote_ne_nil text)]
    exact quote_last
  have hsplit : Jadren.Text.splitOnce '=' ("path = ".toList ++ quote text) =
      some ("path ".toList, ' ' :: quote text) := by
    have hshape : "path = ".toList ++ quote text = "path ".toList ++ '=' :: ' ' :: quote text := by
      simp
    rw [hshape]
    exact Jadren.Text.splitOnce_append (by decide)
  have hvalue : trim (' ' :: quote text) = quote text := by
    rw [trim, Jadren.Text.trim_cons rfl]
    exact trim_quote text
  unfold parseDependency
  rw [if_neg (by simp), if_neg (by simp only [hlast]; simp), hbody, htrim]
  simp only [hsplit, hvalue]
  rw [if_neg (by decide), parseString_quote h]
  rfl

variable {specification : DependencySpec}

theorem dependencyLine_read {name : Text} (hname : isName name = true)
    (hplain : IsPlain specification.text) (hcurrent : state.current = some .dependencies)
    (hnew : state.dependencies.contains name = false) (number : ℕ) :
    parseLine number (dependencyLine name specification) state =
      .ok { state with
        dependencies := state.dependencies.insert name specification.quoted } := by
  obtain ⟨hword, hne⟩ := isWord_of_isName hname
  have hvalid : validateName name number = .ok () := if_pos hname
  cases specification with
  | version requirement =>
      change IsPlain requirement at hplain
      have hdep : parseDependency (quote requirement) number =
          .ok (.version (quoteBody requirement)) := by
        have hhead : (quote requirement).head? = some '"' := rfl
        rw [parseDependency, if_pos hhead, parseString_quote hplain]
        rfl
      rw [dependencyLine, parseLine_quoted hword hne hcurrent hplain]
      simp [assign, hvalid, hdep, hnew, bind, Except.bind, pure, Except.pure,
        DependencySpec.quoted]
  | path directory =>
      change IsPlain directory at hplain
      have hshape : dependencyLine name (.path directory) =
          name ++ " = ".toList ++ ("\x7b path = ".toList ++ quote directory ++ " \x7d".toList) := by
        simp [dependencyLine]
      -- no hash outside the quoted path begins a comment
      have hcomment : stripComment (dependencyLine name (.path directory)) =
          dependencyLine name (.path directory) := by
        refine stripComment_quoted ⟨fun hmem => ?_, fun hmem => ?_⟩
          (isPlain_quoteBody hplain).1 (by decide)
        · rcases mem_append.mp hmem with hmem | hmem
          · exact not_mem_word hword rfl hmem
          · exact absurd hmem (by decide)
        · rcases mem_append.mp hmem with hmem | hmem
          · exact not_mem_word hword rfl hmem
          · exact absurd hmem (by decide)
      have hdep := parseDependency_path hplain number
      rw [hshape] at hcomment ⊢
      rw [parseLine_assignment hword hne hcurrent hcomment ?_ (by simp) ?_]
      · simp only [assign, hvalid, hdep, hnew, bind, Except.bind, pure, Except.pure,
          DependencySpec.quoted, Bool.false_eq_true, if_false]
      · intro c hc
        rw [getLast?_append_of_ne_nil _ (by simp)] at hc
        obtain rfl : '\x7d' = c := by simpa using hc
        rfl
      · intro c hc
        obtain rfl : '\x7b' = c := by simpa using hc
        rfl

/-! ### The whole text -/

/-- A manifest as the reader gives it. -/
structure WellFormed (manifest : PackageManifest) : Prop where
  name : isName manifest.package.name = true
  version : isVersion manifest.package.version = true
  edition : isEdition manifest.package.edition = true
  keys : ∀ entry ∈ manifest.dependencies.entries, isName entry.1 = true
  plain : ∀ entry ∈ manifest.dependencies.entries, IsPlain entry.2.text
  nonblank : ∀ entry ∈ manifest.dependencies.entries, trim entry.2.text ≠ []

theorem parseLines_append (number : ℕ) (xs ys : List Text) (state : Reading) :
    parseLines number (xs ++ ys) state =
      (parseLines number xs state).bind (parseLines (number + xs.length) ys) := by
  induction xs generalizing number state with
  | nil => rfl
  | cons x xs ih =>
      simp only [cons_append, parseLines, bind, Except.bind]
      cases parseLine number x state with
      | error => rfl
      | ok =>
          simp only [ih, length_cons, Except.bind]
          rw [show number + (xs.length + 1) = number + 1 + xs.length by omega]

variable {entries : List (Text × DependencySpec)}

/-- Dependencies in the order of their names come back in this order, with quoted strings. -/
theorem parseLines_dependencies (hkeys : ∀ entry ∈ entries, isName entry.1 = true)
    (hplain : ∀ entry ∈ entries, IsPlain entry.2.text) (number : ℕ) (state : Reading)
    (hcurrent : state.current = some .dependencies)
    (hsorted : (state.dependencies.entries.map Prod.fst ++ entries.map Prod.fst).Pairwise (· < ·)) :
    ∃ dependencies : OrderedMap Text DependencySpec,
      parseLines number (entries.map fun entry => dependencyLine entry.1 entry.2) state =
        .ok { state with dependencies := dependencies } ∧
      dependencies.entries = state.dependencies.entries ++
        entries.map fun entry => (entry.1, entry.2.quoted) := by
  induction entries generalizing number state with
  | nil => exact ⟨state.dependencies, rfl, by simp⟩
  | cons entry entries ih =>
      obtain ⟨name, specification⟩ := entry
      obtain ⟨hname, hkeys⟩ := forall_mem_cons.mp hkeys
      obtain ⟨hspec, hplain⟩ := forall_mem_cons.mp hplain
      have hbelow : ∀ e ∈ state.dependencies.entries, e.1 < name := fun e he =>
        (pairwise_append.mp hsorted).2.2 e.1 (mem_map_of_mem he) name
          mem_cons_self
      have hnew : state.dependencies.contains name = false := by
        rw [← Bool.not_eq_true, OrderedMap.contains_iff, OrderedMap.keys]
        intro hmem
        obtain ⟨e, he, hkey⟩ := mem_map.mp hmem
        exact absurd (hbelow e he) (by rw [hkey]; exact lt_irrefl _)
      have hentries := OrderedMap.entries_insert_last specification.quoted hbelow
      obtain ⟨dependencies, hread, hall⟩ := ih hkeys hplain (number + 1)
        { state with dependencies := state.dependencies.insert name specification.quoted }
        hcurrent (by rw [hentries]; simpa using hsorted)
      refine ⟨dependencies, ?_, ?_⟩
      · simp only [map_cons, parseLines,
          dependencyLine_read hname hspec hcurrent hnew, bind, Except.bind, hread]
      · rw [hall, hentries, map_cons, append_assoc, singleton_append]

def PackageManifest.quoted (manifest : PackageManifest) : PackageManifest :=
  { manifest with dependencies := manifest.dependencies.mapValues fun _ s => s.quoted }

/-- The text of a line, which has no newline and does not end with a return. -/
def IsLine (line : Text) : Prop := '\n' ∉ line ∧ line.getLast? ≠ some '\r'

theorem isLine_append {front back : Text} (hfront : '\n' ∉ front) (hback : '\n' ∉ back)
    (hne : back ≠ []) (hlast : back.getLast? ≠ some '\r') : IsLine (front ++ back) := by
  refine ⟨fun hmem => ?_, ?_⟩
  · exact (mem_append.mp hmem).elim hfront hback
  · rwa [getLast?_append_of_ne_nil _ hne]

theorem newline_quote (h : IsPlain text) : '\n' ∉ quote text := by
  simp [quote, (isPlain_quoteBody h).2.1]

theorem return_quote : (quote text).getLast? ≠ some '\r' := by
  rw [show (quote text).getLast? = some '"' from getLast?_concat]
  decide

theorem isLine_dependencyLine {name : Text} (hname : isName name = true)
    (hplain : IsPlain specification.text) : IsLine (dependencyLine name specification) := by
  have hword : '\n' ∉ name := not_mem_word (isWord_of_isName hname).1 rfl
  cases specification with
  | version =>
      refine isLine_append ?_ (newline_quote hplain) (quote_ne_nil _) return_quote
      simpa using hword
  | path directory =>
      refine isLine_append ?_ (by decide) (by decide) (by decide)
      have hquote := newline_quote (show IsPlain directory from hplain)
      intro hmem
      rcases mem_append.mp hmem with hmem | hmem
      · rcases mem_append.mp hmem with hmem | hmem
        · exact hword hmem
        · exact absurd hmem (by decide)
      · exact hquote hmem

variable {manifest : PackageManifest}

theorem lines_toToml (h : WellFormed manifest) :
    Jadren.Text.lines '\n' '\r' manifest.toToml = manifest.tomlLines := by
  refine Jadren.Text.lines_unlines fun line hline => ?_
  have hquoted : ∀ front text : Text, '\n' ∉ front → IsWord text →
      IsLine (front ++ quote text) := fun front text hfront htext =>
    isLine_append hfront (newline_quote (isPlain_of_isWord htext)) (quote_ne_nil _) return_quote
  have hname := hquoted "name = ".toList _ (by decide) (isWord_of_isName h.name).1
  have hversion := hquoted "version = ".toList _ (by decide) (isWord_of_isVersion h.version)
  have hedition := hquoted "edition = ".toList _ (by decide) (isWord_of_isEdition h.edition)
  have hlibrary : IsLine ("library = ".toList ++ (toString manifest.library).toList) := by
    cases manifest.library <;> exact ⟨by decide, by decide⟩
  have hlit : ∀ text ∈ [[], "[package]".toList, "[dependencies]".toList, "[targets]".toList],
      IsLine text := by
    intro text htext
    simp only [mem_cons, not_mem_nil, or_false] at htext
    rcases htext with rfl | rfl | rfl | rfl <;> exact ⟨by decide, by decide⟩
  simp only [PackageManifest.tomlLines, mem_append, mem_cons, not_mem_nil,
    or_false, mem_map] at hline
  rcases hline with ((rfl | rfl | rfl | rfl | rfl | rfl) | ⟨entry, hentry, rfl⟩) |
    rfl | rfl | rfl
  · exact hlit _ (by simp)
  · exact hname
  · exact hversion
  · exact hedition
  · exact hlit _ (by simp)
  · exact hlit _ (by simp)
  · exact isLine_dependencyLine (h.keys entry hentry) (h.plain entry hentry)
  · exact hlit _ (by simp)
  · exact hlit _ (by simp)
  · exact hlibrary

theorem checkDependencies_iff :
    checkDependencies entries = .ok () ↔ ∀ entry ∈ entries, trim entry.2.text ≠ [] := by
  induction entries with
  | nil => simp [checkDependencies]
  | cons entry entries ih =>
      rw [checkDependencies, forall_mem_cons]
      split
      next h => simp [h]
      next h => simp [h, ih]

theorem trim_eq_nil_iff : trim text = [] ↔ ∀ c ∈ text, isWhitespace c = true := by
  rw [trim, Jadren.Text.trim, rdropWhile_eq_nil_iff]
  constructor
  · intro h c hc
    by_contra hspace
    cases hdrop : text.dropWhile isWhitespace with
    | nil => exact hspace (dropWhile_eq_nil_iff.mp hdrop c hc)
    | cons d =>
        -- the first character that is left is not white space
        have hd := h d (hdrop ▸ mem_cons_self)
        have hnot := head?_dropWhile_not isWhitespace text
        rw [hdrop] at hnot
        simp [hd] at hnot
  · exact fun h c hc => h c ((dropWhile_sublist _).mem hc)

/-- Quoting leaves something that is not white space. -/
theorem nonblank_quoteBody (h : trim text ≠ []) : trim (quoteBody text) ≠ [] := by
  rw [ne_eq, trim_eq_nil_iff] at h ⊢
  push Not at h ⊢
  obtain ⟨c, hc, hspace⟩ := h
  by_cases hs : isSpecial c = true
  · refine ⟨'\\', mem_flatMap.mpr ⟨c, hc, ?_⟩, by decide⟩
    simp only [isSpecial, Bool.or_eq_true, beq_iff_eq] at hs
    rcases hs with (((rfl | rfl) | rfl) | rfl) | rfl <;> simp [quoteChar]
  · refine ⟨c, mem_flatMap.mpr ⟨c, hc, ?_⟩, hspace⟩
    rw [quoteChar_eq_self (by simpa using hs)]
    exact mem_singleton.mpr rfl

theorem DependencySpec.quoted_text (specification : DependencySpec) :
    specification.quoted.text = quoteBody specification.text := by
  cases specification <;> rfl

/-- A field of the package, which is written as it is. -/
theorem parseLine_field (state : Reading) (hkey : IsWord key) (hne : key ≠ [])
    (htext : IsWord text) (hcurrent : state.current = some .package) (number : ℕ) :
    parseLine number (key ++ " = ".toList ++ quote text) state =
        assign .package key (quote text) number state ∧
      parseString (quote text) number = .ok text := by
  refine ⟨parseLine_quoted hkey hne hcurrent (isPlain_of_isWord htext) number, ?_⟩
  rw [parseString_quote (isPlain_of_isWord htext), quoteBody_of_isWord htext]

theorem parseLines_package (h : WellFormed manifest) :
    parseLines 1 ["[package]".toList, "name = ".toList ++ quote manifest.package.name,
        "version = ".toList ++ quote manifest.package.version,
        "edition = ".toList ++ quote manifest.package.edition, [], "[dependencies]".toList]
      Reading.empty =
      .ok ⟨some .dependencies, some manifest.package.name, some manifest.package.version,
        some manifest.package.edition, ∅, none⟩ := by
  have hall : ["name".toList, "version".toList, "edition".toList].all
      (fun key => key.all isWordChar) = true := rfl
  have hword : ∀ key ∈ ["name".toList, "version".toList, "edition".toList], IsWord key :=
    fun key hkey => isWord_of_all (all_eq_true.mp hall key hkey)
  -- line after line, from what has been read to what is read next
  have hname : parseLine 2 ("name = ".toList ++ quote manifest.package.name)
      ⟨some .package, none, none, none, ∅, none⟩ =
        .ok ⟨some .package, some manifest.package.name, none, none, ∅, none⟩ := by
    obtain ⟨hline, hvalue⟩ := parseLine_field ⟨some .package, none, none, none, ∅, none⟩
      (hword "name".toList (by simp)) (by decide) (isWord_of_isName h.name).1 rfl 2
    refine Eq.trans hline ?_
    simp only [assign, hvalue, setOnce, bind, Except.bind, pure, Except.pure, if_true,
      Option.isSome_none, Bool.false_eq_true, if_false]
  have hversion : parseLine 3 ("version = ".toList ++ quote manifest.package.version)
      ⟨some .package, some manifest.package.name, none, none, ∅, none⟩ =
        .ok ⟨some .package, some manifest.package.name, some manifest.package.version, none,
          ∅, none⟩ := by
    obtain ⟨hline, hvalue⟩ := parseLine_field
      ⟨some .package, some manifest.package.name, none, none, ∅, none⟩
      (hword "version".toList (by simp)) (by decide) (isWord_of_isVersion h.version) rfl 3
    refine Eq.trans hline ?_
    simp only [assign, hvalue, setOnce, bind, Except.bind, pure, Except.pure, if_true,
      Option.isSome_none, Bool.false_eq_true, if_false]
    rw [if_neg (by decide)]
  have hedition : parseLine 4 ("edition = ".toList ++ quote manifest.package.edition)
      ⟨some .package, some manifest.package.name, some manifest.package.version, none, ∅, none⟩ =
        .ok ⟨some .package, some manifest.package.name, some manifest.package.version,
          some manifest.package.edition, ∅, none⟩ := by
    obtain ⟨hline, hvalue⟩ := parseLine_field
      ⟨some .package, some manifest.package.name, some manifest.package.version, none, ∅, none⟩
      (hword "edition".toList (by simp)) (by decide) (isWord_of_isEdition h.edition) rfl 4
    refine Eq.trans hline ?_
    simp only [assign, hvalue, setOnce, bind, Except.bind, pure, Except.pure, if_true,
      Option.isSome_none, Bool.false_eq_true, if_false]
    rw [if_neg (by decide), if_neg (by decide)]
  have hheader : parseLine 1 "[package]".toList Reading.empty =
      .ok ⟨some .package, none, none, none, ∅, none⟩ := rfl
  have hblank : ∀ state, parseLine 5 [] state = .ok state := fun _ => rfl
  have hnext : ∀ state, parseLine 6 "[dependencies]".toList state =
      .ok { state with current := some .dependencies } := fun _ => rfl
  simp only [parseLines, hheader, hname, hversion, hedition, hblank, hnext, bind, Except.bind]

theorem parseLines_targets (library : Bool) (number : ℕ) (hnone : state.library = none) :
    parseLines number [[], "[targets]".toList, "library = ".toList ++ (toString library).toList]
      state = .ok { state with current := some .targets, library := some library } := by
  have hlibrary : parseLine (number + 1 + 1) ("library = ".toList ++ (toString library).toList)
      { state with current := some .targets } =
        .ok { state with current := some .targets, library := some library } := by
    have hvalue : parseBool (toString library).toList (number + 1 + 1) = .ok library := by
      cases library <;> rfl
    have hends : stripComment ("library".toList ++ " = ".toList ++ (toString library).toList) =
          "library".toList ++ " = ".toList ++ (toString library).toList ∧
        (∀ c ∈ (toString library).toList.getLast?, isWhitespace c = false) ∧
        (toString library).toList ≠ [] ∧
        ∀ c ∈ (toString library).toList.head?, isWhitespace c = false := by
      cases library with
      | false | true =>
        exact ⟨rfl, fun c hc => Option.some.inj hc ▸ rfl, nofun, fun c hc =>
          Option.some.inj hc ▸ rfl⟩
    have hword : IsWord "library".toList := isWord_of_all rfl
    have hcurrent : ({ state with current := some .targets } : Reading).current = some .targets :=
      rfl
    have hline := parseLine_assignment hword (by decide) hcurrent hends.1 hends.2.1 hends.2.2.1
      hends.2.2.2 (number + 1 + 1)
    refine Eq.trans hline ?_
    simp only [assign, hvalue, setOnce, hnone, bind, Except.bind, pure, Except.pure,
      Option.isSome_none, Bool.false_eq_true, if_false, ne_eq, not_true_eq_false]
  have hblank : parseLine number [] state = .ok state := rfl
  have hheader : parseLine (number + 1) "[targets]".toList state =
      .ok { state with current := some .targets } := rfl
  simp only [parseLines, hblank, hheader, hlibrary, bind, Except.bind]

/-- Reading the canonical text gives the manifest with quoted dependency strings. -/
theorem parse_toToml (h : WellFormed manifest) : parse manifest.toToml = .ok manifest.quoted := by
  obtain ⟨dependencies, hread, hentries⟩ := parseLines_dependencies h.keys h.plain 7
    ⟨some .dependencies, some manifest.package.name, some manifest.package.version,
      some manifest.package.edition, ∅, none⟩ rfl
    (by simpa [pairwise_map] using manifest.dependencies.sorted)
  have hlines : parseLines 1 manifest.tomlLines Reading.empty =
      .ok ⟨some .targets, some manifest.package.name, some manifest.package.version,
        some manifest.package.edition, dependencies, some manifest.library⟩ := by
    rw [PackageManifest.tomlLines, parseLines_append, parseLines_append, parseLines_package h]
    simp only [Except.bind]
    rw [show (1 + length ["[package]".toList, "name = ".toList ++ quote manifest.package.name,
      "version = ".toList ++ quote manifest.package.version,
      "edition = ".toList ++ quote manifest.package.edition, [], "[dependencies]".toList]) = 7
      from rfl, hread]
    exact parseLines_targets manifest.library _ rfl
  have hsame : dependencies = manifest.quoted.dependencies := OrderedMap.ext_entries hentries
  have hcheck : checkDependencies dependencies.entries = .ok () := by
    refine checkDependencies_iff.mpr fun entry hentry => ?_
    rw [hentries, OrderedMap.entries_empty, nil_append] at hentry
    obtain ⟨e, he, rfl⟩ := mem_map.mp hentry
    rw [DependencySpec.quoted_text]
    exact nonblank_quoteBody (h.nonblank e he)
  rw [hsame] at hcheck
  rw [parse, lines_toToml h, hlines, hsame]
  simp only [bind, Except.bind, Reading.finish, Option.elim, validateName, if_pos h.name,
    validateVersion, if_pos h.version, validateEdition, if_pos h.edition, hcheck, pure,
    Except.pure, Option.getD_some]
  rfl

/-! ### What the reader accepts -/

variable {value : Text} {line : ℕ}

theorem isPlain_of_parseString (h : parseString value line = .ok text) : IsPlain text := by
  simp only [parseString] at h
  split at h
  · cases h
  · split at h
    · cases h
    next hplain =>
      obtain rfl : value.tail.dropLast = text := Except.ok.inj h
      push Not at hplain
      exact hplain

theorem map_eq_ok {α β : Type} {f : α → β} {x : Except ManifestError α} {b : β}
    (h : x.map f = .ok b) : ∃ a, x = .ok a ∧ f a = b := by
  cases x with
  | error => cases h
  | ok a => exact ⟨a, rfl, Except.ok.inj h⟩

theorem bind_eq_ok {α β : Type} {f : α → Except ManifestError β} {x : Except ManifestError α}
    {b : β} (h : x >>= f = .ok b) : ∃ a, x = .ok a ∧ f a = .ok b := by
  cases x with
  | error => cases h
  | ok a => exact ⟨a, rfl, h⟩

theorem isPlain_of_parseDependency (h : parseDependency value line = .ok specification) :
    IsPlain specification.text := by
  simp only [parseDependency] at h
  split at h
  · obtain ⟨text, htext, rfl⟩ := map_eq_ok h
    exact isPlain_of_parseString htext
  · split at h
    · cases h
    · split at h
      · cases h
      · split at h
        · cases h
        · obtain ⟨text, htext, rfl⟩ := map_eq_ok h
          exact isPlain_of_parseString htext

/-- The dependencies read so far have names, and strings as the reader takes them. -/
def DependenciesOk (dependencies : OrderedMap Text DependencySpec) : Prop :=
  ∀ name specification, dependencies.lookup name = some specification →
    isName name = true ∧ IsPlain specification.text

variable {state' : Reading}

theorem assign_keeps (h : assign name key value line state = .ok state')
    (hok : DependenciesOk state.dependencies) : DependenciesOk state'.dependencies := by
  cases name with
  | package =>
      simp only [assign] at h
      split at h
      · obtain ⟨_, -, h⟩ := bind_eq_ok h
        obtain ⟨_, -, h⟩ := bind_eq_ok h
        obtain rfl := Except.ok.inj h
        exact hok
      · split at h
        · obtain ⟨_, -, h⟩ := bind_eq_ok h
          obtain ⟨_, -, h⟩ := bind_eq_ok h
          obtain rfl := Except.ok.inj h
          exact hok
        · split at h
          · obtain ⟨_, -, h⟩ := bind_eq_ok h
            obtain ⟨_, -, h⟩ := bind_eq_ok h
            obtain rfl := Except.ok.inj h
            exact hok
          · cases h
  | dependencies =>
      simp only [assign] at h
      obtain ⟨_, hname, h⟩ := bind_eq_ok h
      obtain ⟨specification, hspec, h⟩ := bind_eq_ok h
      split at h
      · cases h
      · obtain rfl := Except.ok.inj h
        have hname : isName key = true := by
          by_contra hbad
          simp [validateName, hbad] at hname
        intro other spec hlookup
        rw [OrderedMap.insert, OrderedMap.lookup_update] at hlookup
        split at hlookup
        next hother =>
          obtain rfl := Option.some.inj hlookup
          exact ⟨hother ▸ hname, isPlain_of_parseDependency hspec⟩
        next => exact hok other spec hlookup
  | targets =>
      simp only [assign] at h
      split at h
      · cases h
      · obtain ⟨_, -, h⟩ := bind_eq_ok h
        obtain ⟨_, -, h⟩ := bind_eq_ok h
        obtain rfl := Except.ok.inj h
        exact hok

theorem parseLine_keeps {number : ℕ} {line : Text} (h : parseLine number line state = .ok state')
    (hok : DependenciesOk state.dependencies) : DependenciesOk state'.dependencies := by
  simp only [parseLine] at h
  split at h
  · obtain rfl := Except.ok.inj h
    exact hok
  · split at h
    · split at h
      · obtain rfl := Except.ok.inj h
        exact hok
      · cases h
    · split at h
      · cases h
      · split at h
        · cases h
        · exact assign_keeps h hok

theorem parseLines_keeps {number : ℕ} {lines : List Text}
    (h : parseLines number lines state = .ok state') (hok : DependenciesOk state.dependencies) :
    DependenciesOk state'.dependencies := by
  induction lines generalizing number state with
  | nil =>
      obtain rfl := Except.ok.inj h
      exact hok
  | cons line lines ih =>
      obtain ⟨state₁, hline, hrest⟩ := bind_eq_ok h
      exact ih hrest (parseLine_keeps hline hok)

theorem wellFormed_of_parse (h : parse text = .ok manifest) : WellFormed manifest := by
  obtain ⟨state, hlines, hfinish⟩ := bind_eq_ok h
  have hok := parseLines_keeps hlines fun name specification hlookup => by
    simp [Reading.empty] at hlookup
  obtain ⟨name, -, hfinish⟩ := bind_eq_ok hfinish
  obtain ⟨_, hname, hfinish⟩ := bind_eq_ok hfinish
  obtain ⟨version, -, hfinish⟩ := bind_eq_ok hfinish
  obtain ⟨_, hversion, hfinish⟩ := bind_eq_ok hfinish
  obtain ⟨edition, -, hfinish⟩ := bind_eq_ok hfinish
  obtain ⟨_, hedition, hfinish⟩ := bind_eq_ok hfinish
  obtain ⟨_, hcheck, hfinish⟩ := bind_eq_ok hfinish
  obtain rfl := Except.ok.inj hfinish
  refine ⟨?_, ?_, ?_, fun entry hentry => ?_, fun entry hentry => ?_,
    checkDependencies_iff.mp hcheck⟩
  · by_contra hbad
    simp [validateName, hbad] at hname
  · by_contra hbad
    simp [validateVersion, hbad] at hversion
  · by_contra hbad
    simp [validateEdition, hbad] at hedition
  · exact (hok entry.1 entry.2 (OrderedMap.lookup_iff_mem.mpr hentry)).1
  · exact (hok entry.1 entry.2 (OrderedMap.lookup_iff_mem.mpr hentry)).2

/-! ### Round trips and fingerprints -/

/-- No dependency string has a backslash or a tab. -/
def PackageManifest.NeedsNoEscape (manifest : PackageManifest) : Prop :=
  ∀ entry ∈ manifest.dependencies.entries, '\\' ∉ entry.2.text ∧ '\t' ∉ entry.2.text

/-- The same package and target, and the same dependency under every name, whatever the order in
which they were declared. -/
def PackageManifest.SameAs (m m' : PackageManifest) : Prop :=
  m.package = m'.package ∧ m.library = m'.library ∧
    ∀ name, m.dependencies.lookup name = m'.dependencies.lookup name

/-- Different canonical texts with one hash. -/
def PackageManifest.Collides (m m' : PackageManifest) : Prop :=
  m.toToml ≠ m'.toToml ∧ m.fingerprint = m'.fingerprint

variable {m m' : PackageManifest}

theorem PackageManifest.sameAs_iff : m.SameAs m' ↔ m = m' := by
  constructor
  · rintro ⟨hpackage, hlibrary, hlookup⟩
    have hdependencies := OrderedMap.ext_lookup hlookup
    cases m; cases m'
    simp_all
  · rintro rfl
    exact ⟨rfl, rfl, fun _ => rfl⟩

theorem DependencySpec.quoted_injective : Function.Injective DependencySpec.quoted := by
  intro a b h
  cases a <;> cases b <;> simp only [quoted, DependencySpec.version.injEq,
    DependencySpec.path.injEq, reduceCtorEq] at h ⊢ <;> exact quoteBody_injective h

theorem PackageManifest.quoted_injective : Function.Injective PackageManifest.quoted := by
  intro m m' h
  have hpackage : m.quoted.package = m'.quoted.package := congrArg _ h
  have hlibrary : m.quoted.library = m'.quoted.library := congrArg _ h
  refine sameAs_iff.mp ⟨hpackage, hlibrary, fun name => ?_⟩
  have hlookup := congrArg (fun m => OrderedMap.lookup (dependencies m) name) h
  simp only [quoted, OrderedMap.lookup_mapValues] at hlookup
  exact Option.map_injective DependencySpec.quoted_injective hlookup

/-- Well-formed manifests are equal if their canonical texts are. -/
theorem toToml_injective (h : WellFormed m) (h' : WellFormed m') (heq : m.toToml = m'.toToml) :
    m = m' := by
  have hread := parse_toToml h
  rw [heq, parse_toToml h'] at hread
  exact (PackageManifest.quoted_injective (Except.ok.inj hread)).symm

theorem quoted_eq_self_iff (h : WellFormed manifest) :
    manifest.quoted = manifest ↔ manifest.NeedsNoEscape := by
  have htext : ∀ specification : DependencySpec, IsPlain specification.text →
      (specification.quoted = specification ↔
        '\\' ∉ specification.text ∧ '\t' ∉ specification.text) := by
    intro specification hplain
    have hbody : specification.quoted = specification ↔
        quoteBody specification.text = specification.text := by
      cases specification <;> simp [DependencySpec.quoted, DependencySpec.text]
    rw [hbody, quoteBody_eq_self_iff]
    constructor
    · exact fun hall => ⟨fun hmem => absurd (hall _ hmem) (by decide),
        fun hmem => absurd (hall _ hmem) (by decide)⟩
    · rintro ⟨hbackslash, htab⟩ c hc
      simp only [isSpecial, Bool.or_eq_false_iff, beq_eq_false_iff_ne]
      exact ⟨⟨⟨⟨fun he => hplain.1 (he ▸ hc), fun he => hbackslash (he ▸ hc)⟩,
        fun he => hplain.2.1 (he ▸ hc)⟩, fun he => hplain.2.2 (he ▸ hc)⟩,
        fun he => htab (he ▸ hc)⟩
  constructor
  · intro heq entry hentry
    have hlookup : manifest.quoted.dependencies.lookup entry.1 =
        manifest.dependencies.lookup entry.1 := by rw [heq]
    have hthis : manifest.dependencies.lookup entry.1 = some entry.2 :=
      OrderedMap.lookup_iff_mem.mpr hentry
    simp only [PackageManifest.quoted, OrderedMap.lookup_mapValues, hthis, Option.map_some,
      Option.some.injEq] at hlookup
    exact (htext entry.2 (h.plain entry hentry)).mp hlookup
  · intro hescape
    refine PackageManifest.sameAs_iff.mp ⟨rfl, rfl, fun name => ?_⟩
    simp only [PackageManifest.quoted, OrderedMap.lookup_mapValues]
    cases hlookup : manifest.dependencies.lookup name with
    | none => rfl
    | some specification =>
        have hentry := OrderedMap.lookup_iff_mem.mp hlookup
        exact congrArg some ((htext specification (h.plain _ hentry)).mpr (hescape _ hentry))

/-- Two accepted texts: their manifests survive the canonical text, and have one fingerprint exactly
if they are the same, if and only if their dependency strings have no backslash and no tab, and
their canonical texts do not collide. -/
theorem roundTrip_iff {text text' : Text} {m m' : PackageManifest} (h : parse text = .ok m)
    (h' : parse text' = .ok m') :
    (parse m.toToml = .ok m ∧ parse m'.toToml = .ok m' ∧
        (m.fingerprint = m'.fingerprint ↔ m.SameAs m')) ↔
      m.NeedsNoEscape ∧ m'.NeedsNoEscape ∧ ¬ m.Collides m' := by
  have hm := wellFormed_of_parse h
  have hm' := wellFormed_of_parse h'
  have hprint : (m.fingerprint = m'.fingerprint ↔ m.SameAs m') ↔ ¬ m.Collides m' := by
    rw [PackageManifest.sameAs_iff, PackageManifest.Collides]
    constructor
    · rintro hiff ⟨hne, hprint⟩
      exact hne (congrArg _ (hiff.mp hprint))
    · intro hcollide
      refine ⟨fun hprint => toToml_injective hm hm' ?_, fun heq => congrArg _ heq⟩
      by_contra hne
      exact hcollide ⟨hne, hprint⟩
  rw [hprint, parse_toToml hm, parse_toToml hm', Except.ok.injEq, Except.ok.injEq,
    quoted_eq_self_iff hm, quoted_eq_self_iff hm']

/-- A text with one local dependency, in the given directory. -/
def localText (directory : Text) : Text :=
  "[package]\nname = \"app\"\nversion = \"0.1.0\"\nedition = \"2026\"\n".toList ++
    "[dependencies]\nmath = \x7b path = \"".toList ++ directory ++ "\" \x7d\n".toList

def localManifest (directory : Text) : PackageManifest :=
  ⟨⟨"app".toList, "0.1.0".toList, "2026".toList⟩,
    ⟨[("math".toList, .path directory)], pairwise_singleton _ _⟩, true⟩

/-- A directory with a backslash comes back with two. -/
theorem backslash_doubled :
    parse (localText "lib\\math".toList) = .ok (localManifest "lib\\math".toList) ∧
      parse (localManifest "lib\\math".toList).toToml ≠
        .ok (localManifest "lib\\math".toList) := by
  have hparse : parse (localText "lib\\math".toList) = .ok (localManifest "lib\\math".toList) := by
    rfl
  refine ⟨hparse, fun h => ?_⟩
  have hm := wellFormed_of_parse hparse
  rw [parse_toToml hm, Except.ok.injEq, quoted_eq_self_iff hm] at h
  exact (h _ mem_cons_self).1 (by decide)

theorem roundTrip_iff_local :
    parse (localText "../math".toList) = .ok (localManifest "../math".toList) ∧
      parse (localText "../text".toList) = .ok (localManifest "../text".toList) ∧
      parse (localManifest "../math".toList).toToml = .ok (localManifest "../math".toList) ∧
      parse (localManifest "../text".toList).toToml = .ok (localManifest "../text".toList) ∧
      (localManifest "../math".toList).fingerprint ≠
        (localManifest "../text".toList).fingerprint := by
  have hmath : parse (localText "../math".toList) = .ok (localManifest "../math".toList) := rfl
  have htext : parse (localText "../text".toList) = .ok (localManifest "../text".toList) := rfl
  have hprint : (localManifest "../math".toList).fingerprint ≠
      (localManifest "../text".toList).fingerprint := by decide +kernel
  have hplain : ∀ {directory : Text}, '\\' ∉ directory → '\t' ∉ directory →
      (localManifest directory).NeedsNoEscape := by
    intro directory hslash htab entry hmem
    rw [List.mem_singleton.mp hmem]
    exact ⟨hslash, htab⟩
  obtain ⟨hparse, hparse', -⟩ := (roundTrip_iff hmath htext).mpr
    ⟨hplain (by decide) (by decide), hplain (by decide) (by decide), fun h => hprint h.2⟩
  exact ⟨hmath, htext, hparse, hparse', hprint⟩

end Jadren.Package
