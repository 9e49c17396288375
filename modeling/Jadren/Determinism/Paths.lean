import Mathlib.Data.List.Basic
import Mathlib.Data.List.Infix

/-!
# Lexical normalization of paths

`normalize_path` cuts a path into its root and its components, follows the components, and writes
the result out again.  What a path denotes is a `Location`: a root, how far it climbs above where it
starts, and the names below that.

The code writes the location of every path, but it does not always write one that reads back.  A
path relative to a drive gets a separator after the drive, which makes it a rooted one, and a first
name that looks like a drive is read as one.
-/

namespace Jadren.Determinism

open List

abbrev Text := List Char

/-! ### The code -/

/-- Both separators are the same. -/
def replaceSeparators (path : Text) : Text := path.map fun c => if c = '\\' then '/' else c

/-- The prefix of a path, its rest, and whether it is rooted. -/
def splitPrefix : Text → Text × Text × Bool
  | '/' :: '/' :: rest => (['/', '/'], rest, true)
  | '/' :: rest => (['/'], rest, true)
  | first :: ':' :: rest =>
      if first.isAlpha then
        let drive := first.toLower
        let rooted := decide (rest.head? = some '/')
        (if rooted then [drive, ':', '/'] else [drive, ':'], rest.dropWhile (· = '/'), rooted)
      else ([], first :: ':' :: rest, false)
  | path => ([], path, false)

def pushComponent (rooted : Bool) (components : List Text) (component : Text) : List Text :=
  if component = [] ∨ component = ['.'] then components
  else if component = ['.', '.'] ∧ (components.getLast?.any fun last => last ≠ ['.', '.']) then
    components.dropLast
  else if component = ['.', '.'] ∧ rooted = false then components ++ [component]
  else if component = ['.', '.'] then components
  else components ++ [component]

def joinPrefix (root body : Text) : Text :=
  if root = [] ∧ body = [] then ['.']
  else if body = [] then root
  else if root = [] then body
  else if root.getLast? = some '/' then root ++ body
  else root ++ '/' :: body

def normalizePath (path : Text) : Text :=
  let (root, rest, rooted) := splitPrefix (replaceSeparators path)
  let components := (rest.splitOn '/').foldl (pushComponent rooted) []
  joinPrefix root (['/'].intercalate components)

/-! ### What a path denotes -/

inductive Root where
  | none
  | slash
  | network
  | drive (letter : Char) (rooted : Bool)
  deriving DecidableEq

/-- No path climbs above an absolute root. -/
def Root.absolute : Root → Bool
  | .none => false
  | .slash => true
  | .network => true
  | .drive _ rooted => rooted

def Root.text : Root → Text
  | .none => []
  | .slash => ['/']
  | .network => ['/', '/']
  | .drive letter true => [letter, ':', '/']
  | .drive letter false => [letter, ':']

/-- A place: so many steps above where the root starts, and the names from there. -/
structure Location where
  root : Root
  ups : ℕ
  names : List Text
  deriving DecidableEq

def Location.step (location : Location) (component : Text) : Location :=
  if component = [] ∨ component = ['.'] then location
  else if component = ['.', '.'] then
    if location.names ≠ [] then { location with names := location.names.dropLast }
    else if location.root.absolute then location
    else { location with ups := location.ups + 1 }
  else { location with names := location.names ++ [component] }

/-- The root of a path, and what follows it.  The letter of a drive has no case. -/
def readRoot : Text → Root × Text
  | '/' :: '/' :: rest => (.network, rest)
  | '/' :: rest => (.slash, rest)
  | first :: ':' :: rest =>
      if first.isAlpha then (.drive first.toLower (decide (rest.head? = some '/')), rest)
      else (.none, first :: ':' :: rest)
  | path => (.none, path)

/-- Where components lead from a root. -/
def follow (root : Root) (components : List Text) : Location :=
  components.foldl Location.step ⟨root, 0, []⟩

def location (path : Text) : Location :=
  let (root, rest) := readRoot (replaceSeparators path)
  follow root (rest.splitOn '/')

/-- A name that begins like a drive. -/
def DriveLike (name : Text) : Prop :=
  ∃ first rest, name = first :: ':' :: rest ∧ first.isAlpha = true

/-- The locations that read back as they are written. -/
def Location.Plain (location : Location) : Prop :=
  match location.root with
  | .none => location.ups = 0 → ∀ name ∈ location.names.head?, ¬ DriveLike name
  | .drive _ false => location.ups = 0 ∧ location.names = []
  | _ => True

/-- Two paths are normalized well: each keeps its location and is left alone by another pass, and
their normal forms agree just when their locations do. -/
structure Faithful (path path' : Text) : Prop where
  idempotent : normalizePath (normalizePath path) = normalizePath path
  idempotent' : normalizePath (normalizePath path') = normalizePath path'
  keeps : location (normalizePath path) = location path
  keeps' : location (normalizePath path') = location path'
  eq_iff : normalizePath path = normalizePath path' ↔ location path = location path'

/-! ### Locations -/

def Location.components (location : Location) : List Text :=
  replicate location.ups ['.', '.'] ++ location.names

/-- The text that the code writes for a location. -/
def Location.render (location : Location) : Text :=
  joinPrefix location.root.text (['/'].intercalate location.components)

/-- What stays of the components of a path. -/
structure IsName (name : Text) : Prop where
  ne_nil : name ≠ []
  ne_dot : name ≠ ['.']
  ne_dots : name ≠ ['.', '.']
  slash : '/' ∉ name
  backslash : '\\' ∉ name

structure Location.WellFormed (location : Location) : Prop where
  names : ∀ name ∈ location.names, IsName name
  ups : location.root.absolute = true → location.ups = 0
  letter : ∀ letter rooted, location.root = .drive letter rooted →
    letter.isAlpha = true ∧ letter.toLower = letter

@[simp] theorem Location.step_root (location : Location) (component : Text) :
    (location.step component).root = location.root := by
  unfold step
  split
  · rfl
  · split
    · split
      · rfl
      · split <;> rfl
    · rfl

theorem Location.WellFormed.step {location : Location} (h : location.WellFormed)
    {component : Text} (hslash : '/' ∉ component) (hbackslash : '\\' ∉ component) :
    (location.step component).WellFormed := by
  refine ⟨?_, ?_, by simpa using h.letter⟩
  · intro name hname
    unfold Location.step at hname
    split at hname
    · exact h.names name hname
    · rename_i hdot
      split at hname
      · split at hname
        · exact h.names name (dropLast_subset _ hname)
        · split at hname <;> exact h.names name hname
      · rename_i hdots
        obtain hold | hnew := mem_append.mp hname
        · exact h.names name hold
        · obtain rfl := mem_singleton.mp hnew
          exact ⟨fun heq => hdot (.inl heq), fun heq => hdot (.inr heq), hdots, hslash, hbackslash⟩
  · intro habsolute
    rw [Location.step_root] at habsolute
    unfold Location.step
    split
    · exact h.ups habsolute
    · split
      · split
        · exact h.ups habsolute
        · exact h.ups habsolute
      · exact h.ups habsolute

/-- The last component is a name unless there are none. -/
theorem Location.getLast?_components {location : Location} (h : location.WellFormed) :
    (location.components.getLast?.any fun last => last ≠ ['.', '.']) =
      decide (location.names ≠ []) := by
  obtain hnil | ⟨init, last, hlast⟩ := eq_nil_or_concat' location.names
  · cases hups : location.ups with
    | zero => simp [components, hnil, hups]
    | succ => simp [components, hnil, hups, getLast?_replicate]
  · have hname := h.names last (by simp [hlast])
    rw [components, hlast, ← append_assoc, getLast?_concat]
    simp [hname.ne_dots]

/-- A component does to the list what it does to the location. -/
theorem Location.pushComponent_eq {location : Location} (h : location.WellFormed)
    (component : Text) :
    pushComponent location.root.absolute location.components component =
      (location.step component).components := by
  rw [pushComponent, getLast?_components h, step]
  split
  · rfl
  · by_cases hdots : component = ['.', '.']
    · by_cases hne : location.names = []
      · cases habsolute : location.root.absolute with
        | false => simp [hdots, hne, components, replicate_succ']
        | true => simp [hdots, hne]
      · simp [hdots, hne, components, dropLast_append_of_ne_nil]
    · simp [hdots, components]

/-! ### The code writes locations -/

/-- The components of a path have no separator, and only characters of the path. -/
theorem of_mem_splitOn {path component : Text} (h : component ∈ path.splitOn '/') :
    '/' ∉ component ∧ ∀ c ∈ component, c ∈ path := by
  induction path generalizing component with
  | nil =>
      obtain rfl : component = [] := by simpa using h
      exact ⟨not_mem_nil, fun c hc => hc⟩
  | cons first rest ih =>
      rw [splitOn_cons_eq_if_modifyHead] at h
      split at h
      · obtain rfl | h := mem_cons.mp h
        · exact ⟨not_mem_nil, fun c hc => absurd hc not_mem_nil⟩
        · exact ⟨(ih h).1, fun c hc => mem_cons_of_mem _ ((ih h).2 c hc)⟩
      · rename_i hfirst
        obtain ⟨head, tail, hsplit⟩ := exists_cons_of_ne_nil (splitOn_ne_nil '/' rest)
        rw [hsplit, modifyHead_cons] at h
        obtain rfl | h := mem_cons.mp h
        · obtain ⟨hslash, hsub⟩ := ih (hsplit ▸ mem_cons_self)
          refine ⟨fun hmem => ?_, fun c hc => ?_⟩
          · obtain heq | hmem := mem_cons.mp hmem
            · simp [← heq] at hfirst
            · exact hslash hmem
          · obtain rfl | hc := mem_cons.mp hc
            · exact mem_cons_self
            · exact mem_cons_of_mem _ (hsub c hc)
        · obtain ⟨hslash, hsub⟩ := ih (hsplit ▸ mem_cons_of_mem _ h)
          exact ⟨hslash, fun c hc => mem_cons_of_mem _ (hsub c hc)⟩

theorem backslash_not_mem_replaceSeparators (path : Text) : '\\' ∉ replaceSeparators path := by
  intro h
  obtain ⟨c, -, hc⟩ := mem_map.mp h
  split at hc
  · cases hc
  · rename_i hne
    exact hne hc

theorem toNat_lt_of_isAlpha {c : Char} (h : c.isAlpha = true) : c.toNat < 123 := by
  have hcases : (decide ('A'.val ≤ c.val ∧ c.val ≤ 'Z'.val) ||
      decide ('a'.val ≤ c.val) && decide (c.val ≤ 'z'.val)) = true := h
  simp only [Bool.or_eq_true, Bool.and_eq_true, decide_eq_true_eq, UInt32.le_iff_toNat_le] at hcases
  have hupper : 'Z'.val.toNat = 90 := rfl
  have hlower : 'z'.val.toNat = 122 := rfl
  have hval : c.toNat = c.val.toNat := rfl
  omega

theorem isAlpha_toLower {c : Char} (h : c.isAlpha = true) :
    c.toLower.isAlpha = true ∧ c.toLower.toLower = c.toLower := by
  have hall : ∀ n < 123, (Char.ofNat n).isAlpha = true →
      (Char.ofNat n).toLower.isAlpha = true ∧
        (Char.ofNat n).toLower.toLower = (Char.ofNat n).toLower := by decide
  have hc := hall c.toNat (toNat_lt_of_isAlpha h)
  rw [Char.ofNat_toNat] at hc
  exact hc h

/-- The rest of a path is part of it, and the root is well formed. -/
theorem readRoot_spec (path : Text) :
    (∀ c ∈ (readRoot path).2, c ∈ path) ∧ ∀ letter rooted,
      (readRoot path).1 = .drive letter rooted →
        letter.isAlpha = true ∧ letter.toLower = letter := by
  unfold readRoot
  split
  · exact ⟨fun c hc => mem_cons_of_mem _ (mem_cons_of_mem _ hc), fun _ _ h => nomatch h⟩
  · exact ⟨fun c hc => mem_cons_of_mem _ hc, fun _ _ h => nomatch h⟩
  · split
    · rename_i halpha
      refine ⟨fun c hc => mem_cons_of_mem _ (mem_cons_of_mem _ hc), ?_⟩
      intro letter rooted h
      obtain rfl := (Root.drive.inj h).1
      exact isAlpha_toLower halpha
    · exact ⟨fun c hc => hc, fun _ _ h => nomatch h⟩
  · exact ⟨fun c hc => hc, fun _ _ h => nomatch h⟩

/-- Following components, on the list and on the location. -/
theorem foldl_pushComponent {location : Location} (h : location.WellFormed)
    {components : List Text}
    (hcomponents : ∀ component ∈ components, '/' ∉ component ∧ '\\' ∉ component) :
    (components.foldl Location.step location).WellFormed ∧
      components.foldl (pushComponent location.root.absolute) location.components =
        (components.foldl Location.step location).components := by
  induction components generalizing location with
  | nil => exact ⟨h, rfl⟩
  | cons component rest ih =>
      obtain ⟨⟨hslash, hbackslash⟩, hrest⟩ := forall_mem_cons.mp hcomponents
      have hstep := h.step hslash hbackslash
      rw [foldl_cons, foldl_cons, Location.pushComponent_eq h]
      have hnext := ih hstep hrest
      rwa [Location.step_root] at hnext

theorem root_foldl_step (components : List Text) (location : Location) :
    (components.foldl Location.step location).root = location.root := by
  induction components generalizing location with
  | nil => rfl
  | cons component rest ih => rw [foldl_cons, ih, Location.step_root]

theorem root_follow (root : Root) (components : List Text) : (follow root components).root = root :=
  root_foldl_step components ⟨root, 0, []⟩

theorem wellFormed_start (root : Root)
    (hletter : ∀ letter rooted, root = .drive letter rooted →
      letter.isAlpha = true ∧ letter.toLower = letter) :
    (Location.mk root 0 []).WellFormed :=
  ⟨fun _ h => absurd h not_mem_nil, fun _ => rfl, hletter⟩

/-- Separators at the front of the rest make no difference. -/
theorem foldl_splitOn_dropWhile {S : Type} (f : S → Text → S) (hf : ∀ s, f s [] = s) (s : S)
    (rest : Text) :
    ((rest.dropWhile (· = '/')).splitOn '/').foldl f s = (rest.splitOn '/').foldl f s := by
  induction rest with
  | nil => rfl
  | cons first rest ih =>
      by_cases hfirst : first = '/'
      · subst hfirst
        rw [dropWhile_cons_of_pos (by simp), ih,
          splitOn_cons_eq_if_modifyHead, if_pos (by simp), foldl_cons, hf]
      · rw [dropWhile_cons_of_neg (by simpa using hfirst)]

theorem splitPrefix_eq (path : Text) :
    (splitPrefix path).1 = (readRoot path).1.text ∧
      (splitPrefix path).2.2 = (readRoot path).1.absolute ∧
      ((splitPrefix path).2.1 = (readRoot path).2 ∨
        (splitPrefix path).2.1 = (readRoot path).2.dropWhile (· = '/')) := by
  unfold splitPrefix readRoot
  split
  · exact ⟨rfl, rfl, .inl rfl⟩
  · exact ⟨rfl, rfl, .inl rfl⟩
  · rename_i first rest _
    by_cases halpha : first.isAlpha = true
    · by_cases hrooted : rest.head? = some '/' <;> simp [halpha, hrooted, Root.text, Root.absolute]
    · simp [halpha, Root.text, Root.absolute]
  · exact ⟨rfl, rfl, .inl rfl⟩

/-- The normal form of a path is its location, written out. -/
theorem normalizePath_eq (path : Text) :
    (location path).WellFormed ∧ normalizePath path = (location path).render := by
  obtain ⟨hsub, hletter⟩ := readRoot_spec (replaceSeparators path)
  obtain ⟨hroot, hrooted, hrest⟩ := splitPrefix_eq (replaceSeparators path)
  have hcomponents : ∀ component ∈ (readRoot (replaceSeparators path)).2.splitOn '/',
      '/' ∉ component ∧ '\\' ∉ component := by
    intro component hmem
    obtain ⟨hslash, hchars⟩ := of_mem_splitOn hmem
    exact ⟨hslash, fun hbackslash =>
      backslash_not_mem_replaceSeparators path (hsub _ (hchars _ hbackslash))⟩
  obtain ⟨hwell, hfold⟩ := foldl_pushComponent (wellFormed_start _ hletter) hcomponents
  refine ⟨hwell, ?_⟩
  have hstart : ∀ s, pushComponent (readRoot (replaceSeparators path)).1.absolute s [] = s :=
    fun s => if_pos (.inl rfl)
  have hbody : ((splitPrefix (replaceSeparators path)).2.1.splitOn '/').foldl
      (pushComponent (readRoot (replaceSeparators path)).1.absolute) [] =
        (location path).components := by
    obtain hrest | hrest := hrest
    · rw [hrest]
      exact hfold
    · rw [hrest, foldl_splitOn_dropWhile _ hstart]
      exact hfold
  have hlocation : (location path).root = (readRoot (replaceSeparators path)).1 :=
    root_follow _ _
  rw [normalizePath, Location.render, hlocation, ← hroot, ← hbody, ← hrooted]

/-! ### Reading back -/

theorem foldl_replicate_dots (root : Root) (habsolute : root.absolute = false) (n ups : ℕ) :
    (replicate n ['.', '.']).foldl Location.step ⟨root, ups, []⟩ = ⟨root, ups + n, []⟩ := by
  induction n generalizing ups with
  | zero => rfl
  | succ n ih =>
      have hstep : Location.step ⟨root, ups, []⟩ ['.', '.'] = ⟨root, ups + 1, []⟩ := by
        simp [Location.step, habsolute]
      rw [replicate_succ, foldl_cons, hstep, ih]
      rw [show ups + 1 + n = ups + (n + 1) by omega]

theorem foldl_names (root : Root) (ups : ℕ) {names : List Text}
    (hnames : ∀ name ∈ names, IsName name) (before : List Text) :
    names.foldl Location.step ⟨root, ups, before⟩ = ⟨root, ups, before ++ names⟩ := by
  induction names generalizing before with
  | nil => rw [foldl_nil, append_nil]
  | cons name rest ih =>
      obtain ⟨hname, hrest⟩ := forall_mem_cons.mp hnames
      have hstep : Location.step ⟨root, ups, before⟩ name = ⟨root, ups, before ++ [name]⟩ := by
        simp [Location.step, hname.ne_nil, hname.ne_dot, hname.ne_dots]
      rw [foldl_cons, hstep, ih hrest, append_assoc, singleton_append]

theorem Location.follow_components {location : Location} (h : location.WellFormed) :
    follow location.root location.components = location := by
  have hups : (replicate location.ups ['.', '.']).foldl Location.step
      ⟨location.root, 0, []⟩ = ⟨location.root, location.ups, []⟩ := by
    cases habsolute : location.root.absolute with
    | false => simpa using foldl_replicate_dots location.root habsolute location.ups 0
    | true => rw [h.ups habsolute, replicate_zero, foldl_nil]
  rw [follow, components, foldl_append, hups, foldl_names _ _ h.names, nil_append]

/-- A component of a location is not empty and has no separator. -/
theorem Location.WellFormed.component {location : Location} (h : location.WellFormed)
    {component : Text} (hmem : component ∈ location.components) :
    component ≠ [] ∧ '/' ∉ component ∧ '\\' ∉ component := by
  obtain hdots | hname := mem_append.mp hmem
  · obtain rfl := eq_of_mem_replicate hdots
    decide
  · have hname := h.names component hname
    exact ⟨hname.ne_nil, hname.slash, hname.backslash⟩

/-- The names of a location, with separators between them. -/
def Location.body (location : Location) : Text := ['/'].intercalate location.components

theorem Location.follow_body {location : Location} (h : location.WellFormed) :
    follow location.root (location.body.splitOn '/') = location := by
  by_cases hnil : location.components = []
  · have hfollow := follow_components h
    rw [hnil] at hfollow
    rw [body, hnil]
    exact hfollow
  · rw [body, splitOn_intercalate '/' (fun l hl => (h.component hl).2.1) hnil]
    exact follow_components h

/-- What stands at the front of a body: the first component, then a separator or nothing. -/
theorem Location.body_eq {location : Location} {first : Text} {rest : List Text}
    (hcomponents : location.components = first :: rest) :
    ∃ tail, location.body = first ++ tail ∧ tail.head? ≠ some ':' := by
  rw [body, hcomponents]
  cases rest with
  | nil => exact ⟨[], by simp, by simp⟩
  | cons second rest =>
      refine ⟨'/' :: ['/'].intercalate (second :: rest), ?_, by simp⟩
      rw [intercalate_cons_cons, append_assoc, singleton_append]

theorem Location.backslash_not_mem_body {location : Location} (h : location.WellFormed) :
    '\\' ∉ location.body := by
  have hjoin : ∀ components : List Text, (∀ component ∈ components, '\\' ∉ component) →
      '\\' ∉ ['/'].intercalate components := by
    intro components
    induction components with
    | nil => simp
    | cons first rest ih =>
        intro hall
        obtain ⟨hfirst, hrest⟩ := forall_mem_cons.mp hall
        by_cases hnil : rest = []
        · simpa [hnil] using hfirst
        · rw [intercalate_cons_of_ne_nil hnil]
          simp [hfirst, ih hrest]
  exact hjoin _ fun component hmem => (h.component hmem).2.2

theorem replaceSeparators_eq_self {path : Text} (h : '\\' ∉ path) :
    replaceSeparators path = path := by
  have hkeep : ∀ c ∈ path, (if c = '\\' then '/' else c) = id c := by
    intro c hc
    exact if_neg fun heq : c = '\\' => h (heq ▸ hc)
  calc replaceSeparators path = path.map id := map_congr_left hkeep
    _ = path := map_id path

/-- A text begins like a drive when its first component does. -/
theorem driveLike_append {first tail : Text} (hne : first ≠ []) (htail : tail.head? ≠ some ':') :
    DriveLike (first ++ tail) ↔ DriveLike first := by
  constructor
  · intro h
    obtain ⟨c, rest, heq, halpha⟩ := h
    match first, hne with
    | [d], _ =>
        have htail' : tail = ':' :: rest := (cons.inj heq).2
        exact absurd (htail' ▸ rfl) htail
    | d :: e :: more, _ =>
        obtain ⟨hfirst, hrest⟩ := cons.inj heq
        obtain ⟨hsecond, -⟩ := cons.inj hrest
        exact ⟨d, more, by rw [hsecond], hfirst ▸ halpha⟩
  · intro h
    obtain ⟨c, rest, rfl, halpha⟩ := h
    exact ⟨c, rest ++ tail, rfl, halpha⟩

theorem readRoot_drive {first : Char} (halpha : first.isAlpha = true) (rest : Text) :
    readRoot (first :: ':' :: rest) =
      (.drive first.toLower (decide (rest.head? = some '/')), rest) := by
  have hslash : first ≠ '/' := by
    intro heq
    subst heq
    exact absurd halpha (by decide)
  unfold readRoot
  split
  · rename_i heq
    exact absurd (cons.inj heq).1 hslash
  · rename_i heq
    exact absurd (cons.inj heq).1 hslash
  · rename_i heq
    cases heq
    exact if_pos halpha
  · rename_i hnot
    exact absurd rfl (hnot first rest)

theorem readRoot_slash {path : Text} (hslash : path.head? ≠ some '/') :
    readRoot ('/' :: path) = (.slash, path) := by
  unfold readRoot
  split
  · rename_i heq
    rw [(cons.inj heq).2] at hslash
    exact absurd rfl hslash
  · rename_i heq
    rw [(cons.inj heq).2]
  · rename_i hnot heq
    exact absurd (cons.inj heq).1.symm hnot
  · rename_i hnot _
    exact absurd rfl (hnot _)

theorem readRoot_of_not_driveLike {path : Text} (hslash : path.head? ≠ some '/')
    (h : ¬ DriveLike path) : readRoot path = (.none, path) := by
  unfold readRoot
  split
  · simp at hslash
  · simp at hslash
  · rename_i first rest _
    exact if_neg fun halpha => h ⟨first, rest, rfl, halpha⟩
  · rfl

/-- A location with a root that no separator has to follow, or without names. -/
theorem Location.location_of_text {location : Location} (h : location.WellFormed)
    {rest : Text} {text : Text} (hbackslash : '\\' ∉ text)
    (hread : readRoot text = (location.root, rest))
    (hrest : rest = location.body ∨ rest = '/' :: location.body) :
    Determinism.location text = location := by
  rw [Determinism.location, replaceSeparators_eq_self hbackslash, hread]
  obtain rfl | rfl := hrest
  · exact follow_body h
  · have hempty : follow location.root (('/' :: location.body).splitOn '/') =
        follow location.root (location.body.splitOn '/') := by
      rw [splitOn_cons_eq_if_modifyHead, if_pos (by simp), follow, foldl_cons]
      rfl
    exact hempty.trans (follow_body h)

theorem Location.body_eq_nil {location : Location} (h : location.WellFormed)
    (hbody : location.body = []) : location.ups = 0 ∧ location.names = [] := by
  have hnil : location.components = [] := by
    by_contra hne
    obtain ⟨first, rest, hcomponents⟩ := exists_cons_of_ne_nil hne
    obtain ⟨tail, heq, -⟩ := body_eq hcomponents
    rw [hbody] at heq
    have hfirst := (h.component (hcomponents ▸ mem_cons_self)).1
    exact hfirst (append_eq_nil_iff.mp heq.symm).1
  obtain ⟨hups, hnames⟩ := append_eq_nil_iff.mp hnil
  exact ⟨by simpa using hups, hnames⟩

/-- A body begins like a drive just when the location climbs nowhere and its first name does. -/
theorem Location.driveLike_body {location : Location} (h : location.WellFormed) :
    DriveLike location.body ↔
      location.ups = 0 ∧ ∃ name ∈ location.names.head?, DriveLike name := by
  have hnil : location.components = [] → ¬ DriveLike location.body := by
    intro hnil hdrive
    obtain ⟨first, rest, heq, -⟩ := hdrive
    rw [body, hnil] at heq
    cases heq
  cases hups : location.ups with
  | zero =>
      cases hnames : location.names with
      | nil => simpa using hnil (by rw [components, hups, hnames]; rfl)
      | cons name rest =>
          have hcomponents : location.components = name :: rest := by
            rw [components, hups, hnames]
            rfl
          obtain ⟨tail, heq, htail⟩ := body_eq hcomponents
          have hne := (h.component (hcomponents ▸ mem_cons_self)).1
          rw [heq, driveLike_append hne htail]
          simp
  | succ n =>
      have hcomponents : location.components =
          ['.', '.'] :: (replicate n ['.', '.'] ++ location.names) := by
        rw [components, hups, replicate_succ, cons_append]
      obtain ⟨tail, heq, htail⟩ := body_eq hcomponents
      rw [heq, driveLike_append (by simp) htail]
      constructor
      · intro hdrive
        obtain ⟨first, rest, hdots, -⟩ := hdrive
        simp at hdots
      · exact fun hfalse => absurd hfalse.1 (Nat.succ_ne_zero n)

theorem Location.head?_body {location : Location} (h : location.WellFormed) :
    location.body.head? ≠ some '/' := by
  by_cases hnil : location.components = []
  · rw [body, hnil]
    exact fun hnone => nomatch hnone
  · obtain ⟨first, rest, hcomponents⟩ := exists_cons_of_ne_nil hnil
    obtain ⟨tail, heq, -⟩ := body_eq hcomponents
    obtain ⟨hne, hslash, -⟩ := h.component (hcomponents ▸ mem_cons_self)
    rw [heq, head?_append_of_ne_nil first hne]
    exact fun hhead => hslash (mem_of_mem_head? hhead)

/-- The letter of a drive is not a backslash. -/
theorem Location.WellFormed.letter_ne {location : Location} (h : location.WellFormed)
    {letter : Char} {rooted : Bool} (hroot : location.root = .drive letter rooted) :
    letter ≠ '\\' := by
  intro heq
  have halpha := (h.letter letter rooted hroot).1
  rw [heq] at halpha
  exact absurd halpha (by decide)

/-- A location that is plain reads back as it is written. -/
theorem Location.location_render {location : Location} (h : location.WellFormed)
    (plain : location.Plain) : Determinism.location location.render = location := by
  have hbackslash := backslash_not_mem_body h
  rw [render]
  show Determinism.location (joinPrefix location.root.text location.body) = location
  unfold Plain at plain
  cases hroot : location.root with
  | none =>
      rw [hroot] at plain
      by_cases hbody : location.body = []
      · -- nothing is left: the path is written as a dot
        obtain ⟨hups, hnames⟩ := body_eq_nil h hbody
        have hlocation : location = ⟨.none, 0, []⟩ := by
          rw [← hroot, ← hups, ← hnames]
        rw [hbody, hlocation]
        rfl
      · have htext : joinPrefix Root.none.text location.body = location.body := by
          simp [joinPrefix, Root.text, hbody]
        rw [htext]
        refine location_of_text h hbackslash ?_ (.inl rfl)
        rw [hroot]
        refine readRoot_of_not_driveLike (head?_body h) fun hdrive => ?_
        obtain ⟨hups, name, hname, hlike⟩ := (driveLike_body h).mp hdrive
        exact plain hups name hname hlike
  | slash =>
      have htext : joinPrefix Root.slash.text location.body = '/' :: location.body := by
        by_cases hbody : location.body = [] <;> simp [joinPrefix, Root.text, hbody]
      rw [htext]
      refine location_of_text h (by simpa using hbackslash) ?_ (.inl rfl)
      rw [hroot]
      exact readRoot_slash (head?_body h)
  | network =>
      have htext : joinPrefix Root.network.text location.body = '/' :: '/' :: location.body := by
        by_cases hbody : location.body = [] <;> simp [joinPrefix, Root.text, hbody]
      rw [htext]
      refine location_of_text h (by simpa using hbackslash) ?_ (.inl rfl)
      rw [hroot]
      rfl
  | drive letter rooted =>
      -- behind a drive the prefix tells whether the body begins at its root
      obtain ⟨halpha, hlower⟩ := h.letter letter rooted hroot
      have hletter := h.letter_ne hroot
      cases rooted with
      | true =>
          have htext : joinPrefix (Root.drive letter true).text location.body =
              letter :: ':' :: '/' :: location.body := by
            by_cases hbody : location.body = [] <;> simp [joinPrefix, Root.text, hbody]
          rw [htext]
          refine location_of_text h (by simp [hbackslash, Ne.symm hletter]) ?_ (.inr rfl)
          rw [readRoot_drive halpha, hroot, hlower]
          rfl
      | false =>
          rw [hroot] at plain
          have hbody : location.body = [] := by
            rw [body, components, plain.1, plain.2]
            rfl
          have htext : joinPrefix (Root.drive letter false).text location.body =
              [letter, ':'] := by
            simp [joinPrefix, Root.text, hbody]
          rw [htext]
          refine location_of_text h (by simp [Ne.symm hletter]) ?_ (.inl hbody.symm)
          rw [readRoot_drive halpha, hroot, hlower]
          rfl

/-- A location that is not plain is written as one with another root. -/
theorem Location.location_render_ne {location : Location} (h : location.WellFormed)
    (hplain : ¬ location.Plain) : Determinism.location location.render ≠ location := by
  have hbackslash := backslash_not_mem_body h
  have hroot_of : ∀ {text : Text}, '\\' ∉ text →
      (Determinism.location text).root = (readRoot text).1 := by
    intro text htext
    rw [Determinism.location, replaceSeparators_eq_self htext]
    exact root_follow _ _
  intro heq
  have hroot := congrArg Location.root heq
  rw [render] at hroot
  change (Determinism.location (joinPrefix location.root.text location.body)).root =
    location.root at hroot
  unfold Plain at hplain
  cases hkind : location.root with
  | none =>
      rw [hkind] at hplain hroot
      -- the first name is read as a drive
      have hdrive : DriveLike location.body := by
        rw [driveLike_body h]
        push Not at hplain
        exact hplain
      obtain ⟨first, rest, hbody, halpha⟩ := hdrive
      have htext : joinPrefix Root.none.text location.body = location.body := by
        simp [joinPrefix, Root.text, hbody]
      rw [htext, hroot_of hbackslash, hbody, readRoot_drive halpha] at hroot
      cases hroot
  | slash | network =>
      rw [hkind] at hplain
      exact hplain trivial
  | drive letter rooted =>
      obtain ⟨halpha, -⟩ := h.letter letter rooted hkind
      have hletter := h.letter_ne hkind
      rw [hkind] at hplain hroot
      cases rooted with
      | true => exact hplain trivial
      | false =>
          have hbody : location.body ≠ [] := fun hbody => hplain (body_eq_nil h hbody)
          -- the separator after the drive makes the path a rooted one
          have htext : joinPrefix (Root.drive letter false).text location.body =
              letter :: ':' :: '/' :: location.body := by
            simp [joinPrefix, Root.text, hbody]
          rw [htext, hroot_of (by simp [hbackslash, Ne.symm hletter]), readRoot_drive halpha]
            at hroot
          simp at hroot

/-! ### Exactness -/

/-- A path keeps its location when that is plain, and only then. -/
theorem keeps_iff (path : Text) :
    location (normalizePath path) = location path ↔ (location path).Plain := by
  obtain ⟨hwell, hrender⟩ := normalizePath_eq path
  rw [hrender]
  constructor
  · intro heq
    by_contra hplain
    exact Location.location_render_ne hwell hplain heq
  · exact Location.location_render hwell

/-- Paths to the same place have the same normal form. -/
theorem normalizePath_congr {path path' : Text} (h : location path = location path') :
    normalizePath path = normalizePath path' := by
  rw [(normalizePath_eq path).2, (normalizePath_eq path').2, h]

/-- Two paths are normalized well exactly when both have plain locations. -/
theorem normalize_faithful_iff (path path' : Text) :
    Faithful path path' ↔ (location path).Plain ∧ (location path').Plain := by
  constructor
  · intro h
    exact ⟨(keeps_iff path).mp h.keeps, (keeps_iff path').mp h.keeps'⟩
  · intro h
    have keeps := (keeps_iff path).mpr h.1
    have keeps' := (keeps_iff path').mpr h.2
    exact
      { idempotent := normalizePath_congr keeps
        idempotent' := normalizePath_congr keeps'
        keeps := keeps
        keeps' := keeps'
        eq_iff := by
          refine ⟨fun heq => ?_, normalizePath_congr⟩
          calc location path = location (normalizePath path) := keeps.symm
            _ = location (normalizePath path') := by rw [heq]
            _ = location path' := keeps' }

/-- A path relative to a drive gets the normal form of the rooted one. -/
theorem not_faithful_driveRelative :
    normalizePath "c:x".toList = normalizePath "c:/x".toList ∧
      location "c:x".toList ≠ location "c:/x".toList ∧
      ¬ ∀ path path' : Text, Faithful path path' := by
  have hsame : normalizePath "c:x".toList = normalizePath "c:/x".toList := by decide
  have hdiffer : location "c:x".toList ≠ location "c:/x".toList := by decide
  exact ⟨hsame, hdiffer, fun h => hdiffer ((h _ _).eq_iff.mp hsame)⟩

end Jadren.Determinism
