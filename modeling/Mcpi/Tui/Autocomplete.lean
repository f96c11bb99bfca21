import Mathlib.Data.List.DropRight
import Mcpi.Tui.Editor

/-!
# Completion of paths

`autocomplete.ts`: what `CombinedAutocompleteProvider` suggests for a path, writes when a suggestion is taken and
reads before the cursor. Line positions count UTF-16 units.
-/

namespace Mcpi.Tui.Autocomplete

open EditorText (units)
open Editor (trim)

/-! ## Prefixes -/

def quote : UInt16 := 0x22
def atSign : UInt16 := 0x40
def slash : UInt16 := 0x2f
def backslash : UInt16 := 0x5c
def space : UInt16 := 0x20

/-- Space, tab, both quotes and the equals sign -/
def PATH_DELIMITERS : List UInt16 := [space, 0x09, quote, 0x27, 0x3d]

def toDisplayPath (value : Text) : Text := value.map fun u => if u = backslash then slash else u

/-- The last delimiter before a position, which the loop counts down from the end. -/
def findLastDelimiter (text : Text) : (i : Nat) → Option Nat
  | 0 => none
  | i + 1 => if (text[i]?).any (· ∈ PATH_DELIMITERS) then some i else findLastDelimiter text i

def tokenStart (text : Text) : Nat :=
  match findLastDelimiter text text.length with
  | none => 0
  | some lastDelimiterIndex => lastDelimiterIndex + 1

/-- The quote that is open at a position, if any -/
def scanQuotes : Text → (i : Nat) → (quoteStart : Option Nat) → Option Nat
  | [], _, quoteStart => quoteStart
  | u :: rest, i, quoteStart =>
    scanQuotes rest (i + 1) (if u = quote then (if quoteStart.isNone then some i else none) else quoteStart)

def findUnclosedQuoteStart (text : Text) : Option Nat := scanQuotes text 0 none

def isTokenStart (text : Text) (index : Nat) : Bool :=
  index = 0 || (text[index - 1]?).any (· ∈ PATH_DELIMITERS)

def extractQuotedPrefix (text : Text) : Option Text :=
  match findUnclosedQuoteStart text with
  | none => none
  | some quoteStart =>
    if quoteStart > 0 ∧ text[quoteStart - 1]? = some atSign then
      if isTokenStart text (quoteStart - 1) then some (text.drop (quoteStart - 1)) else none
    else if isTokenStart text quoteStart then some (text.drop quoteStart)
    else none

structure PathPrefix where
  rawPrefix : Text
  isAtPrefix : Bool
  isQuotedPrefix : Bool
  deriving DecidableEq

def parsePathPrefix (pathPrefix : Text) : PathPrefix :=
  if [atSign, quote] <+: pathPrefix then ⟨pathPrefix.drop 2, true, true⟩
  else if [quote] <+: pathPrefix then ⟨pathPrefix.drop 1, false, true⟩
  else if [atSign] <+: pathPrefix then ⟨pathPrefix.drop 1, true, false⟩
  else ⟨pathPrefix, false, false⟩

def extractAtPrefix (text : Text) : Option Text :=
  let token := if text[tokenStart text]? = some atSign then some (text.drop (tokenStart text)) else none
  match extractQuotedPrefix text with
  | some quotedPrefix => if [atSign, quote] <+: quotedPrefix then some quotedPrefix else token
  | none => token

/-- A quoted prefix is never empty. -/
def extractPathPrefix (text : Text) (forceExtract : Bool) : Option Text :=
  match extractQuotedPrefix text with
  | some quotedPrefix => some quotedPrefix
  | none =>
    let pathPrefix := text.drop (tokenStart text)
    if forceExtract then some pathPrefix
    else if slash ∈ pathPrefix ∨ units "." <+: pathPrefix ∨ units "~/" <+: pathPrefix then some pathPrefix
    else if pathPrefix = [] ∧ [space] <:+ text then some pathPrefix
    else none

/-- The prefix that `getSuggestions` completes -/
def extractPrefix (text : Text) (force : Bool) : Option Text :=
  match extractAtPrefix text with
  | some atPrefix => some atPrefix
  | none => extractPathPrefix text force

/-! ## Suggestions -/

/-- `node:path` -/
structure NodePath where
  join : Text → Text → Text
  dirname : Text → Text
  basename : Text → Text

structure AutocompleteItem where
  value : Text
  label : Text

def needsQuotes (path : Text) (isQuotedPrefix : Bool) : Bool := isQuotedPrefix || space ∈ path

def buildCompletionValue (path : Text) (isAtPrefix isQuotedPrefix : Bool) : Text :=
  let opening := if isAtPrefix then [atSign] else []
  if needsQuotes path isQuotedPrefix then opening ++ [quote] ++ path ++ [quote] else opening ++ path

/-- The path of an entry, in the way the user began to write it -/
def relativePath (node : NodePath) (displayPrefix name : Text) : Text :=
  if [slash] <:+ displayPrefix then displayPrefix ++ name
  else if slash ∈ displayPrefix ∨ backslash ∈ displayPrefix then
    if units "~/" <+: displayPrefix then
      let dir := node.dirname (displayPrefix.drop 2)
      units "~/" ++ (if dir = units "." then name else node.join dir name)
    else if [slash] <+: displayPrefix then
      let dir := node.dirname displayPrefix
      if dir = [slash] then slash :: name else dir ++ [slash] ++ name
    else
      let relative := node.join (node.dirname displayPrefix) name
      if units "./" <+: displayPrefix ∧ ¬ units "./" <+: relative then units "./" ++ relative else relative
  else if units "~" <+: displayPrefix then units "~/" ++ name
  else name

/-- A directory that `getFileSuggestions` offers -/
def fileSuggestion (node : NodePath) (pathPrefix name : Text) : AutocompleteItem :=
  let parsed := parsePathPrefix pathPrefix
  { value := buildCompletionValue (toDisplayPath (relativePath node parsed.rawPrefix name) ++ [slash])
      parsed.isAtPrefix parsed.isQuotedPrefix
    label := name ++ [slash] }

/-- The part of a query up to its last slash, where the directory exists -/
def displayBase (isDirectory : Text → Bool) (rawQuery : Text) : Text :=
  let base := (toDisplayPath rawQuery).rdropWhile (· ≠ slash)
  if isDirectory base then base else []

/-- A directory that `getFuzzyFileSuggestions` offers, which is found below the base -/
def fuzzySuggestion (node : NodePath) (isDirectory : Text → Bool) (pathPrefix found : Text) : AutocompleteItem :=
  let parsed := parsePathPrefix pathPrefix
  { value := buildCompletionValue
      (displayBase isDirectory parsed.rawPrefix ++ toDisplayPath found ++ [slash]) true parsed.isQuotedPrefix
    label := node.basename (toDisplayPath found) ++ [slash] }

/-- A directory with its path, and the suggestion of it -/
inductive Suggested (node : NodePath) (isDirectory : Text → Bool) (pathPrefix : Text) : Text → AutocompleteItem → Prop
  | file (name : Text) : Suggested node isDirectory pathPrefix
      (relativePath node (parsePathPrefix pathPrefix).rawPrefix name ++ [slash]) (fileSuggestion node pathPrefix name)
  | fuzzy (found : Text) : (parsePathPrefix pathPrefix).isAtPrefix = true → Suggested node isDirectory pathPrefix
      (displayBase isDirectory (parsePathPrefix pathPrefix).rawPrefix ++ found ++ [slash])
      (fuzzySuggestion node isDirectory pathPrefix found)

/-! ## Completion -/

structure Completed where
  lines : List Text
  cursorLine : Nat
  cursorCol : Nat

def isSlashCommand (beforePrefix pathPrefix : Text) : Bool :=
  [slash] <+: pathPrefix && trim beforePrefix = [] && slash ∉ pathPrefix.drop 1

/-- The arguments of a command are completed as paths are. -/
def applyCompletion (lines : List Text) (cursorLine cursorCol : Nat) (item : AutocompleteItem) (pathPrefix : Text) :
    Completed :=
  let currentLine := lines.getD cursorLine []
  let beforePrefix := currentLine.take (cursorCol - pathPrefix.length)
  let afterCursor := currentLine.drop cursorCol
  let isQuotedPrefix := [quote] <+: pathPrefix ∨ [atSign, quote] <+: pathPrefix
  let adjustedAfterCursor :=
    if isQuotedPrefix ∧ [quote] <:+ item.value ∧ [quote] <+: afterCursor then afterCursor.drop 1 else afterCursor
  let isDirectory := [slash] <:+ item.label
  let cursorOffset := if isDirectory ∧ [quote] <:+ item.value then item.value.length - 1 else item.value.length
  if isSlashCommand beforePrefix pathPrefix then
    ⟨lines.set cursorLine (beforePrefix ++ [slash] ++ item.value ++ [space] ++ adjustedAfterCursor), cursorLine,
      beforePrefix.length + item.value.length + 2⟩
  else if [atSign] <+: pathPrefix then
    let suffix := if isDirectory then [] else [space]
    ⟨lines.set cursorLine (beforePrefix ++ item.value ++ suffix ++ adjustedAfterCursor), cursorLine,
      beforePrefix.length + cursorOffset + suffix.length⟩
  else
    ⟨lines.set cursorLine (beforePrefix ++ item.value ++ adjustedAfterCursor), cursorLine,
      beforePrefix.length + cursorOffset⟩

/-! ## What is read again -/

/-- The path is read with its `@`, and quoted if it was. -/
def ReadsBack (text : Text) (force : Bool) (typed : PathPrefix) (path : Text) : Prop :=
  ∃ read, (extractPrefix text force).map parsePathPrefix = some read ∧ read.rawPrefix = path ∧
    read.isAtPrefix = typed.isAtPrefix ∧ (typed.isQuotedPrefix = true → read.isQuotedPrefix = true)

/-- Nothing in a path, nor where it is written, is taken for something else. -/
structure Readable (before pathPrefix path : Text) : Prop where
  command : isSlashCommand before pathPrefix = false
  backslash : backslash ∉ path
  quote : quote ∉ path
  delimiters : needsQuotes path (parsePathPrefix pathPrefix).isQuotedPrefix = false → ∀ u ∈ path, u ∉ PATH_DELIMITERS
  atSign : (parsePathPrefix pathPrefix).isAtPrefix = false → path[tokenStart path]? ≠ some atSign

/-! ## Delimiters -/

section Reading

variable {text before path typed : Text} {a b : Text} {d : UInt16}

theorem findLastDelimiter_none (h : ∀ u ∈ text, u ∉ PATH_DELIMITERS) (i : Nat) : findLastDelimiter text i = none := by
  induction i with
  | zero => rfl
  | succ i ih =>
    rw [findLastDelimiter, if_neg, ih]
    cases hget : text[i]? with
    | none => exact Bool.false_ne_true
    | some u =>
      rw [Option.any_some, decide_eq_true_eq]
      exact h u (List.mem_of_getElem? hget)

theorem findLastDelimiter_split (hd : d ∈ PATH_DELIMITERS) (hb : ∀ u ∈ b, u ∉ PATH_DELIMITERS) :
    ∀ j ≤ b.length, findLastDelimiter (a ++ d :: b) (a.length + 1 + j) = some a.length := by
  intro j hj
  induction j with
  | zero =>
    rw [Nat.add_zero, findLastDelimiter, List.getElem?_append_right (Nat.le_refl _), Nat.sub_self,
      List.getElem?_cons_zero, if_pos (by rw [Option.any_some]; exact decide_eq_true hd)]
  | succ j ih =>
    rw [← Nat.add_assoc, findLastDelimiter, List.getElem?_append_right (by omega),
      show a.length + 1 + j - a.length = j + 1 by omega, List.getElem?_cons_succ,
      List.getElem?_eq_getElem (Nat.lt_of_succ_le hj), if_neg, ih (Nat.le_of_succ_le hj)]
    rw [Option.any_some, decide_eq_true_eq]
    exact hb _ (List.getElem_mem _)

theorem last_cases (kind : UInt16 → Prop) (text : Text) : (∀ u ∈ text, ¬ kind u) ∨
    ∃ a d b, text = a ++ d :: b ∧ kind d ∧ ∀ u ∈ b, ¬ kind u := by
  induction text with
  | nil => exact .inl nofun
  | cons u text ih =>
    rcases ih with hclean | ⟨a, d, b, rfl, hd, hb⟩
    · by_cases hu : kind u
      · exact .inr ⟨[], u, text, rfl, hu, hclean⟩
      · exact .inl (List.forall_mem_cons.mpr ⟨hu, hclean⟩)
    · exact .inr ⟨u :: a, d, b, rfl, hd, hb⟩

theorem tokenStart_clean (h : ∀ u ∈ text, u ∉ PATH_DELIMITERS) : tokenStart text = 0 := by
  rw [tokenStart, findLastDelimiter_none h]

theorem tokenStart_split (hd : d ∈ PATH_DELIMITERS) (hb : ∀ u ∈ b, u ∉ PATH_DELIMITERS) :
    tokenStart (a ++ d :: b) = a.length + 1 := by
  rw [tokenStart, List.length_append, List.length_cons,
    show a.length + (b.length + 1) = a.length + 1 + b.length by omega,
    findLastDelimiter_split hd hb b.length (Nat.le_refl _)]

/-- What is before a delimiter does not change the token after it. -/
theorem tokenStart_delimiter (hd : d ∈ PATH_DELIMITERS) (b : Text) :
    tokenStart (a ++ d :: b) = a.length + 1 + tokenStart b := by
  rcases last_cases (· ∈ PATH_DELIMITERS) b with hclean | ⟨a', d', b', rfl, hd', hb'⟩
  · rw [tokenStart_split hd hclean, tokenStart_clean hclean]
  · rw [tokenStart_split hd' hb', ← List.cons_append, ← List.append_assoc, tokenStart_split hd' hb', List.length_append,
      List.length_cons]
    omega

/-- A token start is the start of the text or after a delimiter. -/
theorem tokenStart_append (htoken : isTokenStart before before.length = true) (b : Text) :
    tokenStart (before ++ b) = before.length + tokenStart b := by
  rcases List.eq_nil_or_concat before with rfl | ⟨a, d, rfl⟩
  · rw [List.nil_append, List.length_nil, Nat.zero_add]
  · rw [List.concat_eq_append] at htoken ⊢
    have hd : d ∈ PATH_DELIMITERS := by
      rw [isTokenStart] at htoken
      simpa using htoken
    rw [List.append_assoc, List.singleton_append, tokenStart_delimiter hd, List.length_append, List.length_singleton]

/-! ## Quotes -/

theorem scanQuotes_append (i : Nat) (quoteStart : Option Nat) :
    scanQuotes (a ++ b) i quoteStart = scanQuotes b (i + a.length) (scanQuotes a i quoteStart) := by
  induction a generalizing i quoteStart with
  | nil => rfl
  | cons u a ih =>
    rw [List.cons_append, scanQuotes, ih, scanQuotes, List.length_cons, Nat.add_assoc, Nat.add_comm 1]

theorem scanQuotes_clean (hb : quote ∉ b) (i : Nat) (quoteStart : Option Nat) :
    scanQuotes b i quoteStart = quoteStart := by
  induction b generalizing i with
  | nil => rfl
  | cons u b ih =>
    rw [List.mem_cons, not_or] at hb
    rw [scanQuotes, if_neg (Ne.symm hb.1), ih hb.2]

theorem findUnclosedQuoteStart_append (hb : quote ∉ b) :
    findUnclosedQuoteStart (a ++ b) = findUnclosedQuoteStart a := by
  rw [findUnclosedQuoteStart, scanQuotes_append, scanQuotes_clean hb]
  rfl

/-- The last quote opens one just if none was open. -/
theorem findUnclosedQuoteStart_quote (hb : quote ∉ b) : findUnclosedQuoteStart (a ++ quote :: b) =
    if (findUnclosedQuoteStart a).isNone then some a.length else none := by
  rw [findUnclosedQuoteStart, scanQuotes_append, scanQuotes, if_pos rfl, scanQuotes_clean hb, Nat.zero_add]
  rfl

/-! ## What is extracted -/

theorem not_at_quote (b : Text) : ¬ [atSign, quote] <+: quote :: b := by
  rw [List.cons_prefix_cons]
  exact fun h => absurd h.1 (by decide)

theorem parsePathPrefix_quote (b : Text) : parsePathPrefix (quote :: b) = ⟨b, false, true⟩ := by
  rw [parsePathPrefix, if_neg (not_at_quote b), if_pos (List.cons_prefix_cons.mpr ⟨rfl, List.nil_prefix⟩)]
  rfl

theorem parsePathPrefix_at_quote (b : Text) : parsePathPrefix (atSign :: quote :: b) = ⟨b, true, true⟩ := by
  rw [parsePathPrefix, if_pos (List.cons_prefix_cons.mpr ⟨rfl, List.cons_prefix_cons.mpr ⟨rfl, List.nil_prefix⟩⟩)]
  rfl

theorem parsePathPrefix_at (hb : quote ∉ b) : parsePathPrefix (atSign :: b) = ⟨b, true, false⟩ := by
  have hat : ¬ [atSign, quote] <+: atSign :: b := fun h =>
    hb ((List.cons_prefix_cons.mp h).2.subset List.mem_cons_self)
  have hquote : ¬ [quote] <+: atSign :: b := by
    rw [List.cons_prefix_cons]
    exact fun h => absurd h.1 (by decide)
  rw [parsePathPrefix, if_neg hat, if_neg hquote, if_pos (List.cons_prefix_cons.mpr ⟨rfl, List.nil_prefix⟩)]
  rfl

theorem parsePathPrefix_plain (hquote : quote ∉ path) (hat : path.head? ≠ some atSign) :
    parsePathPrefix path = ⟨path, false, false⟩ := by
  have hstart : ∀ u rest, u :: rest <+: path → path.head? = some u := by
    rintro u rest ⟨more, rfl⟩
    rfl
  rw [parsePathPrefix, if_neg fun h => hat (hstart _ _ h), if_neg fun h => hquote (h.subset List.mem_cons_self),
    if_neg fun h => hat (hstart _ _ h)]

theorem parsePathPrefix_isAt (h : text.head? = some atSign) : (parsePathPrefix text).isAtPrefix = true := by
  cases text with
  | nil => cases h
  | cons u rest =>
    obtain rfl := Option.some.inj h
    rw [parsePathPrefix]
    split
    · rfl
    · have hquote : ¬ [quote] <+: atSign :: rest := by
        rw [List.cons_prefix_cons]
        exact fun h => absurd h.1 (by decide)
      rw [if_neg hquote, if_pos (List.cons_prefix_cons.mpr ⟨rfl, List.nil_prefix⟩)]

theorem rawPrefix_suffix (pathPrefix : Text) : (parsePathPrefix pathPrefix).rawPrefix <:+ pathPrefix := by
  rw [parsePathPrefix]
  split_ifs
  · exact List.drop_suffix 2 pathPrefix
  · exact List.drop_suffix 1 pathPrefix
  · exact List.drop_suffix 1 pathPrefix
  · exact List.suffix_rfl

variable {force : Bool}

theorem extractPrefix_cases (h : extractPrefix text force = some typed) :
    extractQuotedPrefix text = some typed ∨ typed = text.drop (tokenStart text) := by
  rw [extractPrefix, extractAtPrefix, extractPathPrefix] at h
  cases hquoted : extractQuotedPrefix text with
  | none =>
    rw [hquoted] at h
    dsimp only at h
    right
    split_ifs at h <;> exact (Option.some.inj h).symm
  | some quotedPrefix =>
    rw [hquoted] at h
    dsimp only at h
    split_ifs at h
    · exact .inl h
    · exact .inr (Option.some.inj h).symm
    · exact .inl h

/-- A quoted prefix starts at the open quote, or at the at sign before it. -/
theorem extractQuotedPrefix_cases (h : extractQuotedPrefix text = some typed) :
    ∃ quoteStart, findUnclosedQuoteStart text = some quoteStart ∧ (typed = text.drop quoteStart ∨
      0 < quoteStart ∧ text[quoteStart - 1]? = some atSign ∧ typed = text.drop (quoteStart - 1)) := by
  rw [extractQuotedPrefix] at h
  cases hquote : findUnclosedQuoteStart text with
  | none => rw [hquote] at h; cases h
  | some quoteStart =>
    rw [hquote] at h
    dsimp only at h
    refine ⟨quoteStart, rfl, ?_⟩
    split_ifs at h with hat
    · exact .inr ⟨hat.1, hat.2, (Option.some.inj h).symm⟩
    · exact .inl (Option.some.inj h).symm

theorem rawPrefix_suffix_text (h : extractPrefix text force = some typed) :
    (parsePathPrefix typed).rawPrefix <:+ text := by
  refine (rawPrefix_suffix typed).trans ?_
  rcases extractPrefix_cases h with hquoted | rfl
  · obtain ⟨quoteStart, -, rfl | ⟨-, -, rfl⟩⟩ := extractQuotedPrefix_cases hquoted
    · exact List.drop_suffix _ _
    · exact List.drop_suffix _ _
  · exact List.drop_suffix _ _

theorem length_token_le (hd : d ∈ PATH_DELIMITERS) (a b : Text) :
    ((a ++ d :: b).drop (tokenStart (a ++ d :: b))).length ≤ b.length := by
  rw [tokenStart_delimiter hd, List.length_drop, List.length_append, List.length_cons]
  omega

theorem length_rawPrefix_le (hb : quote ∉ b) (h : extractPrefix (a ++ quote :: b) force = some typed) :
    (parsePathPrefix typed).rawPrefix.length ≤ b.length := by
  rcases extractPrefix_cases h with hquoted | rfl
  · obtain ⟨quoteStart, hstart, htyped⟩ := extractQuotedPrefix_cases hquoted
    rw [findUnclosedQuoteStart_quote hb] at hstart
    obtain ⟨-, heq⟩ := Option.ite_none_right_eq_some.mp hstart
    obtain rfl := Option.some.inj heq
    rcases htyped with rfl | ⟨hpos, hat, rfl⟩
    · rw [List.drop_left, parsePathPrefix_quote]
    · rcases List.eq_nil_or_concat a with rfl | ⟨before, u, rfl⟩
      · cases hpos
      · rw [List.concat_eq_append, List.length_append, List.length_singleton, Nat.add_sub_cancel, List.append_assoc,
          List.singleton_append] at hat ⊢
        rw [List.getElem?_append_right (Nat.le_refl _), Nat.sub_self, List.getElem?_cons_zero] at hat
        rw [List.drop_left, Option.some.inj hat, parsePathPrefix_at_quote]
  · exact (rawPrefix_suffix _).length_le.trans (length_token_le (by decide) a b)

/-- What stands before the cursor after a completion -/
def opened (isAtPrefix quoted : Bool) (path : Text) : Text :=
  (if isAtPrefix then [atSign] else []) ++ if quoted then quote :: path else path

theorem path_suffix_opened (isAtPrefix quoted : Bool) (path : Text) : path <:+ opened isAtPrefix quoted path := by
  refine List.IsSuffix.trans ?_ (List.suffix_append _ _)
  split
  · exact List.suffix_cons quote path
  · exact List.suffix_rfl

theorem not_readsBack_of_short {parsed : PathPrefix} (h : ∀ pathPrefix, extractPrefix text force = some pathPrefix →
      (parsePathPrefix pathPrefix).rawPrefix.length < path.length) : ¬ ReadsBack text force parsed path := by
  rintro ⟨read, hread, rfl, -, -⟩
  obtain ⟨pathPrefix, hextract, rfl⟩ := Option.map_eq_some_iff.mp hread
  exact Nat.lt_irrefl _ (h pathPrefix hextract)

/-- The last token is tried as an at prefix, unless a quoted one is found. -/
theorem extractAtPrefix_token (text : Text)
    (hquoted : ∀ q, extractQuotedPrefix text = some q → ¬ [atSign, quote] <+: q) :
    extractAtPrefix text =
      if text[tokenStart text]? = some atSign then some (text.drop (tokenStart text)) else none := by
  rw [extractAtPrefix]
  cases hextract : extractQuotedPrefix text with
  | none => rfl
  | some q =>
    dsimp only
    rw [if_neg (hquoted q hextract)]

/-! ## After a token start -/

section Start

variable (htoken : isTokenStart before before.length = true) (hclosed : findUnclosedQuoteStart before = none)
include hclosed

theorem extractQuotedPrefix_none (hb : quote ∉ b) : extractQuotedPrefix (before ++ b) = none := by
  rw [extractQuotedPrefix, findUnclosedQuoteStart_append hb, hclosed]

include htoken

theorem isTokenStart_append (b : Text) : isTokenStart (before ++ b) before.length = true := by
  rcases List.eq_nil_or_concat before with rfl | ⟨a, d, rfl⟩
  · rfl
  · rw [List.concat_eq_append] at htoken ⊢
    rw [isTokenStart] at htoken ⊢
    rw [List.append_assoc]
    simpa using htoken

theorem not_atSign_before (b : Text) : ¬ (before.length > 0 ∧ (before ++ b)[before.length - 1]? = some atSign) := by
  rintro ⟨hpos, hat⟩
  rcases List.eq_nil_or_concat before with rfl | ⟨a, d, rfl⟩
  · cases hpos
  · rw [List.concat_eq_append, isTokenStart] at htoken
    rw [List.concat_eq_append, List.length_append, List.length_singleton, Nat.add_sub_cancel, List.append_assoc,
      List.getElem?_append_right (Nat.le_refl _), Nat.sub_self, List.singleton_append, List.getElem?_cons_zero] at hat
    obtain rfl := Option.some.inj hat
    simp [atSign, PATH_DELIMITERS, space, quote] at htoken

theorem extractQuotedPrefix_quote (hpath : quote ∉ path) :
    extractQuotedPrefix (before ++ quote :: path) = some (quote :: path) := by
  rw [extractQuotedPrefix, findUnclosedQuoteStart_quote hpath, hclosed]
  dsimp only [Option.isNone_none, if_pos]
  rw [if_pos rfl]
  dsimp only
  rw [if_neg (not_atSign_before htoken hclosed _), if_pos (isTokenStart_append htoken hclosed _), List.drop_left]

theorem extractQuotedPrefix_at_quote (hpath : quote ∉ path) :
    extractQuotedPrefix (before ++ atSign :: quote :: path) = some (atSign :: quote :: path) := by
  have hsplit : before ++ atSign :: quote :: path = before ++ [atSign] ++ quote :: path := by simp
  have hstart : findUnclosedQuoteStart (before ++ [atSign]) = none := by
    rw [findUnclosedQuoteStart_append (by decide), hclosed]
  have hat : (before ++ atSign :: quote :: path)[before.length]? = some atSign := by
    rw [List.getElem?_append_right (Nat.le_refl _), Nat.sub_self, List.getElem?_cons_zero]
  rw [extractQuotedPrefix, hsplit, findUnclosedQuoteStart_quote hpath, hstart, ← hsplit, List.length_append,
    List.length_singleton]
  dsimp only [Option.isNone_none]
  rw [if_pos rfl]
  dsimp only
  rw [Nat.add_sub_cancel, if_pos ⟨Nat.succ_pos _, hat⟩, if_pos (isTokenStart_append htoken hclosed _), List.drop_left]

omit hclosed in
/-- The last token of a path without an at sign is its own one. -/
theorem tokenAt_opened (quoted : Bool) (path : Text) :
    (before ++ opened false quoted path)[tokenStart (before ++ opened false quoted path)]? =
      path[tokenStart path]? := by
  cases quoted with
  | false =>
    change (before ++ path)[tokenStart (before ++ path)]? = _
    rw [tokenStart_append htoken, List.getElem?_append_right (Nat.le_add_right _ _), Nat.add_sub_cancel_left]
  | true =>
    change (before ++ quote :: path)[tokenStart (before ++ quote :: path)]? = _
    rw [tokenStart_delimiter (by decide), List.getElem?_append_right (by omega),
      show before.length + 1 + tokenStart path - before.length = tokenStart path + 1 by omega, List.getElem?_cons_succ]

theorem quotedPrefix_opened (hquote : quote ∉ path) (quoted : Bool) :
    ∀ q, extractQuotedPrefix (before ++ opened false quoted path) = some q → ¬ [atSign, quote] <+: q := by
  intro q hq
  cases quoted with
  | false =>
    change extractQuotedPrefix (before ++ path) = some q at hq
    rw [extractQuotedPrefix_none hclosed hquote] at hq
    cases hq
  | true =>
    change extractQuotedPrefix (before ++ quote :: path) = some q at hq
    rw [extractQuotedPrefix_quote htoken hclosed hquote] at hq
    rw [← Option.some.inj hq]
    exact not_at_quote path

/-- **A path is read again** just if nothing in it is taken for something else. -/
theorem readsBack_iff (force : Bool) (parsed : PathPrefix) (hslash : slash ∈ path) :
    ReadsBack (before ++ opened parsed.isAtPrefix (needsQuotes path parsed.isQuotedPrefix) path) force parsed path ↔
      quote ∉ path ∧ (needsQuotes path parsed.isQuotedPrefix = false → ∀ u ∈ path, u ∉ PATH_DELIMITERS) ∧
        (parsed.isAtPrefix = false → path[tokenStart path]? ≠ some atSign) := by
  constructor
  · intro h
    have hquote : quote ∉ path := by
      rcases last_cases (· = quote) path with hnone | ⟨a, d, b, hsplit, rfl, hb⟩
      · exact fun hmem => hnone quote hmem rfl
      · intro
        obtain ⟨start, hstart⟩ := path_suffix_opened parsed.isAtPrefix (needsQuotes path parsed.isQuotedPrefix) path
        refine not_readsBack_of_short (fun pathPrefix hextract => ?_) h
        rw [← hstart, hsplit, ← List.append_assoc, ← List.append_assoc] at hextract
        have hle := length_rawPrefix_le (fun hmem => hb quote hmem rfl) hextract
        rw [hsplit, List.length_append, List.length_cons]
        omega
    refine ⟨hquote, fun hneeds => ?_, fun hat htokenAt => ?_⟩
    · rcases last_cases (· ∈ PATH_DELIMITERS) path with hnone | ⟨a, d, b, hsplit, hd, hb⟩
      · exact hnone
      · refine absurd h (not_readsBack_of_short fun pathPrefix hextract => ?_)
        have hnone : extractQuotedPrefix (before ++ opened parsed.isAtPrefix false path) = none := by
          refine extractQuotedPrefix_none hclosed ?_
          rw [opened, if_neg Bool.false_ne_true, List.mem_append, not_or]
          exact ⟨by split <;> decide, hquote⟩
        rw [hneeds] at hextract
        rcases extractPrefix_cases hextract with hquoted | rfl
        · rw [hnone] at hquoted
          cases hquoted
        · obtain ⟨start, hstart⟩ := path_suffix_opened parsed.isAtPrefix false path
          rw [← hstart, hsplit, ← List.append_assoc, ← List.append_assoc]
          have hle := (rawPrefix_suffix _).length_le.trans (length_token_le hd (before ++ start ++ a) b)
          rw [List.length_append, List.length_cons]
          omega
    · -- a token of the path with an at sign is tried before the path
      obtain ⟨read, hread, -, hisAt, -⟩ := h
      rw [hat] at hread hisAt
      have hextract := extractAtPrefix_token (before ++ opened false (needsQuotes path parsed.isQuotedPrefix) path)
        (quotedPrefix_opened htoken hclosed hquote _)
      rw [tokenAt_opened htoken, htokenAt, if_pos rfl] at hextract
      rw [extractPrefix, hextract, Option.map_some] at hread
      rw [← Option.some.inj hread, parsePathPrefix_isAt (by
        rw [List.head?_drop, tokenAt_opened htoken, htokenAt])] at hisAt
      cases hisAt
  · rintro ⟨hquote, hclean, hat⟩
    cases hneeds : needsQuotes path parsed.isQuotedPrefix with
    | false =>
      have hpath := hclean hneeds
      have hunquoted : parsed.isQuotedPrefix = false := by
        rw [needsQuotes, Bool.or_eq_false_iff] at hneeds
        exact hneeds.1
      cases hisAt : parsed.isAtPrefix with
      | true =>
        have hnone : extractQuotedPrefix (before ++ atSign :: path) = none :=
          extractQuotedPrefix_none hclosed (by rw [List.mem_cons, not_or]; exact ⟨by decide, hquote⟩)
        have hstart : tokenStart (before ++ atSign :: path) = before.length := by
          rw [tokenStart_append htoken, tokenStart_clean (List.forall_mem_cons.mpr ⟨by decide, hpath⟩), Nat.add_zero]
        have hextract := extractAtPrefix_token (before ++ atSign :: path) (by rw [hnone]; nofun)
        rw [hstart, List.getElem?_append_right (Nat.le_refl _), Nat.sub_self, List.getElem?_cons_zero, if_pos rfl,
          List.drop_left] at hextract
        refine ⟨⟨path, true, false⟩, ?_, rfl, hisAt.symm, fun h => absurd (hunquoted.symm.trans h) (by decide)⟩
        change (extractPrefix (before ++ atSign :: path) force).map parsePathPrefix = _
        rw [extractPrefix, hextract, Option.map_some, parsePathPrefix_at hquote]
      | false =>
        have hnone := extractQuotedPrefix_none hclosed hquote
        have hstart : tokenStart (before ++ path) = before.length := by
          rw [tokenStart_append htoken, tokenStart_clean hpath, Nat.add_zero]
        have hhead : path.head? ≠ some atSign := by
          have hne := hat hisAt
          rwa [tokenStart_clean hpath, ← List.head?_eq_getElem?] at hne
        have hextract := extractAtPrefix_token (before ++ path) (by rw [hnone]; nofun)
        rw [hstart, List.getElem?_append_right (Nat.le_refl _), Nat.sub_self, ← List.head?_eq_getElem?,
          if_neg hhead] at hextract
        refine ⟨⟨path, false, false⟩, ?_, rfl, hisAt.symm, fun h => absurd (hunquoted.symm.trans h) (by decide)⟩
        change (extractPrefix (before ++ path) force).map parsePathPrefix = _
        rw [extractPrefix, hextract, extractPathPrefix, hnone]
        dsimp only
        rw [hstart, List.drop_left, if_pos (Or.inl hslash), ite_self, Option.map_some,
          parsePathPrefix_plain hquote hhead]
    | true =>
      cases hisAt : parsed.isAtPrefix with
      | true =>
        refine ⟨⟨path, true, true⟩, ?_, rfl, hisAt.symm, fun _ => rfl⟩
        change (extractPrefix (before ++ atSign :: quote :: path) force).map parsePathPrefix = _
        rw [extractPrefix, extractAtPrefix, extractQuotedPrefix_at_quote htoken hclosed hquote]
        dsimp only
        rw [if_pos (List.cons_prefix_cons.mpr ⟨rfl, List.cons_prefix_cons.mpr ⟨rfl, List.nil_prefix⟩⟩), Option.map_some,
          parsePathPrefix_at_quote]
      | false =>
        have hextract := extractAtPrefix_token (before ++ opened false true path)
          (quotedPrefix_opened htoken hclosed hquote true)
        rw [tokenAt_opened htoken, if_neg (hat hisAt)] at hextract
        refine ⟨⟨path, false, true⟩, ?_, rfl, hisAt.symm, fun _ => rfl⟩
        rw [extractPrefix, hextract, extractPathPrefix]
        change (match extractQuotedPrefix (before ++ quote :: path) with
          | some quotedPrefix => some quotedPrefix
          | none => _).map parsePathPrefix = _
        rw [extractQuotedPrefix_quote htoken hclosed hquote, Option.map_some, parsePathPrefix_quote]

end Start

end Reading

/-! ## What a suggestion writes -/

section Completion

variable {node : NodePath} {isDirectory : Text → Bool} {pathPrefix path before after : Text} {item : AutocompleteItem}
  {lines : List Text} {cursorLine : Nat}

theorem toDisplayPath_append (a b : Text) : toDisplayPath (a ++ b) = toDisplayPath a ++ toDisplayPath b :=
  List.map_append

theorem toDisplayPath_eq (h : backslash ∉ path) : toDisplayPath path = path := by
  refine (List.map_congr_left fun u hu => if_neg ?_).trans (List.map_id path)
  rintro rfl
  exact h hu

theorem backslash_notMem_toDisplayPath (path : Text) : backslash ∉ toDisplayPath path := by
  intro hmem
  obtain ⟨u, -, hu⟩ := List.mem_map.mp hmem
  split at hu
  · exact absurd hu (by decide)
  next hne => exact hne (hu : u = backslash)

theorem toDisplayPath_displayBase (rawQuery : Text) :
    toDisplayPath (displayBase isDirectory rawQuery) = displayBase isDirectory rawQuery := by
  refine toDisplayPath_eq fun hmem => ?_
  rw [displayBase] at hmem
  split at hmem
  · exact backslash_notMem_toDisplayPath rawQuery ((List.rdropWhile_prefix _ _).subset hmem)
  · cases hmem

/-- A suggestion is the path as it is shown, with a slash at its end. -/
theorem Suggested.value_eq (h : Suggested node isDirectory pathPrefix path item) :
    item.value = buildCompletionValue (toDisplayPath path) (parsePathPrefix pathPrefix).isAtPrefix
      (parsePathPrefix pathPrefix).isQuotedPrefix ∧ [slash] <:+ item.label ∧ [slash] <:+ path := by
  cases h with
  | file name =>
    refine ⟨?_, List.suffix_append _ _, List.suffix_append _ _⟩
    rw [toDisplayPath_append]
    rfl
  | fuzzy found hat =>
    refine ⟨?_, List.suffix_append _ _, List.suffix_append _ _⟩
    rw [toDisplayPath_append, toDisplayPath_append, toDisplayPath_displayBase, hat]
    rfl

theorem buildCompletionValue_eq (path : Text) (isAtPrefix isQuotedPrefix : Bool) :
    buildCompletionValue path isAtPrefix isQuotedPrefix = opened isAtPrefix (needsQuotes path isQuotedPrefix) path ++
        if needsQuotes path isQuotedPrefix then [quote] else [] := by
  rw [buildCompletionValue, opened]
  split <;> simp

theorem suffix_toDisplayPath (h : [slash] <:+ path) : [slash] <:+ toDisplayPath path := by
  obtain ⟨start, rfl⟩ := h
  rw [toDisplayPath_append]
  exact List.suffix_append _ _

theorem not_quote_suffix {text : Text} (h : [slash] <:+ text) : ¬ [quote] <:+ text := by
  obtain ⟨start, rfl⟩ := h
  rintro ⟨start', heq⟩
  exact absurd (List.append_inj_right' heq rfl) (by decide)

theorem applyCompletion_line (hlabel : [slash] <:+ item.label)
    (hline : lines[cursorLine]? = some (before ++ pathPrefix ++ after)) :
    ∃ rest, (rest = after ∨ after = quote :: rest ∧ [quote] <:+ item.value) ∧
      applyCompletion lines cursorLine (before ++ pathPrefix).length item pathPrefix =
        if isSlashCommand before pathPrefix then
          ⟨lines.set cursorLine (before ++ [slash] ++ item.value ++ [space] ++ after), cursorLine,
            before.length + item.value.length + 2⟩
        else
          ⟨lines.set cursorLine (before ++ item.value ++ rest), cursorLine,
            before.length + if [quote] <:+ item.value then item.value.length - 1 else item.value.length⟩ := by
  have hget : lines.getD cursorLine [] = before ++ pathPrefix ++ after := by
    rw [List.getD_eq_getElem?_getD, hline, Option.getD_some]
  have htake : (before ++ pathPrefix ++ after).take ((before ++ pathPrefix).length - pathPrefix.length) = before := by
    rw [List.length_append, Nat.add_sub_cancel, List.append_assoc, List.take_left]
  rw [applyCompletion, hget]
  rw [htake, List.drop_left]
  refine ⟨if ([quote] <+: pathPrefix ∨ [atSign, quote] <+: pathPrefix) ∧ [quote] <:+ item.value ∧ [quote] <+: after
      then after.drop 1 else after, ?_, ?_⟩
  · split
    · next hquoted =>
      obtain ⟨rest, rfl⟩ := hquoted.2.2
      exact .inr ⟨rfl, hquoted.2.1⟩
    · exact .inl rfl
  · split
    · next hcommand =>
      rw [if_neg]
      rintro ⟨hquoted, -⟩
      rw [isSlashCommand, Bool.and_eq_true, Bool.and_eq_true, decide_eq_true_eq] at hcommand
      obtain ⟨rest, rfl⟩ := hcommand.1.1
      rcases hquoted with hquoted | hquoted <;> exact absurd (List.cons_prefix_cons.mp hquoted).1 (by decide)
    · simp only [hlabel, true_and, List.append_nil, List.length_nil, Nat.add_zero, ite_self]

/-- **A completed path stays completable** just if it is readable; the rest of the lines stays as it is. -/
theorem completion_readsBack_iff (hsuggested : Suggested node isDirectory pathPrefix path item)
    (htoken : isTokenStart before before.length = true) (hclosed : findUnclosedQuoteStart before = none)
    (hline : lines[cursorLine]? = some (before ++ pathPrefix ++ after)) (force : Bool) :
    ∃ inserted rest cursorCol, applyCompletion lines cursorLine (before ++ pathPrefix).length item pathPrefix =
        ⟨lines.set cursorLine (before ++ inserted ++ rest), cursorLine, cursorCol⟩ ∧
      (rest = after ∨ after = quote :: rest ∧ [quote] <:+ inserted) ∧
      (ReadsBack ((before ++ inserted ++ rest).take cursorCol) force (parsePathPrefix pathPrefix) path ↔
        Readable before pathPrefix path) := by
  obtain ⟨hvalue, hlabel, hslash⟩ := hsuggested.value_eq
  obtain ⟨rest, hrest, happly⟩ := applyCompletion_line hlabel hline
  rw [happly]
  cases hcommand : isSlashCommand before pathPrefix with
  | true =>
    refine ⟨slash :: item.value ++ [space], after, before.length + item.value.length + 2, by simp, .inl rfl,
      iff_of_false ?_ fun h => absurd (h.command.symm.trans hcommand) (by decide)⟩
    -- what is read ends in the space that was written
    rintro ⟨read, hread, hpath, -⟩
    obtain ⟨extracted, hextract, rfl⟩ := Option.map_eq_some_iff.mp hread
    have hsuffix := hslash.trans (hpath ▸ rawPrefix_suffix_text hextract)
    rw [List.take_left' (by simp; omega), ← List.append_assoc] at hsuffix
    obtain ⟨start, heq⟩ := hsuffix
    exact absurd (List.append_inj_right' heq rfl) (by decide)
  | false =>
    rw [if_neg Bool.false_ne_true]
    refine ⟨item.value, rest, _, rfl, hrest, ?_⟩
    have hopened : item.value.take (if [quote] <:+ item.value then item.value.length - 1 else item.value.length) =
        opened (parsePathPrefix pathPrefix).isAtPrefix
          (needsQuotes (toDisplayPath path) (parsePathPrefix pathPrefix).isQuotedPrefix) (toDisplayPath path) := by
      rw [hvalue, buildCompletionValue_eq]
      split
      · rw [if_pos (List.suffix_append _ _), List.length_append, List.length_singleton, Nat.add_sub_cancel,
          List.take_left]
      · rw [List.append_nil, if_neg, List.take_length]
        exact not_quote_suffix ((suffix_toDisplayPath hslash).trans (path_suffix_opened _ _ _))
    rw [List.append_assoc, List.take_append, List.take_of_length_le (Nat.le_add_right _ _), Nat.add_sub_cancel_left,
      List.take_append_of_le_length (by split <;> omega), hopened]
    by_cases hbackslash : backslash ∈ path
    · refine iff_of_false ?_ fun h => h.backslash hbackslash
      rintro ⟨read, hread, hpath, -⟩
      obtain ⟨extracted, hextract, rfl⟩ := Option.map_eq_some_iff.mp hread
      have hsuffix := hpath ▸ rawPrefix_suffix_text hextract
      have hshown := (path_suffix_opened (parsePathPrefix pathPrefix).isAtPrefix
        (needsQuotes (toDisplayPath path) (parsePathPrefix pathPrefix).isQuotedPrefix) (toDisplayPath path)).trans
          (List.suffix_append before _)
      have hlength : path.length = (toDisplayPath path).length := (List.length_map _).symm
      have heq := (List.suffix_of_suffix_length_le hsuffix hshown hlength.le).eq_of_length hlength
      exact backslash_notMem_toDisplayPath path (heq ▸ hbackslash)
    · rw [toDisplayPath_eq hbackslash, readsBack_iff htoken hclosed force _ (hslash.subset List.mem_cons_self)]
      constructor
      · rintro ⟨hquote, hdelimiters, hat⟩
        exact ⟨hcommand, hbackslash, hquote, hdelimiters, hat⟩
      · intro h
        exact ⟨h.quote, h.delimiters, h.atSign⟩

end Completion

/-- `path.join`, `dirname` and `basename` of names without a slash -/
private def plainNames : NodePath := ⟨fun _ name => name, fun _ => units ".", id⟩

theorem completion_readsBack_spaced :
    ∃ inserted rest cursorCol, applyCompletion [units "cat my"] 0 (units "cat " ++ units "my").length
        (fileSuggestion plainNames (units "my") (units "my docs")) (units "my") =
          ⟨[units "cat my"].set 0 (units "cat " ++ inserted ++ rest), 0, cursorCol⟩ ∧
      (rest = [] ∨ [] = quote :: rest ∧ [quote] <:+ inserted) ∧
      (ReadsBack ((units "cat " ++ inserted ++ rest).take cursorCol) false (parsePathPrefix (units "my"))
        (units "my docs/") ↔ Readable (units "cat ") (units "my") (units "my docs/")) := by
  have hsuggested : Suggested plainNames (fun _ => true) (units "my") (units "my docs/")
      (fileSuggestion plainNames (units "my") (units "my docs")) := .file (units "my docs")
  exact completion_readsBack_iff hsuggested rfl rfl rfl false

private def textBeforeCursor (completed : Completed) : Text :=
  (completed.lines.getD completed.cursorLine []).take completed.cursorCol

/-- A name with an equals sign is read from there on, and a directory of the root is taken for a command. -/
theorem completion_not_readsBack :
    ¬ ReadsBack (textBeforeCursor (applyCompletion [units "cat a"] 0 5
        (fileSuggestion plainNames (units "a") (units "a=b")) (units "a"))) true
        (parsePathPrefix (units "a")) (units "a=b/") ∧
      ¬ ReadsBack (textBeforeCursor (applyCompletion [units "/et"] 0 3
        (fileSuggestion plainNames (units "/et") (units "etc")) (units "/et"))) true
        (parsePathPrefix (units "/et")) (units "/etc/") := by
  constructor
  · rintro ⟨read, hread, hpath, -⟩
    have hb : some read = some ⟨units "b/", false, false⟩ := hread.symm
    rw [Option.some.inj hb] at hpath
    exact absurd hpath (by decide)
  · rintro ⟨read, hread, hpath, -⟩
    have hempty : some read = some ⟨[], false, false⟩ := hread.symm
    rw [Option.some.inj hempty] at hpath
    exact absurd hpath (by decide)

end Mcpi.Tui.Autocomplete
