import Mathlib.Data.List.Basic
import Mcpi.Session.Types

/-!
# Where a session is

The paths of `jsonl/repo.ts`: a session lies in the directory of its working directory, in a file that is named by the
time it was created and by its id.
-/

namespace Mcpi.Session.Jsonl

/-! ## Names -/

def isAlphanumeric (c : Char) : Bool := c.isAlphanum

/-- `SESSION_ID_PATTERN` -/
def SESSION_ID_PATTERN (id : List Char) : Bool :=
  id.head?.any isAlphanumeric && id.getLast?.any isAlphanumeric &&
    id.all fun c => isAlphanumeric c || c = '.' || c = '_' || c = '-'

def validateSessionId (id : String) : Except SessionError Unit :=
  if SESSION_ID_PATTERN id.toList then .ok ()
  else .error ⟨.invalid_payload, "Session id must be non-empty, contain only alphanumeric characters, " ++
    "'-', '_', and '.', and start and end with an alphanumeric character"⟩

/-- `replace(/^[/\\]/, "")` -/
def stripSeparator : List Char → List Char
  | [] => []
  | c :: text => if c = '/' ∨ c = '\\' then text else c :: text

/-- What both kinds of session directories call the directory of a working directory. -/
def directoryName (cwd : String) : List Char :=
  "--".toList ++ (stripSeparator cwd.toList).map (fun c => if c = '/' ∨ c = '\\' ∨ c = ':' then '-' else c) ++
    "--".toList

def jsonlSessionDirectoryName (cwd : String) : String := String.ofList (directoryName cwd)

/-- A number with leading zeros. -/
def padStart (width n : Nat) : List Char :=
  List.replicate (width - (Nat.toDigits 10 n).length) '0' ++ Nat.toDigits 10 n

/-- The year, month and day of a day since the first of January 1970, by the proleptic Gregorian calendar. -/
def civilDate (daysSinceEpoch : Nat) : Nat × Nat × Nat :=
  let days := daysSinceEpoch + 719468
  let dayOfEra := days % 146097
  let yearOfEra := (dayOfEra - dayOfEra / 1460 + dayOfEra / 36524 - dayOfEra / 146096) / 365
  let dayOfYear := dayOfEra - (365 * yearOfEra + yearOfEra / 4 - yearOfEra / 100)
  let shifted := (5 * dayOfYear + 2) / 153
  let month := if shifted < 10 then shifted + 3 else shifted - 9
  (days / 146097 * 400 + yearOfEra + (if month ≤ 2 then 1 else 0), month, dayOfYear - (153 * shifted + 2) / 5 + 1)

def isoYear (year : Nat) : List Char := if year ≤ 9999 then padStart 4 year else '+' :: padStart 6 year

/-- `new Date(time).toISOString()` -/
def toISOString (time : Nat) : List Char :=
  let (year, month, day) := civilDate (time / 86400000)
  isoYear year ++ '-' :: padStart 2 month ++ '-' :: padStart 2 day ++
    'T' :: padStart 2 (time / 3600000 % 24) ++ ':' :: padStart 2 (time / 60000 % 60) ++
    ':' :: padStart 2 (time / 1000 % 60) ++ '.' :: padStart 3 (time % 1000) ++ ['Z']

example : toISOString 1709209845067 = "2024-02-29T12:30:45.067Z".toList := by decide +kernel

/-- The beginning of the name of a session file. -/
def fileTimestamp (createdAt : Nat) : List Char :=
  (toISOString createdAt).map fun c => if c = ':' ∨ c = '.' then '-' else c

def sessionFileName (createdAt : Nat) (id : String) : String :=
  String.ofList (fileTimestamp createdAt ++ '_' :: id.toList ++ ".jsonl".toList)

/-! ## Paths -/

/-- `join` of an absolute path and a name. -/
def joinPath (parent name : String) : String :=
  if parent = "/" then "/" ++ name else parent ++ "/" ++ name

/-- The name of what lies at a path, as seen in a directory. -/
def entryName (directory path : String) : Option String :=
  let before := (joinPath directory "").toList
  if before <+: path.toList ∧ '/' ∉ path.toList.drop before.length then
    some (String.ofList (path.toList.drop before.length))
  else none

/-- The directory of a working directory, as `getDefaultSessionDirPath` of `session-manager.ts` gives it too. -/
def sessionDirectory (root cwd : String) : String := joinPath root (jsonlSessionDirectoryName cwd)

/-- Where the session with an id is, for a working directory. -/
def sessionPath (root cwd : String) (createdAt : Nat) (id : String) : String :=
  joinPath (sessionDirectory root cwd) (sessionFileName createdAt id)

/-! ## Timestamps -/

variable {c : Char}

theorem isDigit_padStart {width n : Nat} (h : c ∈ padStart width n) : c.isDigit = true := by
  rcases List.mem_append.mp h with h | h
  · rw [List.eq_of_mem_replicate h]
    rfl
  · exact Nat.isDigit_of_mem_toDigits (by decide) (by decide) h

theorem underscore_not_mem_padStart (width n : Nat) : '_' ∉ padStart width n := by
  intro h
  have hdigit := isDigit_padStart h
  cases hdigit

theorem slash_not_mem_padStart (width n : Nat) : '/' ∉ padStart width n := by
  intro h
  have hdigit := isDigit_padStart h
  cases hdigit

theorem not_mem_isoYear (h : ∀ width n, c ∉ padStart width n) (hc : c ≠ '+') (year : Nat) : c ∉ isoYear year := by
  rw [isoYear]
  split
  · exact h _ _
  · exact List.not_mem_cons_of_ne_of_not_mem hc (h _ _)

theorem not_mem_toISOString (h : ∀ width n, c ∉ padStart width n)
    (hc : c ∉ ['+', '-', 'T', ':', '.', 'Z']) (time : Nat) : c ∉ toISOString time := by
  simp only [List.mem_cons, List.not_mem_nil, or_false, not_or] at hc
  simp only [toISOString, List.mem_append, List.mem_cons, List.not_mem_nil, or_false, not_or]
  simp [h, hc, not_mem_isoYear h hc.1]

theorem not_mem_fileTimestamp (hc : c ≠ '-') {createdAt : Nat} (h : c ∉ toISOString createdAt) :
    c ∉ fileTimestamp createdAt := by
  rw [fileTimestamp, List.mem_map]
  rintro ⟨d, hd, heq⟩
  split at heq
  · exact hc heq.symm
  · exact h (heq ▸ hd)

theorem underscore_not_mem_fileTimestamp (createdAt : Nat) : '_' ∉ fileTimestamp createdAt :=
  not_mem_fileTimestamp (by decide) (not_mem_toISOString (underscore_not_mem_padStart) (by decide) _)

theorem slash_not_mem_fileTimestamp (createdAt : Nat) : '/' ∉ fileTimestamp createdAt :=
  not_mem_fileTimestamp (by decide) (not_mem_toISOString (slash_not_mem_padStart) (by decide) _)

/-! ## File names -/

theorem slash_not_mem_id {id : String} (h : SESSION_ID_PATTERN id.toList = true) : '/' ∉ id.toList := by
  intro hmem
  rw [SESSION_ID_PATTERN, Bool.and_eq_true, List.all_eq_true] at h
  have hslash := h.2 '/' hmem
  revert hslash
  decide

theorem toList_sessionFileName (createdAt : Nat) (id : String) :
    (sessionFileName createdAt id).toList = fileTimestamp createdAt ++ '_' :: id.toList ++ ".jsonl".toList :=
  String.toList_ofList

theorem slash_not_mem_sessionFileName {id : String} (h : SESSION_ID_PATTERN id.toList = true) (createdAt : Nat) :
    '/' ∉ (sessionFileName createdAt id).toList := by
  rw [toList_sessionFileName]
  simp [slash_not_mem_fileTimestamp, slash_not_mem_id h]

/-- What a file name ends with says the end of the id. -/
theorem suffix_underscore_iff {before id id' : List Char} (h : '_' ∉ before) :
    '_' :: id <:+ before ++ '_' :: id' ↔ id' = id ∨ '_' :: id <:+ id' := by
  constructor
  · rintro ⟨front, heq⟩
    rcases List.append_eq_append_iff.mp heq with ⟨middle, rfl, hrest⟩ | ⟨middle, rfl, hrest⟩
    · cases middle with
      | nil => exact .inl (List.cons.inj hrest).2.symm
      | cons c middle =>
        obtain ⟨rfl, -⟩ := List.cons.inj hrest
        exact absurd (List.mem_append_right _ List.mem_cons_self) h
    · cases middle with
      | nil => exact .inl (List.cons.inj hrest).2
      | cons c middle =>
        obtain ⟨rfl, hid⟩ := List.cons.inj hrest
        exact .inr ⟨middle, hid.symm⟩
  · rintro (rfl | ⟨middle, rfl⟩)
    · exact ⟨before, rfl⟩
    · exact ⟨before ++ '_' :: middle, by simp⟩

theorem suffix_append_iff {a b s : List Char} : a ++ s <:+ b ++ s ↔ a <:+ b := by
  constructor
  · rintro ⟨front, heq⟩
    rw [← List.append_assoc] at heq
    exact ⟨front, List.append_cancel_right heq⟩
  · rintro ⟨front, rfl⟩
    exact ⟨front, by rw [List.append_assoc]⟩

theorem endsWith_sessionFileName_iff (createdAt : Nat) (id id' : String) :
    '_' :: id.toList ++ ".jsonl".toList <:+ (sessionFileName createdAt id').toList ↔
      id' = id ∨ '_' :: id.toList <:+ id'.toList := by
  rw [toList_sessionFileName, suffix_append_iff,
    suffix_underscore_iff (underscore_not_mem_fileTimestamp createdAt), String.toList_inj]

/-- Texts that are cut at the first occurrence of a character. -/
theorem append_cons_inj {a b x y : List Char} (ha : c ∉ a) (hb : c ∉ b)
    (h : a ++ c :: x = b ++ c :: y) : a = b ∧ x = y := by
  rcases List.append_eq_append_iff.mp h with ⟨middle, rfl, hrest⟩ | ⟨middle, rfl, hrest⟩
  · cases middle with
    | nil => exact ⟨(List.append_nil _).symm, (List.cons.inj hrest).2⟩
    | cons d middle =>
      obtain ⟨rfl, -⟩ := List.cons.inj hrest
      exact absurd (List.mem_append_right _ List.mem_cons_self) hb
  · cases middle with
    | nil => exact ⟨List.append_nil _, (List.cons.inj hrest).2.symm⟩
    | cons d middle =>
      obtain ⟨rfl, -⟩ := List.cons.inj hrest
      exact absurd (List.mem_append_right _ List.mem_cons_self) ha

theorem sessionFileName_id {createdAt createdAt' : Nat} {id id' : String}
    (h : sessionFileName createdAt id = sessionFileName createdAt' id') : id = id' := by
  have heq := congrArg String.toList h
  rw [toList_sessionFileName, toList_sessionFileName] at heq
  have hname := append_cons_inj (underscore_not_mem_fileTimestamp createdAt)
    (underscore_not_mem_fileTimestamp createdAt') (List.append_cancel_right heq)
  exact String.toList_inj.mp hname.2

/-! ## Directories -/

theorem toList_joinPath (parent name : String) :
    (joinPath parent name).toList = (joinPath parent "").toList ++ name.toList := by
  unfold joinPath
  split <;> simp

theorem append_slash_inj {a b x y : List Char} (hx : '/' ∉ x) (hy : '/' ∉ y) (h : a ++ '/' :: x = b ++ '/' :: y) :
    a = b ∧ x = y := by
  rcases List.append_eq_append_iff.mp h with ⟨middle, hb, hrest⟩ | ⟨middle, ha, hrest⟩
  · cases middle with
    | nil => exact ⟨by rw [hb, List.append_nil], (List.cons.inj hrest).2⟩
    | cons c middle =>
      obtain ⟨-, rfl⟩ := List.cons.inj hrest
      exact absurd (List.mem_append_right _ List.mem_cons_self) hx
  · cases middle with
    | nil => exact ⟨by rw [ha, List.append_nil], (List.cons.inj hrest).2.symm⟩
    | cons c middle =>
      obtain ⟨-, rfl⟩ := List.cons.inj hrest
      exact absurd (List.mem_append_right _ List.mem_cons_self) hy

theorem entryName_eq_some {directory path name : String} :
    entryName directory path = some name ↔ path = joinPath directory name ∧ '/' ∉ name.toList := by
  rw [entryName]
  constructor
  · intro h
    obtain ⟨hname, h⟩ := Option.ite_none_right_eq_some.mp h
    obtain ⟨⟨rest, hrest⟩, hslash⟩ := hname
    obtain rfl := Option.some.inj h
    rw [← hrest, List.drop_left] at hslash ⊢
    refine ⟨String.toList_inj.mp ?_, by rwa [String.toList_ofList]⟩
    rw [toList_joinPath, String.toList_ofList, hrest]
  · rintro ⟨rfl, hslash⟩
    rw [toList_joinPath directory name, List.drop_left, if_pos ⟨List.prefix_append _ _, hslash⟩, String.ofList_toList]

theorem joinPath_inj {parent name name' : String} (h : joinPath parent name = joinPath parent name') :
    name = name' := by
  have heq := congrArg String.toList h
  rw [toList_joinPath, toList_joinPath parent name'] at heq
  exact String.toList_inj.mp (List.append_cancel_left heq)

theorem sessionDirectory_ne (root cwd : String) : sessionDirectory root cwd ≠ "/" := by
  intro h
  have hlen := congrArg (fun path => path.toList.length) h
  rw [sessionDirectory, toList_joinPath, jsonlSessionDirectoryName, String.toList_ofList, directoryName] at hlen
  simp at hlen
  omega

theorem joinPath_sessionDirectory (root cwd name : String) :
    joinPath (sessionDirectory root cwd) name = sessionDirectory root cwd ++ "/" ++ name :=
  if_neg (sessionDirectory_ne root cwd)

/-- In the directory of a working directory lie the sessions whose directories are called the same. -/
theorem entryName_sessionPath {root cwd cwd' id name : String} {createdAt : Nat}
    (h : SESSION_ID_PATTERN id.toList = true) :
    entryName (sessionDirectory root cwd') (sessionPath root cwd createdAt id) = some name ↔
      jsonlSessionDirectoryName cwd = jsonlSessionDirectoryName cwd' ∧ name = sessionFileName createdAt id := by
  rw [entryName_eq_some, sessionPath]
  constructor
  · rintro ⟨heq, hslash⟩
    rw [joinPath_sessionDirectory, joinPath_sessionDirectory] at heq
    have hlist := congrArg String.toList heq
    rw [String.toList_append, String.toList_append, String.toList_append, String.toList_append, List.append_assoc,
      List.append_assoc] at hlist
    obtain ⟨hdirectory, hname⟩ := append_slash_inj (slash_not_mem_sessionFileName h createdAt) hslash hlist
    exact ⟨joinPath_inj (String.toList_inj.mp hdirectory), (String.toList_inj.mp hname).symm⟩
  · rintro ⟨hdirectory, rfl⟩
    rw [sessionDirectory, sessionDirectory, hdirectory]
    exact ⟨rfl, slash_not_mem_sessionFileName h createdAt⟩

theorem sessionPath_inj {root cwd cwd' id id' : String} {createdAt createdAt' : Nat}
    (h : SESSION_ID_PATTERN id.toList = true) (h' : SESSION_ID_PATTERN id'.toList = true)
    (heq : sessionPath root cwd createdAt id = sessionPath root cwd' createdAt' id') :
    jsonlSessionDirectoryName cwd = jsonlSessionDirectoryName cwd' ∧ id = id' := by
  have hentry : entryName (sessionDirectory root cwd) (sessionPath root cwd createdAt id) =
      some (sessionFileName createdAt id) := (entryName_sessionPath h).mpr ⟨rfl, rfl⟩
  rw [heq] at hentry
  obtain ⟨hdirectory, hname⟩ := (entryName_sessionPath h').mp hentry
  exact ⟨hdirectory.symm, sessionFileName_id hname⟩

theorem sessionPath_ne_tmp (root cwd id path : String) (createdAt : Nat) :
    sessionPath root cwd createdAt id ≠ path ++ ".tmp" := by
  intro h
  have hlast := congrArg (fun path => path.toList.getLast?) h
  rw [sessionPath, toList_joinPath, toList_sessionFileName, ← List.append_assoc, String.toList_append,
    List.getLast?_append_of_ne_nil _ (by decide), List.getLast?_append_of_ne_nil _ (by decide)] at hlast
  revert hlast
  decide

end Mcpi.Session.Jsonl
