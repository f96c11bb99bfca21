import Mcpi.Tools.ShellOutput
import Mcpi.Tools.TruncateEnd

/-!
# The counters of captured output

What the counters of `executeShellWithCapture` say of an output, and what the end of an output that is kept still
shows of it.
-/

namespace Mcpi.Tools.ShellOutput

open Truncate (TruncationResult DEFAULT_MAX_LINES DEFAULT_MAX_BYTES utf8ByteLength splitLinesForCounting)
open Utf8 (byteLength)

variable {whole text before ending : List Char}

/-! ## Characters and units -/

theorem utf8ByteLength_encode (text : List Char) : utf8ByteLength (Utf16.encode text) = byteLength text := by
  rw [← Truncate.bufferByteLength_eq, Truncate.bufferByteLength, Utf16.decode_encode]
  rfl

/-! ## Lines -/

/-- What comes after the last newline. -/
def lastLine (text : List Char) : List Char := (trailingText text).getD text

theorem trailingText_append (a b : List Char) :
    trailingText (a ++ b) = (trailingText b).or ((trailingText a).map (· ++ b)) := by
  induction a with
  | nil =>
    rw [List.nil_append, trailingText]
    cases trailingText b <;> rfl
  | cons c a ih =>
    rw [List.cons_append, trailingText, ih, trailingText]
    cases trailingText b with
    | some rest => rfl
    | none =>
      rw [Option.none_or, Option.none_or]
      cases trailingText a with
      | some rest => rfl
      | none =>
        rw [Option.map_none, Option.none_or, Option.none_or]
        split <;> rfl

theorem lastLine_append (a b : List Char) :
    lastLine (a ++ b) = match trailingText b with
      | some rest => rest
      | none => lastLine a ++ b := by
  rw [lastLine, trailingText_append]
  cases trailingText b with
  | some rest => rfl
  | none =>
    rw [Option.none_or, lastLine]
    cases trailingText a <;> rfl

theorem lastLine_eq_nil_iff (text : List Char) : lastLine text = [] ↔ text = [] ∨ text.getLast? = some '\n' := by
  rcases List.eq_nil_or_concat text with rfl | ⟨init, c, rfl⟩
  · exact iff_of_true rfl (.inl rfl)
  · have hnil : ¬ init ++ [c] = [] := by simp
    rw [List.concat_eq_append, lastLine_append, List.getLast?_concat, Option.some.injEq, or_iff_right hnil]
    show (match Option.or none (if c = '\n' then some [] else none) with
      | some rest => rest
      | none => lastLine init ++ [c]) = [] ↔ c = '\n'
    by_cases hc : c = '\n'
    · rw [if_pos hc]
      exact iff_of_true rfl hc
    · rw [if_neg hc]
      exact iff_of_false (by simp) hc

theorem newline_mem_units (c : Char) : newline ∈ Utf16.units c ↔ c = '\n' := by
  constructor
  · intro hmem
    rcases Utf16.units_cases c with ⟨u, hunits, hu, -⟩ | ⟨u, v, hunits, -, hhigh, hlow⟩
    · rw [hunits, List.mem_singleton] at hmem
      apply Char.toNat_inj.mp
      rw [← hu, ← hmem]
      rfl
    · rw [hunits, List.mem_cons, List.mem_singleton] at hmem
      rcases hmem with rfl | rfl
      · exact absurd hhigh (by decide)
      · exact absurd hlow (by decide)
  · rintro rfl
    exact List.mem_cons_self

theorem count_encode (text : List Char) : (Utf16.encode text).count newline = text.count '\n' := by
  induction text with
  | nil => rfl
  | cons c text ih =>
    rw [Utf16.encode_cons, List.count_append, ih]
    by_cases hc : c = '\n'
    · rw [hc, List.count_cons_self, Nat.add_comm]
      rfl
    · rw [List.count_cons_of_ne hc, List.count_eq_zero.mpr fun hmem => hc ((newline_mem_units c).mp hmem), Nat.zero_add]

theorem getLast?_encode (text : List Char) :
    (Utf16.encode text).getLast? = some newline ↔ text.getLast? = some '\n' := by
  rcases List.eq_nil_or_concat text with rfl | ⟨init, c, rfl⟩
  · exact iff_of_false nofun nofun
  · rw [List.concat_eq_append, Utf16.getLast?_encode_concat, List.getLast?_concat, Option.some.injEq]
    constructor
    · exact fun h => (newline_mem_units c).mp (List.mem_of_getLast? h)
    · rintro rfl
      rfl

theorem encode_eq_nil_iff (text : List Char) : Utf16.encode text = [] ↔ text = [] := by
  constructor
  · intro h
    rw [← Utf16.decode_encode text, h]
    rfl
  · rintro rfl
    rfl

theorem length_splitLinesForCounting (text : List Char) :
    (splitLinesForCounting (Utf16.encode text)).length = text.count '\n' + if lastLine text ≠ [] then 1 else 0 := by
  have hsplit : (List.splitOn newline (Utf16.encode text)).length = text.count '\n' + 1 := by
    rw [Separated.length_split, count_encode]
  rw [splitLinesForCounting]
  by_cases hnil : text = []
  · rw [if_pos ((encode_eq_nil_iff text).mpr hnil), hnil]
    rfl
  · rw [if_neg ((encode_eq_nil_iff text).not.mpr hnil)]
    by_cases hlast : text.getLast? = some '\n'
    · rw [if_pos ((getLast?_encode text).mpr hlast), List.length_dropLast, hsplit,
        if_neg (not_not_intro ((lastLine_eq_nil_iff text).mpr (.inr hlast)))]
      rfl
    · rw [if_neg ((getLast?_encode text).not.mpr hlast), hsplit, if_pos]
      rw [ne_eq, lastLine_eq_nil_iff]
      exact fun h => h.elim hnil hlast

/-! ## The end that is kept -/

theorem trim_spec (text : List Char) (maxBytes : Nat) :
    ∃ before, text = before ++ trimToLastUtf8Bytes text maxBytes ∧
      (before = [] ∨ maxBytes ≤ byteLength (trimToLastUtf8Bytes text maxBytes) + 6) := by
  rw [trimToLastUtf8Bytes]
  split
  · exact ⟨[], rfl, .inl rfl⟩
  next hlong =>
    have hlong : maxBytes < byteLength text := Nat.not_le.mp hlong
    obtain ⟨before, heq, -, hindex⟩ := Utf8.boundaryFrom_spec hlong
    have hgt := Utf8.lastChars_gt hlong
    have hbuffer : (Utf8.encode text).drop (byteLength before) = Utf8.encode (Utf8.lastChars maxBytes text) := by
      conv_lhs => rw [heq]
      exact Utf8.drop_encode _ _
    have hcut : (Utf8.encode text).drop (Utf8.boundaryFrom (Utf8.encode text)
        ((Utf8.encode text).length - maxBytes)) = Utf8.encode (Utf8.lastChars maxBytes text) :=
      (congrArg (fun start => (Utf8.encode text).drop start) hindex).trans hbuffer
    rw [hcut]
    generalize Utf8.lastChars maxBytes text = last at heq hgt
    rcases Utf8.decodeText_encode last with hsame | hbom
    · rw [hsame]
      exact ⟨before, heq, .inr (by omega)⟩
    · have hbytes : byteLength last = 3 + byteLength (Utf8.decodeText (Utf8.encode last)) := by
        have hmark : (String.utf8EncodeChar '\uFEFF').length = 3 := rfl
        conv_lhs => rw [hbom, Utf8.byteLength_cons, hmark]
      refine ⟨before ++ ['\uFEFF'], ?_, .inr (by omega)⟩
      rw [List.append_assoc, List.singleton_append, ← hbom]
      exact heq

/-- The end of an output that is kept: the whole, or nearly as much as may be kept. -/
def Kept (whole tailOutput : List Char) : Prop :=
  ∃ before, whole = before ++ tailOutput ∧ (before = [] ∨ maxOutputBytes ≤ byteLength tailOutput + 6)

variable {tailOutput : List Char}

theorem Kept.append (h : Kept whole tailOutput) (text : List Char) :
    Kept (whole ++ text) (trimToLastUtf8Bytes (tailOutput ++ text) maxOutputBytes) := by
  obtain ⟨before, rfl, hbefore⟩ := h
  obtain ⟨more, heq, hmore⟩ := trim_spec (tailOutput ++ text) maxOutputBytes
  refine ⟨before ++ more, ?_, ?_⟩
  · rw [List.append_assoc, List.append_assoc, ← heq]
  · rcases hmore with rfl | hlong
    · rcases hbefore with rfl | hlong
      · exact .inl rfl
      · right
        rw [List.nil_append] at heq
        rw [← heq, Utf8.byteLength_append]
        omega
    · exact .inr hlong

/-- Nothing is cut from an output that is within the byte limit. -/
theorem Kept.eq_of_le (h : Kept whole tailOutput)
    (hle : byteLength whole ≤ DEFAULT_MAX_BYTES) : tailOutput = whole := by
  obtain ⟨before, rfl, hbefore⟩ := h
  rcases hbefore with rfl | hlong
  · rfl
  · rw [Utf8.byteLength_append] at hle
    have hmax : maxOutputBytes = 102400 := rfl
    have hdefault : DEFAULT_MAX_BYTES = 51200 := rfl
    omega

/-! ## The report -/

/-- What `truncateTail` makes of the whole output. -/
def report (whole : List Char) : TruncationResult :=
  Truncate.Harness.truncateTail (Utf16.encode whole) ⟨none, none⟩

theorem report_eq (whole : List Char) : report whole =
    Truncate.truncateTailWith utf8ByteLength DEFAULT_MAX_LINES DEFAULT_MAX_BYTES
      Truncate.Harness.truncateStringToBytesFromEnd (Utf16.encode whole) := rfl

/-- **What is kept is truncated like the whole.** -/
theorem report_kept (h : Kept whole tailOutput) : report whole =
    (report tailOutput).ofWhole (splitLinesForCounting (Utf16.encode whole)).length (byteLength whole) := by
  obtain ⟨before, rfl, hbefore⟩ := h
  rw [← utf8ByteLength_encode, report_eq, report_eq]
  rcases hbefore with rfl | hlong
  · rw [List.nil_append, Truncate.truncateTailWith]
    split <;> rfl
  · rw [Utf16.encode_append]
    apply Truncate.truncateTailWith_append Truncate.harness_cuts (Utf16.boundary_encode before tailOutput)
    have hmax : maxOutputBytes = 102400 := rfl
    have hdefault : DEFAULT_MAX_BYTES = 51200 := rfl
    rw [utf8ByteLength_encode]
    omega

end Mcpi.Tools.ShellOutput
