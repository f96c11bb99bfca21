import Mcpi.Lib.Utf16Points
import Mcpi.Tools.Truncate

/-!
# The end of a line that is too long

Both implementations keep the last code points that fit, with U+FFFD for surrogates that have no partner.
-/

namespace Mcpi.Tools.Truncate

open Utf16 (isHigh isLow points pointBytes repaired Point Boundary Lone Paired)

variable {text line : Text} {n maxBytes : Nat}

/-- The code points at the end of a text that fit. -/
def lastPoints (n : Nat) (text : Text) : List Text := Fitting.lastFit pointBytes n (points text)

/-! ## The bytes of a text -/

theorem unitBytes_eq (u : UInt16) : unitBytes u = pointBytes [u] := by
  rw [unitBytes, pointBytes]
  simp only [UInt16.le_iff_toNat_le]
  rfl

theorem utf8ByteLength_single {u : UInt16} (h : Boundary [u] text) :
    utf8ByteLength (u :: text) = unitBytes u + utf8ByteLength text := by
  cases text with
  | nil => rfl
  | cons v text => rw [utf8ByteLength, h u v rfl rfl, if_neg Bool.false_ne_true]

theorem utf8ByteLength_eq (text : Text) : utf8ByteLength text = Fitting.total pointBytes (points text) := by
  induction text using Utf16.points_induct with
  | nil => rfl
  | single u text h ih =>
    rw [utf8ByteLength_single h, Utf16.points_cons h, Fitting.total_cons, unitBytes_eq, ih]
  | pair u v text hu hv ih =>
    rw [utf8ByteLength, hu, hv, Utf16.points_pair hu hv, Fitting.total_cons, ← ih]
    rfl

theorem bufferByteLength_eq : bufferByteLength = utf8ByteLength := by
  funext text
  rw [utf8ByteLength_eq, ← Utf16.byteLength_decode]
  rfl

theorem utf8ByteLength_append {before after : Text} (h : Boundary before after) :
    utf8ByteLength (before ++ after) = utf8ByteLength before + utf8ByteLength after := by
  rw [utf8ByteLength_eq, Utf16.points_append h, Fitting.total_append, utf8ByteLength_eq, utf8ByteLength_eq]

theorem utf8ByteLength_flatten_lastPoints (n : Nat) (text : Text) : utf8ByteLength (lastPoints n text).flatten ≤ n := by
  obtain ⟨before, hbefore⟩ := Fitting.exists_lastFit pointBytes n (points text)
  rw [utf8ByteLength_eq, lastPoints, (Utf16.boundary_of_points hbefore).2.2]
  exact Fitting.total_lastFit_le pointBytes n (points text)

/-! ## The coding agent -/

theorem lastChars_eq (n : Nat) (text : List Char) :
    Utf8.lastChars n text = Fitting.lastFit (fun c => (String.utf8EncodeChar c).length) n text := by
  have htotal : ∀ text : List Char,
      Fitting.total (fun c => (String.utf8EncodeChar c).length) text = Utf8.byteLength text := by
    intro text
    induction text with
    | nil => rfl
    | cons c text ih => rw [Fitting.total_cons, ih, Utf8.byteLength_cons]
  induction text with
  | nil => rfl
  | cons c text ih => rw [Utf8.lastChars, Fitting.lastFit, htotal, ih]

theorem CodingAgent.truncateStringToBytesFromEnd_chars (h : n < bufferByteLength text) :
    CodingAgent.truncateStringToBytesFromEnd text n = Utf16.encode (Utf8.lastChars n (Utf16.decode text)) := by
  have hlong : n < Utf8.byteLength (Utf16.decode text) := h
  obtain ⟨before, heq, -, hindex⟩ := Utf8.boundaryFrom_spec hlong
  have hbuffer : (Utf8.encode (Utf16.decode text)).drop (Utf8.byteLength before) =
      Utf8.encode (Utf8.lastChars n (Utf16.decode text)) := by
    conv_lhs => rw [heq]
    exact Utf8.drop_encode _ _
  rw [CodingAgent.truncateStringToBytesFromEnd,
    if_neg (show ¬ (Utf8.encode (Utf16.decode text)).length ≤ n from Nat.not_le.mpr h)]
  show Utf16.encode (Utf8.decode ((Utf8.encode (Utf16.decode text)).drop
    (Utf8.boundaryFrom (Utf8.encode (Utf16.decode text)) (Utf8.byteLength (Utf16.decode text) - n)))) = _
  rw [hindex, hbuffer, Utf8.decode_encode]

theorem CodingAgent.truncateStringToBytesFromEnd_eq (h : n < bufferByteLength text) :
    CodingAgent.truncateStringToBytesFromEnd text n = ((lastPoints n text).map repaired).flatten := by
  have hpoints := Utf16.point_of_mem text
  have hchars : Fitting.lastFit (fun c => (String.utf8EncodeChar c).length) n
      ((points text).map Utf16.pointChar) = (lastPoints n text).map Utf16.pointChar :=
    Fitting.lastFit_map Utf16.pointChar fun point hpoint => Utf16.length_utf8_pointChar (hpoints point hpoint)
  rw [CodingAgent.truncateStringToBytesFromEnd_chars h, lastChars_eq, Utf16.decode_eq, hchars, Utf16.encode,
    List.flatMap_map, ← List.flatMap_def]
  obtain ⟨before, hbefore⟩ := Fitting.exists_lastFit pointBytes n (points text)
  apply List.flatMap_congr
  intro point hpoint
  apply Utf16.units_pointChar
  apply hpoints
  rw [hbefore]
  exact List.mem_append_right _ hpoint

theorem utf8ByteLength_repaired_le (h : n < utf8ByteLength text) :
    utf8ByteLength ((lastPoints n text).map repaired).flatten ≤ n := by
  rw [← bufferByteLength_eq] at h ⊢
  rw [← CodingAgent.truncateStringToBytesFromEnd_eq h, CodingAgent.truncateStringToBytesFromEnd_chars h,
    bufferByteLength, Utf16.decode_encode]
  exact Utf8.byteLength_lastChars_le n _

/-! ## The harness -/

/-- A surrogate without its partner, as the loop sees it. -/
def isLone (point : Text) : Bool :=
  match point with
  | [u] => isHigh u || isLow u
  | _ => false

theorem isLone_iff {point : Text} (h : Point point) : isLone point = true ↔ Lone point := by
  cases h with
  | single u =>
    constructor
    · exact fun hlone => ⟨u, rfl, hlone⟩
    · rintro ⟨v, hv, hlone⟩
      cases hv
      exact hlone
  | pair u v => exact iff_of_false Bool.false_ne_true (by rintro ⟨w, ⟨⟩, -⟩)

/-- The text before a code point, and whether it can be cut there. -/
theorem boundary_reverse {code : UInt16} {text : Text} (h : ∀ previous, text.head? = some previous →
    (isHigh previous && isLow code) = false) : Boundary text.reverse [code] := by
  intro u v hu hv
  rw [List.getLast?_reverse] at hu
  cases hv
  exact h u hu

theorem lastPoints_single {before : Text} {code : UInt16} (h : Boundary before [code]) (n : Nat) :
    lastPoints n (before ++ [code]) =
      if unitBytes code ≤ n then lastPoints (n - unitBytes code) before ++ [[code]] else [] := by
  rw [lastPoints, Utf16.points_append h, Utf16.points, Fitting.lastFit_concat, unitBytes_eq]
  rfl

theorem lastPoints_pair {previous code : UInt16} (hhigh : isHigh previous = true) (hlow : isLow code = true)
    (before : Text) (n : Nat) : lastPoints n (before ++ [previous, code]) =
      if 4 ≤ n then lastPoints (n - 4) before ++ [[previous, code]] else [] := by
  have hboundary : Boundary before [previous, code] := by
    rintro u v - ⟨⟩
    rw [Bool.and_eq_false_iff]
    right
    cases h : isLow previous with
    | false => rfl
    | true => exact absurd (Utf16.isHigh_of_isLow h) (by rw [hhigh]; exact Bool.true_eq_false.mp)
  rw [lastPoints, Utf16.points_append hboundary, Utf16.points_pair hhigh hlow, Utf16.points, Fitting.lastFit_concat]
  rfl

theorem Harness.takeFromEnd_eq (text : Text) (outputBytes : Nat) (output : Text) (needsReplacement : Bool)
    (h : outputBytes ≤ maxBytes) :
    Harness.takeFromEnd maxBytes text outputBytes output needsReplacement =
      ((lastPoints (maxBytes - outputBytes) text.reverse).flatten ++ output,
        needsReplacement || (lastPoints (maxBytes - outputBytes) text.reverse).any isLone) := by
  induction text, outputBytes, output, needsReplacement using Harness.takeFromEnd.induct maxBytes with
  | case1 outputBytes output needsReplacement =>
    show _ = ([] ++ output, needsReplacement || false)
    rw [Harness.takeFromEnd, List.nil_append, Bool.or_false]
  | case2 code outputBytes output needsReplacement hlarge =>
    have hfirst : Boundary [] [code] := by rintro u v ⟨⟩
    have hpoints := lastPoints_single hfirst (maxBytes - outputBytes)
    rw [if_neg (by omega)] at hpoints
    rw [Harness.takeFromEnd, if_pos hlarge, List.reverse_singleton, ← List.nil_append [code], hpoints]
    simp
  | case3 code outputBytes output needsReplacement hfits =>
    have hfirst : Boundary [] [code] := by rintro u v ⟨⟩
    have hpoints := lastPoints_single hfirst (maxBytes - outputBytes)
    rw [if_pos (by omega)] at hpoints
    rw [Harness.takeFromEnd, if_neg hfits, List.reverse_singleton, ← List.nil_append [code], hpoints]
    simp [lastPoints, Utf16.points, Fitting.lastFit, isLone, Bool.or_assoc]
  | case4 code previous text outputBytes output needsReplacement hpair hlarge =>
    obtain ⟨hlow, hhigh⟩ := Bool.and_eq_true_iff.mp hpair
    have hpoints := lastPoints_pair hhigh hlow text.reverse (maxBytes - outputBytes)
    rw [if_neg (by omega)] at hpoints
    rw [Harness.takeFromEnd, if_pos hpair, if_pos hlarge, List.reverse_cons, List.reverse_cons,
      List.append_assoc, List.singleton_append, hpoints]
    simp
  | case5 code previous text outputBytes output needsReplacement hpair hfits ih =>
    obtain ⟨hlow, hhigh⟩ := Bool.and_eq_true_iff.mp hpair
    have hpoints := lastPoints_pair hhigh hlow text.reverse (maxBytes - outputBytes)
    rw [if_pos (by omega)] at hpoints
    rw [Harness.takeFromEnd, if_pos hpair, if_neg hfits, ih (by omega), List.reverse_cons, List.reverse_cons,
      List.append_assoc, List.singleton_append, hpoints, Nat.sub_add_eq]
    simp [isLone]
  | case6 code previous text outputBytes output needsReplacement hpair hlarge =>
    have hboundary : Boundary (previous :: text).reverse [code] := boundary_reverse <| by
      rintro u ⟨⟩
      rw [Bool.and_comm]
      exact Bool.eq_false_iff.mpr hpair
    have hpoints := lastPoints_single hboundary (maxBytes - outputBytes)
    rw [if_neg (by omega)] at hpoints
    rw [Harness.takeFromEnd, if_neg hpair, if_pos hlarge, List.reverse_cons (a := code), hpoints]
    simp
  | case7 code previous text outputBytes output needsReplacement hpair hfits ih =>
    have hboundary : Boundary (previous :: text).reverse [code] := boundary_reverse <| by
      rintro u ⟨⟩
      rw [Bool.and_comm]
      exact Bool.eq_false_iff.mpr hpair
    have hpoints := lastPoints_single hboundary (maxBytes - outputBytes)
    rw [if_pos (by omega)] at hpoints
    rw [Harness.takeFromEnd, if_neg hpair, if_neg hfits, ih (by omega), List.reverse_cons (a := code), hpoints,
      Nat.sub_add_eq]
    simp [isLone, Bool.or_assoc, Bool.or_comm]

theorem Harness.replaceUnpairedSurrogates_eq (text : Text) :
    Harness.replaceUnpairedSurrogates text = ((points text).map repaired).flatten := by
  induction text using Utf16.points_induct with
  | nil => rfl
  | single u text h ih =>
    rw [Utf16.points_cons h, List.map_cons, List.flatten_cons, ← ih]
    cases text with
    | nil =>
      show (if isHigh u || isLow u then [0xfffd] else [u]) = repaired [u] ++ []
      rw [List.append_nil]
      rfl
    | cons v text =>
      rw [Harness.replaceUnpairedSurrogates, h u v rfl rfl, if_neg Bool.false_ne_true, repaired]
      split <;> rfl
  | pair u v text hu hv ih =>
    rw [Utf16.points_pair hu hv, List.map_cons, List.flatten_cons, ← ih, Harness.replaceUnpairedSurrogates, hu, hv]
    rfl

theorem points_flatten_lastPoints (n : Nat) (text : Text) : points (lastPoints n text).flatten = lastPoints n text := by
  obtain ⟨before, hbefore⟩ := Fitting.exists_lastFit pointBytes n (points text)
  exact (Utf16.boundary_of_points hbefore).2.2

theorem point_of_mem_lastPoints {point : Text} (h : point ∈ lastPoints n text) : Point point := by
  obtain ⟨before, hbefore⟩ := Fitting.exists_lastFit pointBytes n (points text)
  apply Utf16.point_of_mem text
  rw [hbefore]
  exact List.mem_append_right _ h

theorem map_repaired {list : List Text} (hpoint : ∀ point ∈ list, Point point)
    (h : list.any isLone = false) : list.map repaired = list := by
  rw [← List.map_id list, List.map_map]
  apply List.map_congr_left
  intro point hmem
  apply Utf16.repaired_of_not_lone _ (hpoint point hmem)
  intro hlone
  have hfalse := List.any_eq_false.mp h point hmem
  exact hfalse ((isLone_iff (hpoint point hmem)).mpr hlone)

theorem pointBytes_pos (point : Text) : 0 < pointBytes point := by
  unfold pointBytes
  split
  · split
    · exact Nat.one_pos
    · split <;> exact Nat.succ_pos _
  · exact Nat.succ_pos _

theorem lastPoints_zero (text : Text) : lastPoints 0 text = [] := by
  have hle := Fitting.total_lastFit_le pointBytes 0 (points text)
  cases h : lastPoints 0 text with
  | nil => rfl
  | cons point list =>
    have hpos := pointBytes_pos point
    rw [← lastPoints, h, Fitting.total_cons] at hle
    omega

/-- The harness cuts at the same place as the coding agent. -/
theorem Harness.truncateStringToBytesFromEnd_eq (text : Text) (n : Nat) :
    Harness.truncateStringToBytesFromEnd text n = ((lastPoints n text).map repaired).flatten := by
  rw [Harness.truncateStringToBytesFromEnd]
  split
  next hzero => rw [hzero, lastPoints_zero, List.map_nil, List.flatten_nil]
  · rw [Harness.takeFromEnd_eq _ 0 [] false (Nat.zero_le n), List.reverse_reverse, Nat.sub_zero, List.append_nil,
      Bool.false_or]
    dsimp only
    split
    · rw [Harness.replaceUnpairedSurrogates_eq, points_flatten_lastPoints]
    next hlone =>
      rw [map_repaired (fun point hpoint => point_of_mem_lastPoints hpoint) (Bool.eq_false_iff.mpr hlone)]

end Mcpi.Tools.Truncate
