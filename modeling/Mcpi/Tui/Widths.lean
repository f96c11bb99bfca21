import Mcpi.Lib.Utf16Points
import Mcpi.Tui.StdinBuffer

/-!
# Widths

The columns of a text, as `utils.ts` counts them: sequences take none, a tab takes three, and a grapheme takes
those of its code points. The tables of Unicode are parameters.
-/

namespace Mcpi.Tui

open StdinBuffer (esc)

/-- The properties of code points that the patterns of `utils.ts` name, its widths of east asian characters,
and the emojis of more than one code point. -/
structure UnicodeTables where
  defaultIgnorable : Nat → Bool
  format : Nat → Bool
  mark : Nat → Bool
  spacingMark : Nat → Bool
  rgiEmoji : Text → Bool
  eastAsianWidth : Nat → Nat
  /-- Han, Hiragana, Katakana, Hangul or Bopomofo -/
  cjkScript : Nat → Bool

namespace UnicodeTables

def codePointAt : List UInt16 → Nat
  | [u, v] => 0x10000 + (u.toNat - 0xd800) * 0x400 + (v.toNat - 0xdc00)
  | u :: _ => u.toNat
  | [] => 0

def codePoints (text : Text) : List Nat := (Utf16.points text).map codePointAt

def isPrintableAscii (str : Text) : Bool := str.all fun code => 0x20 ≤ code && code ≤ 0x7e

/-! ## Sequences -/

/-- How far BEL or ST ends a sequence. -/
def terminated : Text → Option Nat
  | [] => none
  | u :: text =>
    if u = 0x07 then some 1
    else if u = esc ∧ text.head? = some (unit '\\') then some 2
    else (terminated text).map (· + 1)

/-- The length of what `extractAnsiCode` finds at the head: a CSI, OSC or APC sequence that has an end. -/
def extractAnsiCode : Text → Option Nat
  | first :: next :: text =>
    if first ≠ esc then none
    else if next = unit '[' then (text.findIdx? (· ∈ "mGKHJ".toList.map unit)).map (· + 3)
    else if next = unit ']' ∨ next = unit '_' then (terminated text).map (· + 2)
    else none
  | _ => none

/-- The text behind the next `skip` units, without its sequences. -/
def stripped : (skip : Nat) → Text → Text
  | _, [] => []
  | skip + 1, _ :: text => stripped skip text
  | 0, u :: text =>
    match extractAnsiCode (u :: text) with
    | some length => stripped (length - 1) text
    | none => u :: stripped 0 text

/-! ## Graphemes -/

variable (t : UnicodeTables)

def control (cp : Nat) : Bool := cp < 0x20 || 0x7f ≤ cp && cp < 0xa0

def surrogate (cp : Nat) : Bool := 0xd800 ≤ cp && cp ≤ 0xdfff

/-- `zeroWidthRegex` -/
def zeroWidth (cp : Nat) : Bool := t.defaultIgnorable cp || control cp || t.mark cp || surrogate cp

/-- `leadingNonPrintingRegex`, `nonPrintingCharRegex` -/
def nonPrinting (cp : Nat) : Bool := t.zeroWidth cp || t.format cp

/-- `terminalSpacingMarkRegex` -/
def terminalSpacingMark (cp : Nat) : Bool :=
  t.spacingMark cp && cp ∉ [0x1734, 0x302e, 0x302f] ||
    cp ∈ [0x065f, 0x0f7f, 0x102b, 0x102c, 0x1031, 0x1033, 0x1034, 0x1035,
      0x1038, 0x103a, 0x103b, 0x103c, 0x103d, 0x103e]

def couldBeEmoji (segment : Text) : Bool :=
  let cp := (codePoints segment).headD 0
  (0x1f000 ≤ cp && cp ≤ 0x1fbff) || (0x2300 ≤ cp && cp ≤ 0x23ff) || (0x2600 ≤ cp && cp ≤ 0x27bf) ||
    (0x2b50 ≤ cp && cp ≤ 0x2b55) || segment.contains 0xfe0f || segment.length > 2

/-- The code points behind the first one, some of which take columns of their own. -/
def trailingWidth : (followsMark : Bool) → List Nat → Nat
  | _, [] => 0
  | followsMark, c :: chars =>
    if t.terminalSpacingMark c then 1 + trailingWidth false chars
    else if t.mark c then trailingWidth true chars
    else if t.nonPrinting c then trailingWidth followsMark chars
    else
      let width :=
        if followsMark || 0xff00 ≤ c && c ≤ 0xffef then t.eastAsianWidth c
        else if c = 0x0e33 || c = 0x0eb3 then 1
        else 0
      width + trailingWidth false chars

def graphemeWidth (segment : Text) : Nat :=
  let points := codePoints segment
  if segment = [unit '\t'] then 3
  else if points ≠ [] ∧ points.all t.terminalSpacingMark then points.length
  else if points ≠ [] ∧ points.all t.zeroWidth then 0
  else if couldBeEmoji segment ∧ t.rgiEmoji segment then 2
  else
    match points.dropWhile t.nonPrinting with
    | [] => 0
    | cp :: chars =>
      if 0x1f1e6 ≤ cp ∧ cp ≤ 0x1f1ff then 2
      else t.eastAsianWidth cp + t.trailingWidth false chars

/-- `visibleWidth`, where `graphemes` cuts a text into its graphemes. What it remembers is what it has counted. -/
def visibleWidth (graphemes : Text → List Text) (str : Text) : Nat :=
  if isPrintableAscii str then str.length
  else
    let clean := str.flatMap fun u => if u = unit '\t' then List.replicate 3 (unit ' ') else [u]
    let clean := if esc ∈ clean then stripped 0 clean else clean
    ((graphemes clean).map t.graphemeWidth).sum

/-- `cjkBreakRegex` -/
def cjkBreak (segment : Text) : Bool := (codePoints segment).any t.cjkScript

end UnicodeTables

end Mcpi.Tui
