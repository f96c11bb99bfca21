import Mcpi.Lib.Utf8

/-!
# Decoding a stream of UTF-8 bytes

The streaming decoder: each chunk gives the characters that it completes, and the end of the stream
one U+FFFD for a character that has broken off. A byte order mark at the start is left out.
-/

namespace Utf8

/-- The characters that some bytes complete, and where the decoder stands then. -/
def feed : Decoder → List UInt8 → List Char × Decoder
  | d, [] => ([], d)
  | d, b :: bytes =>
    let (chars, d) := step d b.toNat
    let (more, d) := feed d bytes
    (chars ++ more, d)

/-- Leave out a byte order mark, unless something has come before. -/
def stripBom (seen : Bool) : List Char → List Char × Bool
  | [] => ([], seen)
  | c :: text => if !seen && c = '\uFEFF' then (text, true) else (c :: text, true)

/-- `new TextDecoder()` -/
structure TextDecoder where
  bomSeen : Bool
  decoder : Decoder

namespace TextDecoder

def init : TextDecoder := ⟨false, .start⟩

/-- `decode(data, { stream: true })` -/
def decodeStream (t : TextDecoder) (data : List UInt8) : List Char × TextDecoder :=
  let (chars, decoder) := feed t.decoder data
  let (text, bomSeen) := stripBom t.bomSeen chars
  (text, ⟨bomSeen, decoder⟩)

/-- What the rest of the stream decodes to. -/
def remaining (t : TextDecoder) (data : List UInt8) : List Char :=
  (stripBom t.bomSeen (decodeFrom t.decoder data)).1

/-- `decode()` at the end of the stream. -/
def decodeEnd (t : TextDecoder) : List Char := t.remaining []

end TextDecoder

/-- `new TextDecoder().decode(data)` -/
def decodeText (data : List UInt8) : List Char := TextDecoder.init.remaining data

theorem feed_decodeFrom (d : Decoder) (a b : List UInt8) :
    decodeFrom d (a ++ b) = (feed d a).1 ++ decodeFrom (feed d a).2 b := by
  induction a generalizing d with
  | nil => rfl
  | cons x a ih =>
    rw [List.cons_append, decodeFrom_cons, ih, feed]
    exact (List.append_assoc _ _ _).symm

theorem stripBom_append (seen : Bool) (a b : List Char) :
    (stripBom seen (a ++ b)).1 = (stripBom seen a).1 ++ (stripBom (stripBom seen a).2 b).1 := by
  have hseen : ∀ text : List Char, (stripBom true text).1 = text := by
    intro text
    cases text <;> rfl
  cases a with
  | nil => rfl
  | cons c a =>
    rw [List.cons_append, stripBom, stripBom]
    split
    · exact (congrArg (a ++ ·) (hseen b)).symm
    · exact (congrArg (c :: a ++ ·) (hseen b)).symm

/-- **Streaming**: what a chunk gives and what the rest gives is what both give together. -/
theorem TextDecoder.remaining_append (t : TextDecoder) (data rest : List UInt8) :
    t.remaining (data ++ rest) = (t.decodeStream data).1 ++ (t.decodeStream data).2.remaining rest := by
  rw [remaining, feed_decodeFrom, stripBom_append]
  rfl

/-- The decoder leaves out a byte order mark where the cut is right before one. -/
theorem decodeText_encode (text : List Char) :
    decodeText (encode text) = text ∨ text = '\uFEFF' :: decodeText (encode text) := by
  have hdecode : decodeText (encode text) = (stripBom false text).1 := by
    show (stripBom false (decode (encode text))).1 = _
    rw [decode_encode]
  rw [hdecode]
  cases text with
  | nil => exact .inl rfl
  | cons c text =>
    by_cases hc : c = '\uFEFF'
    · right
      rw [hc]
      rfl
    · left
      rw [stripBom, if_neg]
      simpa using hc

end Utf8
