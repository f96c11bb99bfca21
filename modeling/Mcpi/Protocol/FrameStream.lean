import Mcpi.Lib.Stream
import Mcpi.Protocol.Framing

/-!
# Frames, byte by byte

A decoder that reads one byte at a time and keeps nothing but the bytes since the last frame.
The decoder of `framing.ts` does the same to every chunk.
-/

namespace Mcpi.Protocol

open Cbor (MAX_UINT32)

/-! ## Byte by byte -/

/-- What was read since the last frame: a part of a header, or a header and a part of a payload. -/
inductive Pending where
  | header (bytes : List UInt8)
  | payload (length : Nat) (bytes : List UInt8)

variable {length : Nat} {pending : Pending}

namespace Pending

/-- What follows a complete header. -/
def ofHeader (maxFrameLength : Nat) (header : List UInt8) : Except FrameFailure (Pending × List (List UInt8)) :=
  if BigEndian.decode header > maxFrameLength then
    .error (tooLong (BigEndian.decode header) maxFrameLength)
  else if BigEndian.decode header = 0 then .ok (.header [], [[]])
  else .ok (.payload (BigEndian.decode header) [], [])

/-- Read a byte. -/
def step (maxFrameLength : Nat) (pending : Pending) (byte : UInt8) :
    Except FrameFailure (Pending × List (List UInt8)) :=
  match pending with
  | .header bytes =>
    if (bytes ++ [byte]).length < FRAME_HEADER_LENGTH then .ok (.header (bytes ++ [byte]), [])
    else ofHeader maxFrameLength (bytes ++ [byte])
  | .payload length bytes =>
    if (bytes ++ [byte]).length = length then .ok (.header [], [bytes ++ [byte]])
    else .ok (.payload length (bytes ++ [byte]), [])

/-- The bytes read since the last frame. -/
def bytes : Pending → List UInt8
  | .header bytes => bytes
  | .payload length bytes => BigEndian.encode FRAME_HEADER_LENGTH length ++ bytes

/-- What can be pending. -/
def Valid (maxFrameLength : Nat) : Pending → Prop
  | .header bytes => bytes.length < FRAME_HEADER_LENGTH
  | .payload length bytes => bytes.length < length ∧ length ≤ maxFrameLength

variable {maxFrameLength : Nat}

theorem valid_start : (Pending.header []).Valid maxFrameLength := Nat.zero_lt_succ 3

/-! ## Feeding bytes -/

theorem feed_header {bytes : List UInt8} (more : List UInt8) (h : (bytes ++ more).length < FRAME_HEADER_LENGTH) :
    Stream.feed (step maxFrameLength) (.header bytes) more = .ok (.header (bytes ++ more), []) := by
  induction more generalizing bytes with
  | nil => rw [List.append_nil]; rfl
  | cons byte more ih =>
    have hstep : step maxFrameLength (.header bytes) byte = .ok (.header (bytes ++ [byte]), []) := by
      refine if_pos ?_
      simp only [List.length_append, List.length_cons, List.length_nil] at h ⊢
      omega
    rw [List.append_cons] at h
    rw [Stream.feed_cons_ok _ hstep (ih h), List.append_cons bytes byte more]
    rfl

theorem feed_ofHeader (maxFrameLength : Nat) (bytes more : List UInt8) (hmore : more ≠ [])
    (h : (bytes ++ more).length = FRAME_HEADER_LENGTH) :
    Stream.feed (step maxFrameLength) (.header bytes) more = ofHeader maxFrameLength (bytes ++ more) := by
  rcases List.eq_nil_or_concat more with rfl | ⟨first, byte, rfl⟩
  · exact absurd rfl hmore
  · rw [List.concat_eq_append, ← List.append_assoc] at h ⊢
    have hlt : (bytes ++ first).length < FRAME_HEADER_LENGTH := by
      rw [List.length_append, List.length_singleton] at h
      omega
    have hstep : step maxFrameLength (.header (bytes ++ first)) byte =
        ofHeader maxFrameLength (bytes ++ first ++ [byte]) := if_neg (by omega)
    rw [Stream.feed_append _ (feed_header first hlt), Stream.feed, hstep]
    cases ofHeader maxFrameLength (bytes ++ first ++ [byte]) with
    | error e => rfl
    | ok result => simp [Stream.feed, Except.map, bind, Except.bind, pure, Except.pure]

theorem feed_payload {bytes : List UInt8} (more : List UInt8) (h : (bytes ++ more).length < length) :
    Stream.feed (step maxFrameLength) (.payload length bytes) more = .ok (.payload length (bytes ++ more), []) := by
  induction more generalizing bytes with
  | nil => rw [List.append_nil]; rfl
  | cons byte more ih =>
    have hstep : step maxFrameLength (.payload length bytes) byte = .ok (.payload length (bytes ++ [byte]), []) := by
      refine if_neg ?_
      simp only [List.length_append, List.length_cons, List.length_nil] at h ⊢
      omega
    rw [List.append_cons] at h
    rw [Stream.feed_cons_ok _ hstep (ih h), List.append_cons bytes byte more]
    rfl

theorem feed_complete {bytes : List UInt8} (more : List UInt8) (hmore : more ≠ [])
    (h : (bytes ++ more).length = length) :
    Stream.feed (step maxFrameLength) (.payload length bytes) more = .ok (.header [], [bytes ++ more]) := by
  rcases List.eq_nil_or_concat more with rfl | ⟨first, byte, rfl⟩
  · exact absurd rfl hmore
  · rw [List.concat_eq_append, ← List.append_assoc] at h ⊢
    have hlt : (bytes ++ first).length < length := by
      rw [List.length_append, List.length_singleton] at h
      omega
    have hstep : step maxFrameLength (.payload length (bytes ++ first)) byte =
        .ok (.header [], [bytes ++ first ++ [byte]]) := if_pos h
    have hlast : Stream.feed (step maxFrameLength) (.payload length (bytes ++ first)) [byte] =
        .ok (.header [], [bytes ++ first ++ [byte]]) :=
      Stream.feed_cons_ok (step maxFrameLength) hstep rfl
    exact Stream.feed_append_ok _ (feed_payload first hlt) hlast

/-- **A frame within the limit is one payload.** -/
theorem feed_frame {payload : List UInt8} (hmax : payload.length ≤ MAX_UINT32) (h : payload.length ≤ maxFrameLength) :
    Stream.feed (step maxFrameLength) (.header []) (frame payload) = .ok (.header [], [payload]) := by
  have hlength : BigEndian.decode (BigEndian.encode FRAME_HEADER_LENGTH payload.length) =
      payload.length := by
    rw [MAX_UINT32] at hmax
    exact BigEndian.decode_encode (by rw [FRAME_HEADER_LENGTH]; omega)
  have hheader := feed_ofHeader maxFrameLength [] (BigEndian.encode FRAME_HEADER_LENGTH payload.length) (by nofun)
    (BigEndian.length_encode _ _)
  rw [List.nil_append, ofHeader, hlength, if_neg (by omega)] at hheader
  by_cases hzero : payload.length = 0
  · obtain rfl := List.eq_nil_of_length_eq_zero hzero
    rw [if_pos hzero] at hheader
    exact Stream.feed_append_ok _ hheader rfl
  · rw [if_neg hzero] at hheader
    have hne : payload ≠ [] := fun h => hzero (by rw [h]; rfl)
    exact Stream.feed_append_ok _ hheader (feed_complete payload hne rfl)

/-- A header above the limit is an error, whatever follows. -/
theorem feed_tooLong {header : List UInt8} (hlength : header.length = FRAME_HEADER_LENGTH)
    (h : maxFrameLength < BigEndian.decode header) (rest : List UInt8) :
    Stream.feed (step maxFrameLength) (.header []) (header ++ rest) =
      .error (tooLong (BigEndian.decode header) maxFrameLength) := by
  have hne : header ≠ [] := by
    rintro rfl
    cases hlength
  have hheader := feed_ofHeader maxFrameLength [] header hne hlength
  rw [List.nil_append, ofHeader, if_pos h] at hheader
  exact Stream.feed_error_append _ hheader rest

variable {frames : List (List UInt8)}

/-- **The bytes read are the frames returned and what is pending.** -/
theorem step_bytes {pending pending' : Pending} {byte : UInt8} (hvalid : pending.Valid maxFrameLength)
    (h : step maxFrameLength pending byte = .ok (pending', frames)) :
    pending'.Valid maxFrameLength ∧ (∀ payload ∈ frames, payload.length ≤ maxFrameLength) ∧
      pending.bytes ++ [byte] = (frames.map frame).flatten ++ pending'.bytes := by
  cases pending with
  | header bytes =>
    unfold step at h
    dsimp only at h
    split at h
    · next hlt =>
      cases h
      exact ⟨hlt, by simp, rfl⟩
    · next hlt =>
      have hlength : (bytes ++ [byte]).length = FRAME_HEADER_LENGTH := by
        rw [List.length_append, List.length_singleton] at hlt ⊢
        have := hvalid
        unfold Valid at this
        omega
      have hencode := BigEndian.encode_decode (bytes ++ [byte])
      rw [hlength] at hencode
      obtain ⟨hle, h⟩ := (Except.guard_ok (by nofun)).mp h
      split at h
      · next hzero =>
        cases h
        rw [hzero] at hencode
        refine ⟨valid_start, by simp, ?_⟩
        show bytes ++ [byte] = frame [] ++ [] ++ []
        rw [← hencode, List.append_nil, List.append_nil]
        rfl
      · next hzero =>
        cases h
        refine ⟨⟨Nat.pos_of_ne_zero hzero, by omega⟩, by simp, ?_⟩
        show bytes ++ [byte] = [] ++ (BigEndian.encode _ (BigEndian.decode (bytes ++ [byte])) ++ [])
        rw [hencode, List.append_nil, List.nil_append]
  | payload length bytes =>
    unfold step at h
    dsimp only at h
    split at h
    · next heq =>
      cases h
      refine ⟨valid_start, ?_, ?_⟩
      · rintro payload hpayload
        rw [List.mem_singleton.mp hpayload, heq]
        exact hvalid.2
      · show BigEndian.encode _ length ++ bytes ++ [byte] = frame (bytes ++ [byte]) ++ [] ++ []
        rw [frame, heq, List.append_nil, List.append_nil, List.append_assoc]
    · next hne =>
      cases h
      have hlt : bytes.length < length ∧ length ≤ maxFrameLength := hvalid
      refine ⟨⟨?_, hlt.2⟩, by simp, ?_⟩
      · rw [List.length_append, List.length_singleton] at hne ⊢
        omega
      · show BigEndian.encode _ length ++ bytes ++ [byte] = [] ++ (BigEndian.encode _ length ++ _)
        rw [List.nil_append, List.append_assoc]

theorem feed_bytes {pending pending' : Pending} {bytes : List UInt8} (hvalid : pending.Valid maxFrameLength)
    (h : Stream.feed (step maxFrameLength) pending bytes = .ok (pending', frames)) :
    pending'.Valid maxFrameLength ∧ (∀ payload ∈ frames, payload.length ≤ maxFrameLength) ∧
      pending.bytes ++ bytes = (frames.map frame).flatten ++ pending'.bytes := by
  induction bytes generalizing pending frames with
  | nil =>
    cases h
    exact ⟨hvalid, by simp, List.append_nil _⟩
  | cons byte bytes ih =>
    obtain ⟨⟨pending₁, complete⟩, hstep, h⟩ := Except.bind_ok.mp h
    obtain ⟨⟨pending₂, frames'⟩, hfeed, h⟩ := Except.bind_ok.mp h
    cases h
    obtain ⟨hvalid₁, hle₁, hbytes₁⟩ := step_bytes hvalid hstep
    obtain ⟨hvalid₂, hle₂, hbytes₂⟩ := ih hvalid₁ hfeed
    refine ⟨hvalid₂, ?_, ?_⟩
    · intro payload hpayload
      rcases List.mem_append.mp hpayload with hpayload | hpayload
      · exact hle₁ payload hpayload
      · exact hle₂ payload hpayload
    rw [List.append_cons, hbytes₁, List.append_assoc, hbytes₂, List.map_append, List.flatten_append, List.append_assoc]

theorem feed_frames {payloads : List (List UInt8)}
    (h : ∀ payload ∈ payloads, payload.length ≤ MAX_UINT32 ∧ payload.length ≤ maxFrameLength) :
    Stream.feed (step maxFrameLength) (.header []) (payloads.map frame).flatten = .ok (.header [], payloads) := by
  induction payloads with
  | nil => rfl
  | cons payload payloads ih =>
    obtain ⟨hmax, hle⟩ := h payload (by simp)
    have hrest := ih fun payload hpayload => h payload (by simp [hpayload])
    rw [List.map_cons, List.flatten_cons]
    exact Stream.feed_append_ok _ (feed_frame hmax hle) hrest

/-- **Nothing is pending at the end of a frame**, and only there. -/
theorem boundary_iff {bytes : List UInt8} (hmax : maxFrameLength ≤ MAX_UINT32)
    (h : Stream.feed (step maxFrameLength) (.header []) bytes = .ok (pending, frames)) :
    pending = .header [] ↔ ∃ payloads : List (List UInt8), (∀ payload ∈ payloads, payload.length ≤ MAX_UINT32) ∧
        bytes = (payloads.map frame).flatten := by
  constructor
  · rintro rfl
    obtain ⟨-, hle, hbytes⟩ := feed_bytes valid_start h
    refine ⟨frames, fun payload hpayload => Nat.le_trans (hle payload hpayload) hmax, ?_⟩
    rw [show (Pending.header []).bytes = [] from rfl, List.nil_append, List.append_nil] at hbytes
    exact hbytes
  · rintro ⟨payloads, hlengths, rfl⟩
    induction payloads generalizing frames with
    | nil =>
      cases h
      rfl
    | cons payload payloads ih =>
      have hlength := hlengths payload (by simp)
      have hdecode : BigEndian.decode (BigEndian.encode FRAME_HEADER_LENGTH payload.length) =
          payload.length := by
        rw [MAX_UINT32] at hlength
        exact BigEndian.decode_encode (by rw [FRAME_HEADER_LENGTH]; omega)
      rw [List.map_cons, List.flatten_cons] at h
      by_cases hle : payload.length ≤ maxFrameLength
      · rw [Stream.feed_append _ (feed_frame hlength hle)] at h
        cases hrest : Stream.feed (step maxFrameLength) (.header []) (payloads.map frame).flatten with
        | error e =>
          rw [hrest] at h
          cases h
        | ok result =>
          rw [hrest] at h
          cases h
          exact ih (fun payload hpayload => hlengths payload (by simp [hpayload])) hrest
      · rw [frame, List.append_assoc, feed_tooLong (BigEndian.length_encode _ _) (by rw [hdecode]; omega)] at h
        cases h

end Pending

/-! ## The decoder -/

/-- What a payload has of the bytes pending. The room in its block is no more than is missing. -/
structure Payload.Holds (payload : Payload) (length : Nat) (bytes : List UInt8) : Prop where
  bytes_eq : payload.bytes = bytes
  payloadLength_eq : payload.payloadLength = bytes.length
  le : bytes.length ≤ length
  block : ∀ block ∈ payload.currentPayloadBlock, block.bytes.length ≤ block.byteLength ∧
    block.byteLength - block.bytes.length ≤ length - bytes.length

/-- The next block has room, and the blocks hold the same bytes. -/
theorem Payload.Holds.nextBlock {payload : Payload} {bytes : List UInt8}
    (h : payload.Holds length bytes) (hlt : bytes.length < length) :
    (payload.nextBlock length).1.flatten ++ (payload.nextBlock length).2.bytes = bytes ∧
      (payload.nextBlock length).2.bytes.length < (payload.nextBlock length).2.byteLength ∧
      (payload.nextBlock length).2.byteLength - (payload.nextBlock length).2.bytes.length ≤ length - bytes.length := by
  obtain ⟨hbytes, hlength, -, hblock⟩ := h
  have hsize : PAYLOAD_BLOCK_SIZE = 65536 := rfl
  unfold Payload.bytes at hbytes
  unfold Payload.nextBlock
  cases hcurrent : payload.currentPayloadBlock with
  | none =>
    rw [hcurrent] at hbytes
    refine ⟨hbytes, ?_, ?_⟩
    · simp only [List.length_nil]
      omega
    · simp only [List.length_nil]
      omega
  | some block =>
    rw [hcurrent] at hbytes
    obtain ⟨hle, hroom⟩ := hblock block (by rw [hcurrent]; rfl)
    dsimp only
    split
    · refine ⟨?_, ?_, ?_⟩
      · rw [List.flatten_append, List.append_nil, List.flatten_cons, List.flatten_nil, List.append_nil]
        exact hbytes
      · simp only [List.length_nil]
        omega
      · simp only [List.length_nil]
        omega
    next hroomy => exact ⟨hbytes, Nat.lt_of_le_of_ne hle hroomy, hroom⟩

/-! ## Reading -/

/-- **The inner loop reads what is missing**, or all of the chunk. -/
theorem Payload.Holds.read : ∀ (turns : Nat) {payload : Payload}
    {bytes : List UInt8} (chunk : List UInt8), chunk.length ≤ turns → payload.Holds length bytes →
    (Payload.read length turns payload chunk).1.Holds length (bytes ++ chunk.take (length - bytes.length)) ∧
      (Payload.read length turns payload chunk).2 = chunk.drop (length - bytes.length) := by
  intro turns
  induction turns with
  | zero =>
    intro payload bytes chunk hturns h
    obtain rfl : chunk = [] := List.eq_nil_of_length_eq_zero (by omega)
    rw [List.take_nil, List.drop_nil, List.append_nil]
    exact ⟨h, rfl⟩
  | succ turns ih =>
    intro payload bytes chunk hturns h
    rw [Payload.read]
    by_cases hgo : chunk ≠ [] ∧ payload.payloadLength < length
    · rw [if_pos hgo]
      obtain ⟨hne, hlt⟩ := hgo
      rw [h.payloadLength_eq] at hlt
      obtain ⟨hbytes, hroom, hle⟩ := h.nextBlock hlt
      generalize hnext : payload.nextBlock length = next at hbytes hroom hle
      obtain ⟨blocks, block⟩ := next
      dsimp only at hbytes hroom hle ⊢
      generalize hcount : min (block.byteLength - block.bytes.length) chunk.length = count
      have hpos : 0 < chunk.length := List.length_pos_of_ne_nil hne
      have htake : (chunk.take count).length = count := by
        rw [List.length_take]
        omega
      have hholds : Payload.Holds
          { payloadBlocks := blocks
            currentPayloadBlock := some { block with bytes := block.bytes ++ chunk.take count }
            payloadLength := payload.payloadLength + count } length
          (bytes ++ chunk.take count) := by
        refine ⟨?_, ?_, ?_, ?_⟩
        · rw [Payload.bytes, Option.elim, ← hbytes, List.append_assoc]
        · rw [List.length_append, htake, h.payloadLength_eq]
        · rw [List.length_append, htake]
          omega
        · intro block' hblock'
          cases hblock'
          rw [List.length_append, List.length_append, htake]
          dsimp only
          omega
      obtain ⟨hread, hrest⟩ := ih (chunk.drop count) (by rw [List.length_drop]; omega) hholds
      have hsplit : length - bytes.length = count + (length - (bytes ++ chunk.take count).length) := by
        rw [List.length_append, htake]
        omega
      rw [hsplit, List.take_add, ← List.append_assoc, ← List.drop_drop]
      exact ⟨hread, hrest⟩
    · rw [if_neg hgo]
      have hall : chunk.take (length - bytes.length) = [] ∧ chunk.drop (length - bytes.length) = chunk := by
        by_cases hne : chunk = []
        · rw [hne, List.take_nil, List.drop_nil]
          exact ⟨rfl, rfl⟩
        · have hge : length ≤ bytes.length := by
            rw [← h.payloadLength_eq]
            exact Nat.not_lt.mp fun hlt => hgo ⟨hne, hlt⟩
          rw [Nat.sub_eq_zero_of_le hge]
          exact ⟨rfl, rfl⟩
      rw [hall.1, hall.2, List.append_nil]
      exact ⟨h, rfl⟩

namespace FrameDecoder

/-- What a decoder has of the bytes pending. -/
def Holds (decoder : FrameDecoder) : Pending → Prop
  | .header bytes =>
    decoder.state = .opened ∧ decoder.expectedPayloadLength = none ∧ decoder.header = bytes ∧
      bytes.length < FRAME_HEADER_LENGTH
  | .payload length bytes =>
    decoder.state = .opened ∧ decoder.expectedPayloadLength = some length ∧
      decoder.header = [] ∧ bytes.length < length ∧ decoder.payload.Holds length bytes

variable {decoder : FrameDecoder}

theorem Holds.opened (h : decoder.Holds pending) : decoder.state = .opened := by
  cases pending <;> exact h.1

/-- The second half of a turn, with something missing of the payload. -/
theorem readPayload_holds {bytes : List UInt8} (h : decoder.Holds (.payload length bytes)) (chunk : List UInt8) :
    ∃ used rest pending, chunk = used ++ rest ∧ (chunk ≠ [] → used ≠ []) ∧
      Stream.feed (Pending.step decoder.maxFrameLength) (.payload length bytes) used =
        .ok (pending, (decoder.readPayload length chunk).2.1) ∧
      (decoder.readPayload length chunk).2.2 = rest ∧
      (decoder.readPayload length chunk).1.Holds pending ∧
      (decoder.readPayload length chunk).1.maxFrameLength = decoder.maxFrameLength := by
  obtain ⟨hstate, hexpected, hheader, hlt, hpayload⟩ := h
  obtain ⟨hread, hrest⟩ := Payload.Holds.read chunk.length chunk (Nat.le_refl _) hpayload
  unfold readPayload
  generalize hresult : Payload.read length chunk.length decoder.payload chunk = result at hread hrest
  obtain ⟨payload, rest⟩ := result
  dsimp only at hread hrest ⊢
  generalize hcount : length - bytes.length = count at hread hrest
  have hused : chunk ≠ [] → chunk.take count ≠ [] := by
    intro hne htake
    rcases List.take_eq_nil_iff.mp htake with hzero | hnil
    · omega
    · exact hne hnil
  by_cases hcomplete : payload.payloadLength = length
  · rw [if_pos hcomplete]
    rw [hread.payloadLength_eq] at hcomplete
    have hmore : chunk.take count ≠ [] := by
      intro hnil
      rw [hnil, List.append_nil] at hcomplete
      omega
    refine ⟨chunk.take count, rest, .header [], ?_, hused, ?_, rfl, ?_, rfl⟩
    · rw [hrest, List.take_append_drop]
    · rw [hread.bytes_eq]
      exact Pending.feed_complete _ hmore hcomplete
    · exact ⟨hstate, rfl, hheader, by decide⟩
  · rw [if_neg hcomplete]
    rw [hread.payloadLength_eq] at hcomplete
    have hshort : (bytes ++ chunk.take count).length < length :=
      Nat.lt_of_le_of_ne hread.le hcomplete
    refine ⟨chunk.take count, rest, .payload length (bytes ++ chunk.take count), ?_, hused, ?_, rfl, ?_, rfl⟩
    · rw [hrest, List.take_append_drop]
    · exact Pending.feed_payload _ hshort
    · exact ⟨hstate, hexpected, hheader, hshort, hread⟩

/-- **A turn reads some of the chunk**, as the machine does. -/
theorem readTurn_holds (h : decoder.Holds pending) {chunk : List UInt8} (hne : chunk ≠ []) :
    match decoder.readTurn chunk with
    | .ok (decoder', frames, rest) =>
      ∃ used pending', chunk = used ++ rest ∧ used ≠ [] ∧
        Stream.feed (Pending.step decoder.maxFrameLength) pending used = .ok (pending', frames) ∧
        decoder'.Holds pending' ∧ decoder'.maxFrameLength = decoder.maxFrameLength
    | .error e => Stream.feed (Pending.step decoder.maxFrameLength) pending chunk = .error e := by
  cases pending with
  | payload length bytes =>
    obtain ⟨used, rest, pending', hchunk, hused, hfeed, hrest, hholds, hmax⟩ :=
      readPayload_holds h chunk
    rw [readTurn, h.2.1]
    dsimp only
    rw [hrest]
    exact ⟨used, pending', hchunk, hused hne, hfeed, hholds, hmax⟩
  | header bytes =>
    obtain ⟨hstate, hexpected, rfl, hlt⟩ := h
    rw [readTurn, hexpected]
    generalize hcount : min (FRAME_HEADER_LENGTH - decoder.header.length) chunk.length = count
    have hpos : 0 < chunk.length := List.length_pos_of_ne_nil hne
    have hused : chunk.take count ≠ [] := by
      intro hnil
      rcases List.take_eq_nil_iff.mp hnil with hzero | hnil
      · omega
      · exact hne hnil
    have hlength : (decoder.header ++ chunk.take count).length = decoder.header.length + count := by
      rw [List.length_append, List.length_take]
      omega
    have hsplit := (List.take_append_drop count chunk).symm
    -- A header that stays short takes the whole chunk.
    by_cases hshort : (decoder.header ++ chunk.take count).length < FRAME_HEADER_LENGTH
    · rw [if_pos hshort]
      exact ⟨chunk.take count, .header (decoder.header ++ chunk.take count), hsplit, hused,
        Pending.feed_header _ hshort, ⟨hstate, rfl, rfl, hshort⟩, rfl⟩
    · rw [if_neg hshort]
      have hfull : (decoder.header ++ chunk.take count).length = FRAME_HEADER_LENGTH := by omega
      have hfeed := Pending.feed_ofHeader decoder.maxFrameLength _ _ hused hfull
      rw [Pending.ofHeader] at hfeed
      by_cases hlong : BigEndian.decode (decoder.header ++ chunk.take count) >
          decoder.maxFrameLength
      · rw [if_pos hlong] at hfeed ⊢
        have herror := Stream.feed_error_append _ hfeed (chunk.drop count)
        rw [← hsplit] at herror
        exact herror
      · rw [if_neg hlong] at hfeed ⊢
        -- An empty payload ends its frame with the header.
        by_cases hzero : BigEndian.decode (decoder.header ++ chunk.take count) = 0
        · rw [if_pos hzero] at hfeed ⊢
          exact ⟨chunk.take count, .header [], hsplit, hused, hfeed, ⟨hstate, rfl, rfl, by decide⟩, rfl⟩
        · rw [if_neg hzero] at hfeed ⊢
          generalize hframe : BigEndian.decode (decoder.header ++ chunk.take count) = frameLength at hfeed hzero
          have hstart : Holds { decoder with
              header := [], payload := {}, expectedPayloadLength := some frameLength }
              (.payload frameLength []) :=
            ⟨hstate, rfl, rfl, Nat.pos_of_ne_zero hzero, rfl, rfl, Nat.zero_le _, by simp⟩
          obtain ⟨used, rest, pending', hchunk, -, hfeed', hrest, hholds, hmax⟩ :=
            readPayload_holds hstart (chunk.drop count)
          dsimp only
          rw [hrest]
          refine ⟨chunk.take count ++ used, pending', ?_, by simp [hused], ?_, hholds, hmax⟩
          · rw [List.append_assoc, ← hchunk, List.take_append_drop]
          · exact Stream.feed_append_ok _ hfeed hfeed'

/-- **The outer loop feeds the chunk to the machine.** -/
theorem readFrames_holds : ∀ (turns : Nat) {decoder : FrameDecoder} {pending : Pending}
    (chunk : List UInt8) (frames : List (List UInt8)), chunk.length ≤ turns →
    decoder.Holds pending →
    match Stream.feed (Pending.step decoder.maxFrameLength) pending chunk with
    | .ok (pending', complete) => ∃ decoder', readFrames turns decoder chunk frames =
        (.ok (frames ++ complete), decoder') ∧ decoder'.Holds pending' ∧
          decoder'.maxFrameLength = decoder.maxFrameLength
    | .error e => ∃ decoder', readFrames turns decoder chunk frames = (.error e, decoder') ∧
        decoder'.state = .failed := by
  intro turns
  induction turns with
  | zero =>
    intro decoder pending chunk frames hturns h
    obtain rfl : chunk = [] := List.eq_nil_of_length_eq_zero (by omega)
    exact ⟨decoder, by rw [List.append_nil]; rfl, h, rfl⟩
  | succ turns ih =>
    intro decoder pending chunk frames hturns h
    by_cases hne : chunk = []
    · subst hne
      exact ⟨decoder, by rw [List.append_nil]; rfl, h, rfl⟩
    · have hturn := readTurn_holds h hne
      rw [readFrames, if_neg hne]
      cases hresult : decoder.readTurn chunk with
      | error e =>
        rw [hresult] at hturn
        rw [hturn]
        exact ⟨decoder.fail, rfl, rfl⟩
      | ok result =>
        obtain ⟨decoder', complete, rest⟩ := result
        rw [hresult] at hturn
        obtain ⟨used, pending', rfl, hused, hfeed, hholds, hmax⟩ := hturn
        have hpos : 0 < used.length := List.length_pos_of_ne_nil hused
        have hrest := ih rest (frames ++ complete) (by rw [List.length_append] at hturns; omega) hholds
        rw [hmax] at hrest
        dsimp only
        rw [Stream.feed_append _ hfeed]
        cases hmore : Stream.feed (Pending.step decoder.maxFrameLength) pending' rest with
        | error e =>
          rw [hmore] at hrest
          exact hrest
        | ok result =>
          rw [hmore] at hrest
          obtain ⟨decoder'', hread, hholds', hmax'⟩ := hrest
          exact ⟨decoder'', by rw [hread, List.append_assoc], hholds', hmax'⟩

/-- **A push feeds its chunk.** -/
theorem push_holds (h : decoder.Holds pending) (chunk : List UInt8) :
    match Stream.feed (Pending.step decoder.maxFrameLength) pending chunk with
    | .ok (pending', complete) => ∃ decoder', decoder.push chunk = (.ok complete, decoder') ∧
        decoder'.Holds pending' ∧ decoder'.maxFrameLength = decoder.maxFrameLength
    | .error e => ∃ decoder', decoder.push chunk = (.error e, decoder') ∧
        decoder'.state = .failed := by
  rw [push, h.opened]
  exact readFrames_holds chunk.length chunk [] (Nat.le_refl _) h

/-- **The stream may end where nothing is pending.** -/
theorem finish_ok (h : decoder.Holds pending) : decoder.finish.1 = .ok () ↔ pending = .header [] := by
  rw [finish, h.opened]
  cases pending with
  | header bytes =>
    obtain ⟨-, hexpected, rfl, -⟩ := h
    simp only [hexpected, Option.isSome_none, Bool.false_eq_true, or_false, Pending.header.injEq]
    cases decoder.header with
    | nil => simp
    | cons byte bytes => simp
  | payload length bytes =>
    obtain ⟨-, hexpected, -, -, -⟩ := h
    simp [hexpected]

end FrameDecoder

end Mcpi.Protocol
