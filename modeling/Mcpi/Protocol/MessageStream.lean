import Mcpi.Protocol.Messages

/-!
# A stream of messages

Messages that the encoder accepts come out of the decoder in order, however the bytes of
their frames are cut into chunks.
-/

namespace Mcpi.Protocol

open Cbor (MAX_UINT32 encodeCbor decodeCbor)

/-! ## Messages without `undefined` properties -/

theorem isProtocolValue_defined {value : Value} (h : value.isDefined = true) (optional : Bool) :
    isProtocolValue value optional = isProtocolValue value false := by
  cases value with
  | undefined => cases h
  | _ => rfl

mutual
theorem isProtocolValue_stripped : ∀ {value : Value}, isProtocolValue value false = true →
    isProtocolValue value.stripped false = true
  | .undefined, h => h
  | .null, _ | .bool _, _ | .number _, _ | .string _, _ => rfl
  | .bytes _, h | .other _, h => h
  | .array items, h => areProtocolValues_stripped h
  | .object _ entries, h => by
    rw [isProtocolValue, Bool.and_eq_true] at h
    rw [Value.stripped, isProtocolValue, areProtocolProperties_stripped h.2]
    rfl

theorem areProtocolValues_stripped : ∀ {items : List Value}, areProtocolValues items = true →
    areProtocolValues (Value.strippedItems items) = true
  | [], _ => rfl
  | item :: items, h => by
    rw [areProtocolValues, Bool.and_eq_true] at h
    rw [Value.strippedItems, areProtocolValues, isProtocolValue_stripped h.1, areProtocolValues_stripped h.2]
    rfl

theorem areProtocolProperties_stripped : ∀ {entries : List (JsString × Value)}, areProtocolProperties entries = true →
    areProtocolProperties (Value.strippedEntries entries) = true
  | [], _ => rfl
  | (key, value) :: entries, h => by
    rw [areProtocolProperties, Bool.and_eq_true] at h
    have hrest := areProtocolProperties_stripped h.2
    cases hdefined : value.isDefined with
    | false =>
      obtain rfl : value = .undefined := by cases value <;> simp_all [Value.isDefined]
      exact hrest
    | true =>
      rw [isProtocolValue_defined hdefined] at h
      have hvalue := isProtocolValue_stripped h.1
      have hstripped : value.stripped.isDefined = true := by
        cases value with
        | undefined => cases hdefined
        | _ => rfl
      rw [Cbor.strippedEntries_cons key entries hdefined, areProtocolProperties,
        isProtocolValue_defined hstripped, hvalue, hrest]
      rfl
end

/-! ## One message -/

section Messages

variable (check : MessageKind → Value → Bool) (kind : MessageKind)

theorem parseMessage_ok {value value' : Value} :
    parseMessage check kind value = .ok value' ↔
      (isProtocolValue value false = true ∧ check kind value = true) ∧ value = value' := by
  rw [parseMessage, Except.guard_ok (by nofun), Except.ok.injEq]
  simp

variable {options : FrameDecoderOptions}

/-- What a message that was encoded says about its frame. -/
theorem encodeMessage_ok {value : Value} {bytes : List UInt8} (h : encodeMessage check kind value options = .ok bytes) :
    ∃ payload maxFrameLength, isProtocolValue value false = true ∧ check kind value = true ∧ encodeCbor value
        { maxByteLength := some (options.maxFrameLength.getD DEFAULT_MAX_FRAME_LENGTH) } = .ok payload ∧
      resolveMaxFrameLength options = .ok maxFrameLength ∧ payload.length ≤ maxFrameLength ∧
      bytes = frame payload := by
  obtain ⟨value', hparse, h⟩ := Except.bind_ok.mp h
  obtain ⟨⟨hvalue, hcheck⟩, rfl⟩ := (parseMessage_ok check kind).mp hparse
  have hvalidated := Except.mapError_ok.mp h
  obtain ⟨payload, hpayload, h⟩ := Except.bind_ok.mp hvalidated
  obtain ⟨framed, hframed, h⟩ := Except.bind_ok.mp h
  obtain ⟨_, hassert, h⟩ := Except.bind_ok.mp h
  cases h
  obtain ⟨hmax, hframe⟩ := (Except.guard_ok (by rintro _ ⟨⟩)).mp (Except.mapError_ok.mp hframed)
  cases hframe
  rw [MAX_UINT32] at hmax
  have hlength : BigEndian.decode ((frame payload).take FRAME_HEADER_LENGTH) = payload.length := by
    rw [frame, List.take_left' (BigEndian.length_encode _ _)]
    exact BigEndian.decode_encode (by rw [FRAME_HEADER_LENGTH]; omega)
  have hassert := Except.mapError_ok.mp hassert
  unfold assertCompleteFrame at hassert
  obtain ⟨-, hassert⟩ := (Except.guard_ok (by rintro _ ⟨⟩)).mp hassert
  obtain ⟨maxFrameLength, hresolved, hassert⟩ := Except.bind_ok.mp hassert
  obtain ⟨hle, -⟩ := (Except.guard_ok (by rintro _ ⟨⟩)).mp hassert
  rw [hlength] at hle
  exact ⟨payload, maxFrameLength, hvalue, hcheck, Except.mapError_ok.mp hpayload, hresolved, by omega, rfl⟩

/-- **A message is received as it was encoded**, without `undefined` properties. -/
theorem receive_encoded {decoder : MessageDecoder} {value : JsValue} {payload : List UInt8}
    (hcheck : check decoder.kind value.1.stripped = true)
    (hvalue : isProtocolValue value.1 false = true)
    (h : encodeCbor value.1 { maxByteLength := some decoder.maxFrameLength } = .ok payload) :
    decoder.receive check payload = .ok value.1.stripped := by
  obtain ⟨resolved, hresolved, hencodable, rfl, hlength⟩ := Cbor.encodeCbor_ok.mp h
  rw [MessageDecoder.receive, Cbor.decodeCbor_wire hresolved hencodable value.2 hlength]
  exact (parseMessage_ok check _).mpr ⟨⟨isProtocolValue_stripped hvalue, hcheck⟩, rfl⟩

/-! ## The decoder -/

namespace MessageDecoder

variable {messages : List Value}

theorem receiveAll_append (decoder : MessageDecoder) {payloads payloads' : List (List UInt8)} :
    decoder.receiveAll check (payloads ++ payloads') = .ok messages ↔ ∃ first last,
      decoder.receiveAll check payloads = .ok first ∧
        decoder.receiveAll check payloads' = .ok last ∧ messages = first ++ last := by
  induction payloads generalizing messages with
  | nil =>
    constructor
    · exact fun h => ⟨[], messages, rfl, h, rfl⟩
    · rintro ⟨first, last, hfirst, hlast, rfl⟩
      cases hfirst
      exact hlast
  | cons payload payloads ih =>
    rw [List.cons_append, receiveAll, receiveAll]
    constructor
    · intro h
      obtain ⟨message, hmessage, h⟩ := Except.bind_ok.mp h
      obtain ⟨messages', hmessages, h⟩ := Except.bind_ok.mp h
      cases h
      obtain ⟨first, last, hfirst, hlast, rfl⟩ := ih.mp hmessages
      refine ⟨message :: first, last, ?_, hlast, rfl⟩
      exact Except.bind_ok.mpr ⟨_, hmessage, Except.bind_ok.mpr ⟨_, hfirst, rfl⟩⟩
    · rintro ⟨first, last, h, hlast, rfl⟩
      obtain ⟨message, hmessage, h⟩ := Except.bind_ok.mp h
      obtain ⟨first', hfirst, h⟩ := Except.bind_ok.mp h
      cases h
      have hrest := ih.mpr ⟨first', last, hfirst, hlast, rfl⟩
      exact Except.bind_ok.mpr ⟨_, hmessage, Except.bind_ok.mpr ⟨_, hrest, rfl⟩⟩

/-- A decoder that has read some bytes without an error. -/
structure Reading (decoder start : MessageDecoder) (pending : Pending) : Prop where
  kind_eq : decoder.kind = start.kind
  maxFrameLength_eq : decoder.maxFrameLength = start.maxFrameLength
  limit_eq : decoder.frames.maxFrameLength = start.frames.maxFrameLength
  going : decoder.failed = false
  holds : decoder.frames.Holds pending

variable {start : MessageDecoder}

variable {decoder : MessageDecoder} {pending : Pending}

theorem Reading.receiveAll (h : decoder.Reading start pending) (payloads : List (List UInt8)) :
    decoder.receiveAll check payloads = start.receiveAll check payloads := by
  have hreceive : decoder.receive check = start.receive check := by
    funext payload
    unfold receive invalidFrame
    rw [h.kind_eq, h.maxFrameLength_eq]
  induction payloads with
  | nil => rfl
  | cons payload payloads ih =>
    rw [MessageDecoder.receiveAll, MessageDecoder.receiveAll, hreceive, ih]

/-- **A push**: the chunk makes some payloads complete, and their messages are returned; or it
contains a frame that is too long, or a payload that is no message, and the decoder fails. -/
theorem push_reading (h : decoder.Reading start pending) (chunk : List UInt8) :
    match Stream.feed (Pending.step start.frames.maxFrameLength) pending chunk with
    | .error e => ∃ decoder', decoder.push check chunk =
        (.error (start.invalidFrame e.message), decoder') ∧ decoder'.failed = true
    | .ok (pending', payloads) =>
      match start.receiveAll check payloads with
      | .error e => ∃ decoder', decoder.push check chunk = (.error e, decoder') ∧
          decoder'.failed = true
      | .ok messages => ∃ decoder', decoder.push check chunk = (.ok messages, decoder') ∧
          decoder'.Reading start pending' := by
  have hpush := FrameDecoder.push_holds h.holds chunk
  rw [h.limit_eq] at hpush
  rw [push, if_neg (by simp [h.going])]
  cases hfeed : Stream.feed (Pending.step start.frames.maxFrameLength) pending chunk with
  | error e =>
    rw [hfeed] at hpush
    obtain ⟨frames, hframes, -⟩ := hpush
    have hinvalid : decoder.invalidFrame e.message = start.invalidFrame e.message := by
      rw [invalidFrame, invalidFrame, h.kind_eq]
    dsimp only
    rw [hframes, ← hinvalid]
    exact ⟨_, rfl, rfl⟩
  | ok result =>
    obtain ⟨pending', payloads⟩ := result
    rw [hfeed] at hpush
    obtain ⟨frames, hframes, hholds, hmax⟩ := hpush
    rw [hframes]
    dsimp only
    rw [h.receiveAll check payloads]
    cases hreceive : start.receiveAll check payloads with
    | error e => exact ⟨_, rfl, rfl⟩
    | ok messages =>
      exact ⟨_, rfl, h.kind_eq, h.maxFrameLength_eq, hmax, h.going, hholds⟩

/-- **All pushes together** read the bytes of their chunks, and return their messages. -/
theorem pushAll_of_feed {pending pending' : Pending}
    (h : decoder.Reading start pending) {chunks payloads : List (List UInt8)}
    (hfeed : Stream.feed (Pending.step start.frames.maxFrameLength) pending chunks.flatten = .ok (pending', payloads))
    (hreceive : start.receiveAll check payloads = .ok messages) :
    ∃ decoder', decoder.pushAll check chunks = (.ok messages, decoder') ∧ decoder'.Reading start pending' := by
  induction chunks generalizing decoder pending payloads messages with
  | nil =>
    cases hfeed
    cases hreceive
    exact ⟨decoder, rfl, h⟩
  | cons chunk chunks ih =>
    obtain ⟨pending₁, payloads₁, payloads₂, hfeed₁, hfeed₂, rfl⟩ := Stream.feed_append_inv _ hfeed
    obtain ⟨messages₁, messages₂, hreceive₁, hreceive₂, rfl⟩ :=
      (receiveAll_append check start).mp hreceive
    have hchunk := push_reading check h chunk
    rw [hfeed₁] at hchunk
    dsimp only at hchunk
    rw [hreceive₁] at hchunk
    obtain ⟨decoder₁, hpush, hreading⟩ := hchunk
    obtain ⟨decoder₂, hrest, hreading₂⟩ := ih hreading hfeed₂ hreceive₂
    refine ⟨decoder₂, ?_, hreading₂⟩
    rw [pushAll, hpush]
    dsimp only
    rw [hrest]

/-- Pushes that succeeded have read the bytes of their chunks. -/
theorem feed_of_pushAll {decoder decoder' : MessageDecoder} (h : decoder.Reading start pending)
    {chunks : List (List UInt8)}
    (hpush : decoder.pushAll check chunks = (.ok messages, decoder')) :
    ∃ pending' payloads, Stream.feed (Pending.step start.frames.maxFrameLength) pending chunks.flatten =
        .ok (pending', payloads) ∧ decoder'.Reading start pending' := by
  induction chunks generalizing decoder pending messages with
  | nil =>
    cases hpush
    exact ⟨pending, [], rfl, h⟩
  | cons chunk chunks ih =>
    have hchunk := push_reading check h chunk
    rw [pushAll] at hpush
    split at hchunk
    · next e _ =>
      obtain ⟨decoder₁, hdecoder₁, -⟩ := hchunk
      rw [hdecoder₁] at hpush
      cases hpush
    · next pending₁ payloads₁ hfeed₁ =>
      split at hchunk
      · next e _ =>
        obtain ⟨decoder₁, hdecoder₁, -⟩ := hchunk
        rw [hdecoder₁] at hpush
        cases hpush
      · next messages₁ _ =>
        obtain ⟨decoder₁, hdecoder₁, hreading⟩ := hchunk
        rw [hdecoder₁] at hpush
        dsimp only at hpush
        split at hpush
        · cases hpush
        · next messages₂ decoder₂ hrest =>
          cases hpush
          obtain ⟨pending', payloads₂, hfeed₂, hreading₂⟩ := ih hreading hrest
          exact ⟨pending', payloads₁ ++ payloads₂, Stream.feed_append_ok _ hfeed₁ hfeed₂, hreading₂⟩

theorem Reading.finish_ok (h : decoder.Reading start pending) : decoder.finish.1 = .ok () ↔ pending = .header [] := by
  rw [← FrameDecoder.finish_ok h.holds, finish, if_neg (by simp [h.going])]
  split
  next e frames hfinish => simp [hfinish]
  next frames hfinish => simp [hfinish]

theorem new_reading (h : new kind options = .ok start) :
    start.Reading start (.header []) ∧ start.kind = kind ∧
      start.maxFrameLength = options.maxFrameLength.getD DEFAULT_MAX_FRAME_LENGTH ∧
      resolveMaxFrameLength options = .ok start.frames.maxFrameLength := by
  obtain ⟨frames, hframes, h⟩ := Except.bind_ok.mp h
  cases h
  obtain ⟨maxFrameLength, hmax, hframes⟩ := Except.bind_ok.mp hframes
  cases hframes
  exact ⟨⟨rfl, rfl, rfl, rfl, rfl, rfl, rfl, by decide⟩, rfl, rfl, hmax⟩

/-- Messages that were encoded are received from their payloads. -/
theorem receiveAll_encoded (h : new kind options = .ok start)
    (hcheck : ∀ value, isProtocolValue value false = true → check kind value = true → check kind value.stripped = true)
    {messages : List JsValue} {frames : List (List UInt8)}
    (hencode : List.Forall₂ (fun message bytes => encodeMessage check kind message.1 options =
      .ok bytes) messages frames) :
    ∃ payloads : List (List UInt8), frames = payloads.map frame ∧
      (∀ payload ∈ payloads, payload.length ≤ start.frames.maxFrameLength) ∧
      start.receiveAll check payloads = .ok (messages.map fun message => message.1.stripped) := by
  obtain ⟨-, hkind, hmaxFrame, hresolved⟩ := new_reading kind h
  induction hencode with
  | nil => exact ⟨[], rfl, by simp, rfl⟩
  | cons hmessage _ ih =>
    obtain ⟨payloads, rfl, hle, hreceive⟩ := ih
    obtain ⟨payload, limit, hvalue, hvalid, hpayload, hlimit, hlength, rfl⟩ :=
      encodeMessage_ok check kind hmessage
    cases hresolved.symm.trans hlimit
    refine ⟨payload :: payloads, rfl, ?_, ?_⟩
    · intro payload' hmem
      rcases List.mem_cons.mp hmem with rfl | hmem
      · exact hlength
      · exact hle payload' hmem
    · rw [← hmaxFrame] at hpayload
      have hfirst := receive_encoded check (hkind ▸ hcheck _ hvalue hvalid) hvalue hpayload
      exact Except.bind_ok.mpr ⟨_, hfirst, Except.bind_ok.mpr ⟨_, hreceive, rfl⟩⟩

/-- A call that throws leaves a decoder that has failed. -/
theorem push_error {chunk : List UInt8} {e : ProtocolValidationError} (h : (decoder.push check chunk).1 = .error e) :
    (decoder.push check chunk).2.failed = true := by
  unfold push at h ⊢
  split at h
  next hfailed => rw [if_pos hfailed]; exact hfailed
  · next hgoing =>
    rw [if_neg hgoing]
    split
    · rfl
    · split
      · rfl
      · next hframes _ _ hreceive =>
        rw [hframes] at h
        dsimp only at h
        rw [hreceive] at h
        cases h

theorem finish_error {e : ProtocolValidationError}
    (h : decoder.finish.1 = .error e) : decoder.finish.2.failed = true := by
  unfold finish at h ⊢
  split at h
  next hfailed => rw [if_pos hfailed]; exact hfailed
  · next hgoing =>
    rw [if_neg hgoing]
    split
    · rfl
    · next hframes =>
      rw [hframes] at h
      cases h

/-- **Framing does not depend on chunks.** A new decoder returns the messages whose frames are cut
into chunks in any way. Its stream may end exactly at the end of a frame. The push that completes
the header of a frame above the limit throws. After a call that throws every push does. -/
theorem stream_of_chunks (options : FrameDecoderOptions) (start : MessageDecoder) (hnew : new kind options = .ok start)
    (hcheck : ∀ value, isProtocolValue value false = true → check kind value = true →
      check kind value.stripped = true) :
    (∀ (messages : List JsValue) (frames chunks : List (List UInt8)),
      List.Forall₂ (fun message bytes => encodeMessage check kind message.1 options = .ok bytes) messages frames →
      chunks.flatten = frames.flatten →
      (start.pushAll check chunks).1 = .ok (messages.map fun message => message.1.stripped)) ∧
    (∀ (chunks : List (List UInt8)) (messages : List Value) (decoder : MessageDecoder),
      start.pushAll check chunks = (.ok messages, decoder) →
      (decoder.finish.1 = .ok () ↔ ∃ payloads : List (List UInt8),
        (∀ payload ∈ payloads, payload.length ≤ MAX_UINT32) ∧ chunks.flatten = (payloads.map frame).flatten) ∧
      ∀ (chunk header rest : List UInt8) (payloads : List (List UInt8)),
        (∀ payload ∈ payloads, payload.length ≤ start.frames.maxFrameLength) →
        header.length = FRAME_HEADER_LENGTH →
        start.frames.maxFrameLength < BigEndian.decode header →
        chunks.flatten ++ chunk = (payloads.map frame).flatten ++ (header ++ rest) →
        (decoder.push check chunk).1 = .error (start.invalidFrame
          (tooLong (BigEndian.decode header) start.frames.maxFrameLength).message)) ∧
    (∀ (decoder : MessageDecoder) (e : ProtocolValidationError) (calls : List Call) (chunk' : List UInt8),
      (∀ chunk, (decoder.push check chunk).1 = .error e →
        ∃ e', ((calls.foldl (call check) (decoder.push check chunk).2).push check chunk').1 = .error e') ∧
      (decoder.finish.1 = .error e →
        ∃ e', ((calls.foldl (call check) decoder.finish.2).push check chunk').1 = .error e')) := by
  obtain ⟨hreading, -, -, -⟩ := new_reading kind hnew
  have hmax := start.frames.maxFrameLength.2
  refine ⟨?_, ?_, ?_⟩
  · intro messages frames chunks hencode hchunks
    obtain ⟨payloads, rfl, hle, hreceive⟩ := receiveAll_encoded check kind hnew hcheck hencode
    have hfeed := Pending.feed_frames fun payload hpayload =>
      ⟨Nat.le_trans (hle payload hpayload) hmax, hle payload hpayload⟩
    rw [← hchunks] at hfeed
    obtain ⟨decoder, hpush, -⟩ := pushAll_of_feed check hreading hfeed hreceive
    rw [hpush]
  · intro chunks messages decoder hpush
    obtain ⟨pending, payloads, hfeed, hdecoder⟩ := feed_of_pushAll check hreading hpush
    refine ⟨hdecoder.finish_ok.trans (Pending.boundary_iff hmax hfeed), ?_⟩
    intro chunk header rest payloads' hle hlength hlong hbytes
    have hframes := Pending.feed_frames fun payload hpayload =>
      ⟨Nat.le_trans (hle payload hpayload) hmax, hle payload hpayload⟩
    have herror := Stream.feed_append_error _ hframes (Pending.feed_tooLong hlength hlong rest)
    rw [← hbytes, Stream.feed_append _ hfeed] at herror
    have hchunk := push_reading check hdecoder chunk
    cases hmore : Stream.feed (Pending.step start.frames.maxFrameLength) pending chunk with
    | ok result =>
      rw [hmore] at herror
      cases herror
    | error e =>
      rw [hmore] at herror hchunk
      cases herror
      obtain ⟨decoder', hpush', -⟩ := hchunk
      rw [hpush']
  · intro decoder e calls chunk'
    have hfails : ∀ decoder' : MessageDecoder, decoder'.failed = true →
        ∃ e', (decoder'.push check chunk').1 = .error e' := fun decoder' hfailed =>
      ⟨decoder'.failure, by rw [push, if_pos hfailed]⟩
    refine ⟨fun chunk h => ?_, fun h => ?_⟩
    · exact hfails _ (calls_failed check (push_error check h) calls)
    · exact hfails _ (calls_failed check (finish_error h) calls)

end MessageDecoder

end Messages

/-- `Check` on the hello of a client. -/
def checkClientHello (kind : MessageKind) (value : Value) : Bool :=
  match value with
  | .object _ [(type, .string hello), (version, .number (.int n))] =>
    kind = .client && type = Utf16.encode "type".toList && hello = Utf16.encode "hello".toList &&
      version = Utf16.encode "version".toList && 0 ≤ n.1
  | _ => false

theorem hello_listed : Value.Listed (.object .object [(Utf16.encode "type".toList,
    .string (Utf16.encode "hello".toList)), (Utf16.encode "version".toList, .number (.int ⟨1, by decide⟩))]) := by
  simp only [Value.Listed, Value.ListedEntries, List.pairwise_cons]
  exact ⟨⟨by decide +kernel, by simp, List.Pairwise.nil⟩, trivial, trivial, trivial⟩

/-- A hello in three chunks. -/
theorem MessageDecoder.stream_of_chunks_hello :
    let hello : JsValue := ⟨.object .object [(Utf16.encode "type".toList,
      .string (Utf16.encode "hello".toList)), (Utf16.encode "version".toList,
      .number (.int ⟨1, by decide⟩))], hello_listed⟩
    ∃ start, new .client {} = .ok start ∧
      (start.pushAll checkClientHello [[0, 0], [0, 21, 0xa2, 0x64, 116, 121, 112, 101], [],
        [0x65, 104, 101, 108, 108, 111, 0x67, 118, 101, 114, 115, 105, 111, 110, 1]]).1 = .ok [hello.1] := by
  intro hello
  refine ⟨_, rfl, ?_⟩
  refine (stream_of_chunks checkClientHello .client {} _ rfl ?_).1 [hello] [_] _
    (List.Forall₂.cons rfl List.Forall₂.nil) rfl
  intro value _ h
  unfold checkClientHello at h
  split at h
  · exact h
  · cases h

end Mcpi.Protocol
