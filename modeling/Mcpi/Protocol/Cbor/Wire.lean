import Mcpi.Lib.Except
import Mcpi.Protocol.Cbor.Encoder

/-!
# What the encoder writes

The encoder appends bytes to a buffer and throws in the middle of it. Here its two halves
stand apart: the bytes of a value (`wire`), and which values have any (`Encodable`). The
encoder succeeds exactly on an encodable value whose bytes fit the limit.
-/

namespace Mcpi.Protocol.Cbor

/-! ## Writers -/

/-- `write` appends `bytes` if `accepts` holds and they fit, and throws otherwise. -/
def Writes (maxByteLength : Nat) (write : List UInt8 → Attempt (List UInt8)) (accepts : Prop)
    (bytes : List UInt8) : Prop :=
  ∀ buffer, buffer.length ≤ maxByteLength → ∀ buffer', write buffer = .ok buffer' ↔
    accepts ∧ buffer' = buffer ++ bytes ∧ buffer'.length ≤ maxByteLength

namespace Writes

variable {max : Nat} {write write' : List UInt8 → Attempt (List UInt8)} {accepts accepts' : Prop}
  {bytes bytes' : List UInt8}

theorem nothing : Writes max Except.ok True [] := by
  intro buffer hbuffer buffer'
  rw [Except.ok.injEq, List.append_nil]
  constructor
  · rintro rfl
    exact ⟨trivial, rfl, hbuffer⟩
  · rintro ⟨-, rfl, -⟩
    rfl

theorem refuse (h : ∀ buffer buffer', write buffer ≠ .ok buffer') : Writes max write False bytes :=
  fun buffer _ buffer' => ⟨fun hok => absurd hok (h buffer buffer'), fun hok => hok.1.elim⟩

theorem congr (h : Writes max write accepts bytes) (hiff : accepts' ↔ accepts) : Writes max write accepts' bytes := by
  intro buffer hbuffer buffer'
  rw [hiff]
  exact h buffer hbuffer buffer'

theorem bind (h : Writes max write accepts bytes) (h' : Writes max write' accepts' bytes') :
    Writes max (fun buffer => write buffer >>= write') (accepts ∧ accepts') (bytes ++ bytes') := by
  intro buffer hbuffer buffer''
  rw [Except.bind_ok]
  constructor
  · rintro ⟨buffer', hwrite, hwrite'⟩
    obtain ⟨haccepts, rfl, hle⟩ := (h buffer hbuffer buffer').mp hwrite
    obtain ⟨haccepts', rfl, hle'⟩ := (h' _ hle buffer'').mp hwrite'
    exact ⟨⟨haccepts, haccepts'⟩, List.append_assoc _ _ _, hle'⟩
  · rintro ⟨⟨haccepts, haccepts'⟩, rfl, hle⟩
    have hle' : (buffer ++ bytes).length ≤ max := by
      simp only [List.length_append] at hle ⊢
      omega
    refine ⟨buffer ++ bytes, (h buffer hbuffer _).mpr ⟨haccepts, rfl, hle'⟩, ?_⟩
    exact (h' _ hle' _).mpr ⟨haccepts', (List.append_assoc _ _ _).symm, hle⟩

theorem guard {p : Prop} [Decidable p] (h : Writes max write accepts bytes)
    (hwrite' : ∀ buffer buffer', write' buffer ≠ .ok buffer') :
    Writes max (fun buffer => if p then write' buffer else write buffer) (¬ p ∧ accepts) bytes := by
  intro buffer hbuffer buffer'
  rw [Except.guard_ok (hwrite' buffer), h buffer hbuffer buffer', and_assoc]

end Writes

theorem writes_bytes (max : Nat) (bytes : List UInt8) : Writes max (writeBytes max bytes) True bytes := by
  intro buffer _ buffer'
  rw [writeBytes, ensureCapacity]
  by_cases h : buffer.length + bytes.length > max
  · rw [if_pos h]
    refine ⟨(nomatch ·), ?_⟩
    rintro ⟨-, rfl, hle⟩
    rw [List.length_append] at hle
    omega
  · rw [if_neg h]
    constructor
    · intro hok
      obtain rfl : buffer ++ bytes = buffer' := Except.ok.inj hok
      refine ⟨trivial, rfl, ?_⟩
      rw [List.length_append]
      omega
    · rintro ⟨-, rfl, -⟩
      rfl

/-! ## Heads -/

/-- The initial byte of an item and its argument. -/
def head (majorType value : Nat) : List UInt8 :=
  if value < 24 then [UInt8.ofNat (majorType * 32 + value)]
  else if value ≤ 0xff then [UInt8.ofNat (majorType * 32 + 24), UInt8.ofNat value]
  else if value ≤ 0xffff then UInt8.ofNat (majorType * 32 + 25) :: BigEndian.encode 2 value
  else if value ≤ MAX_UINT32 then UInt8.ofNat (majorType * 32 + 26) :: BigEndian.encode 4 value
  else
    UInt8.ofNat (majorType * 32 + 27) :: (BigEndian.encode 4 (value / UINT32_BASE) ++
      BigEndian.encode 4 (value - value / UINT32_BASE * UINT32_BASE))

theorem writes_argument (max majorType value : Nat) :
    Writes max (writeArgument max majorType value) True (head majorType value) := by
  have hbyte : ∀ n, Writes max (writeByte max n) True [UInt8.ofNat n] := fun n => writes_bytes max _
  unfold writeArgument head
  by_cases h24 : value < 24
  · simp only [if_pos h24]
    exact hbyte _
  by_cases hff : value ≤ 0xff
  · simp only [if_neg h24, if_pos hff]
    exact ((hbyte _).bind (hbyte value)).congr (by simp)
  by_cases hffff : value ≤ 0xffff
  · simp only [if_neg h24, if_neg hff, if_pos hffff]
    exact ((hbyte _).bind (writes_bytes max (BigEndian.encode 2 value))).congr (by simp)
  by_cases hmax : value ≤ MAX_UINT32
  · simp only [if_neg h24, if_neg hff, if_neg hffff, if_pos hmax]
    exact ((hbyte _).bind (writes_bytes max (BigEndian.encode 4 value))).congr (by simp)
  · simp only [if_neg h24, if_neg hff, if_neg hffff, if_neg hmax]
    exact ((hbyte _).bind ((writes_bytes max (BigEndian.encode 4 _)).bind
      (writes_bytes max (BigEndian.encode 4 _)))).congr (by simp)

/-! ## Values -/

/-- The numbers the encoder accepts. -/
def EncodableNumber : JsNumber → Prop
  | .int _ => True
  | .double bits =>
    Double.isFinite bits = true ∧ (Double.isInteger bits = true → Double.isNegativeZero bits = true)

/-- Text without lone surrogates. -/
def WellFormed (s : JsString) : Prop := textDecode (textEncode s) = some s

mutual
/-- The values the encoder accepts at some depth, the byte limit apart. -/
def Encodable (options : ResolvedCborOptions) (depth : Nat) : Value → Prop
  | .null | .bool _ | .bytes _ => depth ≤ options.maxDepth
  | .number n => depth ≤ options.maxDepth ∧ EncodableNumber n
  | .string s => depth ≤ options.maxDepth ∧ WellFormed s
  | .array items =>
    depth ≤ options.maxDepth ∧ items.length ≤ options.maxContainerLength ∧ EncodableItems options (depth + 1) items
  | .object prototype entries =>
    depth ≤ options.maxDepth ∧ prototype ≠ .other ∧ entriesLength entries ≤ options.maxContainerLength ∧
      EncodableEntries options (depth + 1) entries
  | .undefined | .other _ => False

/-- The same of every item. -/
def EncodableItems (options : ResolvedCborOptions) (depth : Nat) : List Value → Prop
  | [] => True
  | item :: items => Encodable options depth item ∧ EncodableItems options depth items

/-- The same of every property that is not `undefined`. -/
def EncodableEntries (options : ResolvedCborOptions) (depth : Nat) :
    List (JsString × Value) → Prop
  | [] => True
  | (_, .undefined) :: entries => EncodableEntries options depth entries
  | (key, value) :: entries =>
    WellFormed key ∧ Encodable options depth value ∧ EncodableEntries options depth entries
end

/-- The bytes of a number. -/
def wireNumber : JsNumber → List UInt8
  | .int n => if 0 ≤ n.1 then head 0 n.1.toNat else head 1 (-1 - n.1).toNat
  | .double bits => 0xfb :: BigEndian.encode 8 bits.1.toNat

/-- The bytes of a text. -/
def wireText (s : JsString) : List UInt8 := head 3 (textEncode s).length ++ textEncode s

mutual
/-- The bytes of a value. -/
def wire : Value → List UInt8
  | .null => [0xf6]
  | .bool b => [if b then 0xf5 else 0xf4]
  | .number n => wireNumber n
  | .string s => wireText s
  | .bytes bytes => head 2 bytes.length ++ bytes
  | .array items => head 4 items.length ++ wireItems items
  | .object _ entries => head 5 (entriesLength entries) ++ wireEntries entries
  | .undefined | .other _ => []

/-- The bytes of the items of an array. -/
def wireItems : List Value → List UInt8
  | [] => []
  | item :: items => wire item ++ wireItems items

/-- The bytes of the properties of an object. -/
def wireEntries : List (JsString × Value) → List UInt8
  | [] => []
  | (_, .undefined) :: entries => wireEntries entries
  | (key, value) :: entries => wireText key ++ (wire value ++ wireEntries entries)
end

section Defined

/-! A property that is not `undefined` counts. -/

variable {value : Value} (key : JsString) (entries : List (JsString × Value))

theorem entriesLength_undefined : entriesLength ((key, .undefined) :: entries) =
    entriesLength entries := List.countP_cons_of_neg (by simp [Value.isDefined])

variable (h : value.isDefined = true)
include h

theorem entriesLength_cons : entriesLength ((key, value) :: entries) = entriesLength entries + 1 :=
  List.countP_cons_of_pos h

theorem wireEntries_cons :
    wireEntries ((key, value) :: entries) = wireText key ++ (wire value ++ wireEntries entries) := by
  cases value <;> first | rfl | cases h

theorem encodableEntries_cons (options : ResolvedCborOptions) (depth : Nat) :
    EncodableEntries options depth ((key, value) :: entries) ↔
      WellFormed key ∧ Encodable options depth value ∧ EncodableEntries options depth entries := by
  cases value <;> first | exact Iff.rfl | cases h

theorem strippedEntries_cons : Value.strippedEntries ((key, value) :: entries) =
    (key, value.stripped) :: Value.strippedEntries entries := by
  cases value <;> first | rfl | cases h

end Defined

theorem Encodable.depth_le {options : ResolvedCborOptions} {depth : Nat} {value : Value}
    (h : Encodable options depth value) : depth ≤ options.maxDepth := by
  cases value with
  | null | bool | bytes => exact h
  | number | string | array | object => exact h.1
  | undefined | other => exact h.elim

section Writing

variable (options : ResolvedCborOptions)

theorem writes_text (s : JsString) :
    Writes options.maxByteLength (encodeText options s) (WellFormed s) (wireText s) := by
  have hbody := (writes_argument options.maxByteLength 3 (textEncode s).length).bind
    (writes_bytes options.maxByteLength (textEncode s))
  intro buffer hbuffer buffer'
  unfold encodeText
  rw [Except.guard_ok (by nofun), Except.guard_ok (by nofun), hbody buffer hbuffer buffer']
  simp only [gt_iff_lt, Nat.not_lt, ne_eq, not_not, true_and, WellFormed, wireText]
  constructor
  · rintro ⟨-, h⟩
    exact h
  · rintro ⟨hwell, rfl, hle⟩
    refine ⟨?_, hwell, rfl, hle⟩
    simp only [List.length_append] at hle
    omega

theorem writes_number (n : JsNumber) :
    Writes options.maxByteLength (encodeNumber options n) (EncodableNumber n) (wireNumber n) := by
  cases n with
  | int n =>
    unfold encodeNumber wireNumber
    dsimp only
    split
    · exact writes_argument _ _ _
    · exact writes_argument _ _ _
  | double bits =>
    unfold encodeNumber wireNumber
    refine (((writes_bytes options.maxByteLength _).guard (by nofun)).guard (by nofun)).congr ?_
    simp only [EncodableNumber, JsNumber.isFinite, JsNumber.isInteger, JsNumber.isNegativeZero,
      Bool.and_eq_true, Bool.not_eq_eq_eq_not, Bool.not_true, and_true, not_and,
      Bool.not_eq_false]

theorem writes_byteString (bytes : List UInt8) :
    Writes options.maxByteLength (encodeBytes options bytes) True (head 2 bytes.length ++ bytes) := by
  have hbody := (writes_argument options.maxByteLength 2 bytes.length).bind (writes_bytes options.maxByteLength bytes)
  intro buffer hbuffer buffer'
  unfold encodeBytes
  rw [Except.guard_ok (by nofun), hbody buffer hbuffer buffer']
  simp only [true_and, gt_iff_lt, Nat.not_lt]
  constructor
  · rintro ⟨-, h⟩
    exact h
  · rintro ⟨rfl, hle⟩
    refine ⟨?_, rfl, hle⟩
    simp only [List.length_append] at hle
    omega

theorem writes_depth {depth : Nat} {write : List UInt8 → Attempt (List UInt8)} {accepts : Prop}
    {bytes : List UInt8} (h : Writes options.maxByteLength write accepts bytes) :
    Writes options.maxByteLength (fun buffer => checkDepth options depth >>= fun _ => write buffer)
      (depth ≤ options.maxDepth ∧ accepts) bytes := by
  intro buffer hbuffer buffer'
  unfold checkDepth
  by_cases hdepth : depth > options.maxDepth
  · rw [if_pos hdepth]
    exact ⟨(nomatch ·), fun hok => absurd hok.1.1 (by omega)⟩
  · rw [if_neg hdepth]
    show write buffer = .ok buffer' ↔ _
    rw [h buffer hbuffer buffer', and_assoc]
    exact ⟨fun hok => ⟨by omega, hok⟩, fun hok => hok.2⟩

mutual
/-- **The encoder writes the bytes of an encodable value, and throws on any other.** -/
theorem writes_value : ∀ (value : Value) (depth : Nat), Writes options.maxByteLength (encodeValue options depth value)
      (Encodable options depth value) (wire value)
  | .null, depth => (writes_depth options (writes_bytes _ _)).congr (by simp [Encodable])
  | .bool true, depth => (writes_depth options (writes_bytes _ _)).congr (by simp [Encodable])
  | .bool false, depth => (writes_depth options (writes_bytes _ _)).congr (by simp [Encodable])
  | .number n, depth => (writes_depth options (writes_number options n)).congr (by simp [Encodable])
  | .string s, depth => (writes_depth options (writes_text options s)).congr (by simp [Encodable])
  | .bytes bytes, depth =>
    (writes_depth options (writes_byteString options bytes)).congr (by simp [Encodable])
  | .array items, depth => by
    have hitems := (writes_argument options.maxByteLength 4 items.length).bind (writes_items items (depth + 1))
    refine (writes_depth options (hitems.guard (p := items.length > options.maxContainerLength) (by nofun))).congr ?_
    simp only [Encodable, gt_iff_lt, Nat.not_lt, true_and]
  | .object prototype entries, depth => by
    have hentries := (writes_argument options.maxByteLength 5 (entriesLength entries)).bind
      (writes_entries entries (depth + 1))
    refine (writes_depth options ((hentries.guard
      (p := entriesLength entries > options.maxContainerLength) (by nofun)).guard
      (p := prototype = .other) (by nofun))).congr ?_
    simp only [Encodable, gt_iff_lt, Nat.not_lt, true_and, ne_eq]
  | .undefined, depth =>
    (writes_depth options (Writes.refuse (by nofun))).congr (by simp [Encodable])
  | .other typeof, depth =>
    (writes_depth options (Writes.refuse (by nofun))).congr (by simp [Encodable])

theorem writes_items : ∀ (items : List Value) (depth : Nat),
    Writes options.maxByteLength (encodeItems options depth items)
      (EncodableItems options depth items) (wireItems items)
  | [], depth => Writes.nothing
  | item :: items, depth => by
    have h := (writes_value item depth).bind (writes_items items depth)
    cases item with
    | undefined => exact Writes.refuse (by nofun) |>.congr (by simp [EncodableItems, Encodable])
    | _ => exact h

theorem writes_entries : ∀ (entries : List (JsString × Value)) (depth : Nat),
    Writes options.maxByteLength (encodeEntries options depth entries)
      (EncodableEntries options depth entries) (wireEntries entries)
  | [], depth => Writes.nothing
  | (key, value) :: entries, depth => by
    have hrest := writes_entries entries depth
    have h := (writes_text options key).bind ((writes_value value depth).bind hrest)
    cases value with
    | undefined => exact hrest
    | _ => exact h
end

end Writing

end Mcpi.Protocol.Cbor
