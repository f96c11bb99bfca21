import Mcpi.Protocol.Cbor.Decoder
import Mcpi.Protocol.Cbor.Wire

/-!
# Decoding what was encoded

The decoder reads back the bytes of every encodable value, up to properties that are
`undefined`, and reads no further.
-/

namespace Mcpi.Protocol.Cbor

/-! ## Arguments -/

variable {bytes : List UInt8}

theorem readBytes_append {length : Nat} (h : bytes.length = length)
    (rest : List UInt8) : readBytes length (bytes ++ rest) = .ok (bytes, rest) := by
  subst h
  rw [readBytes, if_neg (by simp), List.take_left, List.drop_left]

theorem readBytes_bigEndian {width value : Nat} (h : value < 256 ^ width) (rest : List UInt8) :
    (do let (bytes, rest) ← readBytes width (BigEndian.encode width value ++ rest)
        return (BigEndian.decode bytes, rest) : Attempt (Nat × List UInt8)) = .ok (value, rest) := by
  rw [readBytes_append (BigEndian.length_encode width value)]
  show Except.ok (BigEndian.decode (BigEndian.encode width value), rest) = _
  rw [BigEndian.decode_encode h]

/-- **A head is read back.** -/
theorem head_eq (majorType value : Nat) (hvalue : value ≤ MAX_SAFE_INTEGER) :
    ∃ information tail, information < 28 ∧ head majorType value = UInt8.ofNat (majorType * 32 + information) :: tail ∧
      ∀ rest, readArgument information (tail ++ rest) = .ok (value, rest) := by
  have hsafe : value ≤ 2 ^ 53 - 1 := hvalue
  unfold head
  by_cases h24 : value < 24
  · rw [if_pos h24]
    refine ⟨value, [], by omega, rfl, fun rest => ?_⟩
    rw [readArgument, if_neg (by omega), readShortArgument.eq_def, if_pos h24, List.nil_append]
  rw [if_neg h24]
  by_cases hff : value ≤ 0xff
  · rw [if_pos hff]
    refine ⟨24, [UInt8.ofNat value], by decide, rfl, fun rest => ?_⟩
    have hbyte : (UInt8.ofNat value).toNat = value := by
      rw [UInt8.toNat_ofNat']
      omega
    show Except.ok ((UInt8.ofNat value).toNat, rest) = _
    rw [hbyte]
  rw [if_neg hff]
  by_cases hffff : value ≤ 0xffff
  · rw [if_pos hffff]
    exact ⟨25, _, by decide, rfl, readBytes_bigEndian (by omega)⟩
  rw [if_neg hffff]
  by_cases hmax : value ≤ MAX_UINT32
  · rw [if_pos hmax]
    exact ⟨26, _, by decide, rfl, readBytes_bigEndian (by rw [MAX_UINT32] at hmax; omega)⟩
  rw [if_neg hmax]
  refine ⟨27, _, by decide, rfl, fun rest => ?_⟩
  have hhigh : value / UINT32_BASE ≤ 0x1fffff := by
    rw [UINT32_BASE]
    omega
  have hlow : value - value / UINT32_BASE * UINT32_BASE < 256 ^ 4 := by
    rw [UINT32_BASE]
    omega
  have hsum : value / UINT32_BASE * UINT32_BASE + (value - value / UINT32_BASE * UINT32_BASE) =
      value := by
    rw [UINT32_BASE]
    omega
  rw [readArgument, if_pos rfl, List.append_assoc]
  refine Except.bind_ok.mpr ⟨_, readBytes_bigEndian (by omega) _, ?_⟩
  refine Except.bind_ok.mpr ⟨_, readBytes_bigEndian hlow _, ?_⟩
  refine (Except.guard_ok (by nofun)).mpr ⟨by omega, ?_⟩
  show Except.ok (_ + _, rest) = _
  rw [hsum]

/-! ## Values -/

section Reading

variable (options : ResolvedCborOptions)

theorem readLength_head {information value limit : Nat} {tail : List UInt8} (kind : String)
    (hinformation : information < 28) (hlimit : value ≤ limit) (rest : List UInt8)
    (hread : readArgument information (tail ++ rest) = .ok (value, rest)) :
    readLength information kind limit (tail ++ rest) = .ok (value, rest) := by
  rw [readLength, if_neg (by omega)]
  exact Except.bind_ok.mpr ⟨_, hread, (Except.guard_ok (by nofun)).mpr ⟨by omega, rfl⟩⟩

theorem safe_of_length {n : Nat} (h : n ≤ MAX_UINT32) : n ≤ MAX_SAFE_INTEGER := by
  have hsafe : MAX_SAFE_INTEGER = 2 ^ 53 - 1 := rfl
  rw [MAX_UINT32] at h
  omega

/-- An initial byte leads to the case of its major type. -/
theorem readItem_initial (levels : Nat) {majorType information : Nat} (hmajor : majorType < 8)
    (hinformation : information < 32) (bytes : List UInt8) :
    readItem options (levels + 1) (UInt8.ofNat (majorType * 32 + information) :: bytes) =
      readMajorType options (readItem options levels) majorType information bytes := by
  have hinitial : (UInt8.ofNat (majorType * 32 + information)).toNat = majorType * 32 + information := by
    rw [UInt8.toNat_ofNat']
    omega
  have hdiv : (majorType * 32 + information) / 32 = majorType := by omega
  have hmod : (majorType * 32 + information) % 32 = information := by omega
  show readMajorType options (readItem options levels) (_ / 32) (_ % 32) bytes = _
  rw [hinitial, hdiv, hmod]

theorem integerValue_ok (n : SafeInt) : integerValue n.1 = .ok (.number (.int n)) := dif_pos n.2

theorem readItem_number (levels : Nat) {n : JsNumber} (h : EncodableNumber n) (rest : List UInt8) :
    readItem options (levels + 1) (wireNumber n ++ rest) = .ok (.number n, rest) := by
  cases n with
  | int n =>
    have hn := n.2
    unfold wireNumber
    dsimp only
    by_cases hsign : 0 ≤ n.1
    · rw [if_pos hsign]
      obtain ⟨information, tail, hinformation, hhead, hread⟩ :=
        head_eq 0 n.1.toNat (by omega)
      have hargument : ((n.1.toNat : Nat) : Int) = n.1 := by omega
      rw [hhead, List.cons_append, readItem_initial options levels (by decide) (by omega)]
      refine Except.bind_ok.mpr ⟨_, hread rest, Except.bind_ok.mpr ⟨_, ?_, rfl⟩⟩
      rw [hargument, integerValue_ok]
    · rw [if_neg hsign]
      obtain ⟨information, tail, hinformation, hhead, hread⟩ :=
        head_eq 1 (-1 - n.1).toNat (by omega)
      have hargument : -1 - (((-1 - n.1).toNat : Nat) : Int) = n.1 := by omega
      rw [hhead, List.cons_append, readItem_initial options levels (by decide) (by omega)]
      refine Except.bind_ok.mpr ⟨_, hread rest, Except.bind_ok.mpr ⟨_, ?_, rfl⟩⟩
      rw [hargument, integerValue_ok]
  | double bits =>
    have hbits : BigEndian.decode (BigEndian.encode 8 bits.1.toNat) = bits.1.toNat :=
      BigEndian.decode_encode bits.1.toNat_lt
    have hsafe : (JsNumber.double bits).isInteger = true → (JsNumber.double bits).isSafeInteger = true := by
      intro hinteger
      have hzero : bits.1 = 0x8000000000000000 := by
        simpa [Double.isNegativeZero] using h.2 hinteger
      show Double.isSafeInteger bits.1 = true
      rw [hzero]
      decide +kernel
    have hfinite : (JsNumber.double bits).isFinite = true := h.1
    show readItem options (levels + 1) (UInt8.ofNat (7 * 32 + 27) :: (_ ++ rest)) = _
    rw [readItem_initial options levels (by decide) (by decide)]
    refine Except.bind_ok.mpr ⟨_, readBytes_append (BigEndian.length_encode 8 _) rest, ?_⟩
    dsimp only
    rw [hbits, UInt64.ofNat_toNat, JsNumber.ofBits_double, hfinite]
    refine (Except.guard_ok (by nofun)).mpr ⟨by simp, (Except.guard_ok (by nofun)).mpr ⟨?_, rfl⟩⟩
    simpa using hsafe

theorem readItem_bytes (levels : Nat) {value : List UInt8}
    (h : (head 2 value.length ++ value).length ≤ options.maxByteLength) (rest : List UInt8) :
    readItem options (levels + 1) (head 2 value.length ++ value ++ rest) = .ok (.bytes value, rest) := by
  rw [List.length_append] at h
  have hmax := options.maxByteLength.2
  obtain ⟨information, tail, hinformation, hhead, hread⟩ :=
    head_eq 2 _ (safe_of_length (n := value.length) (by omega))
  rw [hhead, List.cons_append, List.cons_append, List.append_assoc,
    readItem_initial options levels (by decide) (by omega)]
  refine Except.bind_ok.mpr ⟨_, readLength_head _ hinformation (by omega) _ (hread _), ?_⟩
  exact Except.bind_ok.mpr ⟨_, readBytes_append rfl rest, rfl⟩

theorem readItem_text (levels : Nat) {value : JsString} (hvalue : WellFormed value)
    (h : (wireText value).length ≤ options.maxByteLength) (rest : List UInt8) :
    readItem options (levels + 1) (wireText value ++ rest) = .ok (.string value, rest) := by
  rw [wireText, List.length_append] at h
  have hmax := options.maxByteLength.2
  obtain ⟨information, tail, hinformation, hhead, hread⟩ :=
    head_eq 3 _ (safe_of_length (n := (textEncode value).length) (by omega))
  rw [wireText, hhead, List.cons_append, List.cons_append, List.append_assoc,
    readItem_initial options levels (by decide) (by omega)]
  refine Except.bind_ok.mpr ⟨_, readLength_head _ hinformation (by omega) _ (hread _), ?_⟩
  refine Except.bind_ok.mpr ⟨_, readBytes_append rfl rest, ?_⟩
  dsimp only
  rw [hvalue]
  rfl

mutual
/-- **The reader inverts the writer**: it reads an encodable value back and stops behind it. -/
theorem readItem_wire : ∀ (value : Value) (depth : Nat), Encodable options depth value →
    value.Listed → (wire value).length ≤ options.maxByteLength → ∀ rest,
    readItem options (options.maxDepth + 1 - depth) (wire value ++ rest) = .ok (value.stripped, rest)
  | value, depth, hencodable, hlisted, hlength, rest => by
    have hdepth := hencodable.depth_le
    have hlevels : options.maxDepth + 1 - depth = (options.maxDepth - depth) + 1 := by omega
    rw [hlevels]
    match value with
    | .null => rfl
    | .bool true => rfl
    | .bool false => rfl
    | .number n => exact readItem_number options _ hencodable.2 rest
    | .string s => exact readItem_text options _ hencodable.2 hlength rest
    | .bytes bytes => exact readItem_bytes options _ hlength rest
    | .array items =>
      obtain ⟨-, hcount, hitems⟩ := hencodable
      rw [wire, List.length_append] at hlength
      have hmax := options.maxContainerLength.2
      obtain ⟨information, tail, hinformation, hhead, hread⟩ :=
        head_eq 4 _ (safe_of_length (n := items.length) (by omega))
      have hdeeper : options.maxDepth - depth = options.maxDepth + 1 - (depth + 1) := by omega
      rw [wire, hhead, List.cons_append, List.cons_append, List.append_assoc,
        readItem_initial options _ (by decide) (by omega), hdeeper]
      refine Except.bind_ok.mpr ⟨_, readLength_head _ hinformation hcount _ (hread _), ?_⟩
      exact Except.bind_ok.mpr ⟨_, readItems_wire items (depth + 1) hitems hlisted (by omega) rest, rfl⟩
    | .object prototype entries =>
      obtain ⟨-, -, hcount, hentries⟩ := hencodable
      rw [wire, List.length_append] at hlength
      have hmax := options.maxContainerLength.2
      obtain ⟨information, tail, hinformation, hhead, hread⟩ :=
        head_eq 5 _ (safe_of_length (n := entriesLength entries) (by omega))
      have hdeeper : options.maxDepth - depth = options.maxDepth + 1 - (depth + 1) := by omega
      rw [wire, hhead, List.cons_append, List.cons_append, List.append_assoc,
        readItem_initial options _ (by decide) (by omega), hdeeper]
      refine Except.bind_ok.mpr ⟨_, readLength_head _ hinformation hcount _ (hread _), ?_⟩
      refine Except.bind_ok.mpr ⟨_, readEntries_wire entries (depth + 1) hentries hlisted.1
        hlisted.2 (by omega) [] (by simp) rest, ?_⟩
      rfl

theorem readItems_wire : ∀ (items : List Value) (depth : Nat), EncodableItems options depth items →
    Value.ListedItems items → (wireItems items).length ≤ options.maxByteLength → ∀ rest,
    readItems (readItem options (options.maxDepth + 1 - depth)) items.length
      (wireItems items ++ rest) = .ok (Value.strippedItems items, rest)
  | [], _, _, _, _, rest => rfl
  | item :: items, depth, hencodable, hlisted, hlength, rest => by
    rw [wireItems, List.length_append] at hlength
    rw [wireItems, List.append_assoc]
    refine Except.bind_ok.mpr ⟨_, readItem_wire item depth hencodable.1 hlisted.1 (by omega) _, ?_⟩
    exact Except.bind_ok.mpr ⟨_, readItems_wire items depth hencodable.2 hlisted.2 (by omega) rest, rfl⟩

/-- The same of the properties of an object, behind those that were read before. -/
theorem readEntries_wire : ∀ (entries : List (JsString × Value)) (depth : Nat), EncodableEntries options depth entries →
    entries.Pairwise (fun a b => ListedBefore a.1 b.1) → Value.ListedEntries entries →
    (wireEntries entries).length ≤ options.maxByteLength →
    ∀ result, (∀ a ∈ result, ∀ b ∈ entries, ListedBefore a.1 b.1) → ∀ rest,
    readEntries (readItem options (options.maxDepth + 1 - depth)) (entriesLength entries) result
      (wireEntries entries ++ rest) = .ok (result ++ Value.strippedEntries entries, rest)
  | [], _, _, _, _, _, result, _, rest => by
    rw [Value.strippedEntries, List.append_nil]
    rfl
  | (key, value) :: entries, depth, hencodable, hpairwise, hlisted, hlength, result, hresult,
      rest => by
      rw [List.pairwise_cons] at hpairwise
      cases hdefined : value.isDefined with
      | false =>
        obtain rfl : value = .undefined := by cases value <;> simp_all [Value.isDefined]
        rw [entriesLength_undefined]
        exact readEntries_wire entries depth hencodable hpairwise.2 hlisted.2 hlength result
          (fun a ha b hb => hresult a ha b (by simp [hb])) rest
      | true =>
        rw [encodableEntries_cons key entries hdefined] at hencodable
        obtain ⟨hkey, hvalue, hentries⟩ := hencodable
        rw [wireEntries_cons key entries hdefined, List.length_append, List.length_append] at hlength
        rw [wireEntries_cons key entries hdefined, entriesLength_cons key entries hdefined,
          strippedEntries_cons key entries hdefined, List.append_assoc, List.append_assoc]
        have hdepth := hvalue.depth_le
        have hlevels : options.maxDepth + 1 - depth = (options.maxDepth - depth) + 1 := by omega
        have hbefore : ∀ a ∈ result, ListedBefore a.1 key :=
          fun a ha => hresult a ha (key, value) (by simp)
        have hnew : key ∉ result.map Prod.fst := by
          rw [List.mem_map]
          rintro ⟨a, ha, rfl⟩
          exact (hbefore a ha).ne rfl
        have hread := readItem_wire value depth hvalue hlisted.1 (by omega) (wireEntries entries ++ rest)
        have hrest := readEntries_wire entries depth hentries hpairwise.2 hlisted.2 (by omega)
          (result ++ [(key, value.stripped)]) (fun a ha b hb => by
            rcases List.mem_append.mp ha with ha | ha
            · exact hresult a ha b (by simp [hb])
            · rw [List.mem_singleton.mp ha]
              exact hpairwise.1 b hb) rest
        rw [hlevels] at hread hrest ⊢
        refine Except.bind_ok.mpr ⟨_, readItem_text options _ hkey (by omega) _, ?_⟩
        refine (Except.guard_ok (by nofun)).mpr ⟨hnew, Except.bind_ok.mpr ⟨_, hread, ?_⟩⟩
        dsimp only
        rw [defineProperty_last hbefore, hrest, List.append_assoc, List.singleton_append]
end

end Reading

/-! ## The whole payload -/

theorem encodeCbor_ok {options : CborOptions} {value : Value} :
    encodeCbor value options = .ok bytes ↔ ∃ resolved, resolveOptions options = .ok resolved ∧
      Encodable resolved 0 value ∧ bytes = wire value ∧ bytes.length ≤ resolved.maxByteLength := by
  rw [encodeCbor, Except.bind_ok]
  refine exists_congr fun resolved => and_congr_right fun _ => ?_
  rw [writes_value resolved value 0 [] (Nat.zero_le _), List.nil_append]

theorem decodeCbor_ok {options : CborOptions} {value : Value} :
    decodeCbor bytes options = .ok value ↔ ∃ resolved, resolveOptions options = .ok resolved ∧
      bytes.length ≤ resolved.maxByteLength ∧
      readItem resolved (resolved.maxDepth + 1) bytes = .ok (value, []) := by
  rw [decodeCbor, Except.bind_ok]
  refine exists_congr fun resolved => and_congr_right fun _ => ?_
  rw [Except.guard_ok (by nofun), Except.bind_ok, gt_iff_lt, Nat.not_lt]
  refine and_congr_right fun _ => ⟨?_, fun h => ⟨_, h, rfl⟩⟩
  rintro ⟨⟨read, rest⟩, hread, h⟩
  obtain ⟨hrest, hvalue⟩ := (Except.guard_ok (by nofun)).mp h
  obtain rfl : rest = [] := not_not.mp hrest
  obtain rfl : read = value := Except.ok.inj hvalue
  exact hread

theorem decodeCbor_wire {options : CborOptions} {resolved : ResolvedCborOptions} {value : Value}
    (hresolved : resolveOptions options = .ok resolved) (hencodable : Encodable resolved 0 value)
    (hlisted : value.Listed) (hlength : (wire value).length ≤ resolved.maxByteLength) :
    decodeCbor (wire value) options = .ok value.stripped := by
  have hread := readItem_wire resolved value 0 hencodable hlisted hlength []
  rw [List.append_nil] at hread
  exact decodeCbor_ok.mpr ⟨resolved, hresolved, hlength, hread⟩

/-- **The round trip.** What `encodeCbor` writes, `decodeCbor` reads back under the same options, to
its last byte. A map on the wire has neither a prototype nor `undefined` values. -/
theorem cbor_round_trip (options : CborOptions) (value : JsValue) (bytes : List UInt8)
    (h : encodeCbor value.1 options = .ok bytes) :
    decodeCbor bytes options = .ok value.1.stripped ∧ ∀ resolved, resolveOptions options = .ok resolved →
        readItem resolved (resolved.maxDepth + 1) bytes = .ok (value.1.stripped, []) := by
  obtain ⟨resolved, hresolved, hencodable, rfl, hlength⟩ := encodeCbor_ok.mp h
  have hdecode := decodeCbor_wire hresolved hencodable value.2 hlength
  refine ⟨hdecode, fun resolved' hresolved' => ?_⟩
  obtain ⟨_, hread, -, hitem⟩ := decodeCbor_ok.mp hdecode
  obtain rfl := Except.ok.inj (hread.symm.trans hresolved')
  exact hitem

/-- A map with one property that is kept and one that is not. -/
theorem cbor_round_trip_map :
    let value : JsValue := ⟨.object .object
      [([97], .number (.int ⟨-9007199254740991, by decide⟩)), ([98], .undefined)], by
        simp only [Value.Listed, Value.ListedEntries, List.pairwise_cons]
        exact ⟨⟨by decide +kernel, by simp, List.Pairwise.nil⟩, trivial, trivial, trivial⟩⟩
    let bytes := [0xa1, 0x61, 0x61, 0x3b, 0, 0x1f, 0xff, 0xff, 0xff, 0xff, 0xff, 0xfe]
    encodeCbor value.1 {} = .ok bytes ∧ decodeCbor bytes {} = .ok value.1.stripped := by
  intro value bytes
  have h : encodeCbor value.1 {} = .ok bytes := by rfl
  exact ⟨h, (cbor_round_trip {} value bytes h).1⟩

end Mcpi.Protocol.Cbor
