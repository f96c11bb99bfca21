import Mcpi.Protocol.Cbor.RoundTrip

/-!
# Encoding what was decoded

The decoder accepts heads that are longer than needed and keys in any order. Whatever it
returns, the encoder accepts, and writes in no more bytes than were read.
-/

namespace Mcpi.Protocol.Cbor

/-! ## Reading -/

theorem readByte_ok {bytes : List UInt8} {value : Nat} {rest : List UInt8}
    (h : readByte bytes = .ok (value, rest)) : value < 256 ∧ bytes.length = rest.length + 1 := by
  cases bytes with
  | nil => cases h
  | cons b bytes =>
    cases h
    exact ⟨b.toNat_lt, rfl⟩

theorem readBytes_ok {length : Nat} {bytes value rest : List UInt8} (h : readBytes length bytes = .ok (value, rest)) :
    value.length = length ∧ bytes.length = length + rest.length := by
  obtain ⟨hlength, h⟩ := (Except.guard_ok (by nofun)).mp h
  cases h
  rw [List.length_take, List.length_drop]
  omega

variable {bytes rest : List UInt8}

theorem readBytes_decode {width value : Nat}
    (h : (do let (bytes, rest) ← readBytes width bytes
             return (BigEndian.decode bytes, rest) : Attempt (Nat × List UInt8)) =
      .ok (value, rest)) :
    value < 256 ^ width ∧ bytes.length = width + rest.length := by
  obtain ⟨⟨read, rest'⟩, hread, h⟩ := Except.bind_ok.mp h
  cases h
  obtain ⟨hwidth, hlength⟩ := readBytes_ok hread
  exact ⟨hwidth ▸ BigEndian.decode_lt read, hlength⟩

theorem length_head (majorType value : Nat) :
    (head majorType value).length =
      if value < 24 then 1 else if value ≤ 0xff then 2 else if value ≤ 0xffff then 3
      else if value ≤ MAX_UINT32 then 5 else 9 := by
  unfold head
  split_ifs
  · rfl
  · rfl
  all_goals simp

/-- **No head is shorter than the encoder's.** -/
theorem length_head_le {information value : Nat} (majorType : Nat)
    (h : readArgument information bytes = .ok (value, rest)) :
    value ≤ MAX_SAFE_INTEGER ∧ (head majorType value).length + rest.length ≤ bytes.length + 1 := by
  have hsafe : MAX_SAFE_INTEGER = 2 ^ 53 - 1 := rfl
  rw [length_head, MAX_UINT32]
  unfold readArgument at h
  split at h
  · obtain ⟨⟨high, bytes'⟩, hhigh, h⟩ := Except.bind_ok.mp h
    obtain ⟨⟨low, bytes''⟩, hlow, h⟩ := Except.bind_ok.mp h
    obtain ⟨hle, h⟩ := (Except.guard_ok (by rintro _ ⟨⟩)).mp h
    cases h
    obtain ⟨-, hlength⟩ := readBytes_decode hhigh
    obtain ⟨hlt, hlength'⟩ := readBytes_decode hlow
    rw [UINT32_BASE]
    split_ifs <;> omega
  · unfold readShortArgument at h
    split at h
    · next hsmall =>
      cases h
      rw [if_pos hsmall]
      omega
    · split at h
      · obtain ⟨hlt, hlength⟩ := readByte_ok h
        split_ifs <;> omega
      · obtain ⟨hlt, hlength⟩ := readBytes_decode h
        split_ifs <;> omega
      · obtain ⟨hlt, hlength⟩ := readBytes_decode h
        split_ifs <;> omega
      · cases h
      · cases h

/-! ## What is read -/

/-- A value the decoder can return at some depth. -/
structure Canonical (options : ResolvedCborOptions) (depth : Nat) (value : Value) : Prop where
  encodable : Encodable options depth value
  listed : value.Listed
  stripped : value.stripped = value

/-- A reader that returns only such values, none with more bytes than it consumes. -/
def Sound (options : ResolvedCborOptions) (depth : Nat) (read : Reader Value) : Prop :=
  ∀ bytes value rest, read bytes = .ok (value, rest) →
    Canonical options depth value ∧ (wire value).length + rest.length ≤ bytes.length

theorem readLength_ok {information limit value : Nat} {kind : String}
    (h : readLength information kind limit bytes = .ok (value, rest)) :
    readArgument information bytes = .ok (value, rest) ∧ value ≤ limit := by
  obtain ⟨-, h⟩ := (Except.guard_ok (by nofun)).mp h
  obtain ⟨⟨read, rest'⟩, hread, h⟩ := Except.bind_ok.mp h
  obtain ⟨hle, h⟩ := (Except.guard_ok (by nofun)).mp h
  cases h
  exact ⟨hread, by omega⟩

/-- A decoded text encodes to the bytes it was decoded from. -/
theorem textEncode_of_textDecode {bytes : List UInt8} {text : JsString}
    (h : textDecode bytes = some text) : textEncode text = bytes := by
  obtain ⟨chars, hchars, rfl⟩ := Option.map_eq_some_iff.mp h
  rw [textEncode, Utf16.decode_encode]
  exact Utf8.decodeFatal_eq_some_iff.mp hchars

theorem encodableNumber_ofBits {bits : UInt64} (hfinite : (JsNumber.ofBits bits).isFinite = true)
    (hsafe : (JsNumber.ofBits bits).isInteger = true → (JsNumber.ofBits bits).isSafeInteger = true) :
    EncodableNumber (JsNumber.ofBits bits) := by
  cases hn : JsNumber.ofBits bits with
  | int n => exact trivial
  | double bits' =>
    rw [hn] at hfinite hsafe
    exact ⟨hfinite, fun hinteger => JsNumber.isNegativeZero_of_safe bits'.2 (hsafe hinteger)⟩

theorem length_wireNumber (n : JsNumber) : (wireNumber n).length ≤ 9 := by
  have hhead : ∀ majorType value, (head majorType value).length ≤ 9 := by
    intro majorType value
    rw [length_head]
    split_ifs <;> omega
  cases n with
  | int n =>
    unfold wireNumber
    dsimp only
    split
    · exact hhead _ _
    · exact hhead _ _
  | double bits => simp [wireNumber]

section Reading

variable {options : ResolvedCborOptions} {depth : Nat}

theorem readSimple_sound (hdepth : depth ≤ options.maxDepth) (information : Nat) {value : Value}
    (h : readSimple information bytes = .ok (value, rest)) :
    Canonical options depth value ∧ (wire value).length + rest.length ≤ bytes.length + 1 := by
  unfold readSimple at h
  split at h
  · cases h
    exact ⟨⟨hdepth, trivial, rfl⟩, by simp [wire]; omega⟩
  · cases h
    exact ⟨⟨hdepth, trivial, rfl⟩, by simp [wire]; omega⟩
  · cases h
    exact ⟨⟨hdepth, trivial, rfl⟩, by simp [wire]; omega⟩
  · obtain ⟨⟨value', rest'⟩, hread, h⟩ := Except.bind_ok.mp h
    obtain ⟨hfinite, h⟩ := (Except.guard_ok (by nofun)).mp h
    obtain ⟨hsafe, h⟩ := (Except.guard_ok (by nofun)).mp h
    cases h
    obtain ⟨-, hlength⟩ := readBytes_ok hread
    have hnumber := length_wireNumber (JsNumber.ofBits (UInt64.ofNat (BigEndian.decode value')))
    refine ⟨⟨⟨hdepth, encodableNumber_ofBits (by simpa using hfinite) (by simpa using hsafe)⟩, trivial, rfl⟩, ?_⟩
    show (wireNumber _).length + _ ≤ _
    omega
  · cases h
  · cases h

variable {read : Reader Value}

theorem readItems_sound (hread : Sound options depth read) :
    ∀ {length : Nat} {bytes rest : List UInt8} {items : List Value}, readItems read length bytes = .ok (items, rest) →
      items.length = length ∧ EncodableItems options depth items ∧ Value.ListedItems items ∧
        Value.strippedItems items = items ∧
        (wireItems items).length + rest.length ≤ bytes.length := by
  intro length
  induction length with
  | zero =>
    intro bytes rest items h
    cases h
    exact ⟨rfl, trivial, trivial, rfl, by simp [wireItems]⟩
  | succ length ih =>
    intro bytes rest items h
    obtain ⟨⟨item, bytes'⟩, hitem, h⟩ := Except.bind_ok.mp h
    obtain ⟨⟨items', rest'⟩, hitems, h⟩ := Except.bind_ok.mp h
    cases h
    obtain ⟨hcanonical, hlength⟩ := hread _ _ _ hitem
    obtain ⟨hcount, hencodable, hlisted, hstripped, hlength'⟩ := ih hitems
    refine ⟨by rw [List.length_cons, hcount], ⟨hcanonical.encodable, hencodable⟩, ⟨hcanonical.listed, hlisted⟩, ?_, ?_⟩
    · rw [Value.strippedItems, hcanonical.stripped, hstripped]
    · rw [wireItems, List.length_append]
      omega

/-- The properties a map can have. -/
def CanonicalEntries (options : ResolvedCborOptions) (depth : Nat) (entries : List (JsString × Value)) : Prop :=
  ∀ entry ∈ entries, WellFormed entry.1 ∧ Canonical options depth entry.2

theorem Canonical.isDefined {value : Value} (h : Canonical options depth value) : value.isDefined = true := by
  cases value with
  | undefined => exact h.encodable.elim
  | _ => rfl

/-- Such properties are encoded one by one, and none is left out. -/
theorem CanonicalEntries.all {entries : List (JsString × Value)} (h : CanonicalEntries options depth entries) :
    entriesLength entries = entries.length ∧ EncodableEntries options depth entries ∧
      Value.ListedEntries entries ∧ Value.strippedEntries entries = entries ∧
      (wireEntries entries).length =
        (entries.map fun entry => (wireText entry.1).length + (wire entry.2).length).sum := by
  induction entries with
  | nil => exact ⟨rfl, trivial, trivial, rfl, rfl⟩
  | cons entry entries ih =>
    obtain ⟨key, value⟩ := entry
    obtain ⟨hkey, hvalue⟩ := h (key, value) (by simp)
    have hdefined := hvalue.isDefined
    obtain ⟨hcount, hencodable, hlisted, hstripped, hlength⟩ :=
      ih fun entry hentry => h entry (by simp [hentry])
    refine ⟨?_, ?_, ⟨hvalue.listed, hlisted⟩, ?_, ?_⟩
    · rw [entriesLength_cons key entries hdefined, hcount, List.length_cons]
    · rw [encodableEntries_cons key entries hdefined]
      exact ⟨hkey, hvalue.encodable, hencodable⟩
    · rw [strippedEntries_cons key entries hdefined, hvalue.stripped, hstripped]
    · rw [wireEntries_cons key entries hdefined, List.length_append, List.length_append, hlength,
        List.map_cons, List.sum_cons, Nat.add_assoc]

/-- Reading entries one after another, behind those that were read before. -/
theorem readEntries_sound (hread : Sound options depth read) :
    ∀ {length : Nat} {result entries : List (JsString × Value)} {bytes rest : List UInt8},
      readEntries read length result bytes = .ok (entries, rest) →
      CanonicalEntries options depth result →
      result.Pairwise (fun a b => ListedBefore a.1 b.1) →
      CanonicalEntries options depth entries ∧ entries.Pairwise (fun a b => ListedBefore a.1 b.1) ∧
        entries.length = result.length + length ∧
        (wireEntries entries).length + rest.length ≤ (wireEntries result).length + bytes.length := by
  intro length
  induction length with
  | zero =>
    intro result entries bytes rest h hcanonical hpairwise
    cases h
    exact ⟨hcanonical, hpairwise, rfl, Nat.le_refl _⟩
  | succ length ih =>
    intro result entries bytes rest h hcanonical hpairwise
    obtain ⟨⟨key, bytes'⟩, hkey, h⟩ := Except.bind_ok.mp h
    obtain ⟨hkeyCanonical, hkeyLength⟩ := hread _ _ _ hkey
    dsimp only at h
    split at h
    · next key =>
      obtain ⟨hnew, h⟩ := (Except.guard_ok (by rintro _ ⟨⟩)).mp h
      obtain ⟨⟨value, bytes''⟩, hvalue, h⟩ := Except.bind_ok.mp h
      obtain ⟨hvalueCanonical, hvalueLength⟩ := hread _ _ _ hvalue
      dsimp only at h
      have hperm : (defineProperty result key value).Perm ((key, value) :: result) :=
        perm_defineProperty hnew
      have hcanonical' : CanonicalEntries options depth (defineProperty result key value) := by
        intro entry hentry
        rcases List.mem_cons.mp (hperm.subset hentry) with rfl | hentry
        · exact ⟨hkeyCanonical.encodable.2, hvalueCanonical⟩
        · exact hcanonical entry hentry
      obtain ⟨hentries, hentriesPairwise, hcount, hlength⟩ :=
        ih h hcanonical' (pairwise_defineProperty hnew hpairwise)
      refine ⟨hentries, hentriesPairwise, ?_, ?_⟩
      · rw [hcount, hperm.length_eq, List.length_cons]
        omega
      · have hsum := (hperm.map fun entry =>
          (wireText entry.1).length + (wire entry.2).length).sum_nat
        rw [← hcanonical'.all.2.2.2.2, List.map_cons, List.sum_cons, ← hcanonical.all.2.2.2.2] at hsum
        have hwire : (wire (.string key)).length = (wireText key).length := rfl
        rw [hwire] at hkeyLength
        dsimp only at hsum
        omega
    · cases h

theorem readMajorType_sound (hdepth : depth ≤ options.maxDepth)
    (hread : Sound options (depth + 1) read) {majorType information : Nat}
    {value : Value}
    (h : readMajorType options read majorType information bytes = .ok (value, rest)) :
    Canonical options depth value ∧ (wire value).length + rest.length ≤ bytes.length + 1 := by
  unfold readMajorType at h
  split at h
  · -- an unsigned integer
    obtain ⟨⟨argument, bytes'⟩, hargument, h⟩ := Except.bind_ok.mp h
    obtain ⟨value', hvalue, h⟩ := Except.bind_ok.mp h
    cases h
    obtain ⟨hsafe, hlength⟩ := length_head_le 0 hargument
    have hnat : (argument : Int).natAbs ≤ MAX_SAFE_INTEGER := by omega
    obtain rfl := Except.ok.inj ((dif_pos hnat).symm.trans hvalue)
    refine ⟨⟨⟨hdepth, trivial⟩, trivial, rfl⟩, ?_⟩
    have hwire : wire (.number (.int ⟨argument, hnat⟩)) = head 0 argument := by
      rw [wire, wireNumber, if_pos (Int.natCast_nonneg argument), Int.toNat_natCast]
    rw [hwire]
    exact hlength
  · -- a negative integer
    obtain ⟨⟨argument, bytes'⟩, hargument, h⟩ := Except.bind_ok.mp h
    obtain ⟨value', hvalue, h⟩ := Except.bind_ok.mp h
    cases h
    obtain ⟨-, hlength⟩ := length_head_le 1 hargument
    unfold integerValue at hvalue
    split at hvalue
    · next hnat =>
      obtain rfl := Except.ok.inj hvalue
      refine ⟨⟨⟨hdepth, trivial⟩, trivial, rfl⟩, ?_⟩
      have hwire : wire (.number (.int ⟨-1 - argument, hnat⟩)) = head 1 argument := by
        rw [wire, wireNumber]
        dsimp only
        rw [if_neg (by omega)]
        congr 1
        omega
      rw [hwire]
      exact hlength
    · cases hvalue
  · -- a byte string
    obtain ⟨⟨length, bytes'⟩, hlength, h⟩ := Except.bind_ok.mp h
    obtain ⟨⟨value', bytes''⟩, hvalue, h⟩ := Except.bind_ok.mp h
    cases h
    obtain ⟨-, hhead⟩ := length_head_le 2 (readLength_ok hlength).1
    obtain ⟨rfl, hbytes⟩ := readBytes_ok hvalue
    refine ⟨⟨hdepth, trivial, rfl⟩, ?_⟩
    rw [wire, List.length_append]
    omega
  · -- a text string
    obtain ⟨⟨length, bytes'⟩, hlength, h⟩ := Except.bind_ok.mp h
    obtain ⟨⟨text, bytes''⟩, htext, h⟩ := Except.bind_ok.mp h
    obtain ⟨-, hhead⟩ := length_head_le 3 (readLength_ok hlength).1
    obtain ⟨hcount, hbytes⟩ := readBytes_ok htext
    dsimp only at h
    split at h
    · next s hs =>
      cases h
      have hencode := textEncode_of_textDecode hs
      refine ⟨⟨⟨hdepth, by rw [WellFormed, hencode, hs]⟩, trivial, rfl⟩, ?_⟩
      rw [wire, wireText, hencode, List.length_append, hcount]
      omega
    · cases h
  · -- an array
    obtain ⟨⟨length, bytes'⟩, hlength, h⟩ := Except.bind_ok.mp h
    obtain ⟨⟨items, bytes''⟩, hitems, h⟩ := Except.bind_ok.mp h
    cases h
    obtain ⟨hargument, hlimit⟩ := readLength_ok hlength
    obtain ⟨-, hhead⟩ := length_head_le 4 hargument
    obtain ⟨rfl, hencodable, hlisted, hstripped, hbytes⟩ := readItems_sound hread hitems
    refine ⟨⟨⟨hdepth, hlimit, hencodable⟩, hlisted, by rw [Value.stripped, hstripped]⟩, ?_⟩
    rw [wire, List.length_append]
    omega
  · -- a map
    obtain ⟨⟨length, bytes'⟩, hlength, h⟩ := Except.bind_ok.mp h
    obtain ⟨⟨entries, bytes''⟩, hentries, h⟩ := Except.bind_ok.mp h
    cases h
    obtain ⟨hargument, hlimit⟩ := readLength_ok hlength
    obtain ⟨-, hhead⟩ := length_head_le 5 hargument
    obtain ⟨hcanonical, hpairwise, hcount, hbytes⟩ :=
      readEntries_sound hread hentries (by simp [CanonicalEntries]) List.Pairwise.nil
    obtain ⟨hall, hencodable, hlisted, hstripped, -⟩ := hcanonical.all
    rw [List.length_nil, Nat.zero_add] at hcount
    rw [wireEntries, List.length_nil, Nat.zero_add] at hbytes
    rw [hcount] at hall
    refine ⟨⟨⟨hdepth, by decide, hall ▸ hlimit, hencodable⟩, ⟨hpairwise, hlisted⟩, ?_⟩, ?_⟩
    · rw [Value.stripped, hstripped]
    · rw [wire, hall, List.length_append]
      omega
  · cases h
  · exact readSimple_sound hdepth information h
  · cases h

end Reading

/-- **Whatever is read at some depth can be written there**, by induction on the levels left. -/
theorem readItem_sound (options : ResolvedCborOptions) (levels depth : Nat)
    (h : depth + levels = options.maxDepth + 1) : Sound options depth (readItem options levels) := by
  induction levels generalizing depth with
  | zero =>
    intro bytes value rest hread
    cases hread
  | succ levels ih =>
    intro bytes value rest hread
    obtain ⟨⟨initial, bytes'⟩, hinitial, hread⟩ := Except.bind_ok.mp hread
    obtain ⟨-, hlength⟩ := readByte_ok hinitial
    obtain ⟨hcanonical, hwire⟩ :=
      readMajorType_sound (by omega) (ih (depth + 1) (by omega)) hread
    exact ⟨hcanonical, by omega⟩

/-- **Decoding is closed under encoding.** The encoder accepts what `decodeCbor` returns, under the
same options, writes it in no more bytes, and these decode to the same value. -/
theorem cbor_reencode (options : CborOptions) (bytes : List UInt8) (value : Value)
    (h : decodeCbor bytes options = .ok value) :
    ∃ bytes', encodeCbor value options = .ok bytes' ∧ bytes'.length ≤ bytes.length ∧
      decodeCbor bytes' options = .ok value := by
  obtain ⟨resolved, hresolved, hlimit, hread⟩ := decodeCbor_ok.mp h
  obtain ⟨hcanonical, hlength⟩ := readItem_sound resolved _ 0 (Nat.zero_add _) _ _ _ hread
  rw [List.length_nil, Nat.add_zero] at hlength
  have hfits := Nat.le_trans hlength hlimit
  refine ⟨wire value, ?_, hlength, ?_⟩
  · exact encodeCbor_ok.mpr ⟨resolved, hresolved, hcanonical.encodable, rfl, hfits⟩
  · have hdecode := decodeCbor_wire hresolved hcanonical.encodable hcanonical.listed hfits
    rwa [hcanonical.stripped] at hdecode

/-- A head that is longer than needed, and keys out of order. -/
theorem cbor_reencode_map :
    let bytes := [0xb8, 2, 0x61, 0x62, 0xf5, 0x61, 0x31, 0x18, 7]
    let value := Value.object .object [([49], .number (.int ⟨7, by decide⟩)), ([98], .bool true)]
    decodeCbor bytes {} = .ok value ∧ ∃ bytes', encodeCbor value {} = .ok bytes' ∧ bytes'.length ≤ bytes.length ∧
        decodeCbor bytes' {} = .ok value := by
  intro bytes value
  have h : decodeCbor bytes {} = .ok value := by rfl
  exact ⟨h, cbor_reencode {} bytes value h⟩

end Mcpi.Protocol.Cbor
