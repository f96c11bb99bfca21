import Mcpi.Lib.MixedRadix

/-!
# Time-ordered ids

`uuidv7`: an id is the later of the clock and the time of the last id, a sequence number that goes
on while the clock does not, and random bits. A sequence that has no next number borrows a
millisecond from the clock.
-/

namespace Mcpi.Ai

/-- What a call draws: the random bytes, and `Date.now()`. -/
structure UuidCall where
  random : Fin 16 → UInt8
  now : Nat

/-- The variables of the module; there is no `lastTimestamp` where it is `-Infinity`. -/
structure UuidState where
  lastTimestamp : Option Nat
  sequence : Nat
  deriving DecidableEq

namespace UuidState

def initial : UuidState := ⟨none, 0⟩

/-- The four random bytes that a new timestamp starts its sequence with. -/
def drawnSequence (random : Fin 16 → UInt8) : Nat :=
  (random 6).toNat * 0x1000000 + (random 7).toNat * 0x10000 + (random 8).toNat * 0x100 + (random 9).toNat

/-- The timestamp and the sequence of the next id. -/
def next (s : UuidState) (call : UuidCall) : Nat × Nat :=
  match s.lastTimestamp with
  | none => (call.now, drawnSequence call.random)
  | some lastTimestamp =>
    if call.now > lastTimestamp then (call.now, drawnSequence call.random)
    else
      let sequence := (s.sequence + 1) % 2 ^ 32
      (if sequence = 0 then lastTimestamp + 1 else lastTimestamp, sequence)

end UuidState

/-- The bytes of an id. -/
def uuidBytes (lastTimestamp sequence : Nat) (random : Fin 16 → UInt8) : List Nat :=
  [lastTimestamp / 0x10000000000 &&& 0xff, lastTimestamp / 0x100000000 &&& 0xff, lastTimestamp / 0x1000000 &&& 0xff,
    lastTimestamp / 0x10000 &&& 0xff,
    lastTimestamp / 0x100 &&& 0xff,
    lastTimestamp &&& 0xff,
    0x70 ||| (sequence >>> 28 &&& 0x0f),
    sequence >>> 20 &&& 0xff,
    0x80 ||| (sequence >>> 14 &&& 0x3f),
    sequence >>> 6 &&& 0xff,
    (sequence &&& 0x3f) <<< 2 ||| ((random 10).toNat &&& 0x03),
    (random 11).toNat,
    (random 12).toNat,
    (random 13).toNat,
    (random 14).toNat,
    (random 15).toNat]

/-- `byte.toString(16).padStart(2, "0")` -/
def hexByte (byte : Nat) : List Char := List.leftpad 2 '0' (Nat.toDigits 16 byte)

/-- The bytes as hexadecimal digits, in groups of four, two, two, two and six. -/
def formatUuid (bytes : List Nat) : List Char :=
  let hex := bytes.map hexByte
  (hex.take 4).flatten ++ '-' :: ((hex.drop 4).take 2).flatten ++
    '-' :: ((hex.drop 6).take 2).flatten ++ '-' :: ((hex.drop 8).take 2).flatten ++
    '-' :: (hex.drop 10).flatten

/-- `uuidv7`, with the variables after the call. -/
def uuidv7 (s : UuidState) (call : UuidCall) : UuidState × List Char :=
  let (lastTimestamp, sequence) := s.next call
  (⟨some lastTimestamp, sequence⟩, formatUuid (uuidBytes lastTimestamp sequence call.random))

/-- The ids of calls one after another. -/
def uuids : UuidState → List UuidCall → List (List Char)
  | _, [] => []
  | s, call :: calls => (uuidv7 s call).2 :: uuids (uuidv7 s call).1 calls

/-- The `lastTimestamp` after each of the calls. -/
def timestamps : UuidState → List UuidCall → List Nat
  | _, [] => []
  | s, call :: calls => (s.next call).1 :: timestamps (uuidv7 s call).1 calls

/-! ## Digits -/

def hexDigits : List Char := "0123456789abcdef".toList

def hexValue (c : Char) : Nat := hexDigits.idxOf c

/-- The number of the first twelve hexadecimal digits of an id, its first 48 bits. -/
def timestamp (id : List Char) : Nat :=
  ((id.filter (· ≠ '-')).take 12).foldl (fun n c => 16 * n + hexValue c) 0

/-- Eight, four, four, four and twelve hexadecimal digits, the version and the variant among
them. -/
def IsUuid (id : List Char) : Prop :=
  ∃ timeHigh timeLow random variant sequence node,
    id = timeHigh ++ '-' :: timeLow ++ '-' :: '7' :: random ++ '-' :: variant :: sequence ++ '-' :: node ∧
    timeHigh.length = 8 ∧ timeLow.length = 4 ∧ random.length = 3 ∧ sequence.length = 3 ∧
    node.length = 12 ∧ variant ∈ ['8', '9', 'a', 'b'] ∧
    ∀ c ∈ timeHigh ++ timeLow ++ random ++ sequence ++ node, c ∈ hexDigits

variable {byte : Nat}

theorem hexByte_eq (h : byte < 256) : hexByte byte = [(byte / 16).digitChar, (byte % 16).digitChar] := by
  rcases Nat.lt_or_ge byte 16 with hlt | hge
  · rw [hexByte, Nat.toDigits_of_lt_base hlt, Nat.div_eq_of_lt hlt, Nat.mod_eq_of_lt hlt]
    rfl
  · have hhigh : byte / 16 < 16 := by omega
    rw [hexByte, Nat.toDigits_of_base_le (by decide) hge, Nat.toDigits_of_lt_base hhigh]
    rfl

theorem digitChar_lt : ∀ a < 16, ∀ b < 16, a < b → a.digitChar < b.digitChar := by decide

theorem digitChar_mem : ∀ d < 16, d.digitChar ∈ hexDigits := by decide

theorem hexValue_digitChar : ∀ d < 16, hexValue d.digitChar = d := by decide

theorem hexByte_lt {a b : Nat} (h : a < b) (hb : b < 256) : hexByte a < hexByte b := by
  rw [hexByte_eq (h.trans hb), hexByte_eq hb, List.cons_lt_cons_iff]
  rcases Nat.lt_or_eq_of_le (Nat.div_le_div_right (c := 16) h.le) with hlt | heq
  · exact .inl (digitChar_lt _ (by omega) _ (by omega) hlt)
  · refine .inr ⟨congrArg _ heq, List.cons_lt_cons_iff.mpr (.inl ?_)⟩
    exact digitChar_lt _ (by omega) _ (by omega) (by omega)

theorem filter_hexByte (h : byte < 256) : (hexByte byte).filter (· ≠ '-') = hexByte byte := by
  have hdash : ∀ d < 16, Nat.digitChar d ≠ '-' := by decide
  rw [List.filter_eq_self, hexByte_eq h]
  intro c hc
  simp only [List.mem_cons, List.not_mem_nil, or_false] at hc
  rcases hc with rfl | rfl
  · exact decide_eq_true (hdash _ (by omega))
  · exact decide_eq_true (hdash _ (by omega))

/-! ## Bytes -/

theorem uuidBytes_eq (lastTimestamp sequence : Nat) (random : Fin 16 → UInt8) :
    uuidBytes lastTimestamp sequence random = [lastTimestamp / 0x10000000000 % 256, lastTimestamp / 0x100000000 % 256,
        lastTimestamp / 0x1000000 % 256, lastTimestamp / 0x10000 % 256,
        lastTimestamp / 0x100 % 256, lastTimestamp % 256,
        112 + sequence / 2 ^ 28 % 16, sequence / 2 ^ 20 % 256, 128 + sequence / 2 ^ 14 % 64,
        sequence / 2 ^ 6 % 256, 4 * (sequence % 64) + (random 10).toNat % 4,
        (random 11).toNat, (random 12).toNat, (random 13).toNat, (random 14).toNat,
        (random 15).toNat] := by
  have hversion : ∀ d < 16, 0x70 ||| d = 112 + d := by decide
  have hvariant : ∀ d < 64, 0x80 ||| d = 128 + d := by decide
  have hlow : ((sequence % 64) <<< 2 ||| (random 10).toNat % 4) = 4 * (sequence % 64) + (random 10).toNat % 4 := by
    rw [← Nat.shiftLeft_add_eq_or_of_lt (i := 2) (Nat.mod_lt _ (by decide)), Nat.shiftLeft_eq, Nat.mul_comm]
  have hbyte : ∀ n, n &&& 0xff = n % 256 := fun n => Nat.and_two_pow_sub_one_eq_mod n 8
  have hfour : ∀ n, n &&& 0x0f = n % 16 := fun n => Nat.and_two_pow_sub_one_eq_mod n 4
  have hsix : ∀ n, n &&& 0x3f = n % 64 := fun n => Nat.and_two_pow_sub_one_eq_mod n 6
  have htwo : ∀ n, n &&& 0x03 = n % 4 := fun n => Nat.and_two_pow_sub_one_eq_mod n 2
  simp only [uuidBytes, hbyte, hfour, hsix, htwo, hlow, Nat.shiftRight_eq_div_pow,
    hversion _ (Nat.mod_lt _ (by decide : 0 < 16)), hvariant _ (Nat.mod_lt _ (by decide : 0 < 64))]

theorem uuidBytes_lt {lastTimestamp sequence : Nat} {random : Fin 16 → UInt8}
    (h : byte ∈ uuidBytes lastTimestamp sequence random) : byte < 256 := by
  have hrandom : ∀ i, (random i).toNat < 256 := fun i => (random i).toNat_lt
  rw [uuidBytes_eq] at h
  simp only [List.mem_cons, List.not_mem_nil, or_false] at h
  rcases h with h | h | h | h | h | h | h | h | h | h | h | h | h | h | h | h
  all_goals
    have := hrandom 11
    have := hrandom 12
    have := hrandom 13
    have := hrandom 14
    have := hrandom 15
    omega

/-- The bytes with a sequence number in them, as one number. -/
def sequenceValue (sequence : Nat) (random : Fin 16 → UInt8) : Nat :=
  0x7000800000 + 0x1000000 * (sequence / 2 ^ 20) + 4 * (sequence % 2 ^ 20) + (random 10).toNat % 4

theorem sequenceValue_lt {sequence sequence' : Nat} (h : sequence < sequence') (random random' : Fin 16 → UInt8) :
    sequenceValue sequence random < sequenceValue sequence' random' := by
  have hlow : (random 10).toNat % 4 < 4 := Nat.mod_lt _ (by decide)
  simp only [sequenceValue]
  omega

theorem digits_sequenceValue {sequence : Nat} (h : sequence < 2 ^ 32) (random : Fin 16 → UInt8) :
    MixedRadix.digits (List.replicate 5 256) (sequenceValue sequence random) =
      [112 + sequence / 2 ^ 28 % 16, sequence / 2 ^ 20 % 256, 128 + sequence / 2 ^ 14 % 64,
        sequence / 2 ^ 6 % 256, 4 * (sequence % 64) + (random 10).toNat % 4] := by
  have hlow : (random 10).toNat % 4 < 4 := Nat.mod_lt _ (by decide)
  -- The high twelve bits of the number are two bytes, the others three.
  have hhigh : sequence / 2 ^ 28 = sequence / 2 ^ 20 / 256 := by omega
  have hmiddle : sequence / 2 ^ 14 % 64 = sequence % 2 ^ 20 / 2 ^ 14 := by omega
  have hrest : sequence / 2 ^ 6 % 256 = sequence % 2 ^ 20 / 2 ^ 6 % 256 := by omega
  have hlast : sequence % 64 = sequence % 2 ^ 20 % 64 := by omega
  have hbound : sequence / 2 ^ 20 < 4096 := by omega
  have hbound' : sequence % 2 ^ 20 < 2 ^ 20 := Nat.mod_lt _ (by decide)
  rw [hhigh, hmiddle, hrest, hlast, sequenceValue]
  generalize sequence / 2 ^ 20 = high at *
  generalize sequence % 2 ^ 20 = low at *
  simp only [MixedRadix.digits, List.replicate, List.prod_cons, List.prod_nil, List.cons.injEq, and_true]
  refine ⟨?_, ?_, ?_, ?_, ?_⟩
  all_goals omega

/-- The bytes are the digits of the timestamp, those of the sequence number, and random bytes. -/
theorem uuidBytes_eq_digits {lastTimestamp sequence : Nat} (hlast : lastTimestamp < 2 ^ 48)
    (hsequence : sequence < 2 ^ 32) (random : Fin 16 → UInt8) :
    uuidBytes lastTimestamp sequence random = MixedRadix.digits (List.replicate 6 256) lastTimestamp ++
        (MixedRadix.digits (List.replicate 5 256) (sequenceValue sequence random) ++
          [(random 11).toNat, (random 12).toNat, (random 13).toNat, (random 14).toNat, (random 15).toNat]) := by
  rw [uuidBytes_eq, digits_sequenceValue hsequence]
  simp only [MixedRadix.digits, List.replicate, List.prod_cons, List.prod_nil, List.cons_append,
    List.nil_append, List.cons.injEq, and_true]
  refine ⟨?_, ?_, ?_, ?_, ?_, ?_⟩
  all_goals omega

/-- **Bytes are ordered as timestamps and sequence numbers are.** -/
theorem uuidBytes_lt_uuidBytes {last last' sequence sequence' : Nat} (hlast' : last' < 2 ^ 48)
    (hsequence : sequence < 2 ^ 32) (hsequence' : sequence' < 2 ^ 32)
    (hless : last * 2 ^ 32 + sequence < last' * 2 ^ 32 + sequence')
    (random random' : Fin 16 → UInt8) :
    uuidBytes last sequence random < uuidBytes last' sequence' random' := by
  have hlast : last < 2 ^ 48 := by omega
  rw [uuidBytes_eq_digits hlast hsequence, uuidBytes_eq_digits hlast' hsequence']
  rcases Nat.lt_or_ge last last' with hlt | hge
  · exact MixedRadix.append_lt_append (MixedRadix.digits_lt hlt (by simpa using hlast'))
      (by rw [MixedRadix.length_digits, MixedRadix.length_digits]) _ _
  · obtain rfl : last = last' := by omega
    have hbound : sequenceValue sequence' random' < (List.replicate 5 256).prod := by
      have hlow : (random' 10).toNat % 4 < 4 := Nat.mod_lt _ (by decide)
      simp only [sequenceValue, List.replicate, List.prod_cons, List.prod_nil]
      omega
    exact List.append_left_lt (MixedRadix.append_lt_append
      (MixedRadix.digits_lt (sequenceValue_lt (by omega) random random') hbound)
      (by rw [MixedRadix.length_digits, MixedRadix.length_digits]) _ _)

/-! ## Ids -/

/-- How the bytes are written, one after another. -/
def codes : List (Nat → List Char) :=
  let dashed byte := '-' :: hexByte byte
  [hexByte, hexByte, hexByte, hexByte, dashed, hexByte, dashed, hexByte, dashed, hexByte, dashed,
    hexByte, hexByte, hexByte, hexByte, hexByte]

theorem formatUuid_eq_encode (last sequence : Nat) (random : Fin 16 → UInt8) :
    formatUuid (uuidBytes last sequence random) = MixedRadix.encode codes (uuidBytes last sequence random) := by
  rw [uuidBytes_eq]
  simp [formatUuid, MixedRadix.encode, codes]

theorem length_hexByte (h : byte < 256) : (hexByte byte).length = 2 := by
  rw [hexByte_eq h]
  rfl

/-- **Ids are ordered as timestamps and sequence numbers are.** -/
theorem formatUuid_lt {last last' sequence sequence' : Nat} (hlast' : last' < 2 ^ 48)
    (hsequence : sequence < 2 ^ 32) (hsequence' : sequence' < 2 ^ 32)
    (hless : last * 2 ^ 32 + sequence < last' * 2 ^ 32 + sequence')
    (random random' : Fin 16 → UInt8) :
    formatUuid (uuidBytes last sequence random) < formatUuid (uuidBytes last' sequence' random') := by
  rw [formatUuid_eq_encode, formatUuid_eq_encode]
  refine MixedRadix.encode_lt
    (uuidBytes_lt_uuidBytes hlast' hsequence hsequence' hless random random') rfl (Nat.le_refl _) ?_
  intro code hcode x hx y hy
  have hwidth : (hexByte x).length = (hexByte y).length :=
    (length_hexByte (uuidBytes_lt hx)).trans (length_hexByte (uuidBytes_lt hy)).symm
  -- A code writes the byte, some of them with a dash before it.
  obtain rfl | rfl : code = hexByte ∨ code = fun byte => '-' :: hexByte byte := by
    simp only [codes, List.mem_cons, List.not_mem_nil, or_false] at hcode
    grind
  · exact ⟨hwidth, fun hlt => hexByte_lt hlt (uuidBytes_lt hy)⟩
  · refine ⟨congrArg (· + 1) hwidth, fun hlt => ?_⟩
    exact List.cons_lt_cons_iff.mpr (.inr ⟨rfl, hexByte_lt hlt (uuidBytes_lt hy)⟩)

variable {bytes : List Nat}

theorem filter_formatUuid (h : ∀ byte ∈ bytes, byte < 256) :
    (formatUuid bytes).filter (· ≠ '-') = (bytes.map hexByte).flatten := by
  have hkeep : ∀ hex : List (List Char), hex ⊆ bytes.map hexByte → hex.flatten.filter (· ≠ '-') = hex.flatten := by
    intro hex hsub
    rw [List.filter_flatten]
    congr 1
    refine (List.map_congr_left fun cs hcs => ?_).trans (List.map_id _)
    obtain ⟨byte, hbyte, rfl⟩ := List.mem_map.mp (hsub hcs)
    exact filter_hexByte (h byte hbyte)
  have hdash : ∀ cs : List Char, ('-' :: cs).filter (· ≠ '-') = cs.filter (· ≠ '-') :=
    fun cs => List.filter_cons_of_neg (by decide)
  have htake : ∀ (n k : Nat), ((bytes.map hexByte).drop n).take k ⊆ bytes.map hexByte :=
    fun n k _ hmem => List.drop_subset _ _ (List.take_subset _ _ hmem)
  have hsplit : ∀ n k : Nat, ((bytes.map hexByte).drop n).flatten = (((bytes.map hexByte).drop n).take k).flatten ++
        ((bytes.map hexByte).drop (n + k)).flatten := by
    intro n k
    rw [← List.drop_drop, ← List.flatten_append, List.take_append_drop]
  simp only [formatUuid, List.filter_append, hdash, hkeep _ (htake _ _),
    hkeep _ (List.take_subset _ _), hkeep _ (List.drop_subset _ _)]
  calc _ = (((bytes.map hexByte).drop 0).take 4).flatten ++ ((bytes.map hexByte).drop 4).flatten := by
        rw [hsplit 4 2, hsplit 6 2, hsplit 8 2]
        simp only [List.append_assoc, List.drop_zero]
    _ = ((bytes.map hexByte).drop 0).flatten := (hsplit 0 4).symm

theorem timestamp_formatUuid {last : Nat} (hlast : last < 2 ^ 48) (sequence : Nat)
    (random : Fin 16 → UInt8) : timestamp (formatUuid (uuidBytes last sequence random)) = last := by
  have hmod : ∀ n, n % 256 < 256 := fun n => Nat.mod_lt _ (by decide)
  rw [timestamp, filter_formatUuid fun _ => uuidBytes_lt, uuidBytes_eq]
  simp only [List.map_cons, List.flatten_cons, hexByte_eq (hmod _), List.cons_append,
    List.nil_append, List.take_succ_cons, List.take_zero, List.foldl_cons, List.foldl_nil]
  simp (disch := omega) only [hexValue_digitChar]
  omega

theorem hexByte_mem (h : byte < 256) {c : Char} (hc : c ∈ hexByte byte) : c ∈ hexDigits := by
  rw [hexByte_eq h, List.mem_cons, List.mem_singleton] at hc
  rcases hc with rfl | rfl
  · exact digitChar_mem _ (by omega)
  · exact digitChar_mem _ (by omega)

theorem hexByte_version : ∀ d < 16, hexByte (112 + d) = ['7', d.digitChar] := by
  intro d hd
  rw [hexByte_eq (by omega), show (112 + d) / 16 = 7 by omega, show (112 + d) % 16 = d by omega]
  rfl

theorem hexByte_variant : ∀ d < 64, hexByte (128 + d) = [(8 + d / 16).digitChar, (d % 16).digitChar] := by
  intro d hd
  rw [hexByte_eq (by omega), show (128 + d) / 16 = 8 + d / 16 by omega,
    show (128 + d) % 16 = d % 16 by omega]

theorem length_hex (h : ∀ byte ∈ bytes, byte < 256) : (bytes.map hexByte).flatten.length = 2 * bytes.length := by
  induction bytes with
  | nil => rfl
  | cons byte bytes ih =>
    rw [List.forall_mem_cons] at h
    rw [List.map_cons, List.flatten_cons, List.length_append, length_hexByte h.1, ih h.2, List.length_cons]
    omega

theorem hex_mem (h : ∀ byte ∈ bytes, byte < 256) {c : Char} (hc : c ∈ (bytes.map hexByte).flatten) : c ∈ hexDigits := by
  obtain ⟨cs, hcs, hc⟩ := List.mem_flatten.mp hc
  obtain ⟨byte, hbyte, rfl⟩ := List.mem_map.mp hcs
  exact hexByte_mem (h byte hbyte) hc

theorem isUuid_bytes {high low random sequence node : List Nat} {d e : Nat}
    (hhigh : high.length = 4) (hlow : low.length = 2) (hrandom : random.length = 1)
    (hsequence : sequence.length = 1) (hnode : node.length = 6) (hd : d < 16) (he : e < 64)
    (hbytes : ∀ byte ∈ high ++ low ++ random ++ sequence ++ node, byte < 256) :
    IsUuid (formatUuid (high ++ low ++ ((112 + d) :: random) ++ ((128 + e) :: sequence) ++ node)) := by
  simp only [List.forall_mem_append] at hbytes
  obtain ⟨⟨⟨⟨hhigh', hlow'⟩, hrandom'⟩, hsequence'⟩, hnode'⟩ := hbytes
  have hvariant : ∀ d < 4, (8 + d).digitChar ∈ ['8', '9', 'a', 'b'] := by decide
  refine ⟨(high.map hexByte).flatten, (low.map hexByte).flatten,
    d.digitChar :: (random.map hexByte).flatten, (8 + e / 16).digitChar,
    (e % 16).digitChar :: (sequence.map hexByte).flatten, (node.map hexByte).flatten,
    ?_, ?_, ?_, ?_, ?_, ?_, hvariant _ (by omega), ?_⟩
  · simp [formatUuid, List.drop_append, hhigh, hlow, hrandom, hsequence, List.drop_of_length_le,
      hexByte_version d hd, hexByte_variant e he]
  · rw [length_hex hhigh', hhigh]
  · rw [length_hex hlow', hlow]
  · rw [List.length_cons, length_hex hrandom', hrandom]
  · rw [List.length_cons, length_hex hsequence', hsequence]
  · rw [length_hex hnode', hnode]
  · intro c hc
    simp only [List.mem_append, List.mem_cons] at hc
    rcases hc with (((hc | hc) | rfl | hc) | rfl | hc) | hc
    · exact hex_mem hhigh' hc
    · exact hex_mem hlow' hc
    · exact digitChar_mem d hd
    · exact hex_mem hrandom' hc
    · exact digitChar_mem _ (Nat.mod_lt _ (by decide))
    · exact hex_mem hsequence' hc
    · exact hex_mem hnode' hc

/-- **An id is a UUID of version 7.** -/
theorem isUuid_formatUuid (last sequence : Nat) (random : Fin 16 → UInt8) :
    IsUuid (formatUuid (uuidBytes last sequence random)) := by
  have hlt : ∀ byte ∈ uuidBytes last sequence random, byte < 256 := fun _ => uuidBytes_lt
  rw [uuidBytes_eq] at hlt ⊢
  refine @isUuid_bytes [_, _, _, _] [_, _] [_] [_] [_, _, _, _, _, _] _ _ rfl rfl rfl rfl rfl
    (Nat.mod_lt _ (by decide)) (Nat.mod_lt _ (by decide)) fun byte hbyte => hlt byte ?_
  simp only [List.cons_append, List.nil_append, List.mem_cons] at hbyte ⊢
  grind

/-! ## Calls -/

theorem drawnSequence_lt (random : Fin 16 → UInt8) : UuidState.drawnSequence random < 2 ^ 32 := by
  have h6 := (random 6).toNat_lt
  have h7 := (random 7).toNat_lt
  have h8 := (random 8).toNat_lt
  have h9 := (random 9).toNat_lt
  rw [UuidState.drawnSequence]
  omega

variable {s : UuidState}

/-- What the next id is by, compared with the clock and the state. -/
theorem next_spec (hs : s.sequence < 2 ^ 32) (call : UuidCall) :
    (s.next call).2 < 2 ^ 32 ∧ call.now ≤ (s.next call).1 ∧ ∀ last, s.lastTimestamp = some last →
        last * 2 ^ 32 + s.sequence < (s.next call).1 * 2 ^ 32 + (s.next call).2 := by
  have hdrawn := drawnSequence_lt call.random
  unfold UuidState.next
  split
  next hnone => exact ⟨hdrawn, Nat.le_refl _, fun last heq => absurd (hnone.symm.trans heq) nofun⟩
  next last hlast =>
    split
    next hlater =>
      refine ⟨hdrawn, Nat.le_refl _, fun last' heq => ?_⟩
      obtain rfl := Option.some.inj (hlast.symm.trans heq)
      omega
    next hnot =>
      refine ⟨Nat.mod_lt _ (by decide), ?_, fun last' heq => ?_⟩
      · dsimp only
        split
        · omega
        · omega
      · obtain rfl := Option.some.inj (hlast.symm.trans heq)
        dsimp only
        split
        · omega
        · omega

variable {calls : List UuidCall}

theorem mem_uuids {id : List Char} (hs : s.sequence < 2 ^ 32)
    (hclock : ∀ t ∈ timestamps s calls, t < 2 ^ 48) (hid : id ∈ uuids s calls) :
    ∃ last sequence random, id = formatUuid (uuidBytes last sequence random) ∧ last < 2 ^ 48 ∧ sequence < 2 ^ 32 ∧
      ∀ last', s.lastTimestamp = some last' → last' * 2 ^ 32 + s.sequence < last * 2 ^ 32 + sequence := by
  induction calls generalizing s with
  | nil => cases hid
  | cons call calls ih =>
    rw [timestamps, List.forall_mem_cons] at hclock
    obtain ⟨hsequence, -, hlater⟩ := next_spec hs call
    rcases List.mem_cons.mp hid with rfl | hid
    · exact ⟨_, _, call.random, rfl, hclock.1, hsequence, hlater⟩
    · obtain ⟨last, sequence, random, rfl, hlast, hseq, hless⟩ := ih hsequence hclock.2 hid
      exact ⟨last, sequence, random, rfl, hlast, hseq, fun last' heq => (hlater last' heq).trans (hless _ rfl)⟩

theorem uuids_pairwise (hs : s.sequence < 2 ^ 32)
    (hclock : ∀ t ∈ timestamps s calls, t < 2 ^ 48) : (uuids s calls).Pairwise (· < ·) := by
  induction calls generalizing s with
  | nil => exact .nil
  | cons call calls ih =>
    rw [timestamps, List.forall_mem_cons] at hclock
    obtain ⟨hsequence, -⟩ := next_spec hs call
    refine List.pairwise_cons.mpr ⟨fun id hid => ?_, ih hsequence hclock.2⟩
    obtain ⟨last, sequence, random, rfl, hlast, hseq, hless⟩ := mem_uuids hsequence hclock.2 hid
    exact formatUuid_lt hlast hsequence hseq (hless _ rfl) _ _

theorem le_timestamp (hs : s.sequence < 2 ^ 32)
    (hclock : ∀ t ∈ timestamps s calls, t < 2 ^ 48) {i : Nat} {id : List Char}
    (hid : (uuids s calls)[i]? = some id) :
    (∀ call ∈ calls.take (i + 1), call.now ≤ timestamp id) ∧
      ∀ last, s.lastTimestamp = some last → last ≤ timestamp id := by
  induction calls generalizing s i with
  | nil => cases hid
  | cons call calls ih =>
    rw [timestamps, List.forall_mem_cons] at hclock
    obtain ⟨hsequence, hnow, hlater⟩ := next_spec hs call
    have hle : ∀ last, s.lastTimestamp = some last → last ≤ (s.next call).1 := by
      intro last heq
      have := hlater last heq
      omega
    rw [List.take_succ_cons, List.forall_mem_cons]
    cases i with
    | zero =>
      obtain rfl := Option.some.inj hid
      have htimestamp : timestamp (uuidv7 s call).2 = (s.next call).1 :=
        timestamp_formatUuid hclock.1 _ _
      rw [htimestamp]
      exact ⟨⟨hnow, fun _ h => nomatch h⟩, hle⟩
    | succ i =>
      obtain ⟨hcalls, hlast⟩ := ih hsequence hclock.2 hid
      have hnext := hlast _ rfl
      exact ⟨⟨hnow.trans hnext, hcalls⟩, fun last heq => (hle last heq).trans hnext⟩

/-- **Ids increase**: of every sequence of calls, whatever the clock reads, with the times of the
ids within 48 bits. -/
theorem uuids_increasing (calls : List UuidCall) (hclock : ∀ t ∈ timestamps .initial calls, t < 2 ^ 48) :
    (uuids .initial calls).Pairwise (· < ·) ∧ (∀ id ∈ uuids .initial calls, IsUuid id) ∧
      ∀ i id, (uuids .initial calls)[i]? = some id → ∀ call ∈ calls.take (i + 1), call.now ≤ timestamp id := by
  have hs : UuidState.initial.sequence < 2 ^ 32 := by decide
  refine ⟨uuids_pairwise hs hclock, fun id hid => ?_, fun i id hid => (le_timestamp hs hclock hid).1⟩
  obtain ⟨last, sequence, random, rfl, -⟩ := mem_uuids hs hclock hid
  exact isUuid_formatUuid last sequence random

/-- A sequence that wraps around, at a clock that goes back. -/
def wrappingCalls : List UuidCall := [⟨fun _ => 255, 5⟩, ⟨fun _ => 0, 3⟩, ⟨fun _ => 7, 6⟩]

theorem uuids_increasing_wrapping :
    timestamps .initial wrappingCalls = [5, 6, 6] ∧ (uuids .initial wrappingCalls).Pairwise (· < ·) ∧
      (∀ id ∈ uuids .initial wrappingCalls, IsUuid id) ∧
      ∀ i id, (uuids .initial wrappingCalls)[i]? = some id →
        ∀ call ∈ wrappingCalls.take (i + 1), call.now ≤ timestamp id :=
  ⟨by decide, uuids_increasing wrappingCalls (by decide)⟩

end Mcpi.Ai
