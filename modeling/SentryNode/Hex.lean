import Mathlib.Data.List.Basic

/-!
# Hexadecimal text

Transactions are submitted and notified, and the node key is stored, as hexadecimal text. The format
is an interface (`Hex`) that the modules below infer, with what is documented of it as its laws
(`Hex.Lawful`). `Hex.lower` is one such format.
-/

set_option autoImplicit false
set_option relaxedAutoImplicit false

namespace SentryNode

/-- The text of bytes, and the bytes of a text. -/
class Hex where
  encode : List UInt8 → String
  decode : String → Option (List UInt8)

namespace Hex

/-- The digits that are written. -/
def digits : List Char := "0123456789abcdef".toList

/-- Encoding writes two lower-case digits for each byte. Decoding takes them back, also behind a
`0x`, and needs two characters for each byte. -/
structure Lawful [Hex] : Prop where
  digit : ∀ bytes, ∀ char ∈ (encode bytes).toList, char ∈ digits
  length_encode : ∀ bytes, (encode bytes).toList.length = 2 * bytes.length
  decode_encode : ∀ bytes, decode (encode bytes) = some bytes
  decode_marked : ∀ bytes, decode ("0x" ++ encode bytes) = some bytes
  length_of_decode : ∀ text bytes, decode text = some bytes → 2 * bytes.length ≤ text.toList.length

/-! ### One format -/

/-- Two digits for each byte. -/
def digitsOf (bytes : List UInt8) : List Char :=
  bytes.flatMap fun byte ↦ [Nat.digitChar (byte.toNat / 16), Nat.digitChar (byte.toNat % 16)]

/-- The value of a digit. -/
def digitValue (digit : Char) : Option ℕ :=
  (List.range 16).find? fun value ↦ Nat.digitChar value = digit

/-- Two digits for each byte, read back. -/
def bytesOf : List Char → Option (List UInt8)
  | [] => some []
  | [_] => none
  | high :: low :: text =>
    match digitValue high, digitValue low, bytesOf text with
    | some high, some low, some bytes => some (.ofNat (16 * high + low) :: bytes)
    | _, _, _ => none

/-- A text without its marker. -/
def stripMarker : List Char → List Char
  | '0' :: 'x' :: text => text
  | text => text

/-- Digits are written in lower case, and read in either case. -/
@[reducible] def lower : Hex where
  encode bytes := .ofList (digitsOf bytes)
  decode text := bytesOf ((stripMarker text.toList).map Char.toLower)

theorem digitValue_digitChar {value : ℕ} (hvalue : value < 16) :
    digitValue (Nat.digitChar value) = some value := by
  revert value
  decide

theorem digitChar_mem_digits {value : ℕ} (hvalue : value < 16) :
    Nat.digitChar value ∈ digits := by
  revert value
  decide

/-- Digits are in lower case, and none of them is the second character of the marker. -/
theorem toLower_of_mem_digits {char : Char} (hchar : char ∈ digits) :
    char.toLower = char ∧ char ≠ 'x' := by
  have hall : digits.all fun char ↦ char.toLower = char ∧ char ≠ 'x' := by decide
  exact of_decide_eq_true (List.all_eq_true.mp hall char hchar)

theorem mem_digits_of_mem_digitsOf {char : Char} {bytes : List UInt8}
    (hchar : char ∈ digitsOf bytes) : char ∈ digits := by
  obtain ⟨byte, -, hmem⟩ := List.mem_flatMap.mp hchar
  have hbyte := byte.toNat_lt
  rcases List.mem_pair.mp hmem with rfl | rfl
  · exact digitChar_mem_digits (by omega)
  · exact digitChar_mem_digits (by omega)

theorem length_digitsOf (bytes : List UInt8) : (digitsOf bytes).length = 2 * bytes.length := by
  induction bytes with
  | nil => rfl
  | cons byte bytes ih =>
    simp only [digitsOf, List.flatMap_cons, List.length_append, List.length_cons,
      List.length_nil] at ih ⊢
    omega

theorem bytesOf_digitsOf (bytes : List UInt8) : bytesOf (digitsOf bytes) = some bytes := by
  induction bytes with
  | nil => rfl
  | cons byte bytes ih =>
    have hbyte := byte.toNat_lt
    have hhigh := digitValue_digitChar (show byte.toNat / 16 < 16 by omega)
    have hlow := digitValue_digitChar (show byte.toNat % 16 < 16 by omega)
    rw [digitsOf] at ih
    simp [digitsOf, bytesOf, hhigh, hlow, ih, Nat.div_add_mod]

theorem length_of_bytesOf {text : List Char} {bytes : List UInt8}
    (hbytes : bytesOf text = some bytes) : 2 * bytes.length = text.length := by
  induction text using bytesOf.induct generalizing bytes with
  | case1 =>
    rw [bytesOf] at hbytes
    rw [← Option.some.inj hbytes]
    rfl
  | case2 digit => cases hbytes
  | case3 high low text highValue lowValue rest hrest hlow hhigh ih =>
    rw [bytesOf, hhigh, hlow, hrest] at hbytes
    rw [← Option.some.inj hbytes, List.length_cons, List.length_cons, List.length_cons, ← ih hrest]
    omega
  | case4 high low text hnone ih =>
    rw [bytesOf] at hbytes
    split at hbytes
    next highValue lowValue rest hhigh hlow hrest =>
      exact absurd hrest (hnone highValue lowValue rest hhigh hlow)
    next => cases hbytes

theorem length_stripMarker_le (text : List Char) : (stripMarker text).length ≤ text.length := by
  unfold stripMarker
  split
  · exact Nat.le_add_right _ 2
  · exact Nat.le_refl _

/-- Digits are no marker. -/
theorem stripMarker_digitsOf (bytes : List UInt8) : stripMarker
    (digitsOf bytes) = digitsOf bytes := by
  have hdigits : ∀ char ∈ digitsOf bytes, char ∈ digits := fun _ ↦ mem_digits_of_mem_digitsOf
  unfold stripMarker
  split
  next text heq =>
    rw [heq] at hdigits
    have hmem := hdigits 'x' (List.mem_cons_of_mem _ List.mem_cons_self)
    exact absurd rfl (toLower_of_mem_digits hmem).2
  next => rfl

theorem map_toLower_digitsOf (bytes : List UInt8) :
    (digitsOf bytes).map Char.toLower = digitsOf bytes := by
  conv_rhs => rw [← List.map_id (digitsOf bytes)]
  exact List.map_congr_left fun char hchar ↦
    (toLower_of_mem_digits (mem_digits_of_mem_digitsOf hchar)).1

theorem toList_encode_lower (bytes : List UInt8) :
    (@encode lower bytes).toList = digitsOf bytes := String.toList_ofList

theorem decode_lower {text : String} (bytes : List UInt8)
    (htext : stripMarker text.toList = digitsOf bytes) : @decode lower text = some bytes := by
  show bytesOf ((stripMarker text.toList).map Char.toLower) = some bytes
  rw [htext, map_toLower_digitsOf, bytesOf_digitsOf]

theorem lawful_lower : @Lawful lower := by
  let hex : Hex := lower
  refine ⟨fun bytes char hchar ↦ ?_, fun bytes ↦ ?_, fun bytes ↦ decode_lower bytes ?_,
    fun bytes ↦ decode_lower bytes ?_, fun text bytes hdecode ↦ ?_⟩
  · rw [toList_encode_lower] at hchar
    exact mem_digits_of_mem_digitsOf hchar
  · rw [toList_encode_lower, length_digitsOf]
  · rw [toList_encode_lower, stripMarker_digitsOf]
  · rw [String.toList_append, toList_encode_lower]
    rfl
  · have hlength := length_of_bytesOf hdecode
    rw [List.length_map] at hlength
    rw [hlength]
    exact length_stripMarker_le _

end Hex

end SentryNode
