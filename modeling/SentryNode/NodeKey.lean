import Mathlib.Data.List.DropRight
import SentryNode.Hex
import SentryNode.Primitives

/-!
# The node key

The identity of the node is a secret key, which is kept in a file as hexadecimal text. A start loads
the key from the file, or generates a key and writes it where there is no file. A start can be
stopped while it writes, so that the file holds the first digits only, and the next start finds that
file.

The keys themselves are an interface (`Secp256k1`), as the hexadecimal text is, and of both only the
documented laws are used: what is written is read back, and fewer digits are no key.
`identity_of_starts` follows the file through all starts of the node: the key is the one that the
first start able to create the file has generated, or no start ever has a key.
-/

set_option autoImplicit false
set_option relaxedAutoImplicit false

namespace SentryNode

/-! ### Secret keys -/

/-- The bytes of a secret key, and the key of some bytes, if they are one. -/
class Secp256k1 (SecretKey : Type*) where
  secretBytes : SecretKey → List UInt8
  fromSlice : List UInt8 → Option SecretKey

namespace Secp256k1

/-- A key has 32 bytes and is read back from them. No other number of bytes is a key. -/
structure Lawful (SecretKey : Type*) [Secp256k1 SecretKey] : Prop where
  length_secretBytes : ∀ key : SecretKey, (secretBytes key).length = 32
  fromSlice_secretBytes : ∀ key : SecretKey, fromSlice (secretBytes key) = some key
  length_of_fromSlice : ∀ (bytes : List UInt8) (key : SecretKey),
    fromSlice bytes = some key → bytes.length = 32

/-- Any 32 bytes as a key. -/
@[reducible] def anyBytes : Secp256k1 B256 where
  secretBytes := B256.bytes
  fromSlice bytes := if hlength : bytes.length = 32 then some ⟨bytes, hlength⟩ else none

theorem lawful_anyBytes : @Lawful B256 anyBytes := by
  let keys : Secp256k1 B256 := anyBytes
  refine ⟨B256.length_bytes, fun key ↦ dif_pos key.length_bytes, fun bytes key hkey ↦ ?_⟩
  by_contra hlength
  rw [show fromSlice bytes = none from dif_neg hlength] at hkey
  cases hkey

end Secp256k1

/-! ### The text of a key -/

/-- The white space that `trim` removes. -/
def isWhitespace (char : Char) : Bool :=
  let code := char.toNat
  (9 ≤ code && code ≤ 13) || code = 0x20 || code = 0x85 || code = 0xa0 || code = 0x1680 ||
    (0x2000 ≤ code && code ≤ 0x200a) || code = 0x2028 || code = 0x2029 || code = 0x202f ||
    code = 0x205f || code = 0x3000

def trim (text : String) : String :=
  .ofList ((text.toList.dropWhile isWhitespace).rdropWhile isWhitespace)

/-- There is nothing to remove from a text without white space. -/
theorem trim_eq_self {text : String} (hspaces : ∀ char ∈ text.toList, isWhitespace char = false) :
    trim text = text := by
  have hfront : text.toList.dropWhile isWhitespace = text.toList := by
    rw [List.dropWhile_eq_self_iff]
    intro hlength
    simp [hspaces _ (List.getElem_mem hlength)]
  have hback : text.toList.rdropWhile isWhitespace = text.toList := by
    rw [List.rdropWhile_eq_self_iff]
    intro hne
    simp [hspaces _ (List.getLast_mem hne)]
  rw [trim, hfront, hback, String.ofList_toList]

/-- Digits are no white space. -/
theorem isWhitespace_of_mem_digits {char : Char} (hchar : char ∈ Hex.digits) :
    isWhitespace char = false := by
  have hall : Hex.digits.all fun char ↦ !isWhitespace char := by decide
  simpa using List.all_eq_true.mp hall char hchar

/-! ### One start -/

/-- What the key file holds. -/
inductive KeyFile
  | text (text : String)
  | notText

/-- Why a start has no key. -/
inductive KeyError
  | read
  | hex
  | key
  | directory
  | write
deriving DecidableEq

/-- How far a start comes with a new file: without its directory, without the file, stopped after
some characters, or to the end. -/
inductive WriteOutcome
  | noDirectory
  | notOpened
  | stopped (written : ℕ)
  | complete

/-- A start of the node: whether a file can be read, the key it generates when there is none, and
how far it comes with the new file. -/
structure KeyStart (SecretKey : Type*) where
  readable : Bool
  fresh : SecretKey
  write : WriteOutcome

section

variable {SecretKey : Type*} [Hex] [Secp256k1 SecretKey]

/-- Load a key from a file that can be read. -/
def load : KeyFile → Except KeyError SecretKey
  | .notText => .error .read
  | .text text =>
    match Hex.decode (trim text) with
    | none => .error .hex
    | some bytes =>
      match Secp256k1.fromSlice bytes with
      | none => .error .key
      | some key => .ok key

/-- The text of a key. -/
def textOf (key : SecretKey) : String := Hex.encode (Secp256k1.secretBytes key)

/-- The file after some characters of a key. -/
def fileOf (key : SecretKey) (written : ℕ) : KeyFile :=
  .text (.ofList ((textOf key).toList.take written))

/-- Load the node key from the file, or generate and save a new one. A start that is stopped has no
key either. -/
def loadOrGenerate (file : Option KeyFile) (start : KeyStart SecretKey) :
    Except KeyError SecretKey × Option KeyFile :=
  match file with
  | some contents => (if start.readable then load contents else .error .read, file)
  | none =>
    match start.write with
    | .noDirectory => (.error .directory, none)
    | .notOpened => (.error .write, none)
    | .stopped written => (.error .write, some (fileOf start.fresh written))
    | .complete => (.ok start.fresh, some (.text (textOf start.fresh)))

/-- The results of starts one after the other. -/
def results : Option KeyFile → List (KeyStart SecretKey) → List (Except KeyError SecretKey)
  | _, [] => []
  | file, start :: starts =>
    let (result, file) := loadOrGenerate file start
    result :: results file starts

end

/-! ### What one start does -/

variable {SecretKey : Type*} {start creator : KeyStart SecretKey}
  {starts : List (KeyStart SecretKey)} {key : SecretKey}

theorem length_textOf [Hex] (hhex : Hex.Lawful) [Secp256k1 SecretKey]
    (hkeys : Secp256k1.Lawful SecretKey) (key : SecretKey) : (textOf key).toList.length = 64 := by
  rw [textOf, hhex.length_encode, hkeys.length_secretBytes]

/-- A text is loaded as the key of its bytes. -/
theorem load_text_eq_ok_iff [Hex] [Secp256k1 SecretKey] {text : String} :
    load (.text text) = .ok key ↔
      ∃ bytes, Hex.decode (trim text) = some bytes ∧ Secp256k1.fromSlice bytes = some key := by
  rw [load]
  cases Hex.decode (trim text) with
  | none => simp
  | some bytes => cases hkey : (Secp256k1.fromSlice bytes : Option SecretKey) <;> simp [hkey]

/-- A file with the first characters of a key is loaded when these are all. -/
theorem load_fileOf_eq_ok_iff [Hex] (hhex : Hex.Lawful) [Secp256k1 SecretKey]
    (hkeys : Secp256k1.Lawful SecretKey) (fresh key : SecretKey) (written : ℕ) :
    load (fileOf fresh written) = .ok key ↔ 64 ≤ written ∧ fresh = key := by
  have hlength := length_textOf hhex hkeys fresh
  have htrim : trim (.ofList ((textOf fresh).toList.take written)) =
      .ofList ((textOf fresh).toList.take written) := by
    refine trim_eq_self fun char hchar ↦ ?_
    rw [String.toList_ofList] at hchar
    exact isWhitespace_of_mem_digits (hhex.digit _ char (List.mem_of_mem_take hchar))
  have hwhole (hle : 64 ≤ written) :
      String.ofList ((textOf fresh).toList.take written) = textOf fresh := by
    rw [List.take_of_length_le (by omega), String.ofList_toList]
  have hdecode : Hex.decode (textOf fresh) = some (Secp256k1.secretBytes fresh) :=
    hhex.decode_encode _
  rw [fileOf, load_text_eq_ok_iff, htrim]
  constructor
  · rintro ⟨bytes, hbytes, hkey⟩
    have hdigits := hhex.length_of_decode _ _ hbytes
    rw [hkeys.length_of_fromSlice _ _ hkey, String.toList_ofList, List.length_take] at hdigits
    have hle : 64 ≤ written := by omega
    rw [hwhole hle, hdecode] at hbytes
    rw [← Option.some.inj hbytes, hkeys.fromSlice_secretBytes] at hkey
    exact ⟨hle, Option.some.inj hkey⟩
  · rintro ⟨hle, rfl⟩
    rw [hwhole hle]
    exact ⟨_, hdecode, hkeys.fromSlice_secretBytes fresh⟩

/-- The characters that a start writes, once it has the new file. -/
def KeyStart.written (start : KeyStart SecretKey) : Option ℕ :=
  match start.write with
  | .noDirectory => none
  | .notOpened => none
  | .stopped written => some written
  | .complete => some 64

/-- A start without a file to write to leaves no file. -/
theorem loadOrGenerate_of_none [Hex] [Secp256k1 SecretKey] (hwritten : start.written = none) :
    ∃ error, loadOrGenerate none start = (.error error, none) := by
  unfold KeyStart.written at hwritten
  unfold loadOrGenerate
  cases hwrite : start.write with
  | noDirectory => exact ⟨_, rfl⟩
  | notOpened => exact ⟨_, rfl⟩
  | stopped | complete =>
    rw [hwrite] at hwritten
    cases hwritten

/-- A start with a new file leaves the first characters of its key in it. -/
theorem loadOrGenerate_of_some [Hex] (hhex : Hex.Lawful) [Secp256k1 SecretKey]
    (hkeys : Secp256k1.Lawful SecretKey) {written : ℕ} (hwritten : start.written = some written) :
    ∃ result, loadOrGenerate none start = (result, some (fileOf start.fresh written)) ∧
      ∀ key, result = .ok key ↔ start.write = .complete ∧ start.fresh = key := by
  unfold KeyStart.written at hwritten
  unfold loadOrGenerate
  cases hwrite : start.write with
  | noDirectory | notOpened =>
    rw [hwrite] at hwritten
    cases hwritten
  | stopped count =>
    rw [hwrite] at hwritten
    obtain rfl := Option.some.inj hwritten
    exact ⟨_, rfl, fun key ↦ by simp⟩
  | complete =>
    rw [hwrite] at hwritten
    obtain rfl := Option.some.inj hwritten
    have hlength := length_textOf hhex hkeys start.fresh
    rw [fileOf, List.take_of_length_le (Nat.le_of_eq hlength), String.ofList_toList]
    exact ⟨_, rfl, fun key ↦ by simp⟩

/-! ### Every start of the node -/

/-- The start creates the file: it is the first one that is able to. -/
def Creates (starts : List (KeyStart SecretKey)) (first : ℕ)
    (creator : KeyStart SecretKey) : Prop :=
  starts[first]? = some creator ∧ creator.written ≠ none ∧
    ∀ earlier < first, ∀ start ∈ starts[earlier]?, start.written = none

/-- A start has the key: the one that was generated by the start that created the file. Either it is
this start and was not stopped, or all of the text was written earlier and can be read now. -/
def HasKey (starts : List (KeyStart SecretKey)) (index : ℕ) (key : SecretKey) : Prop :=
  ∃ first creator, Creates starts first creator ∧ creator.fresh = key ∧
    (first = index ∧ creator.write = .complete ∨
      first < index ∧ (∃ written ∈ creator.written, 64 ≤ written) ∧
        ∃ start, starts[index]? = some start ∧ start.readable)

/-- A file that is there is never written again. -/
theorem results_some [Hex] [Secp256k1 SecretKey] (contents : KeyFile)
    (starts : List (KeyStart SecretKey)) :
    results (some contents) starts =
      starts.map fun start ↦ if start.readable then load contents else .error .read := by
  induction starts with
  | nil => rfl
  | cons start starts ih =>
    rw [results, loadOrGenerate, List.map_cons]
    exact congrArg (_ :: ·) ih

theorem creates_succ_iff {first : ℕ} :
    Creates (start :: starts) (first + 1) creator ↔
      start.written = none ∧ Creates starts first creator := by
  unfold Creates
  rw [List.getElem?_cons_succ]
  constructor
  · rintro ⟨hcreator, hwritten, hearlier⟩
    refine ⟨hearlier 0 (Nat.succ_pos first) start rfl, hcreator, hwritten, fun earlier hlt ↦ ?_⟩
    simpa using hearlier (earlier + 1) (Nat.succ_lt_succ hlt)
  · rintro ⟨hnone, hcreator, hwritten, hearlier⟩
    refine ⟨hcreator, hwritten, fun earlier hlt other hother ↦ ?_⟩
    cases earlier with
    | zero => rwa [← Option.some.inj hother]
    | succ earlier =>
      exact hearlier earlier (Nat.lt_of_succ_lt_succ hlt) other (by simpa using hother)

theorem creates_zero_iff :
    Creates (start :: starts) 0 creator ↔ start = creator ∧ start.written ≠ none := by
  unfold Creates
  rw [List.getElem?_cons_zero, Option.some.injEq]
  constructor
  · rintro ⟨rfl, hwritten, -⟩
    exact ⟨rfl, hwritten⟩
  · rintro ⟨rfl, hwritten⟩
    exact ⟨rfl, hwritten, fun earlier hlt ↦ absurd hlt (Nat.not_lt_zero earlier)⟩

theorem hasKey_zero_iff :
    HasKey (start :: starts) 0 key ↔ start.write = .complete ∧ start.fresh = key := by
  constructor
  · rintro ⟨first, creator, hcreates, hkey, ⟨rfl, hcomplete⟩ | ⟨hlt, -⟩⟩
    · obtain ⟨rfl, -⟩ := creates_zero_iff.mp hcreates
      exact ⟨hcomplete, hkey⟩
    · exact absurd hlt (Nat.not_lt_zero first)
  · rintro ⟨hcomplete, hkey⟩
    have hwritten : start.written ≠ none := by simp [KeyStart.written, hcomplete]
    exact ⟨0, start, creates_zero_iff.mpr ⟨rfl, hwritten⟩, hkey, Or.inl ⟨rfl, hcomplete⟩⟩

/-- A start that creates no file is one that has not been. -/
theorem hasKey_succ_iff_of_none (hwritten : start.written = none) {index : ℕ} :
    HasKey (start :: starts) (index + 1) key ↔ HasKey starts index key := by
  constructor
  · rintro ⟨first, creator, hcreates, hkey, hhas⟩
    cases first with
    | zero => exact absurd hwritten (creates_zero_iff.mp hcreates).2
    | succ first =>
      rw [Nat.succ_inj, Nat.succ_lt_succ_iff, List.getElem?_cons_succ] at hhas
      exact ⟨first, creator, (creates_succ_iff.mp hcreates).2, hkey, hhas⟩
  · rintro ⟨first, creator, hcreates, hkey, hhas⟩
    refine ⟨first + 1, creator, creates_succ_iff.mpr ⟨hwritten, hcreates⟩, hkey, ?_⟩
    rwa [Nat.succ_inj, Nat.succ_lt_succ_iff, List.getElem?_cons_succ]

/-- After a start that creates the file, its key is the only one. -/
theorem hasKey_succ_iff_of_some {written : ℕ} (hwritten : start.written = some written)
    {index : ℕ} :
    HasKey (start :: starts) (index + 1) key ↔ start.fresh = key ∧ 64 ≤ written ∧
      ∃ other, starts[index]? = some other ∧ other.readable := by
  constructor
  · rintro ⟨first, creator, hcreates, hkey, hhas⟩
    cases first with
    | zero =>
      obtain ⟨rfl, -⟩ := creates_zero_iff.mp hcreates
      rcases hhas with ⟨heq, -⟩ | ⟨-, ⟨count, hcount, hle⟩, hreadable⟩
      · cases heq
      · obtain rfl := Option.some.inj (hwritten.symm.trans hcount)
        exact ⟨hkey, hle, hreadable⟩
    | succ first =>
      rw [(creates_succ_iff.mp hcreates).1] at hwritten
      cases hwritten
  · rintro ⟨hkey, hle, hreadable⟩
    have hnew : start.written ≠ none := by simp [hwritten]
    exact ⟨0, start, creates_zero_iff.mpr ⟨rfl, hnew⟩, hkey,
      Or.inr ⟨Nat.succ_pos index, ⟨written, hwritten, hle⟩, hreadable⟩⟩

/-- Which starts have a key, and which one. -/
theorem results_eq_ok_iff [Hex] (hhex : Hex.Lawful) [Secp256k1 SecretKey]
    (hkeys : Secp256k1.Lawful SecretKey) (starts : List (KeyStart SecretKey)) (index : ℕ)
    (key : SecretKey) :
    (results none starts)[index]? = some (.ok key) ↔ HasKey starts index key := by
  induction starts generalizing index with
  | nil =>
    refine iff_of_false (by simp [results]) ?_
    rintro ⟨first, creator, ⟨hcreator, -, -⟩, -, -⟩
    cases hcreator
  | cons start starts ih =>
    by_cases hnone : start.written = none
    · obtain ⟨error, heq⟩ := loadOrGenerate_of_none hnone
      rw [results, heq]
      cases index with
      | zero =>
        rw [hasKey_zero_iff]
        refine iff_of_false (by simp) ?_
        rintro ⟨hcomplete, -⟩
        simp [KeyStart.written, hcomplete] at hnone
      | succ index => rw [hasKey_succ_iff_of_none hnone, ← ih, List.getElem?_cons_succ]
    · obtain ⟨written, hwritten⟩ := Option.ne_none_iff_exists'.mp hnone
      obtain ⟨result, heq, hresult⟩ := loadOrGenerate_of_some hhex hkeys hwritten
      rw [results, heq]
      cases index with
      | zero => rw [hasKey_zero_iff, List.getElem?_cons_zero, Option.some.injEq, hresult]
      | succ index =>
        rw [hasKey_succ_iff_of_some hwritten, List.getElem?_cons_succ, results_some,
          List.getElem?_map]
        constructor
        · intro hok
          obtain ⟨other, hother, hload⟩ := Option.map_eq_some_iff.mp hok
          split_ifs at hload with hreadable
          obtain ⟨hle, hkey⟩ := (load_fileOf_eq_ok_iff hhex hkeys _ _ _).mp hload
          exact ⟨hkey, hle, other, hother, hreadable⟩
        · rintro ⟨hkey, hle, other, hother, hreadable⟩
          rw [hother, Option.map_some, if_pos hreadable,
            (load_fileOf_eq_ok_iff hhex hkeys _ _ _).mpr ⟨hle, hkey⟩]

theorem Creates.unique {first other : ℕ} {otherCreator : KeyStart SecretKey}
    (hfirst : Creates starts first creator) (hother : Creates starts other otherCreator) :
    creator = otherCreator := by
  obtain ⟨hcreator, hwritten, hearlier⟩ := hfirst
  obtain ⟨hotherCreator, hotherWritten, hotherEarlier⟩ := hother
  rcases Nat.lt_trichotomy first other with hlt | rfl | hgt
  · exact absurd (hotherEarlier first hlt creator hcreator) hwritten
  · exact Option.some.inj (hcreator.symm.trans hotherCreator)
  · exact absurd (hearlier other hgt otherCreator hotherCreator) hotherWritten

/-- The identity of the node. For every run of starts without a key file, whatever each of them can
read and write and wherever it is stopped: which starts have a key and which one, so that no two of
them have different keys. -/
theorem identity_of_starts [Hex] (hhex : Hex.Lawful) [Secp256k1 SecretKey]
    (hkeys : Secp256k1.Lawful SecretKey) (starts : List (KeyStart SecretKey)) :
    (∀ index key, (results none starts)[index]? = some (.ok key) ↔ HasKey starts index key) ∧
      ∀ key other, .ok key ∈ results none starts → .ok other ∈ results none starts →
        key = other := by
  refine ⟨results_eq_ok_iff hhex hkeys starts, fun key other hkey hother ↦ ?_⟩
  obtain ⟨index, hindex⟩ := List.mem_iff_getElem?.mp hkey
  obtain ⟨otherIndex, hotherIndex⟩ := List.mem_iff_getElem?.mp hother
  obtain ⟨first, creator, hcreates, rfl, -⟩ :=
    (results_eq_ok_iff hhex hkeys starts index key).mp hindex
  obtain ⟨otherFirst, otherCreator, hotherCreates, rfl, -⟩ :=
    (results_eq_ok_iff hhex hkeys starts otherIndex other).mp hotherIndex
  rw [hcreates.unique hotherCreates]

/-- Three starts: the first cannot make the directory, the second writes its key, and the third,
which could generate another key, reads it. -/
theorem identity_of_starts_of_three :
    let _ : Hex := .lower
    let _ : Secp256k1 B256 := .anyBytes
    let starts : List (KeyStart B256) :=
      [⟨true, .repeatByte 1, .noDirectory⟩, ⟨true, .repeatByte 2, .complete⟩,
        ⟨true, .repeatByte 3, .complete⟩]
    (∀ index key, (results none starts)[index]? = some (.ok key) ↔ HasKey starts index key) ∧
      ∀ key other, .ok key ∈ results none starts → .ok other ∈ results none starts →
        key = other := by
  intro hex keys starts
  exact identity_of_starts Hex.lawful_lower Secp256k1.lawful_anyBytes starts

end SentryNode
