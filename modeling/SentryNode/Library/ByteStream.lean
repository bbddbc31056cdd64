import Mathlib.Data.List.Basic
import Mathlib.Data.Nat.Notation
import Mathlib.Tactic.Ring

/-!
# Records in a stream of bytes

Numbers of a fixed width, least significant byte first (`leBytes`, `ofLeBytes`), and readers of a
stream that is a list of bytes (`Reader`): `readExact` takes a number of bytes off the front or
fails, and `readRecords` takes records off the front until one fails.

A reader reads a value back (`Reads`) when it takes it from the bytes written for it, whatever
follows them, and fails when they are cut short. `Reads.bind` composes such readers field by field.
Records that are read back come back from a stream cut at any place up to the cut:
`readRecords_take` gives the records that lie whole within the part that is left. A reader that
looks at no more than it takes (`Reader.Local`) cannot be misled by a cut, even where a record may
be refused: what is read of the part that is left are the first of the records that were written
(`readRecords_prefix`).
-/

set_option autoImplicit false
set_option relaxedAutoImplicit false

namespace SentryNode.Library

/-! ### Numbers -/

/-- The number in `width` bytes, least significant first; what does not fit is dropped. -/
def leBytes : ℕ → ℕ → List UInt8
  | 0, _ => []
  | width + 1, number => .ofNat (number % 256) :: leBytes width (number / 256)

/-- The number that some bytes are, least significant first. -/
def ofLeBytes : List UInt8 → ℕ
  | [] => 0
  | byte :: bytes => byte.toNat + 256 * ofLeBytes bytes

@[simp] theorem length_leBytes (width number : ℕ) : (leBytes width number).length = width := by
  induction width generalizing number with
  | zero => rfl
  | succ width ih => rw [leBytes, List.length_cons, ih]

theorem ofLeBytes_leBytes (width number : ℕ) :
    ofLeBytes (leBytes width number) = number % 256 ^ width := by
  induction width generalizing number with
  | zero => rw [leBytes, ofLeBytes, pow_zero, Nat.mod_one]
  | succ width ih =>
    have hbyte : (UInt8.ofNat (number % 256)).toNat = number % 256 :=
      UInt8.toNat_ofNat_of_lt' (Nat.mod_lt _ (by decide))
    rw [leBytes, ofLeBytes, ih, hbyte, pow_succ', Nat.mod_mul]

theorem ofLeBytes_leBytes_of_lt {width number : ℕ} (hnumber : number < 256 ^ width) :
    ofLeBytes (leBytes width number) = number := by
  rw [ofLeBytes_leBytes, Nat.mod_eq_of_lt hnumber]

/-! ### Readers -/

/-- A reader takes a value off the front of a stream of bytes, or fails. -/
abbrev Reader (ε A : Type) := StateT (List UInt8) (Except ε) A

variable {ε A B : Type}

theorem Reader.bind_ok {read : Reader ε A} {next : A → Reader ε B} {bytes rest : List UInt8}
    {value : A} (hread : read bytes = .ok (value, rest)) :
    (read >>= next) bytes = next value rest := by
  show (read bytes >>= fun pair ↦ next pair.1 pair.2) = _
  rw [hread]
  rfl

theorem Reader.bind_error {read : Reader ε A} {next : A → Reader ε B} {bytes : List UInt8}
    {error : ε} (hread : read bytes = .error error) : (read >>= next) bytes = .error error := by
  show (read bytes >>= fun pair ↦ next pair.1 pair.2) = _
  rw [hread]
  rfl

/-- Take `count` bytes off the front; fail when there are fewer. -/
def readExact (error : ε) (count : ℕ) : Reader ε (List UInt8) := fun bytes ↦
  if count ≤ bytes.length then .ok (bytes.take count, bytes.drop count) else .error error

/-- The records read off the front of a stream, at most `count` of them, up to the first failure. -/
def readRecords (read : Reader ε A) : ℕ → List UInt8 → List A
  | 0, _ => []
  | count + 1, bytes =>
    match read bytes with
    | .ok (record, rest) => record :: readRecords read count rest
    | .error _ => []

theorem readRecords_of_ok {read : Reader ε A} {bytes rest : List UInt8} {record : A}
    (hread : read bytes = .ok (record, rest)) (count : ℕ) :
    readRecords read (count + 1) bytes = record :: readRecords read count rest := by
  rw [readRecords, hread]

theorem readRecords_of_error {read : Reader ε A} {bytes : List UInt8} {error : ε}
    (hread : read bytes = .error error) (count : ℕ) : readRecords read count bytes = [] := by
  cases count with
  | zero => rfl
  | succ count => rw [readRecords, hread]

/-! ### Reading back what was written -/

/-- The reader takes a value back from the bytes written for it, whatever follows them, and fails
when they are cut short. -/
structure Reads (written : List UInt8) (read : Reader ε A) (value : A) : Prop where
  whole : ∀ rest, read (written ++ rest) = .ok (value, rest)
  cut : ∀ length < written.length, ∃ error, read (written.take length) = .error error

theorem reads_pure (value : A) : Reads [] (pure value : Reader ε A) value where
  whole := fun _ ↦ rfl
  cut := fun _ hlength ↦ absurd hlength (Nat.not_lt_zero _)

theorem reads_readExact (error : ε) {count : ℕ} {written : List UInt8}
    (hwritten : written.length = count) : Reads written (readExact error count) written where
  whole := fun rest ↦ by
    unfold readExact
    rw [if_pos (by simp [hwritten]), List.take_left' hwritten, List.drop_left' hwritten]
  cut := fun length hlength ↦ by
    unfold readExact
    rw [if_neg (by rw [List.length_take]; omega)]
    exact ⟨error, rfl⟩

/-- What is written one after the other is read one after the other. -/
theorem Reads.bind {first second : List UInt8} {read : Reader ε A} {next : A → Reader ε B}
    {value : A} {result : B} (hread : Reads first read value)
    (hnext : Reads second (next value) result) :
    Reads (first ++ second) (read >>= next) result where
  whole := fun rest ↦ by
    rw [List.append_assoc, Reader.bind_ok (hread.whole _)]
    exact hnext.whole rest
  cut := fun length hlength ↦ by
    rw [List.take_append]
    by_cases hfirst : length < first.length
    · obtain ⟨error, hcut⟩ := hread.cut length hfirst
      rw [Nat.sub_eq_zero_of_le (Nat.le_of_lt hfirst), List.take_zero, List.append_nil]
      exact ⟨error, Reader.bind_error hcut⟩
    · rw [List.take_of_length_le (Nat.le_of_not_lt hfirst), Reader.bind_ok (hread.whole _)]
      rw [List.length_append] at hlength
      exact hnext.cut _ (by omega)

/-- A value read last may be turned into a result, from which nothing more is read. -/
theorem Reads.bind_pure {written : List UInt8} {read : Reader ε A} {next : A → Reader ε B}
    {value : A} {result : B} (hread : Reads written read value)
    (hnext : next value = pure result) : Reads written (read >>= next) result := by
  rw [← List.append_nil written]
  refine hread.bind ?_
  rw [hnext]
  exact reads_pure result

/-- Every record of a list is read back. -/
def ReadsBack (write : A → List UInt8) (read : Reader ε A) (records : List A) : Prop :=
  ∀ record ∈ records, Reads (write record) read record

/-- The records that lie whole within the first `length` bytes of what is written of a list. -/
def wholeWithin (write : A → List UInt8) : ℕ → List A → List A
  | _, [] => []
  | length, record :: records =>
    if (write record).length ≤ length then
      record :: wholeWithin write (length - (write record).length) records
    else []

/-- Which records lie whole within a cut: those that end before it. -/
theorem mem_wholeWithin_iff {write : A → List UInt8} {length : ℕ} {records : List A} {record : A} :
    record ∈ wholeWithin write length records ↔
      ∃ before after, records = before ++ record :: after ∧
        (before.flatMap write).length + (write record).length ≤ length := by
  induction records generalizing length with
  | nil => simp [wholeWithin]
  | cons first records ih =>
    by_cases hfirst : (write first).length ≤ length
    · rw [wholeWithin, if_pos hfirst, List.mem_cons, ih]
      constructor
      · rintro (rfl | ⟨before, after, rfl, hends⟩)
        · exact ⟨[], records, rfl, by simpa using hfirst⟩
        · refine ⟨first :: before, after, rfl, ?_⟩
          rw [List.flatMap_cons, List.length_append]
          omega
      · rintro ⟨before, after, heq, hends⟩
        rcases List.cons_eq_append_iff.mp heq with ⟨rfl, hrecord⟩ | ⟨front, rfl, rfl⟩
        · exact Or.inl (List.cons.inj hrecord).1
        · rw [List.flatMap_cons, List.length_append] at hends
          exact Or.inr ⟨front, after, rfl, by omega⟩
    · rw [wholeWithin, if_neg hfirst]
      refine iff_of_false List.not_mem_nil ?_
      rintro ⟨before, after, heq, hends⟩
      rcases List.cons_eq_append_iff.mp heq with ⟨rfl, hrecord⟩ | ⟨front, rfl, -⟩
      · obtain ⟨rfl, -⟩ := List.cons.inj hrecord
        exact hfirst (Nat.le_trans (Nat.le_add_left _ _) hends)
      · rw [List.flatMap_cons, List.length_append] at hends
        omega

theorem wholeWithin_sublist (write : A → List UInt8) (length : ℕ) (records : List A) :
    (wholeWithin write length records).Sublist records := by
  induction records generalizing length with
  | nil => exact List.Sublist.refl _
  | cons record records ih =>
    unfold wholeWithin
    split_ifs
    · exact (ih _).cons_cons record
    · exact List.nil_sublist _

/-- The records written in front of something unreadable are read back, and nothing else. -/
theorem readRecords_append {write : A → List UInt8} {read : Reader ε A} {records : List A}
    (hreads : ReadsBack write read records) {rest : List UInt8}
    (hrest : ∃ error, read rest = .error error) (count : ℕ) :
    readRecords read count (records.flatMap write ++ rest) = records.take count := by
  induction records generalizing count with
  | nil =>
    obtain ⟨error, hread⟩ := hrest
    rw [List.flatMap_nil, List.nil_append, readRecords_of_error hread, List.take_nil]
  | cons record records ih =>
    cases count with
    | zero => rfl
    | succ count =>
      obtain ⟨hrecord, hrecords⟩ := List.forall_mem_cons.mp hreads
      rw [List.flatMap_cons, List.append_assoc, readRecords_of_ok (hrecord.whole _), ih hrecords,
        List.take_succ_cons]

/-- A cut leaves the records before it and a part that cannot be read. -/
theorem exists_take_flatMap_eq {write : A → List UInt8} {read : Reader ε A} {records : List A}
    (hreads : ReadsBack write read records) (hempty : ∃ error, read [] = .error error)
    (length : ℕ) :
    ∃ part, (records.flatMap write).take length =
        (wholeWithin write length records).flatMap write ++ part ∧
      ∃ error, read part = .error error := by
  induction records generalizing length with
  | nil => exact ⟨[], List.take_nil, hempty⟩
  | cons record records ih =>
    obtain ⟨hrecord, hrecords⟩ := List.forall_mem_cons.mp hreads
    rw [List.flatMap_cons, List.take_append, wholeWithin]
    by_cases hwhole : (write record).length ≤ length
    · obtain ⟨part, htake, hpart⟩ := ih hrecords (length - (write record).length)
      refine ⟨part, ?_, hpart⟩
      rw [if_pos hwhole, List.take_of_length_le hwhole, htake, List.flatMap_cons,
        List.append_assoc]
    · refine ⟨(write record).take length, ?_, hrecord.cut length (Nat.lt_of_not_le hwhole)⟩
      rw [if_neg hwhole, Nat.sub_eq_zero_of_le (Nat.le_of_not_le hwhole), List.take_zero,
        List.append_nil, List.flatMap_nil, List.nil_append]

/-- A stream cut at any place is read back up to the cut. -/
theorem readRecords_take {write : A → List UInt8} {read : Reader ε A} {records : List A}
    (hreads : ReadsBack write read records)
    (hempty : ∃ error, read [] = .error error) (count length : ℕ) :
    readRecords read count ((records.flatMap write).take length) =
      (wholeWithin write length records).take count := by
  obtain ⟨part, htake, hpart⟩ := exists_take_flatMap_eq hreads hempty length
  rw [htake]
  exact readRecords_append (fun record hrecord ↦
    hreads record ((wholeWithin_sublist write length records).subset hrecord)) hpart count

/-! ### Readers that look at what they take -/

/-- What the reader takes off the front of a stream, it takes whatever follows. -/
def Reader.Local (read : Reader ε A) : Prop :=
  ∀ bytes value rest, read bytes = .ok (value, rest) →
    ∀ more, read (bytes ++ more) = .ok (value, rest ++ more)

theorem Reader.local_pure (value : A) : Reader.Local (pure value : Reader ε A) := by
  rintro bytes _ _ ⟨⟩ more
  rfl

theorem Reader.local_throw (error : ε) : Reader.Local (throw error : Reader ε A) := by
  intro bytes value rest hread
  cases hread

theorem Reader.Local.bind {read : Reader ε A} {next : A → Reader ε B} (hread : read.Local)
    (hnext : ∀ value, (next value).Local) : (read >>= next).Local := by
  intro bytes result rest hresult more
  cases hfirst : read bytes with
  | ok pair =>
    obtain ⟨value, left⟩ := pair
    rw [Reader.bind_ok hfirst] at hresult
    rw [Reader.bind_ok (hread bytes value left hfirst more)]
    exact hnext value left result rest hresult more
  | error error =>
    rw [Reader.bind_error hfirst] at hresult
    cases hresult

theorem local_readExact (error : ε) (count : ℕ) : (readExact error count).Local := by
  intro bytes value rest hread more
  unfold readExact at hread ⊢
  by_cases hcount : count ≤ bytes.length
  · rw [if_pos hcount] at hread
    obtain ⟨rfl, rfl⟩ := Prod.mk.inj (Except.ok.inj hread)
    have hmore : count ≤ (bytes ++ more).length := by
      rw [List.length_append]
      exact Nat.le_add_right_of_le hcount
    rw [if_pos hmore, List.take_append_of_le_length hcount, List.drop_append_of_le_length hcount]
  · rw [if_neg hcount] at hread
    cases hread

/-- A record is read back from what is written of it, or refused, whatever follows. -/
def ReadsOrFails (written : List UInt8) (read : Reader ε A) (record : A) : Prop :=
  ∀ rest, read (written ++ rest) = .ok (record, rest) ∨
    ∃ error, read (written ++ rest) = .error error

/-- Whatever part of the stream is left, and however many records are asked for, what is read are
the first of the records written. -/
theorem readRecords_prefix {write : A → List UInt8} {read : Reader ε A} (hlocal : read.Local)
    (hempty : ∃ error, read [] = .error error) {records : List A}
    (hreads : ∀ record ∈ records, ReadsOrFails (write record) read record) {part : List UInt8}
    (hpart : part <+: records.flatMap write) (count : ℕ) :
    readRecords read count part <+: records := by
  induction records generalizing part count with
  | nil =>
    obtain ⟨error, hread⟩ := hempty
    rw [List.flatMap_nil, List.prefix_nil] at hpart
    simp only [hpart, readRecords_of_error hread, List.nil_prefix]
  | cons record records ih =>
    cases count with
    | zero => exact List.nil_prefix
    | succ count =>
      cases hread : read part with
      | error error =>
        rw [readRecords_of_error hread]
        exact List.nil_prefix
      | ok pair =>
        obtain ⟨value, left⟩ := pair
        obtain ⟨hrecord, hrecords⟩ := List.forall_mem_cons.mp hreads
        obtain ⟨more, hmore⟩ := hpart
        have hwhole : read (write record ++ records.flatMap write) = .ok (value, left ++ more) := by
          rw [← List.flatMap_cons, ← hmore]
          exact hlocal part value left hread more
        -- The record was not refused, so this is what was written.
        rcases hrecord (records.flatMap write) with hback | ⟨error, hfails⟩
        · rw [hback] at hwhole
          obtain ⟨rfl, hleft⟩ := Prod.mk.inj (Except.ok.inj hwhole)
          rw [readRecords_of_ok hread, List.prefix_cons_inj]
          exact ih hrecords ⟨more, hleft.symm⟩ count
        · rw [hfails] at hwhole
          cases hwhole

end SentryNode.Library
