import SentryNode.BlockCache
import SentryNode.Library.ByteStream

/-!
# The cache file

The cache is written to disk on shutdown and read back on start-up. The file is a count, four bytes
wide, and that many entries; an entry is a hash and, each with its length in front, the RLP of a
header and of a body. The count and the lengths are cut to 32 bits when they are written. Loading
reads entries until one fails, at most as many as the configured capacity, and inserts each of them.

RLP itself is a parameter (`Rlp`): a function that writes a value and one that reads it. A block is
`Storable` when its two lengths fit the file, and `reads_entryBytes` states that the entry of such a
block is read back as it was written and that no part of it is read as an entry.
-/

set_option autoImplicit false
set_option relaxedAutoImplicit false

namespace SentryNode

open Library

/-- RLP for values of a type: `encode` is what is appended to the buffer, and `decode` reads a value
from a slice; it is none when the slice is not the RLP of one. -/
structure Rlp (A : Type) where
  encode : A → List UInt8
  decode : List UInt8 → Option A

/-- Decoding undoes encoding. -/
def Rlp.Inverts {A : Type} (rlp : Rlp A) : Prop :=
  ∀ value, rlp.decode (rlp.encode value) = some value

/-- A slice that ends inside an encoding is too short to decode. -/
def Rlp.SelfDelimiting {A : Type} (rlp : Rlp A) : Prop :=
  ∀ value, ∀ length < (rlp.encode value).length, rlp.decode ((rlp.encode value).take length) = none

/-- RLP for headers and for bodies. -/
structure BlockRlp (Rest Body : Type) where
  header : Rlp (Header Rest)
  body : Rlp Body

structure BlockRlp.Inverts {Rest Body : Type} (codec : BlockRlp Rest Body) : Prop where
  header : codec.header.Inverts
  body : codec.body.Inverts

structure BlockRlp.SelfDelimiting {Rest Body : Type} (codec : BlockRlp Rest Body) : Prop where
  header : codec.header.SelfDelimiting
  body : codec.body.SelfDelimiting

/-- Why reading fails: the file ends too early, or its bytes are not RLP. -/
inductive FileError
  | unexpectedEof
  | rlp
deriving DecidableEq

variable {Rest Body : Type}

/-! ### Writing -/

/-- A value as RLP, with its length in front. -/
def rlpBytes {A : Type} (rlp : Rlp A) (value : A) : List UInt8 :=
  leBytes 4 (rlp.encode value).length ++ rlp.encode value

/-- An entry: `[hash: 32 bytes] [header_len: u32] [header_rlp] [body_len: u32] [body_rlp]`. -/
def entryBytes (codec : BlockRlp Rest Body) (block : CachedBlock Rest Body) : List UInt8 :=
  block.hash.bytes ++ (rlpBytes codec.header block.header ++ rlpBytes codec.body block.body)

/-- A file of blocks: `[count: u32] [block_entry]*`. -/
def fileBytes (codec : BlockRlp Rest Body) (blocks : List (CachedBlock Rest Body)) : List UInt8 :=
  leBytes 4 blocks.length ++ blocks.flatMap (entryBytes codec)

/-- The file that `save_to_file` writes. -/
def BlockCache.saveToFile (codec : BlockRlp Rest Body) (cache : BlockCache Rest Body) :
    List UInt8 := fileBytes codec cache.drainBlocks

/-! ### Reading -/

/-- `read_exact` on the cache file. -/
def readFile (count : ℕ) : Reader FileError (List UInt8) := readExact .unexpectedEof count

def readHash : Reader FileError B256 := fun file ↦
  if hlength : (file.take 32).length = 32 then .ok (⟨file.take 32, hlength⟩, file.drop 32)
  else .error .unexpectedEof

/-- A length and as many bytes of RLP. -/
def readRlp {A : Type} (rlp : Rlp A) : Reader FileError A := do
  let lenBuf ← readFile 4
  let bytes ← readFile (ofLeBytes lenBuf)
  match rlp.decode bytes with
  | some value => pure value
  | none => throw .rlp

/-- Read a single block entry from the file. -/
def readBlockEntry (codec : BlockRlp Rest Body) : Reader FileError (CachedBlock Rest Body) := do
  let hash ← readHash
  let header ← readRlp codec.header
  let body ← readRlp codec.body
  pure { hash, header, body }

/-- Read at most `loadCount` entries and insert each of them; the first failure stops the load. -/
def BlockCache.loadEntries (codec : BlockRlp Rest Body) (cache : BlockCache Rest Body) :
    ℕ → List UInt8 → BlockCache Rest Body
  | 0, _ => cache
  | loadCount + 1, file =>
    match readBlockEntry codec file with
    | .ok (block, rest) =>
      loadEntries codec (cache.insert block.hash block.header block.body) loadCount rest
    | .error _ => cache

/-- Load the cache from a file; without a file it stays as it is. The count is clamped to the
configured capacity. -/
def BlockCache.loadFromFile (codec : BlockRlp Rest Body) (cache : BlockCache Rest Body) :
    Option (List UInt8) → Except FileError Unit × BlockCache Rest Body
  | none => (.ok (), cache)
  | some file =>
    match readFile 4 file with
    | .error error => (.error error, cache)
    | .ok (countBuf, rest) =>
      let loadCount := min (ofLeBytes countBuf) cache.capacity
      (.ok (), cache.loadEntries codec loadCount rest)

/-- The cache that a start restores. A file that cannot be opened is as good as none. -/
def BlockCache.restored (codec : BlockRlp Rest Body) (cacheFile : Option (List UInt8))
    (capacity : ℕ) : BlockCache Rest Body :=
  ((BlockCache.new capacity).loadFromFile codec cacheFile).2

theorem reads_readFile {count : ℕ} {written : List UInt8} (hwritten : written.length = count) :
    Reads written (readFile count) written := reads_readExact _ hwritten

/-! ### Loading as a list of insertions -/

/-- The cache after the insertion of every block of a list. -/
def BlockCache.insertAll (cache : BlockCache Rest Body) (blocks : List (CachedBlock Rest Body)) :
    BlockCache Rest Body :=
  blocks.foldl (fun cache block ↦ cache.insert block.hash block.header block.body) cache

theorem loadEntries_eq (codec : BlockRlp Rest Body) (cache : BlockCache Rest Body) (loadCount : ℕ)
    (file : List UInt8) : cache.loadEntries codec loadCount file =
      cache.insertAll (readRecords (readBlockEntry codec) loadCount file) := by
  induction loadCount generalizing cache file with
  | zero => rfl
  | succ loadCount ih =>
    cases hread : readBlockEntry codec file with
    | ok pair =>
      rw [BlockCache.loadEntries, hread, readRecords_of_ok hread]
      exact ih _ _
    | error error =>
      rw [BlockCache.loadEntries, hread, readRecords_of_error hread]
      rfl

theorem insertAll_append (cache : BlockCache Rest Body)
    (front back : List (CachedBlock Rest Body)) :
    cache.insertAll (front ++ back) = (cache.insertAll front).insertAll back := List.foldl_append

/-- Whatever the file holds, the restored cache is an empty one with some blocks inserted. -/
theorem exists_restored_eq (codec : BlockRlp Rest Body) (cacheFile : Option (List UInt8))
    (capacity : ℕ) :
    ∃ blocks, BlockCache.restored codec cacheFile capacity =
      (BlockCache.new capacity).insertAll blocks := by
  unfold BlockCache.restored
  cases cacheFile with
  | none => exact ⟨[], rfl⟩
  | some file =>
    rw [BlockCache.loadFromFile]
    cases readFile 4 file with
    | error error => exact ⟨[], rfl⟩
    | ok count => exact ⟨_, loadEntries_eq codec _ _ _⟩

/-- A file that holds a count is loaded from what follows the count. -/
theorem loadFromFile_of_count (codec : BlockRlp Rest Body) (cache : BlockCache Rest Body)
    (count : ℕ) (rest : List UInt8) :
    cache.loadFromFile codec (some (leBytes 4 count ++ rest)) =
      (.ok (), cache.insertAll (readRecords (readBlockEntry codec)
        (min (count % 2 ^ 32) cache.capacity) rest)) := by
  have hcount : readFile 4 (leBytes 4 count ++ rest) = .ok (leBytes 4 count, rest) :=
    (reads_readFile (length_leBytes 4 count)).whole rest
  rw [BlockCache.loadFromFile, hcount]
  dsimp only
  rw [loadEntries_eq, ofLeBytes_leBytes]
  norm_num

/-- A file too short for a count is refused, and the cache stays as it is. -/
theorem loadFromFile_of_short (codec : BlockRlp Rest Body) (cache : BlockCache Rest Body)
    {file : List UInt8} (hfile : file.length < 4) :
    cache.loadFromFile codec (some file) = (.error .unexpectedEof, cache) := by
  have hcount : readFile 4 file = .error .unexpectedEof :=
    if_neg (Nat.not_le_of_lt hfile)
  rw [BlockCache.loadFromFile, hcount]

/-! ### Entries read back -/

/-- A value whose length in RLP fits 32 bits. -/
def Rlp.Fits {A : Type} (rlp : Rlp A) (value : A) : Prop := (rlp.encode value).length < 2 ^ 32

instance {A : Type} (rlp : Rlp A) (value : A) : Decidable (rlp.Fits value) :=
  inferInstanceAs (Decidable (_ < 2 ^ 32))

/-- A block whose lengths fit the file. -/
structure Storable (codec : BlockRlp Rest Body) (block : CachedBlock Rest Body) : Prop where
  header : codec.header.Fits block.header
  body : codec.body.Fits block.body

instance (codec : BlockRlp Rest Body) (block : CachedBlock Rest Body) :
    Decidable (Storable codec block) :=
  decidable_of_iff (codec.header.Fits block.header ∧ codec.body.Fits block.body)
    ⟨fun h ↦ ⟨h.1, h.2⟩, fun h ↦ ⟨h.header, h.body⟩⟩

theorem reads_hash (hash : B256) : Reads hash.bytes readHash hash where
  whole := fun rest ↦ by
    have htake : (hash.bytes ++ rest).take 32 = hash.bytes := List.take_left' hash.length_bytes
    unfold readHash
    simp only [htake, List.drop_left' hash.length_bytes, hash.length_bytes, dite_true]
  cut := fun length hlength ↦ by
    rw [hash.length_bytes] at hlength
    refine ⟨.unexpectedEof, dif_neg ?_⟩
    rw [List.length_take, List.length_take]
    omega

theorem reads_rlp {A : Type} {rlp : Rlp A} (hrlp : rlp.Inverts) {value : A}
    (hfits : rlp.Fits value) : Reads (rlpBytes rlp value) (readRlp rlp) value := by
  refine (reads_readFile (length_leBytes 4 _)).bind ?_
  have hlength : ofLeBytes (leBytes 4 (rlp.encode value).length) = (rlp.encode value).length :=
    ofLeBytes_leBytes_of_lt (by norm_num; exact hfits)
  refine (reads_readFile hlength.symm).bind_pure ?_
  rw [hrlp value]

/-- The entry of a storable block is read back. -/
theorem reads_entryBytes {codec : BlockRlp Rest Body} (hcodec : codec.Inverts)
    {block : CachedBlock Rest Body} (hblock : Storable codec block) :
    Reads (entryBytes codec block) (readBlockEntry codec) block := by
  refine (reads_hash block.hash).bind ((reads_rlp hcodec.header hblock.header).bind ?_)
  exact (reads_rlp hcodec.body hblock.body).bind_pure rfl

/-- At the end of the file there is no entry. -/
theorem readBlockEntry_nil (codec : BlockRlp Rest Body) :
    readBlockEntry codec [] = .error .unexpectedEof := by
  rw [readBlockEntry]
  exact Reader.bind_error rfl

/-! ### Entries that do not fit -/

/-- A value too long for its length field is not read back: what is read of it ends early. -/
theorem readRlp_of_not_fits {A : Type} {rlp : Rlp A} (hrlp : rlp.SelfDelimiting) {value : A}
    (hlong : ¬ rlp.Fits value) (rest : List UInt8) :
    readRlp rlp (rlpBytes rlp value ++ rest) = .error .rlp := by
  unfold Rlp.Fits at hlong
  have hlength : ofLeBytes (leBytes 4 (rlp.encode value).length) < (rlp.encode value).length := by
    rw [ofLeBytes_leBytes]
    exact Nat.lt_of_lt_of_le (Nat.mod_lt _ (by norm_num)) (by norm_num at hlong ⊢; exact hlong)
  have hbytes : readFile (ofLeBytes (leBytes 4 (rlp.encode value).length))
      (rlp.encode value ++ rest) =
      .ok ((rlp.encode value).take (ofLeBytes (leBytes 4 (rlp.encode value).length)),
        (rlp.encode value ++ rest).drop (ofLeBytes (leBytes 4 (rlp.encode value).length))) := by
    rw [← List.take_append_of_le_length (Nat.le_of_lt hlength)]
    exact if_pos (by rw [List.length_append]; omega)
  rw [readRlp, rlpBytes, List.append_assoc,
    Reader.bind_ok ((reads_readFile (length_leBytes 4 _)).whole _), Reader.bind_ok hbytes,
    hrlp value _ hlength]
  rfl

/-- The entry of a block that is not storable is read as an error. -/
theorem readBlockEntry_of_not_storable {codec : BlockRlp Rest Body}
    (hcodec : codec.Inverts) (hself : codec.SelfDelimiting) {block : CachedBlock Rest Body}
    (hblock : ¬ Storable codec block) (rest : List UInt8) :
    readBlockEntry codec (entryBytes codec block ++ rest) = .error .rlp := by
  rw [readBlockEntry, entryBytes, List.append_assoc,
    Reader.bind_ok ((reads_hash block.hash).whole _), List.append_assoc]
  by_cases hfits : codec.header.Fits block.header
  · rw [Reader.bind_ok ((reads_rlp hcodec.header hfits).whole _),
      Reader.bind_error (readRlp_of_not_fits hself.body (fun h ↦ hblock ⟨hfits, h⟩) rest)]
  · rw [Reader.bind_error (readRlp_of_not_fits hself.header hfits _)]

/-! ### What a cut leaves -/

theorem local_readHash : readHash.Local := by
  intro bytes hash rest hread more
  unfold readHash at hread ⊢
  by_cases hlength : (bytes.take 32).length = 32
  · rw [dif_pos hlength] at hread
    obtain ⟨rfl, rfl⟩ := Prod.mk.inj (Except.ok.inj hread)
    have hfits : 32 ≤ bytes.length := by
      rw [List.length_take] at hlength
      omega
    simp only [List.take_append_of_le_length hfits, List.drop_append_of_le_length hfits, hlength,
      dite_true]
  · rw [dif_neg hlength] at hread
    cases hread

theorem local_readRlp {A : Type} (rlp : Rlp A) : (readRlp rlp).Local := by
  refine (local_readExact _ 4).bind fun lenBuf ↦ (local_readExact _ _).bind fun bytes ↦ ?_
  cases rlp.decode bytes with
  | some value => exact Reader.local_pure value
  | none => exact Reader.local_throw FileError.rlp

theorem local_readBlockEntry (codec : BlockRlp Rest Body) : (readBlockEntry codec).Local :=
  local_readHash.bind fun _ ↦ (local_readRlp codec.header).bind fun _ ↦
    (local_readRlp codec.body).bind fun _ ↦ Reader.local_pure _

/-- An entry is read back as its block, or refused. -/
theorem readsOrFails_entryBytes {codec : BlockRlp Rest Body} (hcodec : codec.Inverts)
    (hself : codec.SelfDelimiting) (block : CachedBlock Rest Body) :
    ReadsOrFails (entryBytes codec block) (readBlockEntry codec) block := by
  intro rest
  by_cases hblock : Storable codec block
  · exact Or.inl ((reads_entryBytes hcodec hblock).whole rest)
  · exact Or.inr ⟨_, readBlockEntry_of_not_storable hcodec hself hblock rest⟩

/-- Whatever part of a cache file is left, the first of its blocks are loaded, and nothing else. -/
theorem exists_prefix_loadFromFile {codec : BlockRlp Rest Body} (hcodec : codec.Inverts)
    (hself : codec.SelfDelimiting) (cache : BlockCache Rest Body)
    (blocks : List (CachedBlock Rest Body)) (length : ℕ) :
    ∃ loaded, loaded <+: blocks ∧
      (cache.loadFromFile codec (some ((fileBytes codec blocks).take length))).2 =
        cache.insertAll loaded := by
  by_cases hlength : length < 4
  · refine ⟨[], List.nil_prefix, ?_⟩
    rw [loadFromFile_of_short codec cache
      (Nat.lt_of_le_of_lt (List.length_take_le _ _) hlength)]
    rfl
  · have hcount : (leBytes 4 blocks.length).length ≤ length := by
      rw [length_leBytes]
      exact Nat.le_of_not_lt hlength
    rw [fileBytes, List.take_append, List.take_of_length_le hcount, loadFromFile_of_count]
    exact ⟨_, readRecords_prefix (local_readBlockEntry codec) ⟨_, readBlockEntry_nil codec⟩
      (fun block _ ↦ readsOrFails_entryBytes hcodec hself block) (List.take_prefix _ _) _, rfl⟩

/-! ### A codec of fixed width -/

/-- The codec of a writer and a reader. -/
def Rlp.ofReader {A : Type} (write : A → List UInt8) (read : Reader FileError A) : Rlp A where
  encode := write
  decode bytes :=
    match read bytes with
    | .ok (value, _) => some value
    | .error _ => none

theorem Rlp.inverts_ofReader {A : Type} {write : A → List UInt8} {read : Reader FileError A}
    (hreads : ∀ value, Reads (write value) read value) : (Rlp.ofReader write read).Inverts := by
  intro value
  have hwhole := (hreads value).whole []
  rw [List.append_nil] at hwhole
  simp only [ofReader, hwhole]

theorem Rlp.selfDelimiting_ofReader {A : Type} {write : A → List UInt8}
    {read : Reader FileError A} (hreads : ∀ value, Reads (write value) read value) :
    (Rlp.ofReader write read).SelfDelimiting := by
  intro value length hlength
  obtain ⟨error, hcut⟩ := (hreads value).cut length hlength
  simp only [ofReader] at hcut ⊢
  rw [hcut]

/-- Headers as their three fields, in 48 bytes, and bodies of one byte. -/
def fixedRlp : BlockRlp Unit UInt8 where
  header := .ofReader
    (fun header ↦ header.parentHash.bytes ++
      (leBytes 8 header.number.toNat ++ leBytes 8 header.timestamp.toNat))
    (do
      let parentHash ← readHash
      let number ← readFile 8
      let timestamp ← readFile 8
      pure ⟨parentHash, .ofNat (ofLeBytes number), .ofNat (ofLeBytes timestamp), ()⟩)
  body := .ofReader (fun body ↦ [body]) (do
    let bytes ← readFile 1
    pure (bytes.headD 0))

theorem reads_u64 (number : UInt64) :
    Reads (leBytes 8 number.toNat) (readFile 8) (leBytes 8 number.toNat) ∧
      UInt64.ofNat (ofLeBytes (leBytes 8 number.toNat)) = number := by
  refine ⟨reads_readFile (length_leBytes 8 _), ?_⟩
  rw [ofLeBytes_leBytes_of_lt (Nat.lt_of_lt_of_le number.toNat_lt (by norm_num)),
    UInt64.ofNat_toNat]

theorem reads_fixedRlp_header (header : Header Unit) :
    Reads (fixedRlp.header.encode header) (do
      let parentHash ← readHash
      let number ← readFile 8
      let timestamp ← readFile 8
      pure ⟨parentHash, .ofNat (ofLeBytes number), .ofNat (ofLeBytes timestamp), ()⟩) header := by
  obtain ⟨hnumber, hnumberEq⟩ := reads_u64 header.number
  obtain ⟨htimestamp, htimestampEq⟩ := reads_u64 header.timestamp
  refine (reads_hash header.parentHash).bind (hnumber.bind (htimestamp.bind_pure ?_))
  rw [hnumberEq, htimestampEq]

theorem reads_fixedRlp_body (body : UInt8) :
    Reads (fixedRlp.body.encode body) (do
      let bytes ← readFile 1
      pure (bytes.headD 0)) body :=
  (reads_readFile List.length_singleton).bind_pure rfl

theorem fixedRlp_inverts : fixedRlp.Inverts where
  header := Rlp.inverts_ofReader reads_fixedRlp_header
  body := Rlp.inverts_ofReader reads_fixedRlp_body

theorem fixedRlp_selfDelimiting : fixedRlp.SelfDelimiting where
  header := Rlp.selfDelimiting_ofReader reads_fixedRlp_header
  body := Rlp.selfDelimiting_ofReader reads_fixedRlp_body

/-- Every block fits. -/
theorem storable_fixedRlp (block : CachedBlock Unit UInt8) : Storable fixedRlp block where
  header := by
    have hlength : (fixedRlp.header.encode block.header).length = 48 := by
      simp [fixedRlp, Rlp.ofReader, block.header.parentHash.length_bytes]
    unfold Rlp.Fits
    omega
  body := by
    show 1 < 2 ^ 32
    omega

end SentryNode
