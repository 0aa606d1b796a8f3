import RedisServer.ServerState
import RedisServer.StreamReaders

/-!
# The RDB parser

A frame is opened for every call and for every round of the loop over the entries, and
what its uninitialized locals hold is arbitrary. The `indicator` of `parse` is one
variable for all rounds of its loop.
-/

namespace RedisServer.RdbParser
open ByteStrings FileStreams StreamReaders ServerState

/-- What the uninitialized locals of a frame hold. -/
structure Locals where
  header : Vector UInt8 9
  indicator : UInt8
  nextByte : UInt8
  valueType : UInt8
  timeMillisec : UInt64
  timeSec : UInt32
  lengthByte : UInt8
  int8Val : UInt8
  int16Val : UInt16
  int32Val : UInt32
  next4Bytes : UInt64
  deriving Inhabited

/-- `DatabaseHandler::set`. -/
def DatabaseHandler.set (key value : Bytes) (expiryTime : ℤ) (database : Database) : Database :=
  database.insert key ⟨value, expiryTime⟩

/-- The conversion of a `uint64_t` to a `long`. -/
def toLong (value : ℕ) : ℤ := (value : ℤ).bmod (2 ^ 64)

variable (locals : ℕ → Locals)

def readIntegerEncodedString (encodingType : UInt8) : Reader Database Bytes := do
  let l ← Reader.frame locals
  if encodingType &&& 0xFF = 0xC0 then do
    let int8Val ← Reader.readByte l.int8Val
    pure (toDecimal int8Val.toNat)
  else if encodingType &&& 0xFF = 0xC1 then do
    let int16Val ← Reader.readWord (toLittleEndian 2 l.int16Val.toNat)
    pure (toDecimal int16Val)
  else if encodingType &&& 0xFF = 0xC2 then do
    let int32Val ← Reader.readWord (toLittleEndian 4 l.int32Val.toNat)
    pure (toDecimal int32Val)
  else pure []

def readEncodedString (encodingType : UInt8) : Reader Database Bytes :=
  if encodingType ^^^ 0xC0 = 0 then readIntegerEncodedString locals encodingType
  else if encodingType ^^^ 0xC0 = 1 then readIntegerEncodedString locals encodingType
  else if encodingType ^^^ 0xC0 = 2 then readIntegerEncodedString locals encodingType
  else pure []

def readLengthPrefixedString : Reader Database Bytes := do
  let l ← Reader.frame locals
  let lengthByte ← Reader.readByte l.lengthByte
  if lengthByte &&& 0xC0 = 0xC0 then readEncodedString locals lengthByte
  else Reader.read lengthByte.toNat (List.replicate lengthByte.toNat 0)

def readStringKeyValue : Reader Database (Bytes × Bytes) := do
  let key ← readLengthPrefixedString locals
  let value ← readLengthPrefixedString locals
  pure (key, value)

def readSizeEncoded (sizeEncoding : UInt8) : Reader Database ℕ := do
  let l ← Reader.frame locals
  if sizeEncoding &&& 0xC0 = 0x0 then pure sizeEncoding.toNat
  else if sizeEncoding &&& 0xC0 = 0x40 then do
    let nextByte ← Reader.readByte l.nextByte
    pure (sizeEncoding.toNat <<< 8 ||| nextByte.toNat)
  else if sizeEncoding &&& 0xC0 = 0x80 then
    Reader.readWord (toLittleEndian 8 l.next4Bytes.toNat)
  else pure 0

def readHeader : Reader Database Bool := do
  let l ← Reader.frame locals
  let header ← Reader.read 9 l.header.toList
  pure (decide (header.take 5 = str "REDIS"))

def readMetaData : Reader Database Bool := do
  let attributeName ← readLengthPrefixedString locals
  let value ← readLengthPrefixedString locals
  pure (decide (¬ (attributeName = [] ∨ value = [])))

/-- What the three branches of the loop over the entries do with an entry whose type
and expiry have been read. -/
def readTypedEntry (valueType : UInt8) (expiryTime : ℤ) : Reader Database Bool :=
  if valueType = 0x0 then do
    let keyValuePair ← readStringKeyValue locals
    Reader.update (DatabaseHandler.set keyValuePair.1 keyValuePair.2 expiryTime)
    pure true
  else pure false

/-- One round of the loop over the entries, with the values it leaves in `next_byte` and
`value_type`. -/
def readEntry (nextByte valueType : UInt8) : Reader Database (Bool × UInt8 × UInt8) := do
  let l ← Reader.frame locals
  let nextByte ← Reader.readByte nextByte
  if nextByte = 0xFC then do
    let timeMillisec ← Reader.readWord (toLittleEndian 8 l.timeMillisec.toNat)
    let valueType ← Reader.readByte valueType
    let stored ← readTypedEntry locals valueType (toLong timeMillisec)
    pure (stored, nextByte, valueType)
  else if nextByte = 0xFD then do
    let timeSec ← Reader.readWord (toLittleEndian 4 l.timeSec.toNat)
    let valueType ← Reader.readByte valueType
    -- the product is computed in 32 bits
    let stored ← readTypedEntry locals valueType ((timeSec * 1000 % 2 ^ 32 : ℕ) : ℤ)
    pure (stored, nextByte, valueType)
  else do
    let stored ← readTypedEntry locals nextByte 0
    pure (stored, nextByte, nextByte)

/-- The loop over `n` entries. -/
def readEntries : ℕ → UInt8 → UInt8 → Reader Database Bool
  | 0, _, _ => pure true
  | n + 1, nextByte, valueType => do
    let r ← readEntry locals nextByte valueType
    if r.1 then readEntries n r.2.1 r.2.2 else pure false

def readDatabase : Reader Database Bool := do
  let l ← Reader.frame locals
  let nextByte ← Reader.readByte l.nextByte
  let _databaseIndex ← readSizeEncoded locals nextByte
  let nextByte ← Reader.readByte nextByte
  if nextByte = 0xFB then do
    let nextByte ← Reader.readByte nextByte
    let hashTableSize ← readSizeEncoded locals nextByte
    let nextByte ← Reader.readByte nextByte
    let _expiryHashTableSize ← readSizeEncoded locals nextByte
    -- `hash_table_size` is a `uint8_t`
    readEntries locals (hashTableSize % 2 ^ 8) nextByte l.valueType
  else pure true

/-- The `switch` of `parse`. -/
def readIndicated (indicator : UInt8) : Reader Database Bool :=
  if indicator = 0xFA then readMetaData locals
  else if indicator = 0xFE then readDatabase locals
  else pure true

/-! ### What every reader keeps -/

section Composition

variable {P : ∀ {α : Type}, Reader Database α → Prop} (hP : Composes P)
include hP

theorem composes_readIntegerEncodedString (encodingType : UInt8) :
    P (readIntegerEncodedString locals encodingType) := by
  apply hP.bind (hP.frame locals)
  intro l
  apply Composes.ite
  · exact hP.bind (hP.readByte _) fun _ => hP.pure _
  · apply Composes.ite
    · exact hP.bind (hP.readWord _) fun _ => hP.pure _
    · apply Composes.ite
      · exact hP.bind (hP.readWord _) fun _ => hP.pure _
      · exact hP.pure _

theorem composes_readEncodedString (encodingType : UInt8) :
    P (readEncodedString locals encodingType) := by
  have hinteger := composes_readIntegerEncodedString locals hP encodingType
  apply Composes.ite hinteger
  apply Composes.ite hinteger
  exact Composes.ite hinteger (hP.pure _)

theorem composes_readLengthPrefixedString : P (readLengthPrefixedString locals) := by
  refine hP.bind (hP.frame locals) fun l => hP.bind (hP.readByte _) fun lengthByte => ?_
  exact Composes.ite (composes_readEncodedString locals hP _) (hP.read _ _)

theorem composes_readStringKeyValue : P (readStringKeyValue locals) :=
  hP.bind (composes_readLengthPrefixedString locals hP) fun _ =>
    hP.bind (composes_readLengthPrefixedString locals hP) fun _ => hP.pure _

theorem composes_readSizeEncoded (sizeEncoding : UInt8) :
    P (readSizeEncoded locals sizeEncoding) := by
  apply hP.bind (hP.frame locals)
  intro l
  apply Composes.ite
  · exact hP.pure _
  · apply Composes.ite
    · exact hP.bind (hP.readByte _) fun _ => hP.pure _
    · exact Composes.ite (hP.readWord _) (hP.pure _)

theorem composes_readHeader : P (readHeader locals) :=
  hP.bind (hP.frame locals) fun _ => hP.bind (hP.read _ _) fun _ => hP.pure _

theorem composes_readMetaData : P (readMetaData locals) :=
  hP.bind (composes_readLengthPrefixedString locals hP) fun _ =>
    hP.bind (composes_readLengthPrefixedString locals hP) fun _ => hP.pure _

/-- Only the opcode of a section leads to an entry. -/
theorem composes_readIndicated_of_ne {indicator : UInt8} (h : indicator ≠ 0xFE) :
    P (readIndicated locals indicator) := by
  rw [readIndicated, if_neg h]
  exact Composes.ite (composes_readMetaData locals hP) (hP.pure _)

variable (hset : ∀ key value expiryTime,
  P (Reader.update (DatabaseHandler.set key value expiryTime)))
include hset

theorem composes_readTypedEntry (valueType : UInt8) (expiryTime : ℤ) :
    P (readTypedEntry locals valueType expiryTime) := by
  apply Composes.ite
  · exact hP.bind (composes_readStringKeyValue locals hP) fun _ =>
      hP.bind (hset _ _ _) fun _ => hP.pure _
  · exact hP.pure _

theorem composes_readEntry (nextByte valueType : UInt8) :
    P (readEntry locals nextByte valueType) := by
  refine hP.bind (hP.frame locals) fun l => hP.bind (hP.readByte _) fun nextByte => ?_
  have htyped (valueType valueType' : UInt8) (expiryTime : ℤ) :
      P (readTypedEntry locals valueType expiryTime >>= fun stored =>
        pure (stored, nextByte, valueType')) :=
    hP.bind (composes_readTypedEntry locals hP hset _ _) fun _ => hP.pure _
  apply Composes.ite
  · exact hP.bind (hP.readWord _) fun _ => hP.bind (hP.readByte _) fun _ => htyped _ _ _
  · apply Composes.ite
    · exact hP.bind (hP.readWord _) fun _ => hP.bind (hP.readByte _) fun _ => htyped _ _ _
    · exact htyped _ _ _

theorem composes_readEntries (n : ℕ) (nextByte valueType : UInt8) :
    P (readEntries locals n nextByte valueType) := by
  induction n generalizing nextByte valueType with
  | zero => exact hP.pure _
  | succ n ih =>
    exact hP.bind (composes_readEntry locals hP hset _ _) fun _ =>
      Composes.ite (ih _ _) (hP.pure _)

theorem composes_readDatabase : P (readDatabase locals) := by
  have hsize := composes_readSizeEncoded locals hP
  refine hP.bind (hP.frame locals) fun l => hP.bind (hP.readByte _) fun _ =>
    hP.bind (hsize _) fun _ => hP.bind (hP.readByte _) fun _ => ?_
  apply Composes.ite
  · exact hP.bind (hP.readByte _) fun _ => hP.bind (hsize _) fun _ =>
      hP.bind (hP.readByte _) fun _ => hP.bind (hsize _) fun _ =>
        composes_readEntries locals hP hset _ _ _
  · exact hP.pure _

theorem composes_readIndicated (indicator : UInt8) : P (readIndicated locals indicator) :=
  Composes.ite (composes_readMetaData locals hP)
    (Composes.ite (composes_readDatabase locals hP hset) (hP.pure _))

end Composition

/-- The cursor never moves backwards. -/
theorem advances_readIndicated (indicator : UInt8) : Advances (readIndicated locals indicator) :=
  composes_readIndicated locals Advances.composes (fun _ _ _ => Advances.update _) indicator

/-- The loop of `parse`, entered with the value that `indicator` holds. -/
def parseLoop (indicator : UInt8) (s : ReaderState Database) : Bool × ReaderState Database :=
  if _h : s.file.fail = false then
    let read := Reader.readByte indicator s
    let r := readIndicated locals read.1 read.2
    if r.1 then parseLoop read.1 r.2 else (false, r.2)
  else (true, s)
termination_by s.file.remaining
decreasing_by
  exact (advances_readIndicated locals _ _).trans_lt (Advances.readByte_lt _ _h)

theorem parseLoop_of_fail (indicator : UInt8) {s : ReaderState Database} (h : s.file.fail = true) :
    parseLoop locals indicator s = (true, s) := by
  rw [parseLoop, dif_neg (by simp [h])]

/-- A round of the loop on a stream that is not at its end. -/
theorem parseLoop_cons (indicator b : UInt8) (rest : Bytes) (n : ℕ) (db : Database) :
    parseLoop locals indicator ⟨⟨b :: rest, false⟩, n, db⟩ =
      if (readIndicated locals b ⟨⟨rest, false⟩, n, db⟩).1 then
        parseLoop locals b (readIndicated locals b ⟨⟨rest, false⟩, n, db⟩).2
      else (false, (readIndicated locals b ⟨⟨rest, false⟩, n, db⟩).2) := by
  rw [parseLoop, dif_pos rfl, Reader.readByte_cons]

/-- At the end of the stream the last opcode is looked at once more. -/
theorem parseLoop_end (indicator : UInt8) (n : ℕ) (db : Database) :
    parseLoop locals indicator ⟨⟨[], false⟩, n, db⟩
      = readIndicated locals indicator ⟨⟨[], true⟩, n, db⟩ := by
  have hleft := advances_readIndicated locals indicator ⟨⟨[], true⟩, n, db⟩
  rw [parseLoop, dif_pos rfl, Reader.readByte_end]
  rcases hr : readIndicated locals indicator ⟨⟨[], true⟩, n, db⟩ with ⟨ok, ⟨⟨rest, fail⟩, frames, db'⟩⟩
  rw [hr] at hleft
  cases fail with
  | false => simp [IFStream.remaining] at hleft
  | true =>
    simp only [hr]
    cases ok with
    | false => rfl
    | true => exact parseLoop_of_fail locals indicator rfl

def parse : Reader Database Bool := fun s =>
  if s.file.fail then (false, s)
  else
    let l := Reader.frame locals s
    let header := readHeader locals l.2
    if header.1 then parseLoop locals l.1.indicator header.2 else (false, header.2)

end RedisServer.RdbParser
