import RedisServer.OrderedOverwrites
import RedisServer.RdbParser

/-!
# RDB files that are loaded entry by entry

The supported fragment of the RDB format as a grammar, and one lemma for each production
that says which bytes its reader consumes and what it writes.
-/

namespace RedisServer.RdbRoundTrip
open ByteStrings FileStreams OrderedOverwrites RdbParser ServerState StreamReaders

/-- A string with a 6-bit length, or a non-negative integer in 1, 2 or 4 bytes. -/
inductive RdbString : Bytes → Bytes → Prop
  | raw {s : Bytes} (h : s.length < 64) : RdbString s (s.length.toUInt8 :: s)
  | int8 {v : ℕ} (h : v < 2 ^ 8) : RdbString (toDecimal v) (0xC0 :: toLittleEndian 1 v)
  | int16 {v : ℕ} (h : v < 2 ^ 16) : RdbString (toDecimal v) (0xC1 :: toLittleEndian 2 v)
  | int32 {v : ℕ} (h : v < 2 ^ 32) : RdbString (toDecimal v) (0xC2 :: toLittleEndian 4 v)

/-- The 6-bit and the 14-bit form of a size: the first byte and the bytes after it. -/
inductive RdbSize : ℕ → UInt8 → Bytes → Prop
  | six {n : ℕ} (h : n < 64) : RdbSize n n.toUInt8 []
  | fourteen {n : ℕ} (h : n < 2 ^ 14) :
      RdbSize n (0x40 + n / 256).toUInt8 [(n % 256).toUInt8]

/-- Consecutive items of a format. -/
inductive Sequence {α : Type} (R : α → Bytes → Prop) : List α → Bytes → Prop
  | nil : Sequence R [] []
  | cons {a : α} {l : List α} {xs ys : Bytes} :
      R a xs → Sequence R l ys → Sequence R (a :: l) (xs ++ ys)

abbrev Entry := Bytes × DBValue

inductive RdbEntry : Entry → Bytes → Prop
  | plain {key value ks vs : Bytes} : RdbString key ks → RdbString value vs →
      RdbEntry (key, ⟨value, 0⟩) (0x00 :: (ks ++ vs))
  | expiring {key value ks vs : Bytes} (time : ℕ) : time < 2 ^ 63 → RdbString key ks →
      RdbString value vs →
      RdbEntry (key, ⟨value, time⟩) (0xFC :: (toLittleEndian 8 time ++ 0x00 :: (ks ++ vs)))

inductive RdbMetaData : Bytes × Bytes → Bytes → Prop
  | mk {name value ns vs : Bytes} : RdbString name ns → name ≠ [] → RdbString value vs →
      value ≠ [] → RdbMetaData (name, value) (0xFA :: (ns ++ vs))

/-- A database section. Its index and the size of its expiry table are not used. -/
inductive RdbSection : List Entry → Bytes → Prop
  | mk (index : ℕ) {expiries : ℕ} {entries : List Entry} {n e : UInt8} {ns es bytes : Bytes} :
      index < 64 → entries.length ≤ 255 → RdbSize entries.length n ns → RdbSize expiries e es →
      Sequence RdbEntry entries bytes →
      RdbSection entries (0xFE :: index.toUInt8 :: 0xFB :: n :: (ns ++ e :: (es ++ bytes)))

/-- A file of the supported fragment. The loop of the parser goes on behind the end
marker, so no checksum byte is an opcode. -/
inductive RdbFile : List (List Entry) → Bytes → Prop
  | mk (version checksum : Bytes) {metadata sections : Bytes} {pairs : List (Bytes × Bytes)}
      {databases : List (List Entry)} : version.length = 4 → Sequence RdbMetaData pairs metadata →
      Sequence RdbSection databases sections → checksum.length = 8 →
      (∀ b ∈ checksum, b ≠ 0xFA ∧ b ≠ 0xFE) →
      RdbFile databases (str "REDIS" ++ version ++ (metadata ++ (sections ++ 0xFF :: checksum)))

variable {locals : ℕ → Locals} {db : Database} {s bytes : Bytes}

/-! ### Strings and sizes -/

theorem six_bits {n : ℕ} (h : n < 64) : n.toUInt8 &&& 0xC0 = 0 := by
  have hall : ∀ k : Fin 64, k.val.toUInt8 &&& 0xC0 = 0 := by decide
  exact hall ⟨n, h⟩

theorem fourteen_bits {n : ℕ} (h : n < 64) : (0x40 + n).toUInt8 &&& 0xC0 = 0x40 := by
  have hall : ∀ k : Fin 64, (0x40 + k.val).toUInt8 &&& 0xC0 = 0x40 := by decide
  exact hall ⟨n, h⟩

theorem reads_readEncodedString {encodingType : UInt8} (h : RdbString s (encodingType :: bytes))
    (he : encodingType &&& 0xC0 = 0xC0) :
    Reads (readEncodedString locals encodingType) bytes db s db := by
  generalize hx : encodingType :: bytes = xs at h
  cases h with
  | raw hs =>
    obtain ⟨rfl, -⟩ := List.cons.inj hx
    rw [six_bits hs] at he
    exact absurd he (by decide)
  | int8 hv =>
    obtain ⟨rfl, rfl⟩ := List.cons.inj hx
    refine Reads.frame locals fun l => Reads.readByte_bind _ ?_
    rw [Nat.toUInt8, UInt8.toNat_ofNat', Nat.mod_eq_of_lt hv]
    exact Reads.pure _ db
  | int16 hv =>
    obtain ⟨rfl, rfl⟩ := List.cons.inj hx
    exact Reads.frame locals fun l =>
      (Reads.readWord hv (length_toLittleEndian 2 _) db).bind_pure rfl
  | int32 hv =>
    obtain ⟨rfl, rfl⟩ := List.cons.inj hx
    exact Reads.frame locals fun l =>
      (Reads.readWord hv (length_toLittleEndian 4 _) db).bind_pure rfl

theorem reads_readLengthPrefixedString (h : RdbString s bytes) :
    Reads (readLengthPrefixedString locals) bytes db s db := by
  apply Reads.frame locals
  intro l
  cases h with
  | raw hs =>
    apply Reads.readByte_bind
    have hlen : s.length.toUInt8.toNat = s.length := by
      simp only [Nat.toUInt8, UInt8.toNat_ofNat']
      omega
    rw [six_bits hs, if_neg (by decide), hlen]
    exact Reads.read rfl (List.length_replicate ..) db
  | int8 hv => exact Reads.readByte_bind _ (reads_readEncodedString (.int8 hv) rfl)
  | int16 hv => exact Reads.readByte_bind _ (reads_readEncodedString (.int16 hv) rfl)
  | int32 hv => exact Reads.readByte_bind _ (reads_readEncodedString (.int32 hv) rfl)

theorem reads_readStringKeyValue {key value ks vs : Bytes} (hk : RdbString key ks)
    (hv : RdbString value vs) :
    Reads (readStringKeyValue locals) (ks ++ vs) db (key, value) db :=
  (reads_readLengthPrefixedString hk).bind ((reads_readLengthPrefixedString hv).bind_pure rfl)

/-- The 14-bit form is read with its tag bits, which a narrowing to one byte removes. -/
theorem reads_readSizeEncoded (locals : ℕ → Locals) (db : Database) {n : ℕ} {b : UInt8}
    (h : RdbSize n b bytes) :
    ∃ v, v % 2 ^ 8 = n % 2 ^ 8 ∧ Reads (readSizeEncoded locals b) bytes db v db := by
  cases h with
  | six hn =>
    refine ⟨n.toUInt8.toNat, by simp [Nat.toUInt8], Reads.frame locals fun l => ?_⟩
    rw [six_bits hn, if_pos rfl]
    exact Reads.pure _ db
  | fourteen hn =>
    refine ⟨(0x40 + n / 256).toUInt8.toNat <<< 8 ||| (n % 256).toUInt8.toNat, ?_,
      Reads.frame locals fun l => ?_⟩
    · rw [Nat.or_mod_two_pow, Nat.shiftLeft_eq, Nat.mul_mod_left, Nat.zero_or]
      simp [Nat.toUInt8]
    · rw [fourteen_bits (by omega), if_neg (by decide), if_pos rfl]
      exact Reads.readByte_bind _ (Reads.pure _ db)

/-! ### Entries, sections and metadata -/

theorem reads_readTypedEntry {key value ks vs : Bytes} (expiryTime : ℤ) (hk : RdbString key ks)
    (hv : RdbString value vs) :
    Reads (readTypedEntry locals 0x0 expiryTime) (ks ++ vs) db true
      (db.insert key ⟨value, expiryTime⟩) := by
  rw [← List.append_nil (ks ++ vs)]
  refine Reads.bind (f := fun keyValuePair => do
    Reader.update (DatabaseHandler.set keyValuePair.1 keyValuePair.2 expiryTime)
    pure true) (reads_readStringKeyValue hk hv) ?_
  exact Reads.update_bind _ (Reads.pure true _)

theorem toLong_of_lt {time : ℕ} (h : time < 2 ^ 63) : toLong time = time :=
  Int.bmod_eq_of_le (by omega) (by omega)

/-- A round of the loop consumes one entry and writes it, and leaves the first byte of the
entry and its type behind. -/
theorem reads_readEntry {e : Entry} (nextByte valueType : UInt8) (h : RdbEntry e bytes) :
    ∃ nextByte', (nextByte' = 0x0 ∨ nextByte' = 0xFC) ∧
      Reads (readEntry locals nextByte valueType) bytes db (true, nextByte', 0x0)
        (db.insert e.1 e.2) := by
  cases h with
  | plain hk hv =>
    refine ⟨0x0, .inl rfl, Reads.frame locals fun l => Reads.readByte_bind _ ?_⟩
    exact (reads_readTypedEntry 0 hk hv).bind_pure rfl
  | expiring time ht hk hv =>
    refine ⟨0xFC, .inr rfl, Reads.frame locals fun l => Reads.readByte_bind _ ?_⟩
    apply (Reads.readWord (by omega) (length_toLittleEndian 8 _) db).bind
    apply Reads.readByte_bind _
    rw [toLong_of_lt ht]
    exact (reads_readTypedEntry _ hk hv).bind_pure rfl

/-- The loop over the entries writes them in order. -/
theorem reads_readEntries {entries : List Entry} (nextByte valueType : UInt8)
    (h : Sequence RdbEntry entries bytes) :
    Reads (readEntries locals entries.length nextByte valueType) bytes db true
      (overwrite entries db) := by
  induction h generalizing db nextByte valueType with
  | nil => exact Reads.pure true db
  | cons he _ ih =>
    obtain ⟨nextByte', -, hround⟩ := reads_readEntry nextByte valueType he
    exact hround.bind (ih nextByte' 0x0)

theorem readIndicated_metaData {pair : Bytes × Bytes} (db : Database) (h : RdbMetaData pair bytes) :
    ∃ b ys, bytes = b :: ys ∧ Reads (readIndicated locals b) ys db true db := by
  cases h with
  | mk hn hname hv hvalue =>
    refine ⟨0xFA, _, rfl, (reads_readLengthPrefixedString hn).bind
      ((reads_readLengthPrefixedString hv).bind_pure ?_)⟩
    simp [hname, hvalue]

/-- A section whose table size says, in one byte, how many entries are read. -/
theorem reads_readIndicated_database {index size expiries : ℕ} {n e : UInt8} {ns es : Bytes}
    {entries : List Entry} (db : Database) (hindex : index < 64) (hn : RdbSize size n ns)
    (he : RdbSize expiries e es) (hsize : entries.length = size % 2 ^ 8)
    (hentries : Sequence RdbEntry entries bytes) :
    Reads (readIndicated locals 0xFE)
      (index.toUInt8 :: 0xFB :: n :: (ns ++ e :: (es ++ bytes))) db true (overwrite entries db) := by
  obtain ⟨index', -, hreadIndex⟩ := reads_readSizeEncoded locals db (.six hindex)
  obtain ⟨size', hsize', hreadSize⟩ := reads_readSizeEncoded locals db hn
  obtain ⟨expiries', -, hreadExpiries⟩ := reads_readSizeEncoded locals db he
  refine Reads.frame locals fun l => Reads.readByte_bind _ ?_
  refine hreadIndex.bind (Reads.readByte_bind _ ?_)
  refine Reads.readByte_bind _ (hreadSize.bind (Reads.readByte_bind _ (hreadExpiries.bind ?_)))
  rw [hsize', ← hsize]
  exact reads_readEntries _ _ hentries

theorem readIndicated_section {entries : List Entry} (db : Database) (h : RdbSection entries bytes) :
    ∃ b ys, bytes = b :: ys ∧
      Reads (readIndicated locals b) ys db true (overwrite entries db) := by
  cases h with
  | mk index hindex hlength hn he hentries =>
    have hsmall : entries.length = entries.length % 2 ^ 8 := (Nat.mod_eq_of_lt (by omega)).symm
    exact ⟨0xFE, _, rfl, reads_readIndicated_database db hindex hn he hsmall hentries⟩

/-! ### The loop of the parser -/

/-- A round of the loop whose `switch` consumes what follows the opcode. -/
theorem parseLoop_round {b : UInt8} {db' : Database} (indicator : UInt8)
    (h : Reads (readIndicated locals b) bytes db true db') (rest : Bytes) (n : ℕ) :
    ∃ m, parseLoop locals indicator ⟨⟨b :: (bytes ++ rest), false⟩, n, db⟩
      = parseLoop locals b ⟨⟨rest, false⟩, m, db'⟩ := by
  obtain ⟨k, hk⟩ := Reads.readByte indicator b db (bytes ++ rest) n
  obtain ⟨m, hm⟩ := h rest k
  rw [List.singleton_append] at hk
  refine ⟨m, ?_⟩
  rw [parseLoop, dif_pos rfl, hk]
  simp only [hm, if_pos]

/-- A sequence of items that the loop reads one after another. -/
theorem parseLoop_sequence (locals : ℕ → Locals) (db : Database) {α : Type}
    {R : α → Bytes → Prop} {f : α → Database → Database}
    (hR : ∀ {a xs} db, R a xs → ∃ b ys, xs = b :: ys ∧
      Reads (readIndicated locals b) ys db true (f a db))
    {l : List α} (h : Sequence R l bytes) (indicator : UInt8) (rest : Bytes) (n : ℕ) :
    ∃ b m, parseLoop locals indicator ⟨⟨bytes ++ rest, false⟩, n, db⟩
      = parseLoop locals b ⟨⟨rest, false⟩, m, l.foldl (fun db a => f a db) db⟩ := by
  induction h generalizing db indicator n with
  | nil => exact ⟨indicator, n, rfl⟩
  | @cons a l xs ys ha _ ih =>
    obtain ⟨b, tail, rfl, hb⟩ := hR db ha
    obtain ⟨k, hk⟩ := parseLoop_round indicator hb (ys ++ rest) n
    obtain ⟨b', m, hm⟩ := ih (f a db) b k
    refine ⟨b', m, ?_⟩
    rw [List.append_assoc, List.cons_append, hk]
    exact hm

theorem readIndicated_other {b : UInt8} (h : b ≠ 0xFA ∧ b ≠ 0xFE) :
    readIndicated locals b = pure true := by
  rw [readIndicated, if_neg h.1, if_neg h.2]

/-- Bytes that are no opcodes are skipped up to the end of the file, where the failed
read leaves the last of them in `indicator`. -/
theorem parseLoop_skip (locals : ℕ → Locals) (db : Database) {indicator : UInt8}
    (hi : indicator ≠ 0xFA ∧ indicator ≠ 0xFE)
    (h : ∀ b ∈ bytes, b ≠ 0xFA ∧ b ≠ 0xFE) (n : ℕ) :
    ∃ s, parseLoop locals indicator ⟨⟨bytes, false⟩, n, db⟩ = (true, s) ∧ s.state = db := by
  induction bytes generalizing indicator n with
  | nil =>
    have hfinal : readIndicated locals indicator ⟨⟨[], true⟩, n, db⟩
        = (true, ⟨⟨[], true⟩, n, db⟩) := by
      rw [readIndicated_other hi]
      rfl
    refine ⟨⟨⟨[], true⟩, n, db⟩, ?_, rfl⟩
    rw [parseLoop, dif_pos rfl, Reader.readByte_end]
    simp only [hfinal, if_true]
    rw [parseLoop, dif_neg (Bool.false_ne_true ∘ Eq.symm)]
  | cons b bytes ih =>
    have hb := h b List.mem_cons_self
    have hskip : Reads (readIndicated locals b) [] db true db := by
      rw [readIndicated_other hb]
      exact Reads.pure true db
    obtain ⟨m, hm⟩ := parseLoop_round indicator hskip bytes n
    rw [List.nil_append] at hm
    rw [hm]
    exact ih hb (fun b' hb' => h b' (List.mem_cons_of_mem _ hb')) m

theorem reads_readHeader (locals : ℕ → Locals) (db : Database) {version : Bytes}
    (h : version.length = 4) :
    Reads (readHeader locals) (str "REDIS" ++ version) db true db := by
  apply Reads.frame locals
  intro l
  have hlength : (str "REDIS" ++ version).length = 9 := by
    rw [List.length_append, h]
    rfl
  apply (Reads.read hlength (Vector.length_toList) db).bind_pure
  have htake : (str "REDIS" ++ version).take 5 = str "REDIS" := List.take_left' rfl
  rw [htake, decide_eq_true rfl]

/-- The loop is entered behind the header. -/
theorem parse_header {version : Bytes} (h : version.length = 4) (locals : ℕ → Locals)
    (db : Database) (rest : Bytes) : ∃ n,
    parse locals ⟨IFStream.opened (str "REDIS" ++ version ++ rest), 0, db⟩
      = parseLoop locals (locals 0).indicator ⟨⟨rest, false⟩, n, db⟩ := by
  obtain ⟨n, hn⟩ := reads_readHeader locals db h rest 1
  refine ⟨n, ?_⟩
  simp only [parse, IFStream.opened, Reader.frame, Bool.false_eq_true, if_false, hn, if_true]

/-- Metadata leaves the database as it is. -/
theorem parse_metaData {version metadata : Bytes} {pairs : List (Bytes × Bytes)}
    (hversion : version.length = 4) (hmetadata : Sequence RdbMetaData pairs metadata)
    (locals : ℕ → Locals) (db : Database) (rest : Bytes) : ∃ b n,
    parse locals ⟨IFStream.opened (str "REDIS" ++ version ++ (metadata ++ rest)), 0, db⟩
      = parseLoop locals b ⟨⟨rest, false⟩, n, db⟩ := by
  obtain ⟨m, hm⟩ := parse_header hversion locals db (metadata ++ rest)
  obtain ⟨b, n, hn⟩ := parseLoop_sequence locals db (f := fun _ db => db)
    readIndicated_metaData hmetadata (locals 0).indicator rest m
  rw [List.foldl_fixed] at hn
  exact ⟨b, n, hm.trans hn⟩

/-- A file of the supported fragment is accepted, and the entries of all its sections
are written in file order. -/
theorem parse_loads_entries {databases : List (List Entry)} (h : RdbFile databases bytes)
    (locals : ℕ → Locals) (db : Database) :
    ∃ s, parse locals ⟨IFStream.opened bytes, 0, db⟩ = (true, s) ∧
      s.state = overwrite databases.flatten db := by
  cases h with
  | @mk version checksum metadata sections pairs _ hversion hmetadata hsections hlength hchecksum =>
    obtain ⟨b, k, hk⟩ := parse_metaData hversion hmetadata locals db (sections ++ 0xFF :: checksum)
    obtain ⟨b', k', hk'⟩ := parseLoop_sequence locals db (f := overwrite)
      readIndicated_section hsections b (0xFF :: checksum) k
    rw [← overwrite_flatten] at hk'
    -- the end marker falls through the `switch` like any other byte
    have hend : Reads (readIndicated locals 0xFF) [] (overwrite databases.flatten db) true
        (overwrite databases.flatten db) := Reads.pure true _
    obtain ⟨l, hl⟩ := parseLoop_round b' hend checksum k'
    obtain ⟨s, hs, hstate⟩ := parseLoop_skip locals (overwrite databases.flatten db)
      (by decide : (0xFF : UInt8) ≠ 0xFA ∧ (0xFF : UInt8) ≠ 0xFE) hchecksum l
    refine ⟨s, ?_, hstate⟩
    calc parse locals ⟨IFStream.opened (str "REDIS" ++ version ++
          (metadata ++ (sections ++ 0xFF :: checksum))), 0, db⟩
        = parseLoop locals b ⟨⟨sections ++ 0xFF :: checksum, false⟩, k, db⟩ := hk
      _ = parseLoop locals b' ⟨⟨0xFF :: checksum, false⟩, k', overwrite databases.flatten db⟩ := hk'
      _ = parseLoop locals 0xFF ⟨⟨checksum, false⟩, l, overwrite databases.flatten db⟩ := hl
      _ = (true, s) := hs

theorem parse_loads_entries_of_section :
    ∃ s, parse (fun _ => default) ⟨IFStream.opened (str "REDIS0011" ++ (0xFA :: 2 :: str "os" ++
        [0xC0, 64] ++ ([0xFE, 0, 0xFB, 2, 1, 0xFC, 0x15, 0x72, 0xE7, 0x07, 0x8F, 0x01, 0, 0, 0, 1] ++
        str "a" ++ [0xC1, 0xE8, 0x03, 0, 1] ++ str "b" ++ [0, 0xFF, 1, 2, 3, 4, 5, 6, 7, 8]))),
        0, ∅⟩ = (true, s) ∧
      s.state = overwrite [(str "a", ⟨str "1000", 1713824559637⟩), (str "b", ⟨[], 0⟩)] ∅ := by
  have hname : RdbString (str "os") (2 :: str "os") := .raw (by decide)
  have ha : RdbString (str "a") (1 :: str "a") := .raw (by decide)
  have hb : RdbString (str "b") (1 :: str "b") := .raw (by decide)
  have hempty : RdbString [] [0] := .raw (by decide)
  have hvalue : RdbString (str "64") [0xC0, 64] := .int8 (v := 64) (by decide)
  have hthousand : RdbString (str "1000") [0xC1, 0xE8, 0x03] := .int16 (v := 1000) (by decide)
  have hmetadata := RdbMetaData.mk hname (by decide) hvalue (by decide)
  have hentries := Sequence.cons (RdbEntry.expiring 1713824559637 (by decide) ha hthousand)
    (.cons (.plain hb hempty) .nil)
  have hsize : RdbSize 2 2 [] := .six (by decide)
  have hexpiries : RdbSize 1 1 [] := .six (by decide)
  have hsection : RdbSection [(str "a", ⟨str "1000", 1713824559637⟩), (str "b", ⟨[], 0⟩)] _ :=
    .mk 0 (by decide) (by decide) hsize hexpiries hentries
  exact parse_loads_entries (.mk (str "0011") [1, 2, 3, 4, 5, 6, 7, 8] rfl (.cons hmetadata .nil)
    (.cons hsection .nil) rfl (by simp)) (fun _ => default) ∅

end RedisServer.RdbRoundTrip
