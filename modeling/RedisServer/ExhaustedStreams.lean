import RedisServer.RdbRoundTrip

/-!
# Parsing at the end of a file

No read of the parser looks at the state of the stream. Behind the end of the file every
read leaves its destination as it was, and the parser goes on with what its variables hold
from before. What it does there depends on `next_byte` and `value_type` alone.
-/

namespace RedisServer.ExhaustedStreams
open ByteStrings FileStreams OrderedOverwrites RdbParser RdbRoundTrip ServerState StreamReaders

variable {locals : ℕ → Locals} {s : ReaderState Database} {nextByte valueType : UInt8} {k : ℕ}

/-! ### The sizes of a section -/

/-- `readDatabase` behind the size of the table. -/
def readExpiries (locals : ℕ → Locals) (valueType : UInt8) (hashTableSize : ℕ)
    (nextByte : UInt8) : Reader Database Bool := do
  let nextByte ← Reader.readByte nextByte
  let _expiryHashTableSize ← readSizeEncoded locals nextByte
  readEntries locals (hashTableSize % 2 ^ 8) nextByte valueType

/-- `readDatabase` behind the indicator of the table. -/
def readTable (locals : ℕ → Locals) (valueType nextByte : UInt8) : Reader Database Bool := do
  let nextByte ← Reader.readByte nextByte
  let hashTableSize ← readSizeEncoded locals nextByte
  readExpiries locals valueType hashTableSize nextByte

/-- `readDatabase` behind the database index. -/
def readIndicator (locals : ℕ → Locals) (valueType nextByte : UInt8) : Reader Database Bool := do
  let nextByte ← Reader.readByte nextByte
  if nextByte = 0xFB then readTable locals valueType nextByte else pure true

theorem readDatabase_eq (locals : ℕ → Locals) : readDatabase locals = (do
    let l ← Reader.frame locals
    let nextByte ← Reader.readByte l.nextByte
    let _databaseIndex ← readSizeEncoded locals nextByte
    readIndicator locals l.valueType nextByte) := rfl

section Composition

variable {P : ∀ {α : Type}, Reader Database α → Prop} (hP : Composes P)
variable (hset : ∀ key value expiryTime,
  P (Reader.update (DatabaseHandler.set key value expiryTime)))
include hP hset

theorem composes_readExpiries (valueType : UInt8) (hashTableSize : ℕ) (nextByte : UInt8) :
    P (readExpiries locals valueType hashTableSize nextByte) :=
  hP.bind (hP.readByte _) fun _ => hP.bind (composes_readSizeEncoded locals hP _) fun _ =>
    composes_readEntries locals hP hset _ _ _

theorem composes_readTable (valueType nextByte : UInt8) :
    P (readTable locals valueType nextByte) :=
  hP.bind (hP.readByte _) fun _ => hP.bind (composes_readSizeEncoded locals hP _) fun _ =>
    composes_readExpiries hP hset _ _ _

theorem composes_readIndicator (valueType nextByte : UInt8) :
    P (readIndicator locals valueType nextByte) :=
  hP.bind (hP.readByte _) fun _ => Composes.ite (composes_readTable hP hset _ _) (hP.pure _)

end Composition

/-! ### Rounds that store nothing -/

/-- A byte that is not the beginning of an entry. -/
def NoEntry (nextByte : UInt8) : Prop := nextByte ≠ 0x0 ∧ nextByte ≠ 0xFC ∧ nextByte ≠ 0xFD

instance : DecidablePred NoEntry := fun _ => inferInstanceAs (Decidable (_ ∧ _))

theorem readEntry_of_noEntry (hs : s.file.fail = true) (hb : NoEntry nextByte) :
    (readEntry locals nextByte valueType s).1.1 = false ∧
      (readEntry locals nextByte valueType s).2.state = s.state := by
  obtain ⟨hplain, hmillis, hsec⟩ := hb
  have henter : s.enter.file.fail = true := hs
  rw [readEntry, Reader.frame_bind, Reader.readByte_bind_of_fail _ _ henter, if_neg hmillis,
    if_neg hsec, readTypedEntry, if_neg hplain]
  exact ⟨rfl, rfl⟩

theorem readEntries_of_noEntry (hs : s.file.fail = true) (hb : k = 0 ∨ NoEntry nextByte) :
    (readEntries locals k nextByte valueType s).2.state = s.state := by
  cases k with
  | zero => rfl
  | succ k =>
    obtain ⟨hfalse, hstate⟩ := @readEntry_of_noEntry locals s nextByte valueType hs
      (hb.resolve_left (Nat.succ_ne_zero k))
    rw [readEntries, Reader.bind_apply, hfalse, if_neg Bool.false_ne_true]
    exact hstate

/-- A size is read at the end of the stream without any effect but its frame. -/
theorem readSizeEncoded_of_fail (b : UInt8) (hs : s.file.fail = true) :
    (readSizeEncoded locals b s).2.file.fail = true ∧
      (readSizeEncoded locals b s).2.state = s.state :=
  ⟨(composes_readSizeEncoded locals Local.composes b).fail s hs,
    composes_readSizeEncoded locals Inert.composes b s⟩

/-- The indicator of the table, taken for a size, is none. -/
theorem readSizeEncoded_tag (s : ReaderState Database) :
    (readSizeEncoded locals 0xFB s).1 = 0 := rfl

theorem readExpiries_of_fail (hs : s.file.fail = true) (hb : k % 2 ^ 8 = 0 ∨ NoEntry nextByte) :
    (readExpiries locals valueType k nextByte s).2.state = s.state := by
  obtain ⟨hfail, hstate⟩ := @readSizeEncoded_of_fail locals s nextByte hs
  rw [readExpiries, Reader.readByte_bind_of_fail _ _ hs, Reader.bind_apply,
    readEntries_of_noEntry hfail hb, hstate]

theorem readTable_of_fail (hs : s.file.fail = true) :
    (readTable locals valueType 0xFB s).2.state = s.state := by
  obtain ⟨hfail, hstate⟩ := @readSizeEncoded_of_fail locals s 0xFB hs
  rw [readTable, Reader.readByte_bind_of_fail _ _ hs, Reader.bind_apply, readSizeEncoded_tag,
    readExpiries_of_fail hfail (.inl rfl), hstate]

theorem readIndicator_of_fail (hs : s.file.fail = true) :
    (readIndicator locals valueType nextByte s).2.state = s.state := by
  rw [readIndicator, Reader.readByte_bind_of_fail _ _ hs]
  split
  · next h =>
    rw [h]
    exact readTable_of_fail hs
  · rfl

theorem readDatabase_of_fail (hs : s.file.fail = true) :
    (readDatabase locals s).2.state = s.state := by
  have henter : s.enter.file.fail = true := hs
  obtain ⟨hfail, hstate⟩ := @readSizeEncoded_of_fail locals s.enter (locals s.frames).nextByte hs
  rw [readDatabase_eq, Reader.frame_bind, Reader.readByte_bind_of_fail _ _ henter,
    Reader.bind_apply, readIndicator_of_fail hfail, hstate]
  rfl

/-- No opcode leads to an entry at the end of the file. -/
theorem readIndicated_of_fail (indicator : UInt8) (hs : s.file.fail = true) :
    (readIndicated locals indicator s).2.state = s.state := by
  by_cases h : indicator = 0xFE
  · subst h
    exact readDatabase_of_fail hs
  · exact composes_readIndicated_of_ne locals Inert.composes h s

/-- Nothing is stored where no byte opens a section. -/
theorem parseLoop_unchanged (locals : ℕ → Locals) (indicator : UInt8) {s : ReaderState Database}
    (h : 0xFE ∉ s.file.rest) : (parseLoop locals indicator s).2.state = s.state := by
  induction hn : s.file.remaining using Nat.strong_induction_on generalizing indicator s with
  | _ n ih =>
    subst hn
    obtain ⟨⟨rest, fail⟩, frames, db⟩ := s
    cases fail with
    | true => rw [parseLoop_of_fail locals indicator rfl]
    | false =>
      cases rest with
      | nil =>
        rw [parseLoop_end]
        exact readIndicated_of_fail indicator rfl
      | cons b rest =>
        obtain ⟨hb, hrest⟩ := not_or.mp (List.mem_cons.not.mp h)
        have hinert := composes_readIndicated_of_ne locals Inert.composes (Ne.symm hb)
          ⟨⟨rest, false⟩, frames, db⟩
        have hless := advances_readIndicated locals b ⟨⟨rest, false⟩, frames, db⟩
        have hdrops := composes_readIndicated locals Drops.composes (fun _ _ _ => Drops.update _) b
          ⟨⟨rest, false⟩, frames, db⟩
        rw [parseLoop_cons]
        generalize readIndicated locals b ⟨⟨rest, false⟩, frames, db⟩ = r at hinert hless hdrops ⊢
        split
        · have hshort : r.2.file.remaining < (IFStream.mk (b :: rest) false).remaining := by
            simp only [IFStream.remaining, Bool.false_eq_true, if_false, List.length_cons] at hless ⊢
            omega
          exact (ih _ hshort b (fun hmem => hrest (hdrops.subset hmem)) rfl).trans hinert
        · exact hinert

/-! ### Sections that are cut off before their entries -/

section Front

variable {index size expiries : ℕ} {n e : UInt8} {xs ys ns es : Bytes} {db : Database} {m : ℕ}

/-- Only the size zero begins with a zero. -/
theorem size_byte_ne_zero (h : RdbSize size n ns) (hsize : size ≠ 0 ∨ ns ≠ []) : n ≠ 0 := by
  rintro rfl
  generalize hzero : (0 : UInt8) = b at h
  have hval := congrArg UInt8.toNat hzero
  cases h with
  | six hlt =>
    have hpos := hsize.resolve_right (not_not.mpr rfl)
    simp only [Nat.toUInt8, UInt8.toNat_ofNat', UInt8.toNat_zero] at hval
    omega
  | fourteen hlt =>
    simp only [Nat.toUInt8, UInt8.toNat_ofNat', UInt8.toNat_zero] at hval
    omega

/-- The first byte of a size is no entry unless it is zero. -/
theorem noEntry_of_size (h : RdbSize size n ns) (hn : n ≠ 0) : NoEntry n := by
  have hlt : n.toNat < 128 := by
    cases h with
    | six hlt =>
      simp only [Nat.toUInt8, UInt8.toNat_ofNat']
      omega
    | fourteen hlt =>
      simp only [Nat.toUInt8, UInt8.toNat_ofNat']
      omega
  refine ⟨hn, ?_, ?_⟩
  · rintro rfl
    exact absurd hlt (by decide)
  · rintro rfl
    exact absurd hlt (by decide)

theorem readSizeEncoded_of_cut (h : RdbSize size n (xs ++ ys)) (hy : ys ≠ []) :
    (readSizeEncoded locals n ⟨⟨xs, false⟩, m, db⟩).2.file.fail = true ∧
      (readSizeEncoded locals n ⟨⟨xs, false⟩, m, db⟩).2.state = db := by
  obtain ⟨v, -, hread⟩ := reads_readSizeEncoded locals db h
  exact ⟨(composes_readSizeEncoded locals Local.composes n).fail_of_reads hread hy m,
    composes_readSizeEncoded locals Inert.composes n _⟩

theorem readExpiries_of_cut (he : RdbSize expiries e es) (hcut : e :: es = xs ++ ys) (hy : ys ≠ [])
    (hb : k % 2 ^ 8 = 0 ∨ NoEntry nextByte) :
    (readExpiries locals valueType k nextByte ⟨⟨xs, false⟩, m, db⟩).2.state = db := by
  cases xs with
  | nil => exact readExpiries_of_fail (s := ⟨⟨[], true⟩, m, db⟩) rfl hb
  | cons b xs =>
    obtain ⟨rfl, rfl⟩ := List.cons.inj hcut
    obtain ⟨hfail, hstate⟩ := @readSizeEncoded_of_cut locals expiries e xs ys db m he hy
    have hbyte : NoEntry e := noEntry_of_size he (size_byte_ne_zero he (.inr (by simp [hy])))
    rw [readExpiries, Reader.readByte_bind_cons, Reader.bind_apply,
      readEntries_of_noEntry hfail (.inr hbyte), hstate]

/-- Where two sequences are cut, the first is cut off or it is complete. -/
theorem cut_cases {us vs : Bytes} (hcut : us ++ vs = xs ++ ys) :
    (∃ t, t ≠ [] ∧ us = xs ++ t) ∨ ∃ t, xs = us ++ t ∧ vs = t ++ ys := by
  rcases List.append_eq_append_iff.mp hcut with ⟨t, hxs, hvs⟩ | ⟨t, hus, hys⟩
  · exact .inr ⟨t, hxs, hvs⟩
  · by_cases ht : t = []
    · subst ht
      exact .inr ⟨[], by simp [hus], hys.symm⟩
    · exact .inl ⟨t, ht, hus⟩

/-- The size of the table or what follows it is missing or cut off. -/
theorem readTable_of_cut (hn : RdbSize size n ns) (he : RdbSize expiries e es)
    (hcut : n :: (ns ++ e :: es) = xs ++ ys) (hy : ys ≠ []) :
    (readTable locals valueType 0xFB ⟨⟨xs, false⟩, m, db⟩).2.state = db := by
  cases xs with
  | nil => exact readTable_of_fail (s := ⟨⟨[], true⟩, m, db⟩) rfl
  | cons b xs =>
    obtain ⟨rfl, hrest⟩ := List.cons.inj hcut
    rw [readTable, Reader.readByte_bind_cons]
    rcases cut_cases hrest with ⟨t, ht, rfl⟩ | ⟨t, rfl, ht⟩
    · obtain ⟨hfail, hstate⟩ := @readSizeEncoded_of_cut locals size n xs t db m hn ht
      have hbyte : NoEntry n := noEntry_of_size hn (size_byte_ne_zero hn (.inr (by simp [ht])))
      rw [Reader.bind_apply, readExpiries_of_fail hfail (.inr hbyte), hstate]
    · obtain ⟨v, hv, hread⟩ := reads_readSizeEncoded locals db hn
      obtain ⟨k, hk⟩ := hread.bind_eq
        (fun hashTableSize => readExpiries locals valueType hashTableSize n) t m
      rw [hk]
      apply readExpiries_of_cut he ht hy
      by_cases hsize : size = 0
      · rw [hv, hsize]
        exact .inl rfl
      · exact .inr (noEntry_of_size hn (size_byte_ne_zero hn (.inl hsize)))

theorem readIndicator_of_cut (hn : RdbSize size n ns) (he : RdbSize expiries e es)
    (hcut : 0xFB :: n :: (ns ++ e :: es) = xs ++ ys) (hy : ys ≠ []) :
    (readIndicator locals valueType nextByte ⟨⟨xs, false⟩, m, db⟩).2.state = db := by
  cases xs with
  | nil => exact readIndicator_of_fail (s := ⟨⟨[], true⟩, m, db⟩) rfl
  | cons b xs =>
    obtain ⟨rfl, hrest⟩ := List.cons.inj hcut
    rw [readIndicator, Reader.readByte_bind_cons, if_pos rfl]
    exact readTable_of_cut hn he hrest hy

/-- A section that is cut off before its first entry stores nothing. -/
theorem readDatabase_of_cut (hindex : index < 64) (hn : RdbSize size n ns)
    (he : RdbSize expiries e es)
    (hcut : index.toUInt8 :: 0xFB :: n :: (ns ++ e :: es) = xs ++ ys) (hy : ys ≠ []) :
    (readDatabase locals ⟨⟨xs, false⟩, m, db⟩).2.state = db := by
  cases xs with
  | nil => exact readDatabase_of_fail (s := ⟨⟨[], true⟩, m, db⟩) rfl
  | cons b xs =>
    obtain ⟨rfl, hrest⟩ := List.cons.inj hcut
    obtain ⟨v, -, hread⟩ := reads_readSizeEncoded locals db (.six hindex)
    obtain ⟨k, hk⟩ := hread.bind_eq
      (fun _ => readIndicator locals (locals m).valueType index.toUInt8) xs (m + 1)
    rw [List.nil_append] at hk
    rw [readDatabase_eq, Reader.frame_bind, ReaderState.enter_mk, Reader.readByte_bind_cons, hk]
    exact readIndicator_of_cut hn he hrest hy

end Front

/-! ### Rounds that store what is left in the variables -/

section Stale

variable {v nextByte : UInt8} {e : Entry} {es : List Entry} {xs ys bytes : Bytes} {db : Database}
  {m k : ℕ} {s : ReaderState Database}

/-- Locals that look like the number `v` where a string is expected. -/
def stale (v : UInt8) : Locals :=
  { (default : Locals) with valueType := 0x0, lengthByte := 0xC0, int8Val := v }

theorem readLengthPrefixedString_stale (hs : s.file.fail = true) :
    readLengthPrefixedString (fun _ => stale v) s = (toDecimal v.toNat, s.enter.enter) := by
  have henter : s.enter.file.fail = true := hs
  have henter' : s.enter.enter.file.fail = true := hs
  have hlength : (stale v).lengthByte = 0xC0 := rfl
  rw [readLengthPrefixedString, Reader.frame_bind, Reader.readByte_bind_of_fail _ _ henter, hlength,
    if_pos (by decide), readEncodedString, if_pos (by decide), readIntegerEncodedString,
    Reader.frame_bind, if_pos (by decide), Reader.readByte_bind_of_fail _ _ henter']
  rfl

theorem mem_readTypedEntry_stale (expiryTime : ℤ) (hs : s.file.fail = true) :
    toDecimal v.toNat ∈ (readTypedEntry (fun _ => stale v) 0x0 expiryTime s).2.state := by
  have henter : s.enter.enter.file.fail = true := hs
  have hkey : (readStringKeyValue (fun _ => stale v) s).1
      = (toDecimal v.toNat, toDecimal v.toNat) := by
    rw [readStringKeyValue, Reader.bind_apply, readLengthPrefixedString_stale hs, Reader.bind_apply,
      readLengthPrefixedString_stale henter]
    rfl
  rw [readTypedEntry, if_pos rfl, Reader.bind_apply, hkey]
  exact Finmap.mem_insert.mpr (.inl rfl)

/-- A round that goes on with the first byte of an entry stores the number. -/
theorem readEntry_stale (hs : s.file.fail = true) (hb : nextByte = 0x0 ∨ nextByte = 0xFC) :
    (readEntry (fun _ => stale v) nextByte 0x0 s).1 = (true, nextByte, 0x0) ∧
      toDecimal v.toNat ∈ (readEntry (fun _ => stale v) nextByte 0x0 s).2.state := by
  have henter : s.enter.file.fail = true := hs
  rw [readEntry, Reader.frame_bind, Reader.readByte_bind_of_fail _ _ henter]
  rcases hb with rfl | rfl
  · rw [if_neg (by decide), if_neg (by decide)]
    exact ⟨rfl, mem_readTypedEntry_stale 0 henter⟩
  · rw [if_pos rfl, Reader.bind_apply, Reader.readWord_of_fail _ henter,
      Reader.readByte_bind_of_fail _ _ henter]
    exact ⟨rfl, mem_readTypedEntry_stale _ henter⟩

/-- The rounds that are left report no error, and store the number if there are any. -/
theorem readEntries_stale (k : ℕ) (hs : s.file.fail = true)
    (hb : nextByte = 0x0 ∨ nextByte = 0xFC) :
    (readEntries (fun _ => stale v) k nextByte 0x0 s).1 = true ∧ (k ≠ 0 →
      toDecimal v.toNat ∈ (readEntries (fun _ => stale v) k nextByte 0x0 s).2.state) := by
  induction k generalizing s with
  | zero => exact ⟨rfl, fun h => absurd rfl h⟩
  | succ k ih =>
    obtain ⟨hround, hmem⟩ := @readEntry_stale v nextByte s hs hb
    have hfail := (composes_readEntry (fun _ => stale v) Local.composes
      (fun _ _ _ => Local.update _) nextByte 0x0).fail s hs
    rw [readEntries, Reader.bind_apply, hround, if_pos rfl]
    obtain ⟨htrue, hrest⟩ := ih hfail
    refine ⟨htrue, fun _ => ?_⟩
    cases k with
    | zero => exact hmem
    | succ k => exact hrest (Nat.succ_ne_zero k)

/-- Behind a time that may be cut off, the type is read or still there from before. -/
theorem readByte_type_of_cut {time : ℕ} {destination us : Bytes} (ht : time < 256 ^ 8)
    (hd : destination.length = 8) (hcut : toLittleEndian 8 time ++ 0x0 :: us = xs ++ ys)
    (m : ℕ) (db : Database) : (Reader.readByte 0x0
      (Reader.readWord destination ⟨⟨xs, false⟩, m, db⟩).2).1 = 0x0 := by
  have hread : Reads (Reader.readWord destination) (toLittleEndian 8 time) db time db :=
    Reads.readWord ht hd db
  rcases cut_cases hcut with ⟨t, hne, htime⟩ | ⟨t, rfl, ht⟩
  · rw [htime] at hread
    rw [Reader.readByte_of_fail _ ((Local.composes.readWord destination).fail_of_reads hread hne m)]
  · obtain ⟨k, hk⟩ := hread t m
    rw [hk]
    cases t with
    | nil => rfl
    | cons b t =>
      obtain ⟨rfl, -⟩ := List.cons.inj ht
      rw [Reader.readByte_cons]

/-- An entry that is cut off behind its first byte is stored without an error. -/
theorem readEntry_of_cut (h : RdbEntry e (xs ++ ys)) (hx : xs ≠ []) (hy : ys ≠ []) (nextByte : UInt8) :
    ∃ nextByte', (nextByte' = 0x0 ∨ nextByte' = 0xFC) ∧
      (readEntry locals nextByte 0x0 ⟨⟨xs, false⟩, m, db⟩).1 = (true, nextByte', 0x0) ∧
      (readEntry locals nextByte 0x0 ⟨⟨xs, false⟩, m, db⟩).2.file.fail = true := by
  have hfail : (readEntry locals nextByte 0x0 ⟨⟨xs, false⟩, m, db⟩).2.file.fail = true := by
    obtain ⟨b, -, hread⟩ := @reads_readEntry locals db _ e nextByte 0x0 h
    exact (composes_readEntry locals Local.composes (fun _ _ _ => Local.update _) nextByte
      0x0).fail_of_reads hread hy m
  generalize hcut : xs ++ ys = bytes at h
  obtain ⟨b, xs, rfl⟩ := List.exists_cons_of_ne_nil hx
  rw [readEntry, Reader.frame_bind, ReaderState.enter_mk, Reader.readByte_bind_cons] at hfail ⊢
  cases h with
  | plain hk hv =>
    obtain ⟨rfl, -⟩ := List.cons.inj hcut
    exact ⟨0x0, .inl rfl, rfl, hfail⟩
  | expiring time ht hk hv =>
    obtain ⟨rfl, hrest⟩ := List.cons.inj hcut
    refine ⟨0xFC, .inr rfl, ?_, hfail⟩
    rw [if_pos rfl, Reader.bind_apply, Reader.bind_apply,
      readByte_type_of_cut (by omega) (length_toLittleEndian 8 _) hrest.symm]
    rfl

/-- The loop over the first entries, with what it leaves in `next_byte`. -/
theorem continues_readEntries (h : Sequence RdbEntry es bytes) (k : ℕ) (nextByte : UInt8)
    (db : Database) : ∃ nextByte',
      (es = [] ∧ nextByte' = nextByte ∨ nextByte' = 0x0 ∨ nextByte' = 0xFC) ∧
      Continues (readEntries locals (es.length + k) nextByte 0x0) bytes db
        (readEntries locals k nextByte' 0x0) (overwrite es db) := by
  induction h generalizing nextByte db with
  | nil =>
    refine ⟨nextByte, .inl ⟨rfl, rfl⟩, fun rest n => ⟨n, ?_⟩⟩
    rw [List.length_nil, Nat.zero_add]
    rfl
  | @cons e es xs ys he _ ih =>
    obtain ⟨b, hb, hround⟩ := @reads_readEntry locals db _ e nextByte 0x0 he
    obtain ⟨b', hb', hrest⟩ := ih b (db.insert e.1 e.2)
    refine ⟨b', .inr ?_, ?_⟩
    · rcases hb' with ⟨-, rfl⟩ | hb'
      · exact hb
      · exact hb'
    · rw [List.length_cons, Nat.add_right_comm]
      exact (Continues.of_reads hround _).trans hrest

/-- The rounds from a place where the file is cut off, in an entry or in front of it. -/
theorem readEntries_of_cut (h : RdbEntry e (xs ++ ys)) (hy : ys ≠ []) (k : ℕ)
    (hb : xs = [] → nextByte = 0x0 ∨ nextByte = 0xFC) :
    (readEntries (fun _ => stale v) (k + 1) nextByte 0x0 ⟨⟨xs, false⟩, m, db⟩).1 = true ∧
      (readEntries (fun _ => stale v) (k + 1) nextByte 0x0 ⟨⟨xs, false⟩, m, db⟩).2.file.fail = true ∧
      (xs = [] → toDecimal v.toNat ∈
        (readEntries (fun _ => stale v) (k + 1) nextByte 0x0 ⟨⟨xs, false⟩, m, db⟩).2.state) := by
  have hlocal (k : ℕ) (nextByte : UInt8) :=
    composes_readEntries (fun _ => stale v) Local.composes (fun _ _ _ => Local.update _) k nextByte 0x0
  cases xs with
  | nil =>
    have hend : readEntries (fun _ => stale v) (k + 1) nextByte 0x0 ⟨⟨[], false⟩, m, db⟩
        = readEntries (fun _ => stale v) (k + 1) nextByte 0x0 ⟨⟨[], true⟩, m, db⟩ := rfl
    obtain ⟨htrue, hmem⟩ := @readEntries_stale v nextByte ⟨⟨[], true⟩, m, db⟩ (k + 1) rfl (hb rfl)
    rw [hend]
    exact ⟨htrue, (hlocal _ _).fail _ rfl, fun _ => hmem (Nat.succ_ne_zero k)⟩
  | cons b xs =>
    obtain ⟨b', hb', hround, hfail⟩ := @readEntry_of_cut (fun _ => stale v) e (b :: xs) ys db m h
      (List.cons_ne_nil b xs) hy nextByte
    rw [readEntries, Reader.bind_apply, hround, if_pos rfl]
    exact ⟨(readEntries_stale k hfail hb').1, (hlocal _ _).fail _ hfail, by simp⟩

end Stale

/-! ### Sections that are cut off in their entries -/

section Table

variable {index size expiries : ℕ} {n e : UInt8} {ns es : Bytes} {db : Database} {m : ℕ}

/-- The loop over the entries is entered with the first byte of the expiry table's size. -/
theorem exists_readEntries (hindex : index < 64) (hn : RdbSize size n ns)
    (he : RdbSize expiries e es) (rest : Bytes) (m : ℕ) (db : Database) : ∃ m',
    readDatabase locals ⟨⟨index.toUInt8 :: 0xFB :: n :: (ns ++ e :: (es ++ rest)), false⟩, m, db⟩
      = readEntries locals (size % 2 ^ 8) e (locals m).valueType ⟨⟨rest, false⟩, m', db⟩ := by
  obtain ⟨index', -, hreadIndex⟩ := reads_readSizeEncoded locals db (.six hindex)
  obtain ⟨size', hsize', hreadSize⟩ := reads_readSizeEncoded locals db hn
  obtain ⟨expiries', -, hreadExpiries⟩ := reads_readSizeEncoded locals db he
  obtain ⟨m₁, hm₁⟩ := hreadIndex.bind_eq
    (fun _ => readIndicator locals (locals m).valueType index.toUInt8)
    (0xFB :: n :: (ns ++ e :: (es ++ rest))) (m + 1)
  obtain ⟨m₂, hm₂⟩ := hreadSize.bind_eq
    (fun hashTableSize => readExpiries locals (locals m).valueType hashTableSize n)
    (e :: (es ++ rest)) m₁
  obtain ⟨m₃, hm₃⟩ := hreadExpiries.bind_eq
    (fun _ => readEntries locals (size' % 2 ^ 8) e (locals m).valueType) rest m₂
  refine ⟨m₃, ?_⟩
  rw [List.nil_append] at hm₁
  rw [readDatabase_eq, Reader.frame_bind, ReaderState.enter_mk, Reader.readByte_bind_cons, hm₁,
    readIndicator, Reader.readByte_bind_cons, if_pos rfl, readTable, Reader.readByte_bind_cons, hm₂,
    readExpiries, Reader.readByte_bind_cons, hm₃, hsize']

/-- A section that is cut off before its first entry, unless the last byte is a zero. -/
theorem readDatabase_of_first (hindex : index < 64) (hn : RdbSize size n ns)
    (he : RdbSize expiries e es) (hzero : e ≠ 0) :
    (readDatabase locals ⟨⟨index.toUInt8 :: 0xFB :: n :: (ns ++ e :: es), false⟩, m, db⟩).2.state
      = db := by
  have hbyte : NoEntry e := noEntry_of_size he hzero
  obtain ⟨m', hm'⟩ := @exists_readEntries locals index size expiries n e ns es hindex hn he [] m db
  rw [List.append_nil] at hm'
  rw [hm']
  cases size % 2 ^ 8 with
  | zero => rfl
  | succ k => exact readEntries_of_noEntry (s := ⟨⟨[], true⟩, m', db⟩) (k := k + 1) rfl (.inr hbyte)

end Table

end RedisServer.ExhaustedStreams
