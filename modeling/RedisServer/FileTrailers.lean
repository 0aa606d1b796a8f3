import RedisServer.ExhaustedStreams
import RedisServer.RdbStringForms

/-!
# What follows the end marker

The loop of the parser does not stop at the end marker, so the bytes behind it are opcodes
like any others. The places that the parser can be in on its way through them form an
automaton. The trailers that it accepts have no effect, whatever the variables hold, and no
other trailer has none.
-/

namespace RedisServer.FileTrailers
open ByteStrings FileStreams OrderedOverwrites RdbParser RdbRoundTrip RdbStringForms ServerState
open StreamReaders ExhaustedStreams

/-- The first byte of a string that is not empty. -/
def StringByte (b : UInt8) : Prop := b ≠ 0 ∧ b ≤ 0xC2

instance : DecidablePred StringByte := fun _ => inferInstanceAs (Decidable (_ ∧ _))

/-- How many bytes of a string follow its first byte. -/
def stringWidth (b : UInt8) : ℕ :=
  if b = 0xC0 then 1 else if b = 0xC1 then 2 else if b = 0xC2 then 4 else b.toNat

/-- How many bytes of a size follow its first byte. -/
def sizeWidth (b : UInt8) : ℕ :=
  if b &&& 0xC0 = 0x40 then 1 else if b &&& 0xC0 = 0x80 then 8 else 0

/-- The byte that is kept of a size, if it is there. -/
def lowByte (b : UInt8) (bytes : Bytes) : Option UInt8 :=
  if b &&& 0xC0 = 0x0 then some b else if b &&& 0xC0 = 0xC0 then some 0 else bytes.head?

/-- What the parser reads next. In front of an opcode it depends on the last opcode whether
the trailer may end. -/
inductive Place
  | opcode (metadata : Bool)
  | name
  | value
  | index
  | indicator
  | size
  | expiries

/-- The bytes that lead from one place to the next. -/
inductive Passes : Place → Bytes → Place → Prop
  | other {m : Bool} {b : UInt8} : b ≠ 0xFA → b ≠ 0xFE → Passes (.opcode m) [b] (.opcode false)
  | metadata {m : Bool} : Passes (.opcode m) [0xFA] .name
  | name {b : UInt8} {t : Bytes} : StringByte b → t.length = stringWidth b →
      Passes .name (b :: t) .value
  | value {b : UInt8} {t : Bytes} : StringByte b → t.length = stringWidth b →
      Passes .value (b :: t) (.opcode true)
  | section {m : Bool} : Passes (.opcode m) [0xFE] .index
  | index {b : UInt8} {t : Bytes} : t.length = sizeWidth b → Passes .index (b :: t) .indicator
  | table : Passes .indicator [0xFB] .size
  | noTable {b : UInt8} : b ≠ 0xFB → Passes .indicator [b] (.opcode false)
  | size {b : UInt8} {t : Bytes} : t.length = sizeWidth b → lowByte b t = some 0 →
      Passes .size (b :: t) .expiries
  | expiries {b : UInt8} {t : Bytes} : t.length = sizeWidth b →
      Passes .expiries (b :: t) (.opcode false)

/-- The last bytes of a trailer, which may be cut off. -/
inductive Stops : Place → Bytes → Prop
  | opcode : Stops (.opcode false) []
  | value {b : UInt8} {t : Bytes} : StringByte b → t.length < stringWidth b → Stops .value (b :: t)
  | noIndex : Stops .index []
  | index {b : UInt8} {t : Bytes} : t.length < sizeWidth b → Stops .index (b :: t)
  | indicator : Stops .indicator []
  | noSize : Stops .size []
  | size {b : UInt8} {t : Bytes} : t.length < sizeWidth b → lowByte b t = some 0 →
      Stops .size (b :: t)
  | noExpiries : Stops .expiries []
  | expiries {b : UInt8} {t : Bytes} : t.length < sizeWidth b → Stops .expiries (b :: t)

/-- The trailers that have no effect. -/
inductive Harmless : Place → Bytes → Prop
  | stop {place : Place} {xs : Bytes} : Stops place xs → Harmless place xs
  | pass {place place' : Place} {xs ys : Bytes} : Passes place xs place' → Harmless place' ys →
      Harmless place (xs ++ ys)

variable {locals : ℕ → Locals} {place place' : Place} {b indicator : UInt8} {xs ys t : Bytes}
  {db : Database} {n : ℕ} {s : ReaderState Database} {p q : Reader Database Bool}

/-! ### Strings and sizes in all their forms -/

theorem forall_byte {P : UInt8 → Prop} (h : ∀ k : Fin 256, P k.val.toUInt8) (b : UInt8) : P b := by
  have hb := h ⟨b.toNat, b.toNat_lt⟩
  rwa [Nat.toUInt8, UInt8.ofNat_toNat] at hb

theorem tag_cases : ∀ b : UInt8, b &&& 0xC0 = 0x0 ∨ b &&& 0xC0 = 0x40 ∨ b &&& 0xC0 = 0x80 ∨
    b &&& 0xC0 = 0xC0 := forall_byte (by decide +kernel)

/-- The tag of a string that is not empty is that of an integer or the string is a raw one. -/
theorem stringByte_cases : ∀ b : UInt8, StringByte b →
    b = 0xC0 ∨ b = 0xC1 ∨ b = 0xC2 ∨ b &&& 0xC0 ≠ 0xC0 ∧ stringWidth b = b.toNat :=
  forall_byte (by decide +kernel)

theorem not_stringByte_cases : ∀ b : UInt8, ¬ StringByte b → b = 0 ∨ b &&& 0xC0 = 0xC0 ∧
    b ^^^ 0xC0 ≠ 0 ∧ b ^^^ 0xC0 ≠ 1 ∧ b ^^^ 0xC0 ≠ 2 :=
  forall_byte (by decide +kernel)

/-- Any bytes of the right number are an integer. -/
theorem rdbString_littleEndian (hb : b = 0xC0 ∨ b = 0xC1 ∨ b = 0xC2)
    (ht : t.length = stringWidth b) : RdbString (toDecimal (littleEndian t)) (b :: t) := by
  have hsmall := littleEndian_lt t
  have hbytes := toLittleEndian_littleEndian t
  rw [ht] at hsmall hbytes
  have hform : RdbString (toDecimal (littleEndian t))
      (b :: toLittleEndian (stringWidth b) (littleEndian t)) := by
    rcases hb with rfl | rfl | rfl
    · exact .int8 hsmall
    · exact .int16 hsmall
    · exact .int32 hsmall
  rwa [hbytes] at hform

theorem reads_string (locals : ℕ → Locals) (db : Database) (hb : StringByte b)
    (ht : t.length = stringWidth b) :
    ∃ text, text ≠ [] ∧ Reads (readLengthPrefixedString locals) (b :: t) db text db := by
  have hinteger (hb' : b = 0xC0 ∨ b = 0xC1 ∨ b = 0xC2) :
      ∃ text, text ≠ [] ∧ Reads (readLengthPrefixedString locals) (b :: t) db text db :=
    ⟨_, (toDecimal_numeral _).nonempty,
      reads_readLengthPrefixedString (rdbString_littleEndian hb' ht)⟩
  rcases stringByte_cases b hb with h | h | h | ⟨htag, hwidth⟩
  · exact hinteger (.inl h)
  · exact hinteger (.inr (.inl h))
  · exact hinteger (.inr (.inr h))
  · rw [hwidth] at ht
    refine ⟨t, ?_, Reads.frame locals fun l => Reads.readByte_bind _ ?_⟩
    · rintro rfl
      exact hb.1 (UInt8.toNat.inj ht.symm)
    · rw [if_neg htag]
      exact Reads.read ht (List.length_replicate ..) db

/-- Other strings are empty. -/
theorem readLengthPrefixedString_of_not (hb : ¬ StringByte b) :
    (readLengthPrefixedString locals ⟨⟨b :: t, false⟩, n, db⟩).1 = [] := by
  rw [readLengthPrefixedString, Reader.frame_bind, ReaderState.enter_mk, Reader.readByte_bind_cons]
  rcases not_stringByte_cases b hb with rfl | ⟨htag, h0, h1, h2⟩
  · rfl
  · rw [if_pos htag, readEncodedString, if_neg h0, if_neg h1, if_neg h2]
    rfl

theorem readWord_mod {c : UInt8} {destination : Bytes} (hd : destination ≠ []) :
    (Reader.readWord destination ⟨⟨c :: t, false⟩, n, db⟩).1 % 2 ^ 8 = c.toNat := by
  have hgot : ∃ l, ((IFStream.mk (c :: t) false).read destination.length).1 = c :: l := by
    obtain ⟨d, destination, rfl⟩ := List.exists_cons_of_ne_nil hd
    by_cases hlength : (d :: destination).length ≤ (c :: t).length
    · refine ⟨t.take destination.length, ?_⟩
      simp only [IFStream.read, Bool.false_eq_true, if_false, if_pos hlength]
      rfl
    · refine ⟨t, ?_⟩
      simp only [IFStream.read, Bool.false_eq_true, if_false, if_neg hlength]
  obtain ⟨l, hl⟩ := hgot
  have hword : (Reader.readWord destination ⟨⟨c :: t, false⟩, n, db⟩).1 = littleEndian
      (overlay ((IFStream.mk (c :: t) false).read destination.length).1 destination) := rfl
  have hbyte := c.toNat_lt
  rw [hword, hl, overlay, List.cons_append, littleEndian]
  omega

theorem shiftLeft_or_mod (b c : UInt8) : (b.toNat <<< 8 ||| c.toNat) % 2 ^ 8 = c.toNat := by
  rw [Nat.or_mod_two_pow, Nat.shiftLeft_eq, Nat.mul_mod_left, Nat.zero_or,
    Nat.mod_eq_of_lt c.toNat_lt]

/-- The size that is read, down to one byte. -/
theorem readSizeEncoded_mod {c : UInt8} (h : lowByte b t = some c) :
    (readSizeEncoded locals b ⟨⟨t, false⟩, n, db⟩).1 % 2 ^ 8 = c.toNat := by
  rw [readSizeEncoded, Reader.frame_bind, ReaderState.enter_mk]
  rw [lowByte] at h
  rcases tag_cases b with htag | htag | htag | htag
  · rw [if_pos htag] at h ⊢
    cases h
    exact Nat.mod_eq_of_lt b.toNat_lt
  · rw [htag, if_neg (by decide), if_neg (by decide)] at h
    rw [htag, if_neg (by decide), if_pos rfl]
    obtain ⟨t, rfl⟩ := List.head?_eq_some_iff.mp h
    rw [Reader.readByte_bind_cons]
    exact shiftLeft_or_mod b c
  · rw [htag, if_neg (by decide), if_neg (by decide)] at h
    rw [htag, if_neg (by decide), if_neg (by decide), if_pos rfl]
    obtain ⟨t, rfl⟩ := List.head?_eq_some_iff.mp h
    exact readWord_mod (List.cons_ne_nil _ _)
  · rw [htag, if_neg (by decide), if_pos rfl] at h
    rw [htag, if_neg (by decide), if_neg (by decide), if_neg (by decide)]
    cases h
    rfl

theorem reads_size (locals : ℕ → Locals) (db : Database) (ht : t.length = sizeWidth b) :
    ∃ v, Reads (readSizeEncoded locals b) t db v db := by
  rw [sizeWidth] at ht
  rcases tag_cases b with htag | htag | htag | htag
  · rw [htag, if_neg (by decide), if_neg (by decide)] at ht
    obtain rfl := List.eq_nil_of_length_eq_zero ht
    refine ⟨b.toNat, Reads.frame locals fun l => ?_⟩
    rw [if_pos htag]
    exact Reads.pure _ db
  · rw [if_pos htag] at ht
    obtain ⟨c, rfl⟩ := List.length_eq_one_iff.mp ht
    refine ⟨b.toNat <<< 8 ||| c.toNat, Reads.frame locals fun l => ?_⟩
    rw [htag, if_neg (by decide), if_pos rfl]
    exact Reads.readByte_bind _ (Reads.pure _ db)
  · rw [htag, if_neg (by decide), if_pos rfl] at ht
    have hsmall := littleEndian_lt t
    have hbytes := toLittleEndian_littleEndian t
    rw [ht] at hsmall hbytes
    refine ⟨littleEndian t, Reads.frame locals fun l => ?_⟩
    rw [htag, if_neg (by decide), if_neg (by decide), if_pos rfl, ← hbytes]
    have hword : Reads (Reader.readWord (toLittleEndian 8 l.next4Bytes.toNat)) _ db _ db :=
      Reads.readWord hsmall (length_toLittleEndian 8 _) db
    rw [hbytes] at hword ⊢
    exact hword
  · rw [htag, if_neg (by decide), if_neg (by decide)] at ht
    obtain rfl := List.eq_nil_of_length_eq_zero ht
    refine ⟨0, Reads.frame locals fun l => ?_⟩
    rw [htag, if_neg (by decide), if_neg (by decide), if_neg (by decide)]
    exact Reads.pure _ db

/-! ### The places of the parser -/

/-- `readMetaData` behind the name of the attribute. -/
def readValue (locals : ℕ → Locals) (attributeName : Bytes) : Reader Database Bool := do
  let value ← readLengthPrefixedString locals
  pure (decide (¬ (attributeName = [] ∨ value = [])))

/-- `readDatabase` behind its frame. -/
def readIndex (locals : ℕ → Locals) (valueType nextByte : UInt8) : Reader Database Bool := do
  let nextByte ← Reader.readByte nextByte
  let _databaseIndex ← readSizeEncoded locals nextByte
  readIndicator locals valueType nextByte

/-- What the parser does in a place, with the opcode that has led it there. -/
inductive At (locals : ℕ → Locals) : Place → UInt8 → Reader Database Bool → Prop
  | opcode {m : Bool} (indicator : UInt8) : (m = true ↔ indicator = 0xFA) →
      At locals (.opcode m) indicator (pure true)
  | name : At locals .name 0xFA (readMetaData locals)
  | value {name : Bytes} : name ≠ [] → At locals .value 0xFA (readValue locals name)
  | index (valueType nextByte : UInt8) :
      At locals .index 0xFE (readIndex locals valueType nextByte)
  | indicator (valueType nextByte : UInt8) :
      At locals .indicator 0xFE (readIndicator locals valueType nextByte)
  | size (valueType : UInt8) : At locals .size 0xFE (readTable locals valueType 0xFB)
  | expiries (valueType nextByte : UInt8) {k : ℕ} : k % 2 ^ 8 = 0 →
      At locals .expiries 0xFE (readExpiries locals valueType k nextByte)

/-- The rest of a round of the loop, and the rounds behind it. -/
def finish (locals : ℕ → Locals) (indicator : UInt8) (p : Reader Database Bool) :
    Reader Database Bool := fun s =>
  if (p s).1 then parseLoop locals indicator (p s).2 else (false, (p s).2)

/-- Nothing is reported and nothing is stored. -/
def Idle (p : Reader Database Bool) (s : ReaderState Database) : Prop :=
  (p s).1 = true ∧ (p s).2.state = s.state

theorem finish_of_continues (h : Continues p xs db q db) (locals : ℕ → Locals) (indicator : UInt8)
    (ys : Bytes) (n : ℕ) : ∃ m, finish locals indicator p ⟨⟨xs ++ ys, false⟩, n, db⟩
      = finish locals indicator q ⟨⟨ys, false⟩, m, db⟩ := by
  obtain ⟨m, hm⟩ := h ys n
  exact ⟨m, by rw [finish, finish, hm]⟩

/-- The loop ends with the stream. -/
theorem idle_finish_of_fail (h : Idle p s) (hfail : (p s).2.file.fail = true) :
    Idle (finish locals indicator p) s := by
  obtain ⟨htrue, hstate⟩ := h
  rw [Idle, finish, if_pos htrue, parseLoop_of_fail locals indicator hfail]
  exact ⟨rfl, hstate⟩

theorem finish_pure (s : ReaderState Database) :
    finish locals indicator (pure true) s = parseLoop locals indicator s := rfl

theorem continues_readIndex (valueType nextByte : UInt8) (ht : t.length = sizeWidth b) :
    Continues (readIndex locals valueType nextByte) (b :: t) db
      (readIndicator locals valueType b) db := by
  obtain ⟨v, hread⟩ := reads_size locals db ht
  exact Continues.readByte_bind nextByte (Continues.of_reads hread _)

theorem continues_readTable (valueType : UInt8) (ht : t.length = sizeWidth b) :
    ∃ v, v % 2 ^ 8 = (readSizeEncoded locals b ⟨⟨t, false⟩, n, db⟩).1 % 2 ^ 8 ∧
      Continues (readTable locals valueType 0xFB) (b :: t) db
        (readExpiries locals valueType v b) db := by
  obtain ⟨v, hread⟩ := reads_size locals db ht
  refine ⟨v, ?_, Continues.readByte_bind 0xFB (Continues.of_reads hread _)⟩
  obtain ⟨m, hm⟩ := hread [] n
  rw [List.append_nil] at hm
  rw [hm]

theorem continues_readExpiries (valueType nextByte : UInt8) (k : ℕ) (ht : t.length = sizeWidth b) :
    Continues (readExpiries locals valueType k nextByte) (b :: t) db
      (readEntries locals (k % 2 ^ 8) b valueType) db := by
  obtain ⟨v, hread⟩ := reads_size locals db ht
  exact Continues.readByte_bind nextByte (Continues.of_reads hread _)

/-- One step of the automaton is one step of the parser. -/
theorem Passes.run (h : Passes place xs place') (hat : At locals place indicator p) (ys : Bytes)
    (n : ℕ) (db : Database) : ∃ indicator' q m, At locals place' indicator' q ∧
      finish locals indicator p ⟨⟨xs ++ ys, false⟩, n, db⟩
        = finish locals indicator' q ⟨⟨ys, false⟩, m, db⟩ := by
  cases h with
  | @other _ b hFA hFE =>
    cases hat
    refine ⟨b, pure true, n, .opcode b (by simp [hFA]), ?_⟩
    rw [finish_pure, List.singleton_append, parseLoop_cons, readIndicated_other ⟨hFA, hFE⟩]
    rfl
  | metadata =>
    cases hat
    refine ⟨0xFA, readMetaData locals, n, .name, ?_⟩
    rw [finish_pure, List.singleton_append, parseLoop_cons]
    rfl
  | name hb ht =>
    cases hat
    obtain ⟨text, htext, hread⟩ := reads_string locals db hb ht
    obtain ⟨m, hm⟩ := finish_of_continues (Continues.of_reads hread (readValue locals)) locals 0xFA ys n
    exact ⟨0xFA, readValue locals text, m, .value htext, hm⟩
  | value hb ht =>
    cases hat with
    | @value name hname =>
      obtain ⟨text, htext, hread⟩ := reads_string locals db hb ht
      have hvalue : (pure (decide (¬ (name = [] ∨ text = []))) : Reader Database Bool) = pure true := by
        simp [hname, htext]
      obtain ⟨m, hm⟩ := finish_of_continues (Continues.of_reads hread fun value =>
        pure (decide (¬ (name = [] ∨ value = [])))) locals 0xFA ys n
      rw [hvalue] at hm
      exact ⟨0xFA, pure true, m, .opcode 0xFA (by simp), hm⟩
  | «section» =>
    cases hat
    refine ⟨0xFE, readIndex locals (locals n).valueType (locals n).nextByte, n + 1, .index _ _, ?_⟩
    rw [finish_pure, List.singleton_append, parseLoop_cons]
    rfl
  | @index b _ ht =>
    cases hat with
    | index valueType nextByte =>
      obtain ⟨m, hm⟩ := finish_of_continues
        (continues_readIndex valueType nextByte ht) locals 0xFE ys n
      exact ⟨0xFE, _, m, .indicator valueType b, hm⟩
  | table =>
    cases hat with
    | indicator valueType nextByte =>
      refine ⟨0xFE, _, n, .size valueType, ?_⟩
      rw [finish, finish, readIndicator, List.singleton_append, Reader.readByte_bind_cons, if_pos rfl]
  | @noTable b hb =>
    cases hat with
    | indicator valueType nextByte =>
      refine ⟨0xFE, pure true, n, .opcode 0xFE (by decide), ?_⟩
      rw [finish, finish, readIndicator, List.singleton_append, Reader.readByte_bind_cons, if_neg hb]
  | @size b t ht hlow =>
    cases hat with
    | size valueType =>
      obtain ⟨v, hv, hcontinues⟩ := @continues_readTable locals b t db n valueType ht
      rw [readSizeEncoded_mod hlow] at hv
      obtain ⟨m, hm⟩ := finish_of_continues hcontinues locals 0xFE ys n
      exact ⟨0xFE, _, m, .expiries valueType b hv, hm⟩
  | @expiries b _ ht =>
    cases hat with
    | @expiries valueType nextByte k hk =>
      obtain ⟨m, hm⟩ := finish_of_continues
        (continues_readExpiries valueType nextByte k ht) locals 0xFE ys n
      rw [hk] at hm
      exact ⟨0xFE, pure true, m, .opcode 0xFE (by decide), hm⟩

/-! ### Trailers that are cut off -/

theorem exists_complete {k : ℕ} (ht : t.length < k) : ∃ us, us ≠ [] ∧ (t ++ us).length = k := by
  refine ⟨List.replicate (k - t.length) 0, ?_, ?_⟩
  · rw [Ne, List.replicate_eq_nil_iff]
    omega
  · rw [List.length_append, List.length_replicate]
    omega

theorem readSizeEncoded_of_short (ht : t.length < sizeWidth b) :
    (readSizeEncoded locals b ⟨⟨t, false⟩, n, db⟩).2.file.fail = true := by
  obtain ⟨us, hus, hlength⟩ := exists_complete ht
  obtain ⟨v, hread⟩ := reads_size locals db hlength
  exact (composes_readSizeEncoded locals Local.composes b).fail_of_reads hread hus n

theorem readLengthPrefixedString_of_short (hb : StringByte b) (ht : t.length < stringWidth b) :
    (readLengthPrefixedString locals ⟨⟨b :: t, false⟩, n, db⟩).2.file.fail = true := by
  obtain ⟨us, hus, hlength⟩ := exists_complete ht
  obtain ⟨text, -, hread⟩ := reads_string locals db hb hlength
  rw [← List.cons_append] at hread
  exact (composes_readLengthPrefixedString locals Local.composes).fail_of_reads hread hus n

/-- A string that is cut off is not empty either. -/
theorem readLengthPrefixedString_ne_nil (hb : StringByte b) :
    (readLengthPrefixedString locals ⟨⟨b :: t, false⟩, n, db⟩).1 ≠ [] := by
  have hdecimal (v : ℕ) : toDecimal v ≠ [] := (toDecimal_numeral v).nonempty
  rw [readLengthPrefixedString, Reader.frame_bind, ReaderState.enter_mk, Reader.readByte_bind_cons]
  rcases stringByte_cases b hb with rfl | rfl | rfl | ⟨htag, -⟩
  · exact hdecimal _
  · exact hdecimal _
  · exact hdecimal _
  · rw [if_neg htag]
    intro hnil
    have hlength := congrArg List.length hnil
    have hpos : b.toNat ≠ 0 := fun hzero => hb.1 (UInt8.toNat.inj hzero)
    simp only [Reader.read, overlay, List.length_append, List.length_drop, List.length_replicate,
      List.length_nil] at hlength
    omega

/-- Without entries nothing happens behind the size of a table. -/
theorem idle_readExpiries {valueType nextByte : UInt8} {k : ℕ} (hk : k % 2 ^ 8 = 0)
    (s : ReaderState Database) : Idle (readExpiries locals valueType k nextByte) s := by
  have hinert : Inert (readExpiries locals valueType k nextByte) := by
    rw [readExpiries, hk]
    exact Inert.composes.bind (Inert.composes.readByte _) fun _ =>
      Inert.composes.bind (composes_readSizeEncoded locals Inert.composes _) fun _ =>
        Inert.composes.pure _
  refine ⟨?_, hinert s⟩
  rw [readExpiries, hk]
  rfl

theorem idle_readTable_of_fail {valueType : UInt8} (hs : s.file.fail = true) :
    Idle (readTable locals valueType 0xFB) s := by
  refine ⟨?_, readTable_of_fail hs⟩
  rw [readTable, Reader.readByte_bind_of_fail _ _ hs, Reader.bind_apply, readSizeEncoded_tag]
  exact (idle_readExpiries rfl _).1

theorem idle_readIndicator_of_fail {valueType nextByte : UInt8} (hs : s.file.fail = true) :
    Idle (readIndicator locals valueType nextByte) s := by
  refine ⟨?_, readIndicator_of_fail hs⟩
  rw [readIndicator, Reader.readByte_bind_of_fail _ _ hs]
  split
  · next h =>
    rw [h]
    exact (idle_readTable_of_fail hs).1
  · rfl

theorem idle_readByte_end {f : UInt8 → Reader Database Bool} {destination : UInt8}
    (h : Idle (finish locals indicator (f destination)) ⟨⟨[], true⟩, n, db⟩) :
    Idle (finish locals indicator (Reader.readByte destination >>= f)) ⟨⟨[], false⟩, n, db⟩ := by
  rw [Idle, finish, Reader.readByte_bind_end]
  exact h

theorem idle_readByte_cons {f : UInt8 → Reader Database Bool} {destination : UInt8}
    (h : Idle (finish locals indicator (f b)) ⟨⟨t, false⟩, n, db⟩) :
    Idle (finish locals indicator (Reader.readByte destination >>= f)) ⟨⟨b :: t, false⟩, n, db⟩ := by
  rw [Idle, finish, Reader.readByte_bind_cons]
  exact h

/-- A section ends with its index where the stream does. -/
theorem idle_index_of_fail {valueType nextByte : UInt8}
    (hs : (readSizeEncoded locals nextByte s).2.file.fail = true) :
    Idle (finish locals indicator (readSizeEncoded locals nextByte >>= fun _ =>
      readIndicator locals valueType nextByte)) s := by
  apply idle_finish_of_fail
  · exact ⟨(idle_readIndicator_of_fail hs).1, (idle_readIndicator_of_fail hs).2.trans
      (composes_readSizeEncoded locals Inert.composes nextByte s)⟩
  · exact (composes_readIndicator Local.composes (fun _ _ _ => Local.update _) _ _).fail _ hs

/-- A table ends with its size, if that is zero as far as it is there. -/
theorem idle_size_of_fail {valueType : UInt8} (hk : (readSizeEncoded locals b s).1 % 2 ^ 8 = 0)
    (hs : (readSizeEncoded locals b s).2.file.fail = true) :
    Idle (finish locals indicator (readSizeEncoded locals b >>= fun hashTableSize =>
      readExpiries locals valueType hashTableSize b)) s := by
  apply idle_finish_of_fail
  · exact ⟨(idle_readExpiries hk _).1, (idle_readExpiries hk _).2.trans
      (composes_readSizeEncoded locals Inert.composes b s)⟩
  · exact (composes_readExpiries Local.composes (fun _ _ _ => Local.update _) _ _ _).fail _ hs

theorem idle_expiries_of_fail {valueType : UInt8} {k : ℕ} (hk : k = 0)
    (hs : (readSizeEncoded locals b s).2.file.fail = true) :
    Idle (finish locals indicator (readSizeEncoded locals b >>= fun _ =>
      readEntries locals k b valueType)) s := by
  subst hk
  exact idle_finish_of_fail ⟨rfl, composes_readSizeEncoded locals Inert.composes b s⟩ hs

theorem idle_readDatabase_of_fail (hs : s.file.fail = true) : (readDatabase locals s).1 = true := by
  have henter : s.enter.file.fail = true := hs
  rw [readDatabase_eq, Reader.frame_bind, Reader.readByte_bind_of_fail _ _ henter,
    Reader.bind_apply]
  exact (idle_readIndicator_of_fail (readSizeEncoded_of_fail _ henter).1).1

/-- The parser has nothing left to do where the trailer may end. -/
theorem Stops.idle (h : Stops place xs) (hat : At locals place indicator p) (n : ℕ)
    (db : Database) : Idle (finish locals indicator p) ⟨⟨xs, false⟩, n, db⟩ := by
  have hend : (ReaderState.mk ⟨[], true⟩ n db).file.fail = true := rfl
  have hsize (nextByte : UInt8) :
      (readSizeEncoded locals nextByte ⟨⟨[], true⟩, n, db⟩).2.file.fail = true :=
    (readSizeEncoded_of_fail nextByte hend).1
  cases h with
  | opcode =>
    cases hat with
    | opcode _ hm =>
      have hFA : indicator ≠ 0xFA := fun heq => Bool.false_ne_true (hm.mpr heq)
      rw [Idle, finish_pure, parseLoop_end]
      by_cases hFE : indicator = 0xFE
      · subst hFE
        exact ⟨idle_readDatabase_of_fail hend, readDatabase_of_fail hend⟩
      · rw [readIndicated_other ⟨hFA, hFE⟩]
        exact ⟨rfl, rfl⟩
  | @value b t hb ht =>
    cases hat with
    | @value name hname =>
      have hvalue : decide (¬ (name = [] ∨
          (readLengthPrefixedString locals ⟨⟨b :: t, false⟩, n, db⟩).1 = [])) = true := by
        rw [decide_eq_true_eq, not_or]
        exact ⟨hname, readLengthPrefixedString_ne_nil hb⟩
      have hinert := composes_readLengthPrefixedString locals Inert.composes ⟨⟨b :: t, false⟩, n, db⟩
      exact idle_finish_of_fail ⟨hvalue, hinert⟩ (readLengthPrefixedString_of_short hb ht)
  | noIndex =>
    cases hat with
    | index valueType nextByte => exact idle_readByte_end (idle_index_of_fail (hsize _))
  | index ht =>
    cases hat with
    | index valueType nextByte =>
      exact idle_readByte_cons (idle_index_of_fail (readSizeEncoded_of_short ht))
  | indicator =>
    cases hat with
    | indicator valueType nextByte =>
      rw [readIndicator]
      apply idle_readByte_end
      split
      · next h =>
        rw [h]
        exact idle_finish_of_fail (idle_readTable_of_fail hend)
          ((composes_readTable Local.composes (fun _ _ _ => Local.update _) _ _).fail _ hend)
      · exact idle_finish_of_fail ⟨rfl, rfl⟩ hend
  | noSize =>
    cases hat with
    | size valueType => exact idle_readByte_end (idle_size_of_fail rfl (hsize _))
  | size ht hlow =>
    cases hat with
    | size valueType =>
      exact idle_readByte_cons (idle_size_of_fail (readSizeEncoded_mod hlow)
        (readSizeEncoded_of_short ht))
  | noExpiries =>
    cases hat with
    | expiries valueType nextByte hk => exact idle_readByte_end (idle_expiries_of_fail hk (hsize _))
  | expiries ht =>
    cases hat with
    | expiries valueType nextByte hk =>
      exact idle_readByte_cons (idle_expiries_of_fail hk (readSizeEncoded_of_short ht))

/-- A harmless trailer has no effect. -/
theorem Harmless.idle (h : Harmless place xs) (hat : At locals place indicator p) (n : ℕ)
    (db : Database) : Idle (finish locals indicator p) ⟨⟨xs, false⟩, n, db⟩ := by
  induction h generalizing indicator p n with
  | stop hstops => exact hstops.idle hat n db
  | @pass _ _ xs ys hpasses _ ih =>
    obtain ⟨indicator', q, m, hat', hm⟩ := hpasses.run hat ys n db
    rw [Idle, hm]
    exact ih hat' m

/-- The end marker falls through the `switch` like any other byte. -/
theorem parseLoop_endMarker (trailer : Bytes) (n : ℕ) (db : Database) :
    parseLoop locals indicator ⟨⟨0xFF :: trailer, false⟩, n, db⟩ =
      finish locals 0xFF (pure true) ⟨⟨trailer, false⟩, n, db⟩ := by
  rw [parseLoop_cons, readIndicated_other (by decide)]
  rfl

theorem Harmless.parseLoop_endMarker (h : Harmless (.opcode false) xs) (n : ℕ) (db : Database) :
    (parseLoop locals indicator ⟨⟨0xFF :: xs, false⟩, n, db⟩).2.state = db := by
  rw [FileTrailers.parseLoop_endMarker]
  exact (h.idle (.opcode 0xFF (by decide)) n db).2

/-! ### Trailers with an effect -/

/-- Locals that leave strings empty and make every size one. -/
def blank : Locals := { (default : Locals) with nextByte := 1, next4Bytes := 1 }

/-- A key is never removed. -/
def Keeps (key : Bytes) {α : Type} (p : Reader Database α) : Prop :=
  ∀ s, key ∈ s.state → key ∈ (p s).2.state

theorem composes_keeps (key : Bytes) : Composes (Keeps key) where
  pure _ _ h := h
  bind hp hf s h := hf _ _ (hp s h)
  frame _ _ h := h
  read _ _ _ h := h

theorem keeps_set (key : Bytes) (key' value : Bytes) (expiryTime : ℤ) :
    Keeps key (Reader.update (DatabaseHandler.set key' value expiryTime)) :=
  fun _ h => Finmap.mem_insert.mpr (.inr h)

theorem mem_parseLoop {key : Bytes} (h : key ∈ s.state) :
    key ∈ (parseLoop locals indicator s).2.state := by
  induction hn : s.file.remaining using Nat.strong_induction_on generalizing indicator s with
  | _ n ih =>
    subst hn
    by_cases hs : s.file.fail = false
    · have hbyte := Advances.readByte_lt indicator hs
      rw [parseLoop, dif_pos hs]
      rcases hread : Reader.readByte indicator s with ⟨b, s'⟩
      rw [hread] at hbyte
      have hkept : key ∈ s'.state := by
        have hmem := (composes_keeps key).readByte indicator s h
        rwa [hread] at hmem
      have hround := composes_readIndicated locals (composes_keeps key) (keeps_set key) b s' hkept
      have hless := (advances_readIndicated locals b s').trans_lt hbyte
      dsimp only
      split
      · exact ih _ hless hround rfl
      · exact hround
    · rwa [parseLoop_of_fail locals indicator (by simpa using hs)]

theorem not_idle_finish (hs : s.state = ∅) (h : (p s).1 = true → ∃ key, key ∈ (p s).2.state) :
    ¬ Idle (finish locals indicator p) s := by
  rintro ⟨htrue, hstate⟩
  rw [finish] at htrue hstate
  by_cases hp : (p s).1 = true
  · obtain ⟨key, hkey⟩ := h hp
    rw [if_pos hp, hs] at hstate
    have hmem := @mem_parseLoop locals indicator (p s).2 key hkey
    rw [hstate] at hmem
    exact Finmap.notMem_empty hmem
  · rw [if_neg hp] at htrue
    exact Bool.false_ne_true htrue

/-- A round that does not report an error has stored something. -/
theorem exists_mem_readTypedEntry {valueType : UInt8} {expiryTime : ℤ}
    (h : (readTypedEntry locals valueType expiryTime s).1 = true) :
    ∃ key, key ∈ (readTypedEntry locals valueType expiryTime s).2.state := by
  by_cases htype : valueType = 0x0
  · refine ⟨(readStringKeyValue locals s).1.1, ?_⟩
    rw [readTypedEntry, if_pos htype]
    exact Finmap.mem_insert.mpr (.inl rfl)
  · rw [readTypedEntry, if_neg htype] at h
    exact absurd h Bool.false_ne_true

theorem exists_mem_readEntry {nextByte valueType : UInt8}
    (h : (readEntry locals nextByte valueType s).1.1 = true) :
    ∃ key, key ∈ (readEntry locals nextByte valueType s).2.state := by
  rw [readEntry, Reader.frame_bind, Reader.bind_apply] at h ⊢
  split at h
  · next hb =>
    rw [if_pos hb]
    exact exists_mem_readTypedEntry h
  · next hb =>
    rw [if_neg hb]
    split at h
    · next hb' =>
      rw [if_pos hb']
      exact exists_mem_readTypedEntry h
    · next hb' =>
      rw [if_neg hb']
      exact exists_mem_readTypedEntry h

theorem exists_mem_readEntries {nextByte valueType : UInt8} {k : ℕ} (hk : k ≠ 0)
    (h : (readEntries locals k nextByte valueType s).1 = true) :
    ∃ key, key ∈ (readEntries locals k nextByte valueType s).2.state := by
  obtain ⟨k, rfl⟩ := Nat.exists_eq_succ_of_ne_zero hk
  rw [readEntries, Reader.bind_apply] at h ⊢
  by_cases hround : (readEntry locals nextByte valueType s).1.1 = true
  · obtain ⟨key, hkey⟩ := exists_mem_readEntry hround
    rw [if_pos hround]
    exact ⟨key, composes_readEntries locals (composes_keeps key) (keeps_set key) _ _ _ _ hkey⟩
  · rw [if_neg hround] at h
    exact absurd h Bool.false_ne_true

/-- The size that is made of what the variables hold. -/
theorem readSizeEncoded_blank (h : lowByte b t = none) :
    (readSizeEncoded (fun _ => blank) b ⟨⟨t, false⟩, n, db⟩).1 % 2 ^ 8 = 1 := by
  rw [readSizeEncoded, Reader.frame_bind, ReaderState.enter_mk]
  rw [lowByte] at h
  rcases tag_cases b with htag | htag | htag | htag
  · rw [if_pos htag] at h
    exact absurd h (Option.some_ne_none b)
  · rw [htag, if_neg (by decide), if_neg (by decide)] at h
    obtain rfl := List.head?_eq_none_iff.mp h
    rw [htag, if_neg (by decide), if_pos rfl, Reader.readByte_bind_end]
    exact shiftLeft_or_mod b 1
  · rw [htag, if_neg (by decide), if_neg (by decide)] at h
    obtain rfl := List.head?_eq_none_iff.mp h
    rw [htag, if_neg (by decide), if_neg (by decide), if_pos rfl]
    rfl
  · rw [htag, if_neg (by decide), if_pos rfl] at h
    exact absurd h (Option.some_ne_none 0)

/-- A table whose size is a byte that is not zero, or is not there. -/
theorem exists_mem_readTable {valueType : UInt8} (hlow : lowByte b t ≠ some 0)
    (h : (readTable (fun _ => blank) valueType 0xFB ⟨⟨b :: t, false⟩, n, db⟩).1 = true) :
    ∃ key, key ∈ (readTable (fun _ => blank) valueType 0xFB ⟨⟨b :: t, false⟩, n, db⟩).2.state := by
  have hk : (readSizeEncoded (fun _ => blank) b ⟨⟨t, false⟩, n, db⟩).1 % 2 ^ 8 ≠ 0 := by
    cases hbyte : lowByte b t with
    | none =>
      rw [readSizeEncoded_blank hbyte]
      exact Nat.one_ne_zero
    | some c =>
      rw [readSizeEncoded_mod hbyte]
      intro hzero
      have hc : c = 0 := UInt8.toNat.inj hzero
      exact hlow (hbyte.trans (congrArg some hc))
  rw [readTable, Reader.readByte_bind_cons, Reader.bind_apply, readExpiries] at h ⊢
  exact exists_mem_readEntries hk h

/-- What is read for a string at the end of the stream. -/
theorem readLengthPrefixedString_blank (hs : s.file.fail = true) :
    (readLengthPrefixedString (fun _ => blank) s).1 = [] := by
  have henter : s.enter.file.fail = true := hs
  rw [readLengthPrefixedString, Reader.frame_bind, Reader.readByte_bind_of_fail _ _ henter,
    if_neg (by decide), Reader.read, IFStream.read, if_pos henter]
  rfl

/-- What is read where there is no string, or one that is empty. -/
theorem readLengthPrefixedString_empty (h : ∀ b t, xs = b :: t → ¬ StringByte b) :
    (readLengthPrefixedString (fun _ => blank) ⟨⟨xs, false⟩, n, db⟩).1 = [] := by
  cases xs with
  | nil =>
    rw [readLengthPrefixedString, Reader.frame_bind, ReaderState.enter_mk, Reader.readByte_bind_end,
      if_neg (by decide)]
    rfl
  | cons b t => exact readLengthPrefixedString_of_not (h b t rfl)

theorem readMetaData_eq_false (h : (readLengthPrefixedString locals s).1 = [] ∨
    (readLengthPrefixedString locals (readLengthPrefixedString locals s).2).1 = []) :
    (readMetaData locals s).1 = false :=
  decide_eq_false (not_not.mpr h)

theorem readValue_eq_false {name : Bytes} (h : (readLengthPrefixedString locals s).1 = []) :
    (readValue locals name s).1 = false :=
  decide_eq_false (not_not.mpr (.inr h))

theorem not_idle_of_false (hs : s.state = ∅) (h : (p s).1 = false) :
    ¬ Idle (finish locals indicator p) s :=
  not_idle_finish hs fun htrue => absurd (h.symm.trans htrue) Bool.false_ne_true

theorem exists_split {k : ℕ} (h : ¬ t.length < k) : ∃ us vs, t = us ++ vs ∧ us.length = k :=
  ⟨t.take k, t.drop k, (List.take_append_drop k t).symm, List.length_take_of_le (not_lt.mp h)⟩

theorem lowByte_append (ht : t.length = sizeWidth b) (vs : Bytes) :
    lowByte b (t ++ vs) = lowByte b t := by
  rw [lowByte, lowByte]
  rw [sizeWidth] at ht
  cases t with
  | nil =>
    rcases tag_cases b with htag | htag | htag | htag
    · rw [if_pos htag, if_pos htag]
    · rw [if_pos htag] at ht
      exact absurd ht Nat.zero_ne_one
    · rw [htag, if_neg (by decide), if_pos rfl] at ht
      exact absurd ht (by decide)
    · rw [htag, if_neg (by decide), if_pos rfl, if_neg (by decide), if_pos rfl]
  | cons c t => rfl

/-- Where a string begins that is not empty. -/
theorem string_cases (xs : Bytes) : (∃ b us vs, StringByte b ∧ us.length = stringWidth b ∧
      xs = b :: (us ++ vs)) ∨
    (∃ b t, StringByte b ∧ t.length < stringWidth b ∧ xs = b :: t) ∨
    ∀ b t, xs = b :: t → ¬ StringByte b := by
  cases xs with
  | nil => exact .inr (.inr fun b t h => absurd h.symm (List.cons_ne_nil b t))
  | cons b t =>
    by_cases hb : StringByte b
    · by_cases ht : t.length < stringWidth b
      · exact .inr (.inl ⟨b, t, hb, ht, rfl⟩)
      · obtain ⟨us, vs, rfl, hus⟩ := exists_split ht
        exact .inl ⟨b, us, vs, hb, hus, rfl⟩
    · right
      right
      intro b' t' h
      obtain ⟨rfl, -⟩ := List.cons.inj h
      exact hb

/-- Where the parser has nothing to do the trailer ends, or it leads to another place. -/
theorem stops_or_passes (hat : At (fun _ => blank) place indicator p)
    (hidle : Idle (finish (fun _ => blank) indicator p) ⟨⟨xs, false⟩, n, ∅⟩) :
    Stops place xs ∨ ∃ us vs place', us ≠ [] ∧ xs = us ++ vs ∧ Passes place us place' := by
  cases hat with
  | @opcode m _ hm =>
    cases xs with
    | nil =>
      cases m with
      | false => exact .inl .opcode
      | true =>
        obtain rfl := hm.mp rfl
        have hmetadata : readIndicated (fun _ => blank) 0xFA = readMetaData (fun _ => blank) := rfl
        rw [Idle, finish_pure, parseLoop_end, hmetadata,
          readMetaData_eq_false (.inl (readLengthPrefixedString_blank rfl))] at hidle
        exact absurd hidle.1 Bool.false_ne_true
    | cons b t =>
      right
      by_cases hFA : b = 0xFA
      · exact ⟨[b], t, .name, List.cons_ne_nil b [], rfl, hFA ▸ .metadata⟩
      · by_cases hFE : b = 0xFE
        · exact ⟨[b], t, .index, List.cons_ne_nil b [], rfl, hFE ▸ .section⟩
        · exact ⟨[b], t, .opcode false, List.cons_ne_nil b [], rfl, .other hFA hFE⟩
  | name =>
    rcases string_cases xs with ⟨b, us, vs, hb, hus, rfl⟩ | ⟨b, t, hb, ht, rfl⟩ | hempty
    · exact .inr ⟨b :: us, vs, .value, List.cons_ne_nil b us, rfl, .name hb hus⟩
    · exact absurd hidle (not_idle_of_false rfl (readMetaData_eq_false
        (.inr (readLengthPrefixedString_blank (readLengthPrefixedString_of_short hb ht)))))
    · exact absurd hidle (not_idle_of_false rfl
        (readMetaData_eq_false (.inl (readLengthPrefixedString_empty hempty))))
  | value hname =>
    rcases string_cases xs with ⟨b, us, vs, hb, hus, rfl⟩ | ⟨b, t, hb, ht, rfl⟩ | hempty
    · exact .inr ⟨b :: us, vs, .opcode true, List.cons_ne_nil b us, rfl, .value hb hus⟩
    · exact .inl (.value hb ht)
    · exact absurd hidle (not_idle_of_false rfl
        (readValue_eq_false (readLengthPrefixedString_empty hempty)))
  | index =>
    cases xs with
    | nil => exact .inl .noIndex
    | cons b t =>
      by_cases ht : t.length < sizeWidth b
      · exact .inl (.index ht)
      · obtain ⟨us, vs, rfl, hus⟩ := exists_split ht
        exact .inr ⟨b :: us, vs, .indicator, List.cons_ne_nil b us, rfl, .index hus⟩
  | indicator =>
    cases xs with
    | nil => exact .inl .indicator
    | cons b t =>
      right
      by_cases hb : b = 0xFB
      · exact ⟨[b], t, .size, List.cons_ne_nil b [], rfl, hb ▸ .table⟩
      · exact ⟨[b], t, .opcode false, List.cons_ne_nil b [], rfl, .noTable hb⟩
  | size valueType =>
    cases xs with
    | nil => exact .inl .noSize
    | cons b t =>
      by_cases hlow : lowByte b t = some 0
      · by_cases ht : t.length < sizeWidth b
        · exact .inl (.size ht hlow)
        · obtain ⟨us, vs, rfl, hus⟩ := exists_split ht
          rw [lowByte_append hus] at hlow
          exact .inr ⟨b :: us, vs, .expiries, List.cons_ne_nil b us, rfl, .size hus hlow⟩
      · exact absurd hidle (not_idle_finish rfl (exists_mem_readTable hlow))
  | expiries =>
    cases xs with
    | nil => exact .inl .noExpiries
    | cons b t =>
      by_cases ht : t.length < sizeWidth b
      · exact .inl (.expiries ht)
      · obtain ⟨us, vs, rfl, hus⟩ := exists_split ht
        exact .inr ⟨b :: us, vs, .opcode false, List.cons_ne_nil b us, rfl, .expiries hus⟩

/-- No other trailer is without an effect on an empty database. -/
theorem harmless_of_idle (hat : At (fun _ => blank) place indicator p)
    (hidle : Idle (finish (fun _ => blank) indicator p) ⟨⟨xs, false⟩, n, ∅⟩) :
    Harmless place xs := by
  induction hk : xs.length using Nat.strong_induction_on generalizing place indicator p xs n with
  | _ k ih =>
    subst hk
    rcases stops_or_passes hat hidle with hstops | ⟨us, vs, place', hus, rfl, hpasses⟩
    · exact .stop hstops
    · obtain ⟨indicator', q, m, hat', hm⟩ := hpasses.run hat vs n ∅
      rw [Idle, hm] at hidle
      have hless : vs.length < (us ++ vs).length := by
        have hpos := List.length_pos_iff.mpr hus
        rw [List.length_append]
        omega
      exact .pass hpasses (ih vs.length hless hat' hidle rfl)

/-! ### Two trailers of one file -/

/-- An item of the data of a file: a metadata pair or a database section. -/
inductive RdbItem : List Entry → Bytes → Prop
  | metadata {pair : Bytes × Bytes} {bytes : Bytes} : RdbMetaData pair bytes → RdbItem [] bytes
  | section {entries : List Entry} {bytes : Bytes} : RdbSection entries bytes →
      RdbItem entries bytes

/-- The header and the data of a file, without the end marker. -/
inductive RdbData : List Entry → Bytes → Prop
  | mk (version : Bytes) {items : List (List Entry)} {data : Bytes} : version.length = 4 →
      Sequence RdbItem items data → RdbData items.flatten (str "REDIS" ++ version ++ data)

/-- The verdict and the database after a file that goes on behind its end marker. -/
def outcome (locals : ℕ → Locals) (data trailer : Bytes) (db : Database) : Bool × Database :=
  let r := parse locals ⟨.opened (data ++ 0xFF :: trailer), 0, db⟩
  (r.1, r.2.state)

theorem readIndicated_item {entries : List Entry} (db : Database) (h : RdbItem entries xs) :
    ∃ b ys, xs = b :: ys ∧ Reads (readIndicated locals b) ys db true (overwrite entries db) := by
  cases h with
  | metadata h => exact readIndicated_metaData db h
  | «section» h => exact readIndicated_section db h

/-- The parser comes to the trailer with the entries of the data. -/
theorem outcome_eq {entries : List Entry} {data : Bytes} (h : RdbData entries data)
    (locals : ℕ → Locals) (trailer : Bytes) (db : Database) : ∃ n,
    outcome locals data trailer db =
      ((finish locals 0xFF (pure true) ⟨⟨trailer, false⟩, n, overwrite entries db⟩).1,
        (finish locals 0xFF (pure true) ⟨⟨trailer, false⟩, n, overwrite entries db⟩).2.state) := by
  cases h with
  | @mk version items data hversion hdata =>
    obtain ⟨m, hm⟩ := parse_header hversion locals db (data ++ 0xFF :: trailer)
    obtain ⟨b, n, hn⟩ := parseLoop_sequence locals db (f := overwrite) readIndicated_item hdata
      (locals 0).indicator (0xFF :: trailer) m
    refine ⟨n, ?_⟩
    rw [outcome, List.append_assoc, hm, hn, ← overwrite_flatten, parseLoop_endMarker]

theorem Harmless.outcome {entries : List Entry} {data trailer : Bytes} (h : RdbData entries data)
    (htrailer : Harmless (.opcode false) trailer) (locals : ℕ → Locals) (db : Database) :
    outcome locals data trailer db = (true, overwrite entries db) := by
  obtain ⟨n, hn⟩ := outcome_eq h locals trailer db
  have hat : At locals (.opcode false) 0xFF (pure true) := .opcode 0xFF (by decide)
  obtain ⟨htrue, hstate⟩ := htrailer.idle hat n (overwrite entries db)
  rw [hn, htrue, hstate]

/-- A file that has no data. -/
theorem rdbData_nil : RdbData [] (str "REDIS0011") := by
  have hdata : Sequence RdbItem [] [] := .nil
  exact .mk (str "0011") rfl hdata

theorem harmless_of_outcome {trailer : Bytes} (h : outcome (fun _ => blank) (str "REDIS0011") trailer ∅
    = outcome (fun _ => blank) (str "REDIS0011") [] ∅) : Harmless (.opcode false) trailer := by
  obtain ⟨n, hn⟩ := outcome_eq rdbData_nil (fun _ => blank) trailer ∅
  rw [Harmless.outcome rdbData_nil (.stop .opcode), hn] at h
  obtain ⟨htrue, hstate⟩ := Prod.mk.inj h
  exact harmless_of_idle (At.opcode 0xFF (by decide)) ⟨htrue, hstate⟩

/-- Whatever the variables hold, it makes no difference behind any data which of two trailers
follows and whether one does, if and only if both are harmless. -/
theorem trailers_agree_iff (x y : Bytes) :
    (∀ (locals : ℕ → Locals) (entries : List Entry) (data : Bytes) (db : Database),
      RdbData entries data → outcome locals data x db = outcome locals data y db ∧
        outcome locals data y db = outcome locals data [] db) ↔
      Harmless (.opcode false) x ∧ Harmless (.opcode false) y := by
  have hnil : Harmless (.opcode false) [] := .stop .opcode
  constructor
  · intro hagree
    obtain ⟨hxy, hy⟩ := hagree (fun _ => blank) [] _ ∅ rdbData_nil
    exact ⟨harmless_of_outcome (hxy.trans hy), harmless_of_outcome hy⟩
  · intro h locals entries data db hdata
    rw [h.1.outcome hdata, h.2.outcome hdata, hnil.outcome hdata]
    exact ⟨rfl, rfl⟩

/-- Trailers without the opcodes of metadata and sections are harmless. -/
theorem harmless_of_forall (h : ∀ b ∈ xs, b ≠ 0xFA ∧ b ≠ 0xFE) : Harmless (.opcode false) xs := by
  induction xs with
  | nil => exact .stop .opcode
  | cons b xs ih =>
    obtain ⟨hb, hrest⟩ := List.forall_mem_cons.mp h
    exact .pass (.other hb.1 hb.2) (ih hrest)

/-- A section that stores an empty string. -/
theorem reads_empty_entry (locals : ℕ → Locals) : Reads (readIndicated locals 0xFE)
    [0, 0xFB, 1, 0, 0, 0, 0] ∅ true (overwrite [([], ⟨[], 0⟩)] ∅) := by
  have hempty : RdbString [] [0] := .raw (by decide)
  have hentry : Sequence RdbEntry [([], ⟨[], 0⟩)] [0, 0, 0] :=
    .cons (RdbEntry.plain hempty hempty) .nil
  have hsize : RdbSize 1 1 [] := .six (by decide)
  have hexpiries : RdbSize 0 0 [] := .six (by decide)
  have hindex : 0 < 64 := by decide
  have hread := @reads_readIndicated_database locals _ _ _ _ _ _ _ _ _ ∅ hindex hsize hexpiries rfl
    hentry
  exact hread

/-- A checksum that is a section of its own adds a key. -/
theorem checksum_adds_key : ¬ ∀ (locals : ℕ → Locals) (entries : List Entry) (data x y : Bytes)
    (db : Database), RdbData entries data → x.length = 8 → y.length = 8 →
      outcome locals data x db = outcome locals data y db := by
  intro h
  have hzeros : Harmless (.opcode false) (List.replicate 8 0) := harmless_of_forall (by simp)
  have hsame := h (fun _ => default) [] _ [0xFE, 0, 0xFB, 1, 0, 0, 0, 0] (List.replicate 8 0) ∅
    rdbData_nil rfl rfl
  obtain ⟨n, hn⟩ := outcome_eq rdbData_nil (fun _ => default) [0xFE, 0, 0xFB, 1, 0, 0, 0, 0] ∅
  obtain ⟨m, hm⟩ := reads_empty_entry (fun _ => default) [] n
  rw [List.append_nil] at hm
  rw [hn, hzeros.outcome rdbData_nil, overwrite_nil, finish_pure, parseLoop_cons, hm,
    if_pos rfl] at hsame
  have hmem : [] ∈ overwrite [([], ⟨[], 0⟩)] (∅ : Database) := Finmap.mem_insert.mpr (.inl rfl)
  have hkept := @mem_parseLoop (fun _ => default) 0xFE
    ⟨⟨[], false⟩, m, overwrite [([], ⟨[], 0⟩)] ∅⟩ [] hmem
  rw [(Prod.mk.inj hsame).2] at hkept
  exact Finmap.notMem_empty hkept

end RedisServer.FileTrailers
