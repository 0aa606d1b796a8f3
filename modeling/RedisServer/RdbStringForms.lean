import RedisServer.RdbRoundTrip

/-!
# All the forms of a string in a dump

Redis writes a string behind its length in one of three forms, or as a signed integer of one,
two or four bytes. The reader takes every first byte below 0xC0 for the length itself, and it
reads an integer without its sign. Sizes have the forms of a length, and their reader keeps the
tag of the second form and reads the wrong bytes behind the tag of the third.
-/

namespace RedisServer.RdbStringForms
open ByteStrings CxxStrings FileStreams StreamReaders ServerState RdbParser RdbRoundTrip

/-- The bytes that announce a length. -/
inductive LengthForm : ℕ → Bytes → Prop
  | six {n : ℕ} (h : n < 64) : LengthForm n [n.toUInt8]
  | fourteen {n : ℕ} (h : n < 2 ^ 14) :
      LengthForm n [(0x40 + n / 256).toUInt8, (n % 256).toUInt8]
  | thirtyTwo {n : ℕ} (h : n < 2 ^ 32) : LengthForm n (0x80 :: toBigEndian 4 n)

/-- The `n` bytes of a signed integer, least significant first. -/
def twosComplement (n : ℕ) (v : ℤ) : Bytes := toLittleEndian n (v % 256 ^ n).toNat

/-- The encoding of an integer. -/
inductive IntegerForm : ℤ → Bytes → Prop
  | int8 {v : ℤ} (h : -2 ^ 7 ≤ v) (h' : v < 2 ^ 7) : IntegerForm v (0xC0 :: twosComplement 1 v)
  | int16 {v : ℤ} (h : -2 ^ 15 ≤ v) (h' : v < 2 ^ 15) : IntegerForm v (0xC1 :: twosComplement 2 v)
  | int32 {v : ℤ} (h : -2 ^ 31 ≤ v) (h' : v < 2 ^ 31) : IntegerForm v (0xC2 :: twosComplement 4 v)

/-- The encodings of a string. -/
inductive RdbText : Bytes → Bytes → Prop
  | raw {s form : Bytes} (h : LengthForm s.length form) : RdbText s (form ++ s)
  | integer {v : ℤ} {bytes : Bytes} (h : IntegerForm v bytes) : RdbText (intToString v) bytes

variable {locals : ℕ → Locals} {db : Database} {s form bytes rest : Bytes} {n m : ℕ} {v : ℤ}

/-- `bytes` are read as the string `s` and nothing else is consumed. -/
def ReadsText (locals : ℕ → Locals) (bytes rest : Bytes) (n : ℕ) (db : Database) (s : Bytes) : Prop :=
  ∃ m, readLengthPrefixedString locals ⟨⟨bytes ++ rest, false⟩, n, db⟩
    = (s, ⟨⟨rest, false⟩, m, db⟩)

section Raw

/-- A read that leaves the stream good has delivered what is there. -/
theorem eq_append_of_read {destination xs : Bytes} {db' : Database}
    (h : Reader.read destination.length destination ⟨⟨xs, false⟩, n, db⟩
      = (s, ⟨⟨rest, false⟩, m, db'⟩)) : xs = s ++ rest ∧ s.length = destination.length := by
  by_cases hle : destination.length ≤ xs.length
  · have hread : (IFStream.mk xs false).read destination.length
        = (xs.take destination.length, ⟨xs.drop destination.length, false⟩) := by
      simp [IFStream.read, hle]
    have hlen : (xs.take destination.length).length = destination.length := by simp [hle]
    simp only [Reader.read, hread, overlay_of_length_eq hlen] at h
    cases h
    exact ⟨(List.take_append_drop ..).symm, hlen⟩
  · simp only [Reader.read, IFStream.read, Bool.false_eq_true, if_false, if_neg hle] at h
    cases h

/-- A first byte below 0xC0 is the number of bytes that are read. -/
theorem readLengthPrefixedString_raw {x : UInt8} (hx : x &&& 0xC0 ≠ 0xC0) (xs : Bytes) :
    readLengthPrefixedString locals ⟨⟨x :: xs, false⟩, n, db⟩
      = Reader.read x.toNat (List.replicate x.toNat 0) ⟨⟨xs, false⟩, n + 1, db⟩ := by
  have hbranch : (if x &&& 0xC0 = 0xC0 then readEncodedString locals x
      else Reader.read x.toNat (List.replicate x.toNat 0)) ⟨⟨xs, false⟩, n + 1, db⟩
      = Reader.read x.toNat (List.replicate x.toNat 0) ⟨⟨xs, false⟩, n + 1, db⟩ := by
    rw [if_neg hx]
  rw [← hbranch]
  rfl

theorem eq_append_of_raw {x : UInt8} {xs : Bytes} {db' : Database} (hx : x &&& 0xC0 ≠ 0xC0)
    (h : readLengthPrefixedString locals ⟨⟨x :: xs, false⟩, n, db⟩
      = (s, ⟨⟨rest, false⟩, m, db'⟩)) : xs = s ++ rest ∧ s.length = x.toNat := by
  rw [readLengthPrefixedString_raw hx] at h
  have hlen : (List.replicate x.toNat (0 : UInt8)).length = x.toNat := List.length_replicate
  have hread := @eq_append_of_read db s rest (n + 1) m (List.replicate x.toNat 0) xs db'
  rw [hlen] at hread
  exact hread h

theorem LengthForm.exists_cons {k : ℕ} (h : LengthForm k form) :
    ∃ x xs, form = x :: xs ∧ x &&& 0xC0 ≠ 0xC0 := by
  cases h with
  | six h => exact ⟨_, _, rfl, by rw [six_bits h]; decide⟩
  | fourteen h => exact ⟨_, _, rfl, by rw [fourteen_bits (by omega)]; decide⟩
  | thirtyTwo h => exact ⟨_, _, rfl, by decide⟩

theorem LengthForm.eq_six {k : ℕ} (h : LengthForm k form) (hform : form.length = 1) :
    k < 64 ∧ form = [k.toUInt8] := by
  cases h with
  | six h => exact ⟨h, rfl⟩
  | fourteen h => cases hform
  | thirtyTwo h => simp [toBigEndian] at hform

theorem LengthForm.length_eq_one (h : LengthForm s.length form)
    (hread : ReadsText locals (form ++ s) rest n db s) : form.length = 1 := by
  obtain ⟨m, hread⟩ := hread
  obtain ⟨x, xs, rfl, hx⟩ := h.exists_cons
  -- what follows the first byte is the string itself
  have happend : xs ++ s ++ rest = s ++ rest := (eq_append_of_raw hx hread).1
  have hlength := congrArg List.length happend
  simp only [List.length_append] at hlength
  rw [List.length_cons]
  omega

/-- A raw string is read back exactly when its length stands in the one-byte form. -/
theorem raw_string_read_iff (h : LengthForm s.length form) (locals : ℕ → Locals) (rest : Bytes)
    (n : ℕ) (db : Database) :
    ReadsText locals (form ++ s) rest n db s ↔ form.length = 1 := by
  constructor
  · exact h.length_eq_one
  · intro hform
    obtain ⟨hs, rfl⟩ := h.eq_six hform
    exact reads_readLengthPrefixedString (.raw hs) rest n

theorem raw_string_read_of_key : ReadsText (fun _ => default) ([3] ++ str "key") [0xFF] 0 ∅ (str "key") :=
  (raw_string_read_iff (.six (by decide)) (fun _ => default) [0xFF] 0 ∅).mpr rfl

/-- A string of 64 bytes has the shortest length that needs two bytes. -/
theorem long_string_not_read : ¬ ∀ (locals : ℕ → Locals) (s form rest : Bytes) (n : ℕ)
    (db : Database), LengthForm s.length form → ReadsText locals (form ++ s) rest n db s := by
  intro hall
  have hform : LengthForm (List.replicate 64 (byte 'a')).length [0x40, 0x40] := .fourteen (by simp)
  have hlength := hform.length_eq_one (hall (fun _ => default) _ _ [] 0 ∅ hform)
  cases hlength

end Raw

section Sizes

/-- `bytes` behind the byte `b` are consumed and the size is `size`. -/
def ReadsSize (locals : ℕ → Locals) (b : UInt8) (bytes rest : Bytes) (n : ℕ) (db : Database)
    (size : ℕ) : Prop :=
  ∃ m, readSizeEncoded locals b ⟨⟨bytes ++ rest, false⟩, n, db⟩ = (size, ⟨⟨rest, false⟩, m, db⟩)

theorem readsSize_six {size : ℕ} (h : size < 64) :
    ReadsSize locals size.toUInt8 [] rest n db size := by
  have hsize : size.toUInt8.toNat = size := by
    rw [Nat.toUInt8, UInt8.toNat_ofNat']
    omega
  refine ⟨n + 1, ?_⟩
  rw [readSizeEncoded, Reader.frame_bind, if_pos (six_bits h), hsize]
  rfl

theorem readsSize_fourteen {size : ℕ} (h : size < 2 ^ 14) :
    ReadsSize locals (0x40 + size / 256).toUInt8 [(size % 256).toUInt8] rest n db (0x4000 + size) := by
  have hhigh : (0x40 + size / 256).toUInt8.toNat = 0x40 + size / 256 := by
    rw [Nat.toUInt8, UInt8.toNat_ofNat']
    omega
  have hlow : (size % 256).toUInt8.toNat = size % 256 := by
    rw [Nat.toUInt8, UInt8.toNat_ofNat']
    omega
  have hvalue : (0x40 + size / 256) <<< 8 ||| size % 256 = 0x4000 + size := by
    rw [← Nat.shiftLeft_add_eq_or_of_lt (by omega), Nat.shiftLeft_eq]
    omega
  refine ⟨n + 1, ?_⟩
  rw [readSizeEncoded, Reader.frame_bind, fourteen_bits (by omega), if_neg (by decide), if_pos rfl,
    ReaderState.enter_mk, List.singleton_append, Reader.readByte_bind_cons, hhigh, hlow, hvalue]
  rfl

/-- Behind the tag of the five-byte form eight bytes are asked for. -/
theorem not_readsSize_thirtyTwo {size value : ℕ} :
    ¬ ReadsSize locals 0x80 (toBigEndian 4 size) rest n db value := by
  rintro ⟨m, h⟩
  rw [readSizeEncoded, Reader.frame_bind, if_neg (by decide), if_neg (by decide), if_pos (by decide),
    ReaderState.enter_mk, Reader.readWord, Reader.bind_apply] at h
  rcases hread : Reader.read (toLittleEndian 8 (locals n).next4Bytes.toNat).length
    (toLittleEndian 8 (locals n).next4Bytes.toNat)
    ⟨⟨toBigEndian 4 size ++ rest, false⟩, n + 1, db⟩ with ⟨word, left⟩
  rw [hread] at h
  obtain rfl : left = ⟨⟨rest, false⟩, m, db⟩ := congrArg Prod.snd h
  obtain ⟨happend, hlength⟩ := eq_append_of_read hread
  have htotal := congrArg List.length happend
  rw [length_toLittleEndian] at hlength
  rw [List.length_append, List.length_append, toBigEndian, List.length_reverse,
    length_toLittleEndian] at htotal
  omega

/-- A size is read back exactly when it stands in the one-byte form. -/
theorem size_read_iff {b : UInt8} {size : ℕ} (h : LengthForm size (b :: bytes))
    (locals : ℕ → Locals) (rest : Bytes) (n : ℕ) (db : Database) :
    ReadsSize locals b bytes rest n db size ↔ bytes = [] := by
  generalize hform : b :: bytes = form at h
  cases h with
  | six h =>
    obtain ⟨rfl, rfl⟩ := List.cons.inj hform
    exact iff_of_true (readsSize_six h) rfl
  | fourteen h =>
    obtain ⟨rfl, rfl⟩ := List.cons.inj hform
    refine iff_of_false (fun hread => ?_) (List.cons_ne_nil _ _)
    obtain ⟨m, hread⟩ := hread
    obtain ⟨k, htagged⟩ : ReadsSize locals _ _ rest n db (0x4000 + size) :=
      readsSize_fourteen h
    have hsize : 0x4000 + size = size := congrArg Prod.fst (htagged.symm.trans hread)
    omega
  | thirtyTwo h =>
    obtain ⟨rfl, rfl⟩ := List.cons.inj hform
    exact iff_of_false not_readsSize_thirtyTwo (by simp [toBigEndian, toLittleEndian])

theorem size_read_of_six : ReadsSize (fun _ => default) 0x3F [] [0xFB, 0x00] 0 ∅ 63 :=
  (size_read_iff (.six (by decide)) (fun _ => default) [0xFB, 0x00] 0 ∅).mpr rfl

/-- The size 64 in its shortest form is read as 16448. -/
theorem size_tag_not_masked : ¬ ∀ (locals : ℕ → Locals) (size : ℕ) (b : UInt8) (bytes rest : Bytes)
    (n : ℕ) (db : Database), size < 2 ^ 32 → LengthForm size (b :: bytes) →
      ReadsSize locals b bytes rest n db size := by
  intro hall
  have hread := hall (fun _ => default) 64 0x40 [0x40] [] 0 ∅ (by decide) (.fourteen (by decide))
  obtain ⟨m, hread⟩ := hread
  have hsize : 16448 = 64 := congrArg Prod.fst hread
  exact absurd hsize (by decide)

end Sizes

section Integers

theorem toDecimal_injective : Function.Injective toDecimal := by
  intro a b h
  rw [← (toDecimal_numeral a).value, h, (toDecimal_numeral b).value]

theorem intToString_eq_toDecimal_iff {k : ℕ} : intToString v = toDecimal k ↔ v = k := by
  constructor
  · intro h
    by_cases hv : v < 0
    · rw [intToString, if_pos hv] at h
      have hminus : isDigit (byte '-') = true :=
        (toDecimal_numeral k).digits _ (h ▸ List.mem_cons_self)
      exact absurd hminus (by decide)
    · rw [intToString, if_neg hv] at h
      have habs := toDecimal_injective h
      omega
  · rintro rfl
    rw [intToString, if_neg (by omega), Int.natAbs_natCast]

theorem IntegerForm.exists_unsigned (h : IntegerForm v bytes) :
    ∃ k : ℕ, RdbString (toDecimal k) bytes ∧ ((k : ℤ) = v ↔ 0 ≤ v) := by
  cases h with
  | int8 h h' =>
    have hk : (v % 256 ^ 1).toNat < 2 ^ 8 := by omega
    exact ⟨_, .int8 hk, by omega⟩
  | int16 h h' =>
    have hk : (v % 256 ^ 2).toNat < 2 ^ 16 := by omega
    exact ⟨_, .int16 hk, by omega⟩
  | int32 h h' =>
    have hk : (v % 256 ^ 4).toNat < 2 ^ 32 := by omega
    exact ⟨_, .int32 hk, by omega⟩

theorem IntegerForm.nonneg (h : IntegerForm v bytes)
    (hread : (readLengthPrefixedString locals ⟨⟨bytes ++ rest, false⟩, n, db⟩).1 = intToString v) :
    0 ≤ v := by
  obtain ⟨k, hstring, hk⟩ := h.exists_unsigned
  obtain ⟨m, hunsigned⟩ : ReadsText locals bytes rest n db (toDecimal k) :=
    reads_readLengthPrefixedString hstring rest n
  rw [hunsigned] at hread
  exact hk.mp (intToString_eq_toDecimal_iff.mp hread.symm).symm

theorem IntegerForm.rdbString (h : IntegerForm v bytes) (hv : 0 ≤ v) :
    RdbString (intToString v) bytes := by
  obtain ⟨k, hstring, hk⟩ := h.exists_unsigned
  rwa [intToString_eq_toDecimal_iff.mpr (hk.mpr hv).symm]

/-- An integer is read back exactly when it is not negative. -/
theorem integer_read_iff (h : IntegerForm v bytes) (locals : ℕ → Locals) (rest : Bytes) (n : ℕ)
    (db : Database) : ReadsText locals bytes rest n db (intToString v) ↔ 0 ≤ v := by
  constructor
  · rintro ⟨m, hread⟩
    exact h.nonneg (congrArg Prod.fst hread)
  · exact fun hv => reads_readLengthPrefixedString (h.rdbString hv) rest n

theorem integer_read_of_port : ReadsText (fun _ => default) [0xC1, 0xEB, 0x18] [] 0 ∅ (str "6379") :=
  (integer_read_iff (v := 6379) (.int16 (by decide) (by decide)) (fun _ => default) [] 0 ∅).mpr
    (by decide)

/-- The single byte 0xFF is the integer -1 and is read as 255. -/
theorem minus_one_not_read : ¬ ∀ (locals : ℕ → Locals) (v : ℤ) (bytes rest : Bytes) (n : ℕ)
    (db : Database), IntegerForm v bytes → ReadsText locals bytes rest n db (intToString v) := by
  intro hall
  have hform : IntegerForm (-1) [0xC0, 0xFF] := .int8 (by decide) (by decide)
  obtain ⟨m, hread⟩ := hall (fun _ => default) _ _ [] 0 ∅ hform
  have hvalue : str "255" = str "-1" := congrArg Prod.fst hread
  exact absurd hvalue (by decide)

end Integers

section Texts

theorem RdbText.rdbString (h : RdbText s bytes) (hread : ReadsText locals bytes rest n db s) :
    RdbString s bytes := by
  cases h with
  | raw h =>
    obtain ⟨hs, rfl⟩ := h.eq_six (h.length_eq_one hread)
    exact .raw hs
  | integer h =>
    obtain ⟨m, hread⟩ := hread
    exact h.rdbString (h.nonneg (congrArg Prod.fst hread))

/-- A string that is moved past itself by a divisor of its length. -/
theorem eq_of_append_eq_append {xs ys key : Bytes} (k : ℕ) (hlen : key.length = k * xs.length)
    (h : xs ++ key = key ++ ys) : ys = xs := by
  induction k generalizing key with
  | zero =>
    rw [Nat.zero_mul, List.length_eq_zero_iff] at hlen
    subst hlen
    simpa using h.symm
  | succ k ih =>
    rw [Nat.succ_mul] at hlen
    have hkey : key <+: xs ++ key := h ▸ List.prefix_append key ys
    obtain ⟨key', rfl⟩ : xs <+: key :=
      List.prefix_of_prefix_length_le (List.prefix_append xs key) hkey (by omega)
    rw [List.append_assoc] at h
    refine ih ?_ (List.append_cancel_left h)
    rw [List.length_append] at hlen
    omega

/-- What is left over of a string that is read too early. -/
theorem exists_left_over {xs key tail left : Bytes} (h : xs ++ (key ++ tail) = key ++ left) :
    ∃ ys, left = ys ++ tail ∧ xs ++ key = key ++ ys := by
  have hlength := congrArg List.length h
  simp only [List.length_append] at hlength
  have hsplit : xs ++ key ++ tail = key ++ left.take xs.length ++ left.drop xs.length := by
    rw [List.append_assoc, h, List.append_assoc, List.take_append_drop]
  obtain ⟨hxs, hdrop⟩ := List.append_inj hsplit (by
    simp only [List.length_append, List.length_take]
    omega)
  exact ⟨left.take xs.length, by rw [hdrop, List.take_append_drop], hxs⟩

theorem RdbText.length_ne (h : RdbText s bytes) (hs : 5 < s.length) : bytes.length ≠ s.length := by
  cases h with
  | raw h =>
    obtain ⟨x, xs, rfl, -⟩ := h.exists_cons
    simp only [List.length_append, List.length_cons]
    omega
  | integer h =>
    have hle : bytes.length ≤ 5 := by
      cases h <;> simp [twosComplement]
    omega

/-- A key behind a longer form is read with its last bytes left over, and these are not the
beginning of the value. -/
theorem not_reads_pair {key value vs left : Bytes} {db₁ db₂ : Database} {m₁ m₂ : ℕ}
    (hform : LengthForm key.length form) (hvalue : RdbText value vs) (hlong : form.length ≠ 1)
    (hkey : readLengthPrefixedString locals ⟨⟨form ++ (key ++ (vs ++ rest)), false⟩, n, db⟩
      = (key, ⟨⟨left, false⟩, m₁, db₁⟩))
    (hread : readLengthPrefixedString locals ⟨⟨left, false⟩, m₁, db₁⟩
      = (value, ⟨⟨rest, false⟩, m₂, db₂⟩)) : False := by
  obtain ⟨x, xs, rfl, hx⟩ := hform.exists_cons
  obtain ⟨happend, hlen⟩ := eq_append_of_raw hx hkey
  obtain ⟨ys, rfl, hys⟩ := exists_left_over happend
  generalize hk : key.length = k at hform hlen
  generalize hf : x :: xs = form at hform
  cases hform with
  | six h =>
    obtain ⟨-, rfl⟩ := List.cons.inj hf
    exact hlong rfl
  | fourteen h =>
    obtain ⟨rfl, rfl⟩ := List.cons.inj hf
    -- the key is 64 times the second byte of its length, and so is the value
    have hk64 : k = 64 := by
      simp only [Nat.toUInt8, UInt8.toNat_ofNat'] at hlen
      omega
    subst hk64
    rw [eq_of_append_eq_append 64 hk hys] at hread
    obtain ⟨heq, hvlen⟩ := eq_append_of_raw (by decide) hread
    have hvalue64 : value.length = 64 := hvlen
    exact hvalue.length_ne (by omega) (congrArg List.length (List.append_cancel_right heq))
  | thirtyTwo h =>
    obtain ⟨rfl, rfl⟩ := List.cons.inj hf
    -- the key repeats the four bytes of its length, which begin with a zero
    have hk128 : k = 128 := hlen
    subst hk128
    rw [eq_of_append_eq_append 32 hk hys, show toBigEndian 4 128 = [0, 0, 0, 0x80] from rfl] at hread
    obtain ⟨heq, hvlen⟩ := eq_append_of_raw (by decide) hread
    have hlength : (vs ++ rest).length + 3 = (value ++ rest).length := congrArg List.length heq
    rw [List.length_append, List.length_append, hvlen] at hlength
    exact absurd hlength (by simp; omega)

/-- Between the key and the value the stream is good if it is good behind them. -/
theorem exists_between {key value xs : Bytes} {db' : Database}
    (h : readStringKeyValue locals ⟨⟨xs, false⟩, n, db⟩ = ((key, value), ⟨⟨rest, false⟩, m, db'⟩)) :
    ∃ left m₁ db₁,
      readLengthPrefixedString locals ⟨⟨xs, false⟩, n, db⟩ = (key, ⟨⟨left, false⟩, m₁, db₁⟩) ∧
      readLengthPrefixedString locals ⟨⟨left, false⟩, m₁, db₁⟩ = (value, ⟨⟨rest, false⟩, m, db'⟩) := by
  rcases hkey : readLengthPrefixedString locals ⟨⟨xs, false⟩, n, db⟩ with
    ⟨key', ⟨⟨left, fail⟩, m₁, db₁⟩⟩
  rcases hvalue : readLengthPrefixedString locals ⟨⟨left, fail⟩, m₁, db₁⟩ with ⟨value', last⟩
  have hpair : readStringKeyValue locals ⟨⟨xs, false⟩, n, db⟩ = ((key', value'), last) := by
    simp only [readStringKeyValue, bind, StateT.bind, hkey, hvalue]
    rfl
  cases h.symm.trans hpair
  cases fail with
  | false => exact ⟨left, m₁, db₁, rfl, hvalue⟩
  | true =>
    -- a stream that has failed stays failed
    have hadvance := composes_readLengthPrefixedString locals Advances.composes ⟨⟨left, true⟩, m₁, db₁⟩
    rw [hvalue] at hadvance
    simp [IFStream.remaining] at hadvance

/-- If a key and a value are read back together, each of them is encoded as the reader
expects. -/
theorem RdbText.rdbString_pair {key value ks vs : Bytes} {db' : Database} (hk : RdbText key ks)
    (hv : RdbText value vs)
    (h : readStringKeyValue locals ⟨⟨ks ++ (vs ++ rest), false⟩, n, db⟩
      = ((key, value), ⟨⟨rest, false⟩, m, db'⟩)) : RdbString key ks ∧ RdbString value vs := by
  obtain ⟨left, m₁, db₁, hkey, hvalue⟩ := exists_between h
  have hks : RdbString key ks := by
    cases hk with
    | @raw _ form hform =>
      by_cases hlong : form.length = 1
      · obtain ⟨hs, rfl⟩ := hform.eq_six hlong
        exact .raw hs
      · rw [List.append_assoc] at hkey
        exact (not_reads_pair hform hv hlong hkey hvalue).elim
    | integer hform => exact hform.rdbString (hform.nonneg (congrArg Prod.fst hkey))
  obtain ⟨m₂, hkey'⟩ : ReadsText locals ks (vs ++ rest) n db key :=
    reads_readLengthPrefixedString hks (vs ++ rest) n
  cases hkey.symm.trans hkey'
  have hinert := composes_readLengthPrefixedString locals Inert.composes ⟨⟨vs ++ rest, false⟩, m₁, db⟩
  rw [hvalue] at hinert
  obtain rfl : db' = db := hinert
  exact ⟨hks, hv.rdbString ⟨m, hvalue⟩⟩

end Texts


end RedisServer.RdbStringForms
