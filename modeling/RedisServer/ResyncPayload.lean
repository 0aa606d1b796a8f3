import RedisServer.RedisParser

/-!
# The file that a resynchronization sends

The file is read in words of eight bytes. A word is written out in the order in which it was
read, but the read that finds the end of the file appends a word as well.
-/

namespace RedisServer.ResyncPayload
open ByteStrings CxxStrings FileStreams ServerState Utils RedisParser

/-! ### The two conversions of a word cancel -/

/-- The low byte of `v` is moved behind the bytes of `r`. -/
theorem toNat_round {r v : UInt64} (h : r.toNat < 2 ^ 56) :
    ((r <<< 8) ||| (v &&& 0xFF)).toNat = v.toNat % 256 + 256 * r.toNat := by
  have hshift : (r <<< 8).toNat = r.toNat <<< 8 := by
    rw [UInt64.toNat_shiftLeft, Nat.mod_eq_of_lt]
    · rfl
    · change r.toNat <<< 8 < 2 ^ 64
      rw [Nat.shiftLeft_eq]
      omega
  have hlow : (v &&& 0xFF).toNat = v.toNat % 2 ^ 8 := by
    rw [UInt64.toNat_and]
    exact Nat.and_two_pow_sub_one_eq_mod v.toNat 8
  rw [UInt64.toNat_or, hshift, hlow, ← Nat.shiftLeft_add_eq_or_of_lt (by omega), Nat.shiftLeft_eq]
  omega

/-- The two variables of `reverseEndianness` after `k` rounds. -/
def reverseRounds (value : UInt64) (k : ℕ) : UInt64 × UInt64 :=
  (List.range k).foldl (fun s _ => ((s.1 <<< 8) ||| (s.2 &&& 0xFF), s.2 >>> 8)) (0, value)

theorem reverseRounds_succ (value : UInt64) (k : ℕ) :
    reverseRounds value (k + 1) = (((reverseRounds value k).1 <<< 8) |||
      ((reverseRounds value k).2 &&& 0xFF), (reverseRounds value k).2 >>> 8) := by
  rw [reverseRounds, List.range_succ, List.foldl_append]
  rfl

/-- After `k` rounds the low `k` bytes of the word stand in the other order. -/
theorem toNat_reverseRounds (value : UInt64) {k : ℕ} (hk : k ≤ 8) :
    (reverseRounds value k).1.toNat = littleEndian (toBigEndian k value.toNat) ∧
      (reverseRounds value k).2.toNat = value.toNat / 256 ^ k := by
  induction k with
  | zero => simp [reverseRounds, toBigEndian, toLittleEndian, littleEndian]
  | succ k ih =>
    obtain ⟨hr, hv⟩ := ih (by omega)
    rw [reverseRounds_succ]
    have hsmall : (reverseRounds value k).1.toNat < 2 ^ 56 := by
      have hlt := littleEndian_lt (toBigEndian k value.toNat)
      rw [← hr, toBigEndian, List.length_reverse, length_toLittleEndian] at hlt
      calc (reverseRounds value k).1.toNat < 256 ^ k := hlt
        _ ≤ 256 ^ 7 := Nat.pow_le_pow_right (by omega) (by omega)
    constructor
    · rw [toNat_round hsmall, hr, hv, toBigEndian, toBigEndian, toLittleEndian_succ,
        List.reverse_append, List.reverse_singleton, List.singleton_append, littleEndian,
        Nat.toUInt8, UInt8.toNat_ofNat']
    · rw [UInt64.toNat_shiftRight, hv]
      change (value.toNat / 256 ^ k) >>> 8 = value.toNat / 256 ^ (k + 1)
      rw [Nat.shiftRight_eq_div_pow, Nat.div_div_eq_div_mul, pow_succ]
      rfl

theorem toNat_reverseEndianness (value : UInt64) :
    (reverseEndianness value).toNat = littleEndian (toBigEndian 8 value.toNat) :=
  (toNat_reverseRounds value le_rfl).1

/-- A byte of a word. -/
theorem toUInt8_shiftRight (value : UInt64) {k : ℕ} (hk : k < 64) :
    ((value >>> k.toUInt64) &&& 0xFF).toUInt8 = (value.toNat / 2 ^ k).toUInt8 := by
  apply UInt8.toNat.inj
  have hshift : (value >>> k.toUInt64).toNat = value.toNat / 2 ^ k := by
    have hk64 : k.toUInt64.toNat % 64 = k := by
      rw [Nat.toUInt64, UInt64.toNat_ofNat']
      omega
    rw [UInt64.toNat_shiftRight, hk64, Nat.shiftRight_eq_div_pow]
  rw [UInt64.toNat_toUInt8, UInt64.toNat_and, hshift, Nat.toUInt8, UInt8.toNat_ofNat']
  change (value.toNat / 2 ^ k &&& 2 ^ 8 - 1) % 2 ^ 8 = _
  rw [Nat.and_two_pow_sub_one_eq_mod, Nat.mod_mod]

theorem uint64ToString_eq (value : UInt64) : uint64ToString value = toBigEndian 8 value.toNat := by
  have hbytes : uint64ToString value
      = (List.range 8).map fun i => (value.toNat / 2 ^ ((7 - i) * 8)).toUInt8 :=
    List.map_congr_left fun i _ => toUInt8_shiftRight value (by omega)
  rw [hbytes]
  simp [toBigEndian, toLittleEndian, Nat.div_div_eq_div_mul, List.range_succ]

theorem toBigEndian_littleEndian {bytes : Bytes} (h : bytes.length = 8) :
    toBigEndian 8 (littleEndian bytes) = bytes.reverse := by
  rw [toBigEndian, ← h, toLittleEndian_littleEndian]

theorem reverseEndianness_reverseEndianness (value : UInt64) :
    reverseEndianness (reverseEndianness value) = value := by
  apply UInt64.toNat.inj
  have hlen : (toBigEndian 8 value.toNat).length = 8 := by
    rw [toBigEndian, List.length_reverse, length_toLittleEndian]
  rw [toNat_reverseEndianness, toNat_reverseEndianness, toBigEndian_littleEndian hlen, toBigEndian,
    List.reverse_reverse]
  exact littleEndian_toLittleEndian value.toNat_lt

/-- Eight bytes are written out as they were loaded. -/
theorem uint64ToString_loadWord {bytes : Bytes} (h : bytes.length = 8) :
    uint64ToString (reverseEndianness (loadWord bytes)) = bytes := by
  have hload : (loadWord bytes).toNat = littleEndian bytes := by
    have hlt : littleEndian bytes < 2 ^ 64 := by
      simpa [h] using littleEndian_lt bytes
    rw [loadWord, Nat.toUInt64, UInt64.toNat_ofNat', Nat.mod_eq_of_lt hlt]
  have hlen : bytes.reverse.length = 8 := by rw [List.length_reverse, h]
  rw [uint64ToString_eq, toNat_reverseEndianness, hload, toBigEndian_littleEndian h,
    toBigEndian_littleEndian hlen, List.reverse_reverse]

theorem flatten_uint64ToString {blocks : List Bytes} (h : ∀ block ∈ blocks, block.length = 8) :
    (blocks.map fun block => uint64ToString (reverseEndianness (loadWord block))).flatten
      = blocks.flatten := by
  have hblocks : (blocks.map fun block => uint64ToString (reverseEndianness (loadWord block)))
      = blocks := by
    conv_rhs => rw [← List.map_id blocks]
    exact List.map_congr_left fun block hblock => uint64ToString_loadWord (h block hblock)
  rw [hblocks]

/-- The two loops over the bytes of a word cancel, on every word and in every list of words. -/
theorem word_conversions_cancel (value : UInt64) (blocks : List Bytes)
    (h : ∀ block ∈ blocks, block.length = 8) :
    reverseEndianness (reverseEndianness value) = value ∧
      (blocks.map fun block => uint64ToString (reverseEndianness (loadWord block))).flatten
        = blocks.flatten :=
  ⟨reverseEndianness_reverseEndianness value, flatten_uint64ToString h⟩

theorem word_conversions_cancel_header :
    reverseEndianness (reverseEndianness 0x3130305349444552) = 0x3130305349444552 ∧
      ([str "REDIS001", str "1\xfa\x09redis"].map fun block =>
        uint64ToString (reverseEndianness (loadWord block))).flatten = str "REDIS0011\xfa\x09redis" :=
  word_conversions_cancel 0x3130305349444552 [str "REDIS001", str "1\xfa\x09redis"]
    (List.forall_mem_cons.mpr ⟨rfl, List.forall_mem_singleton.mpr rfl⟩)

/-! ### The loop over the words -/

theorem readRdbFileBinaryLoop_closed (byte rest : Bytes) :
    readRdbFileBinaryLoop byte ⟨rest, true⟩ = [] := by
  rw [readRdbFileBinaryLoop, dif_neg (by simp)]

/-- The contents of the file come first, and what is left of the last word comes behind. -/
theorem exists_readRdbFileBinaryLoop {byte contents : Bytes} (hbyte : byte.length = 8) :
    ∃ extra, readRdbFileBinaryLoop byte ⟨contents, false⟩ = contents ++ extra ∧
      extra.length = 8 - contents.length % 8 := by
  induction hn : contents.length using Nat.strong_induction_on generalizing byte contents with
  | _ n ih =>
    subst hn
    rw [readRdbFileBinaryLoop, dif_pos rfl]
    by_cases hword : 8 ≤ contents.length
    · -- a whole word, and the rest of the file
      have hlen : (contents.take 8).length = 8 := by simp [hword]
      have hread : (IFStream.mk contents false).read 8
          = (contents.take 8, ⟨contents.drop 8, false⟩) := by
        simp [IFStream.read, hword]
      obtain ⟨extra, hextra, hlength⟩ := ih (contents.drop 8).length (by simp; omega) hlen rfl
      refine ⟨extra, ?_, by rw [hlength, List.length_drop]; omega⟩
      simp only [hread, overlay_of_length_eq (hlen.trans hbyte.symm), uint64ToString_loadWord hlen,
        hextra]
      rw [← List.append_assoc, List.take_append_drop]
    · -- the last read keeps what it does not reach of the word before
      have hread : (IFStream.mk contents false).read 8 = (contents, ⟨[], true⟩) := by
        simp [IFStream.read, hword]
      have hlen : (overlay contents byte).length = 8 := by
        simp [overlay, hbyte]
        omega
      refine ⟨byte.drop contents.length, ?_, by rw [List.length_drop, hbyte]; omega⟩
      simp only [hread, uint64ToString_loadWord hlen, readRdbFileBinaryLoop_closed, List.append_nil]
      rfl

theorem exists_readRdbFileBinary (uninitialized : UInt64) (contents : Bytes) :
    ∃ extra, readRdbFileBinary uninitialized (.opened contents) = contents ++ extra ∧
      extra.length = 8 - contents.length % 8 :=
  exists_readRdbFileBinaryLoop (length_toLittleEndian 8 _)

theorem readRdbFileBinary_ne (uninitialized : UInt64) (contents : Bytes) :
    readRdbFileBinary uninitialized (.opened contents) ≠ contents := by
  obtain ⟨extra, heq, hlength⟩ := exists_readRdbFileBinary uninitialized contents
  intro h
  have hlen := congrArg List.length (heq.symm.trans h)
  rw [List.length_append] at hlen
  omega

/-- A host whose file for resynchronizations has the given contents. -/
def withRdb (host : Host) (contents : Bytes) : Host := { host with emptyRdb := some contents }

/-- The payload is the file and the message announces its length. -/
structure SendsFile (host : Host) (contents : Bytes) : Prop where
  payload : resyncPayload (withRdb host contents) = contents
  message : rdbMessage (withRdb host contents)
    = str "$" ++ toDecimal contents.length ++ str "\r\n" ++ contents

/-- Whatever the file holds, between one and eight bytes are sent behind it. -/
theorem resync_payload_never_file (host : Host) (contents : Bytes) :
    ¬ SendsFile host contents ∧ ∃ extra, extra.length = 8 - contents.length % 8 ∧
      resyncPayload (withRdb host contents) = contents ++ extra := by
  obtain ⟨extra, heq, hlength⟩ := exists_readRdbFileBinary host.uninitialized contents
  exact ⟨fun h => readRdbFileBinary_ne _ _ h.payload, extra, hlength, heq⟩

/-- A file of eight bytes is sent twice over. -/
theorem resync_payload_of_word : ¬ ∀ (host : Host) (contents : Bytes), SendsFile host contents :=
  fun h => readRdbFileBinary_ne _ _ (h .plain (str "REDIS001")).payload

end RedisServer.ResyncPayload
