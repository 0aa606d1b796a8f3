import RedisServer.FileTrailers
import RedisServer.ReaderBudgets

/-!
# Tables of every size

The number of entries is kept in one byte. Of a longer table the entries that are left over
are read as opcodes. They may hold whole sections, but never enough of them: a byte 0xFE that
opens a section is missing in the entry that it is taken from. What follows the end marker is
read as opcodes too, so it may not store anything either.
-/

namespace RedisServer.TableSizes
open ByteStrings FileStreams StreamReaders ReaderBudgets ServerState OrderedOverwrites RdbParser
open RdbRoundTrip ExhaustedStreams FileTrailers

/-- An entry without an expiry time whose strings have lengths of one byte. -/
def entryBytes (e : Bytes × Bytes) : Bytes :=
  0x00 :: (e.1.length.toUInt8 :: e.1 ++ e.2.length.toUInt8 :: e.2)

/-- The entry as it is stored. -/
def storedEntry (e : Bytes × Bytes) : Entry := (e.1, ⟨e.2, 0⟩)

/-- A database section with all the entries in one table. -/
inductive TableSection (entries : List (Bytes × Bytes)) : Bytes → Prop
  | mk {index expiries : ℕ} {n e : UInt8} {ns es : Bytes} : index < 64 →
      RdbSize entries.length n ns → RdbSize expiries e es → TableSection entries
        (0xFE :: index.toUInt8 :: 0xFB :: n :: (ns ++ e :: (es ++ entries.flatMap entryBytes)))

/-- A file with one section and any bytes behind its end marker. -/
inductive TableFile (entries : List (Bytes × Bytes)) : Bytes → Bytes → Prop
  | mk (version trailer : Bytes) {metadata table : Bytes} {pairs : List (Bytes × Bytes)} :
      version.length = 4 → Sequence RdbMetaData pairs metadata → TableSection entries table →
      TableFile entries trailer
        (str "REDIS" ++ version ++ (metadata ++ (table ++ 0xFF :: trailer)))

/-- The strings of an entry are so short that their lengths take one byte. -/
def Short (e : Bytes × Bytes) : Prop := e.1.length < 64 ∧ e.2.length < 64

instance : DecidablePred Short := fun e =>
  inferInstanceAs (Decidable (e.1.length < 64 ∧ e.2.length < 64))

variable {locals : ℕ → Locals} {entries left : List (Bytes × Bytes)} {trailer bytes : Bytes}
  {db : Database}

theorem sequence_entryBytes (h : ∀ e ∈ entries, Short e) :
    Sequence RdbEntry (entries.map storedEntry) (entries.flatMap entryBytes) := by
  induction entries with
  | nil => exact .nil
  | cons e entries ih =>
    obtain ⟨he, hrest⟩ := List.forall_mem_cons.mp h
    exact .cons (.plain (.raw he.1) (.raw he.2)) (ih hrest)

/-! ### What is stored is paid for with bytes of the file -/

section Budget

/-- The occurrences of the opcode of a section in an entry. -/
def opcodes (e : Bytes × Bytes) : ℕ := e.1.count 0xFE + e.2.count 0xFE

/-- The occurrences in those of the entries `left` that are stored. -/
def storedOpcodes (left : List (Bytes × Bytes)) (db : Database) : ℕ :=
  (left.map fun e => if db.lookup e.1 = some ⟨e.2, 0⟩ then opcodes e else 0).sum

/-- Storing an entry adds no more than its own occurrences. -/
theorem storedOpcodes_insert (hleft : (left.map Prod.fst).Nodup) (db : Database) (k v : Bytes)
    (t : ℤ) : storedOpcodes left (db.insert k ⟨v, t⟩) ≤ opcodes (k, v) + storedOpcodes left db := by
  induction left with
  | nil => exact Nat.zero_le _
  | cons e left ih =>
    obtain ⟨he, hrest⟩ := List.nodup_cons.mp hleft
    simp only [storedOpcodes, List.map_cons, List.sum_cons]
    by_cases hk : e.1 = k
    · subst hk
      -- no other entry has this key
      have hsame : (left.map fun e' => if (db.insert e.1 ⟨v, t⟩).lookup e'.1 = some ⟨e'.2, 0⟩
          then opcodes e' else 0) = left.map fun e' => if db.lookup e'.1 = some ⟨e'.2, 0⟩
          then opcodes e' else 0 := by
        apply List.map_congr_left
        intro e' he'
        have hne : e'.1 ≠ e.1 := fun heq => he (heq ▸ List.mem_map_of_mem he')
        rw [Finmap.lookup_insert_of_ne _ hne]
      have hterm : (if (db.insert e.1 ⟨v, t⟩).lookup e.1 = some ⟨e.2, 0⟩ then opcodes e else 0)
          ≤ opcodes (e.1, v) := by
        rw [Finmap.lookup_insert]
        split
        · next heq =>
          cases heq
          exact le_rfl
        · exact Nat.zero_le _
      rw [hsame]
      omega
    · have hrec := ih hrest
      simp only [storedOpcodes] at hrec
      rw [Finmap.lookup_insert_of_ne _ hk]
      omega

/-- A way to weigh a database under which every entry is worth its own occurrences. -/
def Fair (weight : Database → ℕ) : Prop :=
  ∀ db k v t, weight (db.insert k ⟨v, t⟩) ≤ opcodes (k, v) + weight db

variable {weight : Database → ℕ}

theorem count_toDecimal (n : ℕ) : (toDecimal n).count 0xFE = 0 := by
  rw [List.count_eq_zero]
  intro hmem
  exact absurd ((toDecimal_numeral n).digits _ hmem) (by decide)

theorem pays_readIntegerEncodedString (encodingType : UInt8) :
    Pays 0xFE weight 0 (readIntegerEncodedString locals encodingType) fun s => s.count 0xFE := by
  have hdecimal (n : ℕ) : Pays 0xFE weight 0 (pure (toDecimal n) : Reader Database Bytes)
      fun s => s.count 0xFE := .pure (count_toDecimal n).le
  apply (Pays.frame locals).bind
  intro l
  apply Pays.ite
  · exact (Pays.readByte _).bind fun _ => hdecimal _
  · apply Pays.ite
    · exact (Pays.readWord _).bind fun _ => hdecimal _
    · apply Pays.ite
      · exact (Pays.readWord _).bind fun _ => hdecimal _
      · exact .pure le_rfl

theorem pays_readLengthPrefixedString :
    Pays 0xFE weight 0 (readLengthPrefixedString locals) fun s => s.count 0xFE := by
  have hinteger (b : UInt8) : Pays 0xFE weight 0 (readIntegerEncodedString locals b)
      fun s => s.count 0xFE := pays_readIntegerEncodedString b
  refine (Pays.frame locals).bind fun l => (Pays.readByte _).bind fun lengthByte => ?_
  apply Pays.ite
  · exact (hinteger _).ite ((hinteger _).ite ((hinteger _).ite (.pure le_rfl)))
  · have hzeros : (List.replicate lengthByte.toNat (0 : UInt8)).count 0xFE = 0 := by
      rw [List.count_replicate, if_neg (by decide)]
    have hread : Pays 0xFE weight _ (Reader.read lengthByte.toNat
        (List.replicate lengthByte.toNat 0)) _ := Pays.read _ _
    rwa [hzeros] at hread

theorem pays_readStringKeyValue :
    Pays 0xFE weight 0 (readStringKeyValue locals) opcodes := by
  apply pays_readLengthPrefixedString.bind
  intro key
  refine (pays_readLengthPrefixedString.keep (key.count 0xFE)).bind fun value => .pure le_rfl

section Fair

variable (hfair : Fair weight)
include hfair

theorem pays_readTypedEntry (valueType : UInt8) (t : ℤ) :
    Pays 0xFE weight 0 (readTypedEntry locals valueType t) fun _ => 0 := by
  apply Pays.ite
  · apply pays_readStringKeyValue.bind
    intro e
    exact (Pays.update fun db => hfair db e.1 e.2 t).bind fun _ => .pure le_rfl
  · exact .pure le_rfl

theorem pays_readEntry (nextByte valueType : UInt8) :
    Pays 0xFE weight 0 (readEntry locals nextByte valueType) fun _ => 0 := by
  refine (Pays.frame locals).bind fun l => (Pays.readByte _).bind fun nextByte => ?_
  have htyped (valueType valueType' : UInt8) (t : ℤ) :
      Pays 0xFE weight 0 (readTypedEntry locals valueType t >>= fun stored =>
        pure (stored, nextByte, valueType')) fun _ => 0 :=
    (pays_readTypedEntry hfair _ _).bind fun _ => .pure le_rfl
  apply Pays.ite
  · exact (Pays.readWord _).bind fun _ => (Pays.readByte _).bind fun _ => htyped _ _ _
  · apply Pays.ite
    · exact (Pays.readWord _).bind fun _ => (Pays.readByte _).bind fun _ => htyped _ _ _
    · exact htyped _ _ _

theorem pays_readEntries (n : ℕ) (nextByte valueType : UInt8) :
    Pays 0xFE weight 0 (readEntries locals n nextByte valueType) fun _ => 0 := by
  induction n generalizing nextByte valueType with
  | zero => exact .pure le_rfl
  | succ n ih =>
    exact (pays_readEntry hfair _ _).bind fun _ => (ih _ _).ite (.pure le_rfl)

omit hfair in
theorem pays_readSizeEncoded (sizeEncoding : UInt8) :
    Pays 0xFE weight 0 (readSizeEncoded locals sizeEncoding) fun _ => 0 := by
  apply (Pays.frame locals).bind
  intro l
  apply Pays.ite
  · exact .pure le_rfl
  · apply Pays.ite
    · exact (Pays.readByte _).bind fun _ => .pure le_rfl
    · exact (Pays.readWord _).ite (.pure le_rfl)

theorem pays_readDatabase : Pays 0xFE weight 0 (readDatabase locals) fun _ => 0 := by
  refine (Pays.frame locals).bind fun l => (Pays.readByte _).bind fun _ =>
    (pays_readSizeEncoded _).bind fun _ => (Pays.readByte _).bind fun _ => ?_
  apply Pays.ite
  · exact (Pays.readByte _).bind fun _ => (pays_readSizeEncoded _).bind fun _ =>
      (Pays.readByte _).bind fun _ => (pays_readSizeEncoded _).bind fun _ =>
        pays_readEntries hfair _ _ _
  · exact .pure le_rfl

omit hfair in
theorem pays_readMetaData : Pays 0xFE weight 0 (readMetaData locals) fun _ => 0 :=
  pays_readLengthPrefixedString.bind fun _ =>
    (pays_readLengthPrefixedString.keep _).bind fun _ => .pure (Nat.zero_le _)

theorem pays_readIndicated (indicator : UInt8) :
    Pays 0xFE weight 0 (readIndicated locals indicator) fun _ => 0 :=
  pays_readMetaData.ite ((pays_readDatabase hfair).ite (.pure le_rfl))

/-- The loop never has more than it was given. -/
theorem funds_parseLoop (indicator : UInt8) (s : ReaderState Database) :
    funds 0xFE weight (parseLoop locals indicator s).2 ≤ funds 0xFE weight s := by
  induction hn : s.file.remaining using Nat.strong_induction_on generalizing indicator s with
  | _ n ih =>
    subst hn
    rw [parseLoop]
    split
    · next hgood =>
      have hbyte : 0 + funds 0xFE weight (Reader.readByte indicator s).2 ≤ 0 + funds 0xFE weight s :=
        Pays.readByte indicator s
      have hitem : Pays 0xFE weight 0 (readIndicated locals (Reader.readByte indicator s).1) _ :=
        pays_readIndicated hfair _
      have hitem := hitem (Reader.readByte indicator s).2
      have hless := (advances_readIndicated locals (Reader.readByte indicator s).1 _).trans_lt
        (Advances.readByte_lt indicator hgood)
      dsimp only at hbyte hitem ⊢
      split
      · have hrest := ih _ hless (Reader.readByte indicator s).1 _ rfl
        omega
      · dsimp only
        omega
    · exact le_rfl

/-- Unless the loop finds the opcode of a section, it leaves the database as it is. If it finds
one, it has spent a byte that it cannot store. -/
theorem parseLoop_unchanged_or_paid {indicator : UInt8} {s : ReaderState Database}
    (h : indicator ≠ 0xFE ∨ s.file.rest ≠ []) :
    (parseLoop locals indicator s).2.state = s.state ∨
      funds 0xFE weight (parseLoop locals indicator s).2 < funds 0xFE weight s := by
  induction hn : s.file.remaining using Nat.strong_induction_on generalizing indicator s with
  | _ n ih =>
    subst hn
    obtain ⟨⟨rest, fail⟩, frames, db⟩ := s
    cases fail with
    | true => exact .inl (by rw [parseLoop_of_fail locals indicator rfl])
    | false =>
      cases rest with
      | nil =>
        left
        rw [parseLoop_end]
        exact composes_readIndicated_of_ne locals Inert.composes (h.resolve_right (not_not.mpr rfl)) _
      | cons b rest =>
        have hitem : Pays 0xFE weight 0 (readIndicated locals b) _ := pays_readIndicated hfair b
        have hitem := hitem ⟨⟨rest, false⟩, frames, db⟩
        have hless := advances_readIndicated locals b ⟨⟨rest, false⟩, frames, db⟩
        have hinert : b ≠ 0xFE → (readIndicated locals b ⟨⟨rest, false⟩, frames, db⟩).2.state = db :=
          fun hb => composes_readIndicated_of_ne locals Inert.composes hb _
        rw [parseLoop_cons]
        generalize readIndicated locals b ⟨⟨rest, false⟩, frames, db⟩ = r at hitem hless hinert ⊢
        have hrest : funds 0xFE weight (parseLoop locals b r.2).2 ≤ funds 0xFE weight r.2 :=
          funds_parseLoop hfair b r.2
        rw [funds_cons]
        by_cases hb : b = 0xFE
        · -- the opcode itself is spent
          right
          rw [if_pos hb]
          split
          · omega
          · dsimp only
            omega
        · rw [if_neg hb]
          split
          · have hshort : r.2.file.remaining < (IFStream.mk (b :: rest) false).remaining := by
              simp only [IFStream.remaining, Bool.false_eq_true, if_false, List.length_cons] at hless ⊢
              omega
            rcases ih _ hshort (.inl hb) rfl with hstate | hpaid
            · exact .inl (hstate.trans (hinert hb))
            · right
              omega
          · exact .inl (hinert hb)

end Fair

end Budget

/-! ### What the entries hold -/

theorem count_entryBytes (h : ∀ e ∈ left, Short e) :
    (left.flatMap entryBytes).count 0xFE = (left.map opcodes).sum := by
  have hlen {n : ℕ} (hn : n < 64) : n.toUInt8 ≠ 0xFE := by
    intro heq
    have hval := congrArg UInt8.toNat heq
    simp only [Nat.toUInt8, UInt8.toNat_ofNat'] at hval
    have h254 : (0xFE : UInt8).toNat = 254 := rfl
    omega
  induction left with
  | nil => rfl
  | cons e left ih =>
    obtain ⟨⟨hk, hv⟩, hrest⟩ := List.forall_mem_cons.mp h
    rw [List.flatMap_cons, List.count_append, ih hrest, List.map_cons, List.sum_cons, entryBytes,
      opcodes, List.count_cons_of_ne (by decide), List.cons_append, List.count_cons_of_ne (hlen hk),
      List.count_append, List.count_cons_of_ne (hlen hv)]

theorem storedOpcodes_of_stored (h : ∀ e ∈ left, db.lookup e.1 = some ⟨e.2, 0⟩) :
    storedOpcodes left db = (left.map opcodes).sum := by
  rw [storedOpcodes, List.map_congr_left fun e he => if_pos (h e he)]

theorem storedOpcodes_of_missing (h : ∀ e ∈ left, db.lookup e.1 = none) :
    storedOpcodes left db = 0 := by
  rw [storedOpcodes, List.map_congr_left fun e he => if_neg (by simp [h e he])]
  simp

/-- The table is read up to the number of entries that one byte holds. -/
theorem parse_table {version metadata table : Bytes} {pairs : List (Bytes × Bytes)}
    (hshort : ∀ e ∈ entries, Short e) (hversion : version.length = 4)
    (hmetadata : Sequence RdbMetaData pairs metadata) (htable : TableSection entries table)
    (locals : ℕ → Locals) (rest : Bytes) : ∃ m,
    parse locals ⟨.opened (str "REDIS" ++ version ++ (metadata ++ (table ++ rest))), 0, ∅⟩ =
      parseLoop locals 0xFE ⟨⟨(entries.drop (entries.length % 2 ^ 8)).flatMap entryBytes ++ rest, false⟩,
        m, overwrite ((entries.take (entries.length % 2 ^ 8)).map storedEntry) ∅⟩ := by
  obtain ⟨b, k, hk⟩ := parse_metaData hversion hmetadata locals ∅ (table ++ rest)
  obtain @⟨index, expiries, n, e, ns, es, hindex, hn, he⟩ := htable
  have htake : entries.flatMap entryBytes
      = (entries.take (entries.length % 2 ^ 8)).flatMap entryBytes
        ++ (entries.drop (entries.length % 2 ^ 8)).flatMap entryBytes := by
    rw [← List.flatMap_append, List.take_append_drop]
  have hloaded : Sequence RdbEntry ((entries.take (entries.length % 2 ^ 8)).map storedEntry)
      ((entries.take (entries.length % 2 ^ 8)).flatMap entryBytes) :=
    sequence_entryBytes fun e he => hshort e (List.mem_of_mem_take he)
  have hsize : ((entries.take (entries.length % 2 ^ 8)).map storedEntry).length
      = entries.length % 2 ^ 8 := by
    rw [List.length_map, List.length_take]
    omega
  obtain ⟨m, hm⟩ := parseLoop_round b (reads_readIndicated_database ∅ hindex hn he hsize hloaded)
    ((entries.drop (entries.length % 2 ^ 8)).flatMap entryBytes ++ rest) k
  refine ⟨m, hk.trans ?_⟩
  rw [← hm, htake]
  simp

theorem fst_storedEntry (es : List (Bytes × Bytes)) :
    (es.map storedEntry).map Prod.fst = es.map Prod.fst := by
  rw [List.map_map]
  rfl

/-- Entries that are left over are not all stored. -/
theorem exists_not_stored {first : List (Bytes × Bytes)} (hleft : left ≠ [])
    (hdistinct : ((first ++ left).map Prod.fst).Nodup) (hshort : ∀ e ∈ left, Short e)
    (htrailer : 0xFE ∉ trailer) (locals : ℕ → Locals) (m : ℕ) : ∃ e ∈ left,
    (parseLoop locals 0xFE ⟨⟨left.flatMap entryBytes ++ 0xFF :: trailer, false⟩, m,
      overwrite (first.map storedEntry) ∅⟩).2.state.lookup e.1 ≠ some ⟨e.2, 0⟩ := by
  rw [List.map_append, List.nodup_append] at hdistinct
  obtain ⟨-, hnodup, hdisjoint⟩ := hdistinct
  have hmissing : ∀ e ∈ left, (overwrite (first.map storedEntry) ∅).lookup e.1 = none := by
    intro e he
    rw [lookup_overwrite_of_notMem, Finmap.lookup_empty]
    rw [fst_storedEntry]
    exact fun hmem => hdisjoint _ hmem _ (List.mem_map_of_mem he) rfl
  by_contra hall
  push Not at hall
  have hfair : Fair (storedOpcodes left) := fun db k v t => storedOpcodes_insert hnodup db k v t
  rcases @parseLoop_unchanged_or_paid locals _ hfair 0xFE ⟨⟨left.flatMap entryBytes ++ 0xFF :: trailer,
    false⟩, m, overwrite (first.map storedEntry) ∅⟩ (.inr (by simp)) with hstate | hpaid
  · obtain ⟨e, he⟩ := List.exists_mem_of_ne_nil left hleft
    have hstored := hall e he
    rw [hstate, hmissing e he] at hstored
    cases hstored
  · -- to store them all would take one more opcode than the file has
    have hcount : (0xFF :: trailer).count 0xFE = 0 := by
      rw [List.count_cons_of_ne (by decide), List.count_eq_zero]
      exact htrailer
    have hend := storedOpcodes_of_stored hall
    simp only [funds, List.count_append, hcount, count_entryBytes hshort,
      storedOpcodes_of_missing hmissing] at hpaid
    omega

/-- A table that is too long for the counter is not loaded as a whole. -/
theorem exists_not_loaded (hdistinct : (entries.map Prod.fst).Nodup)
    (hshort : ∀ e ∈ entries, Short e) (h : TableFile entries trailer bytes)
    (htrailer : 0xFE ∉ trailer) (hmany : 255 < entries.length) (locals : ℕ → Locals) :
    ∃ e ∈ entries,
      (parse locals ⟨.opened bytes, 0, ∅⟩).2.state.lookup e.1 ≠ some ⟨e.2, 0⟩ := by
  obtain @⟨version, _, metadata, table, pairs, hversion, hmetadata, htable⟩ := h
  obtain ⟨m, hm⟩ := parse_table hshort hversion hmetadata htable locals (0xFF :: trailer)
  have hleft : entries.drop (entries.length % 2 ^ 8) ≠ [] := by
    rw [← List.length_pos_iff, List.length_drop]
    omega
  obtain ⟨e, he, hmissing⟩ := exists_not_stored hleft (by rwa [List.take_append_drop])
    (fun e he => hshort e (List.mem_of_mem_drop he)) htrailer locals m
  exact ⟨e, List.mem_of_mem_drop he, hm ▸ hmissing⟩

/-- Nothing is stored behind the end marker. -/
def StoresNothing (trailer : Bytes) : Prop := Harmless (.opcode false) trailer ∨ 0xFE ∉ trailer

theorem StoresNothing.parseLoop_endMarker (h : StoresNothing trailer) (n : ℕ) (db : Database) :
    (parseLoop locals 0xFE ⟨⟨0xFF :: trailer, false⟩, n, db⟩).2.state = db := by
  rcases h with hharmless | hopcode
  · exact hharmless.parseLoop_endMarker n db
  · exact parseLoop_unchanged locals 0xFE
      (List.not_mem_cons_of_ne_of_not_mem (by decide) hopcode)

/-- A table that is not too long is loaded, and the end of the file leaves it alone. -/
theorem loaded_of_length_le (hdistinct : (entries.map Prod.fst).Nodup)
    (hshort : ∀ e ∈ entries, Short e) (h : TableFile entries trailer bytes)
    (htrailer : StoresNothing trailer) (hfew : entries.length ≤ 255) (locals : ℕ → Locals)
    {e : Bytes × Bytes} (he : e ∈ entries) :
    (parse locals ⟨.opened bytes, 0, ∅⟩).2.state.lookup e.1 = some ⟨e.2, 0⟩ := by
  obtain @⟨version, _, metadata, table, pairs, hversion, hmetadata, htable⟩ := h
  obtain ⟨m, hm⟩ := parse_table hshort hversion hmetadata htable locals (0xFF :: trailer)
  have hsize : entries.length % 2 ^ 8 = entries.length := Nat.mod_eq_of_lt (by omega)
  rw [hm, hsize, List.take_length, List.drop_length, List.flatMap_nil, List.nil_append,
    htrailer.parseLoop_endMarker]
  exact lookup_overwrite_of_mem (by rwa [fst_storedEntry]) (List.mem_map_of_mem he)

/-- Every entry of a table is loaded if there are no more than 255 of them and nothing is stored
behind the end marker. If no byte behind it opens a section, 255 is the exact bound. -/
theorem table_loaded_iff (hdistinct : (entries.map Prod.fst).Nodup)
    (hshort : ∀ e ∈ entries, Short e) (h : TableFile entries trailer bytes) (locals : ℕ → Locals) :
    (entries.length ≤ 255 ∧ StoresNothing trailer → ∀ e ∈ entries,
      (parse locals ⟨.opened bytes, 0, ∅⟩).2.state.lookup e.1 = some ⟨e.2, 0⟩) ∧
    (0xFE ∉ trailer → ((∀ e ∈ entries,
      (parse locals ⟨.opened bytes, 0, ∅⟩).2.state.lookup e.1 = some ⟨e.2, 0⟩) ↔
        entries.length ≤ 255)) := by
  constructor
  · rintro ⟨hfew, htrailer⟩ e he
    exact loaded_of_length_le hdistinct hshort h htrailer hfew locals he
  · intro htrailer
    constructor
    · intro hall
      by_contra hmany
      obtain ⟨e, he, hmissing⟩ :=
        exists_not_loaded hdistinct hshort h htrailer (not_le.mp hmany) locals
      exact hmissing (hall e he)
    · intro hfew e he
      exact loaded_of_length_le hdistinct hshort h (.inr htrailer) hfew locals he

theorem table_loaded_of_pair :
    [str "a", str "b"].map (parse (fun _ => default) ⟨.opened (str "REDIS" ++ str "0011" ++ ([] ++
        ([0xFE, 0, 0xFB, 2, 0, 0, 1] ++ str "a" ++ [1] ++ str "1" ++ [0, 1] ++ str "b" ++ [0] ++
          0xFF :: [0xFA, 1, 2, 1, 0xFE, 0xFE, 0, 0]))), 0, ∅⟩).2.state.lookup
      = [some ⟨str "1", 0⟩, some ⟨[], 0⟩] := by
  have hn : RdbSize [(str "a", str "1"), (str "b", ([] : Bytes))].length 2 [] := .six (by decide)
  have he : RdbSize 0 0 [] := .six (by decide)
  have htable := TableSection.mk (show 0 < 64 by decide) hn he
  -- the checksum has the opcode of a metadata pair and that of a section
  have hname : Passes .name [1, 2] .value := .name (by decide) rfl
  have hvalue : Passes .value [1, 0xFE] (.opcode true) := .value (by decide) rfl
  have hindex : Passes .index [0] .indicator := .index rfl
  have hchecksum : Harmless (.opcode false) [0xFA, 1, 2, 1, 0xFE, 0xFE, 0, 0] :=
    .pass .metadata (.pass hname (.pass hvalue (.pass .section (.pass hindex
      (.pass (.noTable (by decide)) (.stop .opcode))))))
  have hloaded := (table_loaded_iff (by decide) (by decide)
    (.mk (str "0011") _ rfl .nil htable) (fun _ => default)).1 ⟨by decide, .inl hchecksum⟩
  have ha := hloaded (str "a", str "1") (by simp)
  have hb := hloaded (str "b", []) (by simp)
  exact congrArg₂ (fun x y => [x, y]) ha hb

/-- The entries of 256 one-byte keys. -/
def byteEntries : List (Bytes × Bytes) := (List.range 256).map fun i => ([i.toUInt8], [])

theorem nodup_byteEntries : (byteEntries.map Prod.fst).Nodup := by
  rw [byteEntries, List.map_map]
  apply List.nodup_range.map_on
  intro i hi j hj heq
  rw [List.mem_range] at hi hj
  have hbyte := congrArg UInt8.toNat (List.head_eq_of_cons_eq heq)
  simp only [Nat.toUInt8, UInt8.toNat_ofNat'] at hbyte
  omega

/-- Of a table of 256 entries none is read as an entry. -/
theorem full_table_not_loaded : ¬ ∀ (locals : ℕ → Locals) (entries : List (Bytes × Bytes))
    (trailer bytes : Bytes), (entries.map Prod.fst).Nodup → (∀ e ∈ entries, Short e) →
    TableFile entries trailer bytes → StoresNothing trailer → ∀ e ∈ entries,
      (parse locals ⟨.opened bytes, 0, ∅⟩).2.state.lookup e.1 = some ⟨e.2, 0⟩ := by
  intro hall
  have hshort : ∀ e ∈ byteEntries, Short e := by
    intro e he
    obtain ⟨i, -, rfl⟩ := List.mem_map.mp he
    exact ⟨by simp, by simp⟩
  have hlength : byteEntries.length = 256 := by simp [byteEntries]
  have hn : RdbSize byteEntries.length 0x41 [0] := hlength ▸ .fourteen (n := 256) (by decide)
  have htable := TableSection.mk (show 0 < 64 by decide) hn (.six (n := 0) (by decide))
  have hfile := TableFile.mk (str "0011") (List.replicate 8 0) rfl .nil htable
  have htrailer : (0xFE : UInt8) ∉ List.replicate 8 0 := by decide
  obtain ⟨e, he, hmissing⟩ := exists_not_loaded nodup_byteEntries hshort hfile htrailer (by omega)
    (fun _ => default)
  exact hmissing (hall (fun _ => default) _ _ _ nodup_byteEntries hshort hfile (.inr htrailer) e he)

end RedisServer.TableSizes
