import RedisServer.LazyExpiry
import RedisServer.RdbStringForms

/-!
# Entries that expire at a time in seconds

The loop over the entries turns seconds into milliseconds in 32 bits. A time that does not fit
wraps around, and the entry expires earlier than it should or never.
-/

namespace RedisServer.SecondsExpiry
open ByteStrings CxxStrings FileStreams StreamReaders InteractionPrograms ServerState Utils
open RedisParser RequestChain LazyExpiry RdbParser RdbRoundTrip RdbStringForms

/-- An entry with a time of `s` seconds before the encodings of its key and value. -/
def secondsEntry (s : ℕ) (strings : Bytes) : Bytes :=
  0xFD :: (toLittleEndian 4 s ++ 0x00 :: strings)

/-- An entry with a time of `ms` milliseconds. -/
def millisecondsEntry (ms : ℕ) (strings : Bytes) : Bytes :=
  0xFC :: (toLittleEndian 8 ms ++ 0x00 :: strings)

/-- A round of the loop over the entries consumes `bytes` and stores `e`. -/
def LoadsEntry (locals : ℕ → Locals) (bytes : Bytes) (e : Entry) : Prop :=
  ∀ (nextByte valueType : UInt8) (rest : Bytes) (n : ℕ) (db : Database),
    ∃ m nextByte' valueType', readEntry locals nextByte valueType ⟨⟨bytes ++ rest, false⟩, n, db⟩
      = ((true, nextByte', valueType'), ⟨⟨rest, false⟩, m, db.insert e.1 e.2⟩)

/-- `get` returns `r` when the clock reads `t`. -/
def GetReturns (host : Host) (t : ℤ) (st : Store) (key r : Bytes) : Prop :=
  ∃ tr st', Exec (parser (atTime host t) 0 []) (databaseGet key) st tr (.ok r) st'

/-- The entry is stored with `1000 * s` milliseconds like the same entry in milliseconds, and
it is found up to that time. -/
structure LoadsSeconds (locals : ℕ → Locals) (host : Host) (s : ℕ) (key value ks vs : Bytes) :
    Prop where
  stores : LoadsEntry locals (secondsEntry s (ks ++ vs)) (key, ⟨value, 1000 * s⟩)
  agrees : LoadsEntry locals (millisecondsEntry (1000 * s) (ks ++ vs)) (key, ⟨value, 1000 * s⟩)
  lives : ∀ st, st.database.lookup key = some ⟨value, 1000 * s⟩ →
    ∀ t, GetReturns host t st key value ↔ t < 1000 * s

variable {locals : ℕ → Locals} {host : Host} {s : ℕ} {key value ks vs bytes : Bytes} {e : Entry}

section Loading

theorem LoadsEntry.of_reads (h : ∀ nextByte valueType db, ∃ nextByte' valueType',
    Reads (readEntry locals nextByte valueType) bytes db (true, nextByte', valueType')
      (db.insert e.1 e.2)) : LoadsEntry locals bytes e := by
  intro nextByte valueType rest n db
  obtain ⟨nextByte', valueType', hreads⟩ := h nextByte valueType db
  obtain ⟨m, hm⟩ := hreads rest n
  exact ⟨m, nextByte', valueType', hm⟩

/-- What a round does with a time in seconds. -/
theorem continues_readEntry_seconds (hs : s < 2 ^ 32) (nextByte valueType : UInt8) (db : Database) :
    Continues (readEntry locals nextByte valueType) (secondsEntry s []) db
      (readTypedEntry locals 0x0 ((s * 1000 % 2 ^ 32 : ℕ) : ℤ) >>= fun stored =>
        pure (stored, 0xFD, 0x0)) db := by
  have hword : s < 256 ^ 4 := hs
  refine Continues.frame locals fun l => Continues.readByte_bind _ ?_
  apply (Continues.of_reads (Reads.readWord hword (length_toLittleEndian 4 _) db) _).trans
  exact Continues.of_reads (Reads.readByte _ _ db) _

theorem loadsEntry_seconds (hs : s < 2 ^ 32) (hk : RdbString key ks) (hv : RdbString value vs) :
    LoadsEntry locals (secondsEntry s (ks ++ vs)) (key, ⟨value, ((s * 1000 % 2 ^ 32 : ℕ) : ℤ)⟩) := by
  refine .of_reads fun nextByte valueType db => ⟨0xFD, 0x0, fun rest n => ?_⟩
  have hbytes : secondsEntry s (ks ++ vs) = secondsEntry s [] ++ (ks ++ vs) := by
    simp [secondsEntry]
  have htyped : Reads (readTypedEntry locals 0x0 ((s * 1000 % 2 ^ 32 : ℕ) : ℤ)) (ks ++ vs) db true _ :=
    reads_readTypedEntry _ hk hv
  obtain ⟨m, hm⟩ := (continues_readEntry_seconds hs nextByte valueType db).trans
    (Continues.of_reads htyped _) rest n
  exact ⟨m, hbytes ▸ hm⟩

theorem loadsEntry_milliseconds (hs : s < 2 ^ 32) (hk : RdbString key ks) (hv : RdbString value vs) :
    LoadsEntry locals (millisecondsEntry (1000 * s) (ks ++ vs)) (key, ⟨value, 1000 * s⟩) := by
  refine .of_reads fun nextByte valueType db => ?_
  have h := RdbEntry.expiring (1000 * s) (by omega) hk hv
  rw [Nat.cast_mul] at h
  obtain ⟨nextByte', -, hread⟩ := reads_readEntry nextByte valueType h
  exact ⟨nextByte', 0x0, hread⟩

/-- An entry that is loaded into an empty database is the only one there. -/
theorem insert_empty_inj {k k' : Bytes} {v v' : DBValue}
    (h : (∅ : Database).insert k v = (∅ : Database).insert k' v') : k = k' ∧ v = v' := by
  have hlookup := congrArg (fun db : Database => db.lookup k) h
  simp only [Finmap.lookup_insert] at hlookup
  by_cases hk : k = k'
  · subst hk
    rw [Finmap.lookup_insert] at hlookup
    exact ⟨rfl, Option.some_inj.mp hlookup⟩
  · rw [Finmap.lookup_insert_of_ne _ hk] at hlookup
    cases hlookup

/-- What an entry in seconds has to be to be loaded with a given value. -/
theorem LoadsEntry.seconds {v : DBValue} (hs : s < 2 ^ 32) (hk : RdbText key ks)
    (hv : RdbText v.value vs) (h : LoadsEntry locals (secondsEntry s (ks ++ vs)) (key, v)) :
    RdbString key ks ∧ RdbString v.value vs ∧ v.expiryTime = (s * 1000 % 2 ^ 32 : ℕ) := by
  obtain ⟨m, nextByte, valueType, hload⟩ := h 0 0 [] 0 ∅
  have hcontinues : Continues (readEntry locals 0 0) (secondsEntry s []) ∅ _ ∅ :=
    continues_readEntry_seconds hs 0 0 ∅
  obtain ⟨k, hk'⟩ := hcontinues (ks ++ (vs ++ [])) 0
  have hbytes : secondsEntry s (ks ++ vs) ++ [] = secondsEntry s [] ++ (ks ++ (vs ++ [])) := by
    simp [secondsEntry]
  rw [hbytes, hk'] at hload
  rcases hpair : readStringKeyValue locals ⟨⟨ks ++ (vs ++ []), false⟩, k, ∅⟩ with
    ⟨⟨key', value'⟩, ⟨file, frames, db'⟩⟩
  have hinert := composes_readStringKeyValue locals Inert.composes ⟨⟨ks ++ (vs ++ []), false⟩, k, ∅⟩
  rw [hpair] at hinert
  obtain rfl : db' = ∅ := hinert
  have htyped : readTypedEntry locals 0x0 ((s * 1000 % 2 ^ 32 : ℕ) : ℤ)
      ⟨⟨ks ++ (vs ++ []), false⟩, k, ∅⟩ = (true, ⟨file, frames,
        (∅ : Database).insert key' ⟨value', ((s * 1000 % 2 ^ 32 : ℕ) : ℤ)⟩⟩) := by
    simp only [readTypedEntry, if_true, bind, StateT.bind, hpair]
    rfl
  simp only [bind, StateT.bind, htyped] at hload
  obtain ⟨hfile, -, hdb⟩ := ReaderState.mk.inj (congrArg Prod.snd hload)
  obtain ⟨rfl, rfl⟩ := insert_empty_inj hdb
  subst hfile
  obtain ⟨hks, hvs⟩ := hk.rdbString_pair hv hpair
  exact ⟨hks, hvs, rfl⟩

end Loading

section Lookup

theorem GetReturns.unique {t : ℤ} {st : Store} {k r r' : Bytes} (h : GetReturns host t st k r)
    (h' : GetReturns host t st k r') : r = r' := by
  obtain ⟨tr, st₁, hx⟩ := h
  obtain ⟨tr', st₂, hx'⟩ := h'
  cases (hx.deterministic hx').2.1
  rfl

theorem getReturns_of_lt {t : ℤ} {st : Store} {v : DBValue} (h : st.database.lookup key = some v)
    (hv : v.expiryTime ≠ 0) (ht : t < v.expiryTime) : GetReturns host t st key v.value :=
  ⟨_, _, exec_databaseGet_live h hv ht⟩

theorem getReturns_of_le {t : ℤ} {st : Store} {v : DBValue} (h : st.database.lookup key = some v)
    (hv : v.expiryTime ≠ 0) (ht : v.expiryTime ≤ t) : GetReturns host t st key nullResponse :=
  ⟨_, _, exec_databaseGet_expired h hv ht⟩

/-- The value can be told from its absence. -/
theorem getReturns_iff {t : ℤ} {st : Store} {v : DBValue} (h : st.database.lookup key = some v)
    (hv : v.expiryTime ≠ 0) (hvalue : v.value ≠ nullResponse) :
    GetReturns host t st key v.value ↔ t < v.expiryTime := by
  constructor
  · intro hget
    by_contra ht
    exact hvalue (hget.unique (getReturns_of_le h hv (not_lt.mp ht)))
  · exact getReturns_of_lt h hv

end Lookup

/-- A time in seconds is loaded as it should be exactly when its milliseconds fit in 32 bits,
for strings that the reader can read and a value that is not the null response. -/
theorem seconds_expiry_iff (hk : RdbText key ks) (hv : RdbText value vs) (hpos : 0 < s)
    (hs : s < 2 ^ 32) (locals : ℕ → Locals) (host : Host) :
    LoadsSeconds locals host s key value ks vs ↔
      1000 * s < 2 ^ 32 ∧ value ≠ nullResponse ∧ RdbString key ks ∧ RdbString value vs := by
  constructor
  · rintro ⟨hstores, -, hlives⟩
    obtain ⟨hks, hvs, htime⟩ := hstores.seconds hs hk hv
    refine ⟨by dsimp only at htime; omega, ?_, hks, hvs⟩
    rintro rfl
    -- the null response is also what `get` returns at the time of the expiry
    let st : Store := (Store.empty []).setDatabase
      ((∅ : Database).insert key ⟨nullResponse, 1000 * s⟩)
    have hlookup : st.database.lookup key = some ⟨nullResponse, 1000 * s⟩ := Finmap.lookup_insert _
    have hget : GetReturns host (1000 * s) st key nullResponse :=
      getReturns_of_le hlookup (by dsimp only; omega) le_rfl
    exact lt_irrefl _ ((hlives st hlookup _).mp hget)
  · rintro ⟨hfits, hvalue, hks, hvs⟩
    have htime : ((s * 1000 % 2 ^ 32 : ℕ) : ℤ) = 1000 * s := by omega
    refine ⟨htime ▸ loadsEntry_seconds hs hks hvs, loadsEntry_milliseconds hs hks hvs, ?_⟩
    intro st hlookup t
    exact getReturns_iff hlookup (by dsimp only; omega) hvalue

theorem seconds_expiry_of_twenty_days :
    LoadsSeconds (fun _ => default) .plain 1713824 (str "k") (str "v") (1 :: str "k") (1 :: str "v") :=
  (seconds_expiry_iff (.raw (.six (by decide))) (.raw (.six (by decide))) (by decide) (by decide)
    (fun _ => default) .plain).mpr
    ⟨by decide, by decide, .raw (by decide), .raw (by decide)⟩

/-- A time in 2024 is loaded as one in January 1970. -/
theorem seconds_expiry_wraps : ¬ ∀ (locals : ℕ → Locals) (host : Host) (s : ℕ)
    (key value ks vs : Bytes), RdbText key ks → RdbText value vs → 0 < s → s < 2 ^ 32 →
      LoadsSeconds locals host s key value ks vs := by
  intro hall
  have hk : RdbText (str "k") (1 :: str "k") := .raw (.six (by decide))
  have hv : RdbText (str "v") (1 :: str "v") := .raw (.six (by decide))
  have hload := (hall (fun _ => default) .plain 1713824559 _ _ _ _ hk hv (by decide) (by decide)).stores
  have htime := (hload.seconds (by decide) hk hv).2.2
  exact absurd htime (by decide)

end RedisServer.SecondsExpiry
