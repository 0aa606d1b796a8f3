import RedisServer.ExhaustedStreams
import RedisServer.RdbStringForms

/-!
# Files that are cut off

A layout says where the parts of a file lie, so that a place where it is cut off can be
named. Before the entries of a table the parser stores nothing that is not there. From the
first entry on it goes on with the rounds that are left and stores what its variables hold.
-/

namespace RedisServer.TruncatedFiles
open ByteStrings FileStreams OrderedOverwrites RdbParser RdbRoundTrip RdbStringForms ServerState
open StreamReaders ExhaustedStreams

/-- A database section: its index, the forms of its two sizes and its entries. -/
structure SectionLayout where
  index : ℕ
  size : UInt8 × Bytes
  expiries : UInt8 × Bytes
  entries : List (Entry × Bytes)

namespace SectionLayout

/-- The section up to its first entry, without its opcode. -/
def front (s : SectionLayout) : Bytes :=
  s.index.toUInt8 :: 0xFB :: s.size.1 :: (s.size.2 ++ s.expiries.1 :: s.expiries.2)

def table (s : SectionLayout) : Bytes := s.entries.flatMap Prod.snd

def bytes (s : SectionLayout) : Bytes := 0xFE :: (s.front ++ s.table)

structure WellFormed (s : SectionLayout) : Prop where
  index : s.index < 64
  size : RdbSize s.entries.length s.size.1 s.size.2
  expiries : ∃ n, RdbSize n s.expiries.1 s.expiries.2
  entries : ∀ e ∈ s.entries, RdbEntry e.1 e.2

end SectionLayout

structure FileLayout where
  version : Bytes
  metadata : List ((Bytes × Bytes) × Bytes)
  sections : List SectionLayout
  checksum : Bytes

namespace FileLayout

/-- The file up to its first section. -/
def head (file : FileLayout) : Bytes :=
  str "REDIS" ++ file.version ++ file.metadata.flatMap Prod.snd

def bytes (file : FileLayout) : Bytes :=
  file.head ++ (file.sections.flatMap SectionLayout.bytes ++ 0xFF :: file.checksum)

def entries (file : FileLayout) : List Entry :=
  file.sections.flatMap fun s => s.entries.map Prod.fst

/-- A file of the supported fragment with at most 255 entries. Behind the end marker no
byte opens a section. -/
structure WellFormed (file : FileLayout) : Prop where
  version : file.version.length = 4
  metadata : ∀ m ∈ file.metadata, RdbMetaData m.1 m.2
  sections : ∀ s ∈ file.sections, s.WellFormed
  entries : file.entries.length ≤ 255
  checksum : 0xFE ∉ file.checksum

/-- Where the entries of the section behind `before` begin. -/
def tableStart (file : FileLayout) (before : List SectionLayout) (s : SectionLayout) : ℕ :=
  file.head.length + (before.flatMap SectionLayout.bytes).length + 1 + s.front.length

/-- Some bytes of an entry are in front of the cut and some behind it. -/
def InsideEntry (file : FileLayout) (c : ℕ) : Prop :=
  ∃ before s after es e es', file.sections = before ++ s :: after ∧ s.entries = es ++ e :: es' ∧
    file.tableStart before s + (es.flatMap Prod.snd).length < c ∧
    c < file.tableStart before s + (es.flatMap Prod.snd).length + e.2.length

/-- The file is cut off in the entries of a table or between them, or in front of the first
of them and behind a zero. -/
def Exposed (file : FileLayout) (c : ℕ) : Prop :=
  ∃ before s after, file.sections = before ++ s :: after ∧ file.tableStart before s ≤ c ∧
    c < file.tableStart before s + s.table.length ∧
    (c = file.tableStart before s → s.expiries.1 = 0)

end FileLayout

/-- What is stored from the file cut off at `c` are entries of the file, and a cut inside
an entry is reported. -/
def InventsNothing (locals : ℕ → Locals) (file : FileLayout) (c : ℕ) : Prop :=
  (∀ k v, (parse locals ⟨.opened (file.bytes.take c), 0, ∅⟩).2.state.lookup k = some v →
    (k, v) ∈ file.entries) ∧
  (file.InsideEntry c → (parse locals ⟨.opened (file.bytes.take c), 0, ∅⟩).1 = false)

/-! ### The layout of a supported file -/

theorem exists_list_of_sequence {α β : Type} {R : α → Bytes → Prop} {W : β → Prop} {f : β → α}
    {g : β → Bytes} {l : List α} {bytes : Bytes} (h : Sequence R l bytes)
    (hR : ∀ {a xs}, R a xs → ∃ b, W b ∧ f b = a ∧ g b = xs) :
    ∃ l' : List β, (∀ b ∈ l', W b) ∧ l'.map f = l ∧ l'.flatMap g = bytes := by
  induction h with
  | nil => exact ⟨[], by simp, rfl, rfl⟩
  | cons ha _ ih =>
    obtain ⟨l', hW, rfl, rfl⟩ := ih
    obtain ⟨b, hb, rfl, rfl⟩ := hR ha
    exact ⟨b :: l', List.forall_mem_cons.mpr ⟨hb, hW⟩, rfl, rfl⟩

theorem exists_pairs_of_sequence {α : Type} {R : α → Bytes → Prop} {l : List α} {bytes : Bytes}
    (h : Sequence R l bytes) : ∃ l' : List (α × Bytes), (∀ p ∈ l', R p.1 p.2) ∧
      l'.map Prod.fst = l ∧ l'.flatMap Prod.snd = bytes :=
  exists_list_of_sequence h fun {a xs} ha => ⟨(a, xs), ha, rfl, rfl⟩

theorem exists_section_layout {entries : List Entry} {bytes : Bytes}
    (h : RdbSection entries bytes) : ∃ s : SectionLayout, s.WellFormed ∧
      s.entries.map Prod.fst = entries ∧ s.bytes = bytes := by
  cases h with
  | @mk index expiries _ n e ns es _ hindex _ hn he hentries =>
    obtain ⟨l, hl, rfl, rfl⟩ := exists_pairs_of_sequence hentries
    rw [List.length_map] at hn
    refine ⟨⟨index, (n, ns), (e, es), l⟩, ⟨hindex, hn, ⟨expiries, he⟩, hl⟩, rfl, ?_⟩
    simp [SectionLayout.bytes, SectionLayout.front, SectionLayout.table]

/-- Every file of the supported fragment with at most 255 entries has a layout. -/
theorem exists_layout {databases : List (List Entry)} {bytes : Bytes} (h : RdbFile databases bytes)
    (hlength : databases.flatten.length ≤ 255) : ∃ file : FileLayout, file.WellFormed ∧
      file.entries = databases.flatten ∧ file.bytes = bytes := by
  cases h with
  | mk version checksum hversion hmetadata hsections _ hchecksum =>
    obtain ⟨metadata, hpairs, rfl, rfl⟩ := exists_pairs_of_sequence hmetadata
    obtain ⟨sections, hwell, rfl, rfl⟩ := exists_list_of_sequence hsections exists_section_layout
    have hentries : FileLayout.entries ⟨version, metadata, sections, checksum⟩ =
        (sections.map fun s => s.entries.map Prod.fst).flatten := List.flatMap_def
    refine ⟨⟨version, metadata, sections, checksum⟩, ?_, hentries, ?_⟩
    · refine ⟨hversion, hpairs, hwell, ?_, fun hmem => (hchecksum _ hmem).2 rfl⟩
      rw [hentries]
      exact hlength
    · simp [FileLayout.bytes, FileLayout.head]

variable {locals : ℕ → Locals} {file : FileLayout} {db : Database} {xs ys : Bytes} {c : ℕ}

/-! ### Where a sequence is cut off -/

/-- A cut falls into one item, possibly in front of it. -/
theorem exists_cut {α : Type} {f : α → Bytes} {l : List α} (hcut : l.flatMap f = xs ++ ys)
    (hy : ys ≠ []) : ∃ l₁ a l₂ us vs, l = l₁ ++ a :: l₂ ∧ f a = us ++ vs ∧ vs ≠ [] ∧
      xs = l₁.flatMap f ++ us := by
  induction l generalizing xs with
  | nil => exact absurd (List.append_eq_nil_iff.mp hcut.symm).2 hy
  | cons a l ih =>
    rw [List.flatMap_cons] at hcut
    rcases cut_cases hcut with ⟨t, ht, ha⟩ | ⟨t, rfl, hl⟩
    · exact ⟨[], a, l, xs, t, rfl, ha, ht, rfl⟩
    · obtain ⟨l₁, a', l₂, us, vs, rfl, ha', hvs, rfl⟩ := ih hl
      exact ⟨a :: l₁, a', l₂, us, vs, rfl, ha', hvs, by simp⟩

theorem sequence_flatMap {α β : Type} {R : β → Bytes → Prop} {f : α → β} {g : α → Bytes}
    {l : List α} (h : ∀ a ∈ l, R (f a) (g a)) : Sequence R (l.map f) (l.flatMap g) := by
  induction l with
  | nil => exact .nil
  | cons a l ih =>
    obtain ⟨ha, hl⟩ := List.forall_mem_cons.mp h
    exact .cons ha (ih hl)

/-- An item that is cut off is the last one that the loop comes to. -/
theorem parseLoop_of_cut {b : UInt8} {db' : Database} (indicator : UInt8)
    (h : Reads (readIndicated locals b) (xs ++ ys) db true db') (hy : ys ≠ []) (n : ℕ) :
    parseLoop locals indicator ⟨⟨b :: xs, false⟩, n, db⟩
      = readIndicated locals b ⟨⟨xs, false⟩, n, db⟩ := by
  have hfail := (composes_readIndicated locals Local.composes
    (fun _ _ _ => Local.update _) b).fail_of_reads h hy n
  rw [parseLoop_cons]
  rcases hr : readIndicated locals b ⟨⟨xs, false⟩, n, db⟩ with ⟨ok, s⟩
  rw [hr] at hfail
  cases ok with
  | false => rfl
  | true => exact parseLoop_of_fail locals b hfail

/-! ### Cuts before the sections -/

theorem FileLayout.WellFormed.sequence_metadata (h : file.WellFormed) :
    Sequence RdbMetaData (file.metadata.map Prod.fst) (file.metadata.flatMap Prod.snd) :=
  sequence_flatMap h.metadata

/-- Nothing is stored from a header that is cut off. -/
theorem parse_of_cut_header {version : Bytes} (hversion : version.length = 4)
    (hcut : str "REDIS" ++ version = xs ++ ys) (hy : ys ≠ []) :
    (parse locals ⟨.opened xs, 0, db⟩).2.state = db := by
  have hread := reads_readHeader locals db hversion
  rw [hcut] at hread
  have hfail := (composes_readHeader locals Local.composes).fail_of_reads hread hy 1
  have hinert := composes_readHeader locals Inert.composes ⟨⟨xs, false⟩, 1, db⟩
  have hparse : parse locals ⟨.opened xs, 0, db⟩ =
      if (readHeader locals ⟨⟨xs, false⟩, 1, db⟩).1 then
        parseLoop locals (locals 0).indicator (readHeader locals ⟨⟨xs, false⟩, 1, db⟩).2
      else (false, (readHeader locals ⟨⟨xs, false⟩, 1, db⟩).2) := rfl
  rw [hparse, parseLoop_of_fail locals _ hfail]
  split
  · exact hinert
  · exact hinert

theorem opcode_of_metaData {pair : Bytes × Bytes} {b : UInt8} (h : RdbMetaData pair (b :: xs)) :
    b = 0xFA := by
  cases h with
  | mk => rfl

/-- Nothing is stored from metadata that is cut off. -/
theorem parse_of_cut_head (h : file.WellFormed) (hcut : file.head = xs ++ ys) (hy : ys ≠ []) :
    (parse locals ⟨.opened xs, 0, db⟩).2.state = db := by
  rcases cut_cases hcut with ⟨t, ht, hheader⟩ | ⟨t, rfl, hmetadata⟩
  · exact parse_of_cut_header h.version hheader ht
  · obtain ⟨l₁, a, l₂, us, vs, hl, ha, hvs, rfl⟩ := exists_cut hmetadata hy
    have hfirst : Sequence RdbMetaData (l₁.map Prod.fst) (l₁.flatMap Prod.snd) :=
      sequence_flatMap fun m hm => h.metadata m (by simp [hl, hm])
    obtain ⟨b, n, hn⟩ := parse_metaData h.version hfirst locals db us
    rw [hn]
    cases us with
    | nil =>
      rw [parseLoop_end]
      exact readIndicated_of_fail (s := ⟨⟨[], true⟩, n, db⟩) b rfl
    | cons b' us =>
      have hitem := h.metadata a (by simp [hl])
      rw [ha] at hitem
      obtain ⟨b'', tail, hbytes, hread⟩ := @readIndicated_metaData locals _ a.1 db hitem
      obtain ⟨rfl, rfl⟩ := List.cons.inj hbytes
      rw [parseLoop_of_cut b hread hvs]
      have hopcode := opcode_of_metaData hitem
      exact composes_readIndicated_of_ne locals Inert.composes (by rw [hopcode]; decide) _

/-! ### Cuts in the sections -/

def SectionLayout.stored (s : SectionLayout) : List Entry := s.entries.map Prod.fst

theorem SectionLayout.WellFormed.sequence (s : SectionLayout) (h : s.WellFormed) :
    Sequence RdbEntry s.stored s.table :=
  sequence_flatMap h.entries

/-- What the sections of a file look like to the loop of the parser. -/
theorem readIndicated_layout {s : SectionLayout} (db : Database)
    (h : s.WellFormed ∧ s.entries.length ≤ 255 ∧ xs = s.bytes) : ∃ b tail, xs = b :: tail ∧
      Reads (readIndicated locals b) tail db true (overwrite s.stored db) := by
  obtain ⟨hs, hlength, rfl⟩ := h
  obtain ⟨n, hexpiries⟩ := hs.expiries
  have hsize : s.stored.length = s.entries.length % 2 ^ 8 := by
    rw [SectionLayout.stored, List.length_map, Nat.mod_eq_of_lt (by omega)]
  have hread : Reads (readIndicated locals 0xFE) _ db true (overwrite s.stored db) :=
    reads_readIndicated_database db hs.index hs.size hexpiries hsize hs.sequence
  refine ⟨0xFE, _, rfl, ?_⟩
  simpa [SectionLayout.front] using hread

theorem FileLayout.WellFormed.length_le (h : file.WellFormed) {s : SectionLayout}
    (hs : s ∈ file.sections) : s.entries.length ≤ 255 := by
  have hsub : s.stored.Sublist file.entries :=
    List.sublist_flatten_of_mem (List.mem_map_of_mem hs)
  have hlength := hsub.length_le
  rw [SectionLayout.stored, List.length_map] at hlength
  exact hlength.trans h.entries

/-- The loop behind the first sections of a file. -/
theorem parse_of_sections (h : file.WellFormed) {before after : List SectionLayout}
    (hsections : file.sections = before ++ after) (locals : ℕ → Locals) (db : Database)
    (rest : Bytes) : ∃ b n,
    parse locals ⟨.opened (file.head ++ (before.flatMap SectionLayout.bytes ++ rest)), 0, db⟩ =
      parseLoop locals b ⟨⟨rest, false⟩, n, overwrite (before.flatMap SectionLayout.stored) db⟩ := by
  obtain ⟨b, n, hn⟩ := parse_metaData h.version h.sequence_metadata locals db
    (before.flatMap SectionLayout.bytes ++ rest)
  have hbefore : Sequence (fun s xs => s.WellFormed ∧ s.entries.length ≤ 255 ∧ xs = s.bytes) before
      (before.flatMap SectionLayout.bytes) := by
    have hall : ∀ s ∈ before, s.WellFormed ∧ s.entries.length ≤ 255 ∧ s.bytes = s.bytes := by
      intro s hs
      have hmem : s ∈ file.sections := by
        rw [hsections]
        exact List.mem_append_left after hs
      exact ⟨h.sections s hmem, h.length_le hmem, rfl⟩
    simpa using sequence_flatMap (f := id) hall
  obtain ⟨b', n', hn'⟩ := parseLoop_sequence locals db (f := fun s db => overwrite s.stored db)
    (fun db => readIndicated_layout db) hbefore b rest n
  have hstored : overwrite (before.flatMap SectionLayout.stored) db
      = before.foldl (fun db s => overwrite s.stored db) db := by
    rw [List.flatMap_def, overwrite_flatten, List.foldl_map]
  have hbytes : file.head ++ (before.flatMap SectionLayout.bytes ++ rest) =
      str "REDIS" ++ file.version ++ (file.metadata.flatMap Prod.snd ++
        (before.flatMap SectionLayout.bytes ++ rest)) := by
    rw [FileLayout.head, List.append_assoc]
  refine ⟨b', n', ?_⟩
  rw [hstored, hbytes, hn]
  exact hn'

/-- A section that is cut off before its entries, but not behind a zero, stores nothing. -/
theorem parseLoop_of_cut_section {s : SectionLayout} (hs : s.WellFormed)
    (hlength : s.entries.length ≤ 255) (hcut : s.bytes = xs ++ ys) (hy : ys ≠ [])
    (hfront : ∀ t, xs = 0xFE :: (s.front ++ t) → t = [] ∧ s.expiries.1 ≠ 0) (b : UInt8) (n : ℕ) :
    (parseLoop locals b ⟨⟨xs, false⟩, n, db⟩).2.state = db := by
  cases xs with
  | nil =>
    rw [parseLoop_end]
    exact readIndicated_of_fail (s := ⟨⟨[], true⟩, n, db⟩) b rfl
  | cons b' xs =>
    obtain ⟨opcode, tail, hbytes, hread⟩ := @readIndicated_layout locals _ s db ⟨hs, hlength, rfl⟩
    obtain ⟨rfl, rfl⟩ := List.cons.inj hbytes
    obtain ⟨rfl, htail⟩ := List.cons.inj hcut
    rw [htail] at hread
    rw [parseLoop_of_cut b hread hy]
    obtain ⟨m, hexpiries⟩ := hs.expiries
    rcases cut_cases htail with ⟨t, ht, hleft⟩ | ⟨t, rfl, -⟩
    · exact readDatabase_of_cut hs.index hs.size hexpiries hleft ht
    · obtain ⟨rfl, hzero⟩ := hfront t rfl
      rw [List.append_nil]
      exact readDatabase_of_first hs.index hs.size hexpiries hzero

theorem length_of_take (hy : file.bytes.drop c ≠ []) : (file.bytes.take c).length = c :=
  List.length_take_of_le (not_lt.mp fun h => hy (List.drop_eq_nil_of_le h.le))

/-- Where no entry is exposed, the entries of the first sections are stored. -/
theorem exists_stored (h : file.WellFormed) (hc : ¬ file.Exposed c) (locals : ℕ → Locals)
    (db : Database) : ∃ before after, file.sections = before ++ after ∧
      (parse locals ⟨.opened (file.bytes.take c), 0, db⟩).2.state
        = overwrite (before.flatMap SectionLayout.stored) db := by
  have hlength := @length_of_take file c
  have hcut : file.bytes = file.bytes.take c ++ file.bytes.drop c := (List.take_append_drop c _).symm
  generalize file.bytes.take c = xs at hcut hlength ⊢
  generalize file.bytes.drop c = ys at hcut hlength
  rcases cut_cases hcut with ⟨t, ht, hhead⟩ | ⟨t, rfl, hrest⟩
  · exact ⟨[], file.sections, rfl, parse_of_cut_head h hhead ht⟩
  · rcases cut_cases hrest with ⟨t', ht', hsections⟩ | ⟨t', rfl, hend⟩
    · obtain ⟨before, s, after, us, vs, hmem, hs, hvs, rfl⟩ := exists_cut hsections ht'
      obtain ⟨b, n, hn⟩ := parse_of_sections h hmem locals db us
      refine ⟨before, s :: after, hmem, ?_⟩
      rw [hn]
      have hin : s ∈ file.sections := by simp [hmem]
      apply parseLoop_of_cut_section (h.sections s hin) (h.length_le hin) hs hvs
      rintro t rfl
      -- the cut lies in the table of the section, so it is in front of the first entry
      have hy : ys ≠ [] := by
        rintro rfl
        rw [List.append_nil] at hrest
        have hlast := congrArg List.length hrest
        have hshort := congrArg List.length hsections
        have hpos := List.length_pos_iff.mpr ht'
        simp only [List.length_append, List.length_cons] at hlast hshort
        omega
      have hplace : file.tableStart before s + t.length = c := by
        have hxs := hlength hy
        simp only [List.length_append, List.length_cons] at hxs
        rw [FileLayout.tableStart]
        omega
      have htable : t.length < s.table.length := by
        have hbytes := congrArg List.length hs
        have hpos := List.length_pos_iff.mpr hvs
        simp only [SectionLayout.bytes, List.length_append, List.length_cons] at hbytes
        omega
      have hfirst : ¬ (c = file.tableStart before s → s.expiries.1 = 0) :=
        fun hzero => hc ⟨before, s, after, hmem, by omega, by omega, hzero⟩
      obtain ⟨hstart, hzero⟩ := Classical.not_imp.mp hfirst
      exact ⟨List.eq_nil_of_length_eq_zero (by omega), hzero⟩
    · obtain ⟨b, n, hn⟩ := parse_of_sections h (List.append_nil _).symm locals db t'
      refine ⟨file.sections, [], (List.append_nil _).symm, ?_⟩
      rw [hn]
      apply parseLoop_unchanged
      intro hmem
      have hopcode : 0xFE ∈ 0xFF :: file.checksum := by
        rw [hend]
        exact List.mem_append_left ys hmem
      rcases List.mem_cons.mp hopcode with heq | hchecksum
      · exact absurd heq (by decide)
      · exact h.checksum hchecksum

theorem exposed_of_insideEntry (hc : file.InsideEntry c) : file.Exposed c := by
  obtain ⟨before, s, after, es, e, es', hsections, hentries, hbegin, hend⟩ := hc
  have htable : s.table.length
      = (es.flatMap Prod.snd).length + (e.2.length + (es'.flatMap Prod.snd).length) := by
    rw [SectionLayout.table, hentries, List.flatMap_append, List.flatMap_cons, List.length_append,
      List.length_append]
  exact ⟨before, s, after, hsections, by omega, by omega, fun hstart => by omega⟩

/-! ### Cuts behind the beginning of an entry -/

section Exposed

variable {before after : List SectionLayout} {s : SectionLayout} {es es' : List (Entry × Bytes)}
  {e : Entry × Bytes} {us vs : Bytes}

/-- A section that is cut off in the entry `e`, or in front of it, reports no error. -/
theorem readIndicated_of_exposed (hs : s.WellFormed) (hlength : s.entries.length ≤ 255)
    (hentries : s.entries = es ++ e :: es') (hcut : e.2 = us ++ vs) (hvs : vs ≠ [])
    (hzero : es = [] → us = [] → s.expiries.1 = 0) (v : UInt8) (db : Database) (m : ℕ)
    {r : Bool × ReaderState Database} (hr : readIndicated (fun _ => stale v) 0xFE
      ⟨⟨s.front ++ (es.flatMap Prod.snd ++ us), false⟩, m, db⟩ = r) :
    r.1 = true ∧ r.2.file.fail = true ∧ (us = [] → toDecimal v.toNat ∈ r.2.state) := by
  obtain ⟨n, hexpiries⟩ := hs.expiries
  obtain ⟨m', hm'⟩ := @exists_readEntries (fun _ => stale v) s.index s.entries.length n s.size.1
    s.expiries.1 s.size.2 s.expiries.2 hs.index hs.size hexpiries (es.flatMap Prod.snd ++ us) m db
  have hrounds : s.entries.length % 2 ^ 8 = (es.map Prod.fst).length + (es'.length + 1) := by
    rw [Nat.mod_eq_of_lt (by omega), hentries, List.length_append, List.length_cons, List.length_map]
  have hfirst : Sequence RdbEntry (es.map Prod.fst) (es.flatMap Prod.snd) :=
    sequence_flatMap fun e' he' => hs.entries e' (by simp [hentries, he'])
  -- the round at the cut is one of those that are left
  obtain ⟨b, hb, hcontinues⟩ := @continues_readEntries (fun _ => stale v) _ _ hfirst
    (es'.length + 1) s.expiries.1 db
  obtain ⟨k, hk⟩ := hcontinues us m'
  have hentry : RdbEntry e.1 (us ++ vs) := hcut ▸ hs.entries e (by simp [hentries])
  have hstale : us = [] → b = 0x0 ∨ b = 0xFC := by
    intro hus
    rcases hb with ⟨hes, rfl⟩ | hb
    · exact .inl (hzero (List.map_eq_nil_iff.mp hes) hus)
    · exact hb
  have hfront : s.front ++ (es.flatMap Prod.snd ++ us) = s.index.toUInt8 :: 0xFB :: s.size.1 ::
      (s.size.2 ++ s.expiries.1 :: (s.expiries.2 ++ (es.flatMap Prod.snd ++ us))) := by
    simp [SectionLayout.front]
  have hdatabase : readIndicated (fun _ => stale v) 0xFE = readDatabase (fun _ => stale v) := rfl
  have htype : (stale v).valueType = 0x0 := rfl
  rw [← hr, hfront, hdatabase, hm', hrounds, htype, hk]
  exact readEntries_of_cut hentry hvs es'.length hstale

/-- So does a file. -/
theorem parse_of_exposed (h : file.WellFormed) (hsections : file.sections = before ++ s :: after)
    (hentries : s.entries = es ++ e :: es') (hcut : e.2 = us ++ vs) (hvs : vs ≠ [])
    (hzero : es = [] → us = [] → s.expiries.1 = 0) (v : UInt8) (db : Database)
    {r : Bool × ReaderState Database} (hr : parse (fun _ => stale v) ⟨.opened (file.head ++
      (before.flatMap SectionLayout.bytes ++ 0xFE :: (s.front ++ (es.flatMap Prod.snd ++ us)))),
      0, db⟩ = r) :
    r.1 = true ∧ (us = [] → toDecimal v.toNat ∈ r.2.state) := by
  have hin : s ∈ file.sections := by simp [hsections]
  have hs := h.sections s hin
  have hlength := h.length_le hin
  obtain ⟨b, m, hm⟩ := parse_of_sections h hsections (fun _ => stale v) db
    (0xFE :: (s.front ++ (es.flatMap Prod.snd ++ us)))
  rw [hm, parseLoop_cons] at hr
  obtain ⟨htrue, hfail, hmem⟩ := @readIndicated_of_exposed s es es' e us vs hs hlength hentries hcut
    hvs hzero v (overwrite (before.flatMap SectionLayout.stored) db) m _ rfl
  rw [if_pos htrue, parseLoop_of_fail _ _ hfail] at hr
  subst hr
  exact ⟨rfl, hmem⟩

end Exposed

/-- An exposed cut lies in an entry or in front of it. -/
theorem exists_exposed_entry (hc : file.Exposed c) : ∃ before s after es e es' us vs,
    file.sections = before ++ s :: after ∧ s.entries = es ++ e :: es' ∧ e.2 = us ++ vs ∧ vs ≠ [] ∧
    (es = [] → us = [] → s.expiries.1 = 0) ∧
    c = file.tableStart before s + ((es.flatMap Prod.snd).length + us.length) := by
  obtain ⟨before, s, after, hsections, hbegin, hend, hzero⟩ := hc
  have hy : s.table.drop (c - file.tableStart before s) ≠ [] := by
    rw [Ne, List.drop_eq_nil_iff]
    omega
  obtain ⟨es, e, es', us, vs, hentries, he, hvs, htake⟩ :=
    exists_cut (List.take_append_drop (c - file.tableStart before s) s.table).symm hy
  have hplace := congrArg List.length htake
  rw [List.length_take_of_le (by omega), List.length_append] at hplace
  refine ⟨before, s, after, es, e, es', us, vs, hsections, hentries, he, hvs, ?_, by omega⟩
  rintro rfl rfl
  simp only [List.flatMap_nil, List.length_nil] at hplace
  exact hzero (by omega)

theorem take_of_exposed {before after : List SectionLayout} {s : SectionLayout}
    {es es' : List (Entry × Bytes)} {e : Entry × Bytes} {us vs : Bytes}
    (hsections : file.sections = before ++ s :: after) (hentries : s.entries = es ++ e :: es')
    (hcut : e.2 = us ++ vs)
    (hc : c = file.tableStart before s + ((es.flatMap Prod.snd).length + us.length)) :
    file.bytes.take c = file.head ++ (before.flatMap SectionLayout.bytes ++
      0xFE :: (s.front ++ (es.flatMap Prod.snd ++ us))) := by
  have hbytes : file.bytes = file.head ++ (before.flatMap SectionLayout.bytes ++
      0xFE :: (s.front ++ (es.flatMap Prod.snd ++ us))) ++ (vs ++ (es'.flatMap Prod.snd ++
        (after.flatMap SectionLayout.bytes ++ 0xFF :: file.checksum))) := by
    simp [FileLayout.bytes, hsections, SectionLayout.bytes, SectionLayout.table, hentries, hcut]
  rw [hbytes]
  apply List.take_left'
  rw [hc, FileLayout.tableStart]
  simp only [List.length_append, List.length_cons]
  omega

/-- Some one-byte number is not among the keys of a file. -/
theorem exists_new_key (h : file.WellFormed) :
    ∃ v : UInt8, ∀ value, (toDecimal v.toNat, value) ∉ file.entries := by
  have hkeys : (file.entries.map Prod.fst).toFinset.card
      < ((Finset.range 256).image toDecimal).card := by
    have hsmall := List.toFinset_card_le (file.entries.map Prod.fst)
    have hlength := h.entries
    rw [List.length_map] at hsmall
    rw [Finset.card_image_of_injective _ toDecimal_injective, Finset.card_range]
    omega
  obtain ⟨key, hkey, hnew⟩ := Finset.exists_mem_notMem_of_card_lt_card hkeys
  obtain ⟨n, hn, rfl⟩ := Finset.mem_image.mp hkey
  have hbyte : n.toUInt8.toNat = n := by
    have hlt := Finset.mem_range.mp hn
    simp only [Nat.toUInt8, UInt8.toNat_ofNat']
    omega
  refine ⟨n.toUInt8, fun value hmem => hnew ?_⟩
  rw [hbyte] at hmem
  exact List.mem_toFinset.mpr (List.mem_map.mpr ⟨_, hmem, rfl⟩)

/-- Behind an exposed cut the parser stores a key of its own or reports no error. -/
theorem exists_invention (h : file.WellFormed) (hc : file.Exposed c) :
    ∃ v, ¬ InventsNothing (fun _ => stale v) file c := by
  obtain ⟨before, s, after, es, e, es', us, vs, hsections, hentries, hcut, hvs, hzero, hplace⟩ :=
    exists_exposed_entry hc
  obtain ⟨v, hnew⟩ := exists_new_key h
  refine ⟨v, fun hinvents => ?_⟩
  obtain ⟨hstored, hreported⟩ := hinvents
  rw [take_of_exposed hsections hentries hcut hplace] at hstored hreported
  obtain ⟨htrue, hmem⟩ := parse_of_exposed h hsections hentries hcut hvs hzero v ∅ rfl
  by_cases hus : us = []
  · obtain ⟨value, hvalue⟩ := Finmap.mem_iff.mp (hmem hus)
    exact hnew value (hstored _ value hvalue)
  · have hinside : file.InsideEntry c := by
      have hbegin := List.length_pos_iff.mpr hus
      have hend := List.length_pos_iff.mpr hvs
      refine ⟨before, s, after, es, e, es', hsections, hentries, by omega, ?_⟩
      rw [hcut, List.length_append]
      omega
    rw [htrue] at hreported
    exact Bool.noConfusion (hreported hinside)

/-- Whatever the variables hold, a file that is cut off at `c` invents nothing, if and only if
the cut does not lie between the beginning of the first entry of a table and the end of the
last one, or lies in front of the first one and not behind a zero. -/
theorem truncation_iff (h : file.WellFormed) (c : ℕ) :
    (∀ locals, InventsNothing locals file c) ↔ ¬ file.Exposed c := by
  constructor
  · intro hinvents hc
    obtain ⟨v, hv⟩ := exists_invention h hc
    exact hv (hinvents _)
  · intro hc locals
    refine ⟨fun k v hk => ?_, fun hinside => absurd (exposed_of_insideEntry hinside) hc⟩
    obtain ⟨before, after, hsections, hstate⟩ := exists_stored h hc locals ∅
    rw [hstate] at hk
    have hmem := mem_of_lookup_overwrite hk
    have hentries : file.entries
        = before.flatMap SectionLayout.stored ++ after.flatMap SectionLayout.stored := by
      rw [FileLayout.entries, hsections, List.flatMap_append]
      rfl
    rw [hentries]
    exact List.mem_append_left _ hmem

/-- A file with one entry, whose five bytes are the bytes 14 to 18. -/
def oneEntry : FileLayout where
  version := str "0011"
  metadata := []
  sections := [⟨0, (1, []), (0, []),
    [((str "a", ⟨str "1", 0⟩), 0x00 :: ((1 :: str "a") ++ (1 :: str "1")))]⟩]
  checksum := List.replicate 8 0

theorem wellFormed_oneEntry : oneEntry.WellFormed where
  version := rfl
  metadata := by simp [oneEntry]
  sections := by
    intro s hs
    obtain rfl := List.mem_singleton.mp hs
    refine ⟨by decide, .six (n := 1) (by decide), ⟨0, .six (by decide)⟩, fun e he => ?_⟩
    obtain rfl := List.mem_singleton.mp he
    exact .plain (.raw (s := str "a") (by decide)) (.raw (s := str "1") (by decide))
  entries := by decide
  checksum := by decide

theorem truncation_of_index : (∀ locals, InventsNothing locals oneEntry 11) ↔ ¬ oneEntry.Exposed 11 :=
  truncation_iff wellFormed_oneEntry 11

/-- A cut inside the value of the only entry is not reported. -/
theorem cut_entry_not_reported : ¬ ∀ (locals : ℕ → Locals) (file : FileLayout) (c : ℕ),
    file.WellFormed → InventsNothing locals file c := by
  intro h
  obtain ⟨-, hreported⟩ := h (fun _ => stale 0) oneEntry 18 wellFormed_oneEntry
  have hcut : oneEntry.bytes.take 18 = oneEntry.head ++ (([] : List SectionLayout).flatMap
      SectionLayout.bytes ++ 0xFE :: ([0, 0xFB, 1, 0] ++ ([] ++ [0, 1, 97, 1]))) := by decide
  have hinside : oneEntry.InsideEntry 18 :=
    ⟨[], _, [], [], _, [], rfl, rfl, by decide, by decide⟩
  have hparse := @parse_of_exposed oneEntry [] [] _ [] [] _ [0, 1, 97, 1] (str "1")
    wellFormed_oneEntry rfl rfl rfl (by decide) (by decide) 0 ∅ _ rfl
  rw [hcut] at hreported
  exact Bool.noConfusion (hparse.1.symm.trans (hreported hinside))

end RedisServer.TruncatedFiles
