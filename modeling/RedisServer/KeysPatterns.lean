import RedisServer.EcmaScriptPatterns
import RedisServer.RequestDecoding
import RedisServer.RequestFailures

/-!
# Which keys a pattern lists

KEYS puts its argument into a regular expression as it is. A last `*` becomes a wildcard
that does not match line terminators, and every other character means to the library
what its syntax says. The library is a parameter, of which only what it does on the one
pattern in question is assumed, and that in one of two dialects.
-/

namespace RedisServer.KeysPatterns
open ByteStrings CxxStrings EcmaScriptPatterns RespGrammar InteractionPrograms ServerState Utils
open RedisParser RequestChain RequestRuns RequestDecoding RequestFailures

/-- `b` is a request of a command and one argument. -/
def CommandWith (command argument b : Bytes) : Prop :=
  ∃ name, name.map toUpper = command ∧ Request [name, argument] b ∧ command.length + 2 ≤ intMax ∧
    argument.length + 2 ≤ intMax ∧ b.length ≤ maxSize

/-- The metacharacters of glob patterns. -/
def IsGlob (c : UInt8) : Prop := c ∈ str "*?[]\\"

instance : DecidablePred IsGlob := fun _ => inferInstanceAs (Decidable (_ ∈ _))

/-- The glob pattern `start` followed by `last` selects `k`. -/
def Selects (start : Bytes) (last : UInt8) (k : Bytes) : Prop :=
  if last = byte '*' then start <+: k else k = start ++ [last]

/-- What stands for itself in the pattern. -/
def literal (start : Bytes) (last : UInt8) : Bytes :=
  if last = byte '*' then start else start ++ [last]

/-- What the library is given: the argument, or a group and a wildcard. -/
def libraryPattern (start : Bytes) (last : UInt8) : Bytes :=
  if last = byte '*' then startingWith start else start ++ [last]

/-- KEYS throws nothing and lists the selected keys, each once. Nothing is said about
what patterns with another metacharacter than `*` at their end select. -/
def ListsSelected (host : Host) (clientFd : ℤ) (start : Bytes) (last : UInt8) (b : Bytes)
    (st : Store) : Prop :=
  ∃ keys tr st', Handles host clientFd b st tr (.ok ()) st' ∧
    messages tr = [createArrayReponse keys] ∧ keys.Nodup ∧
    ((IsGlob last → last = byte '*') → ∀ k, k ∈ keys ↔ k ∈ st.database ∧ Selects start last k)

/-- The pattern means to the library what it means as a glob pattern: it is accepted, and
what stands for itself does so in the syntax. -/
def Faithful (d : Dialect) (start : Bytes) (last : UInt8) : Prop :=
  if IsGlob last ∧ last ≠ byte '*' then ∃ r, Derives d .disjunction (start ++ [last]) r
  else ∀ c ∈ literal start last, Stands d c

/-- No key has a line terminator where a last `*` stands. -/
def OnOneLine (start : Bytes) (last : UInt8) (db : Database) : Prop :=
  last = byte '*' → ∀ s, start ++ s ∈ db → ∀ c ∈ s, ¬ IsLineTerminator c

variable {d : Dialect} {host : Host} {clientFd : ℤ} {input b p start : Bytes} {pos next : ℕ} {last : UInt8}
  {st : Store} {test : Bytes → Bool}

/-! ### The run of KEYS -/

theorem sizeT_last (h : start.length + 2 ≤ intMax) :
    sizeT (toInt (start ++ [last]).length - 1) = start.length := by
  have hint : toInt ((start ++ [last]).length : ℕ) = (start.length + 1 : ℕ) := by
    rw [List.length_append, List.length_singleton]
    exact toInt_of_le (by omega) (by omega)
  rw [hint, show ((start.length + 1 : ℕ) : ℤ) - 1 = start.length by omega]
  exact sizeT_natCast (by unfold intMax at h; omega)

theorem byteAt_last (host : Host) (h : start.length + 2 ≤ intMax) :
    byteAt host (start ++ [last]) (sizeT (toInt (start ++ [last]).length - 1)) = last := by
  rw [sizeT_last h, byteAt, charAt?_append_cons]
  rfl

theorem keysRegex_eq (host : Host) (h : start.length + 2 ≤ intMax) :
    keysRegex (start ++ [last])
      (byteAt host (start ++ [last]) (sizeT (toInt (start ++ [last]).length - 1)))
      = libraryPattern start last := by
  rw [byteAt_last host h]
  unfold keysRegex libraryPattern startingWith
  rw [sizeT_last h, List.take_left]

theorem exec_parseKEYSCommand (h : BulkAt host input pos p next)
    (htest : host.regex (keysRegex p (byteAt host p (sizeT (toInt p.length - 1)))) = some test) :
    ∃ tr, Exec (parser host clientFd input) (parseKEYSCommand host input pos) st tr (.ok ()) st ∧
      messages tr = [createArrayReponse ((host.iterate st.database).filter test)] := by
  obtain ⟨reads, hreads, hbulk⟩ : Decodes (parser host clientFd input)
    (parseBulkString input pos) st _ := decodes_parseBulkString h
  obtain ⟨reads', hreads', hlast⟩ : Decodes (parser host clientFd input)
    (charAt p (sizeT (toInt p.length - 1))) st _ := decodes_charAt p _
  have hm : messages [.databaseKeys,
      .enqueueMessage (createArrayReponse ((host.iterate st.database).filter test)),
      .communicationOver] = [createArrayReponse ((host.iterate st.database).filter test)] := rfl
  have hrun : Exec (parser host clientFd input) (parseKEYSCommand host input pos) st
      (reads ++ (reads' ++ [.databaseKeys,
        .enqueueMessage (createArrayReponse ((host.iterate st.database).filter test)),
        .communicationOver])) (.ok ()) st := by
    refine hbulk.bind (hlast.bind ?_)
    rw [htest]
    exact .op (exec_reply _)
  exact ⟨_, hrun, by simp [hreads, hreads', hm]⟩

theorem CommandWith.exists_request {command : Bytes} (hb : CommandWith command p b) :
    ∃ name, name.map toUpper = command ∧ Request [name, p] b ∧ Fits [name, p] ∧
      b.length ≤ maxSize := by
  obtain ⟨name, rfl, hr, hname, harg, hlen⟩ := hb
  rw [List.length_map] at hname
  have hlengths : ∀ s ∈ [name, p], s.length + 2 ≤ intMax :=
    List.forall_mem_cons.mpr ⟨hname, by simpa using harg⟩
  exact ⟨name, rfl, hr, ⟨by simp [intMax], hlengths⟩, hlen⟩

/-- Where the argument of a request is read. -/
theorem CommandWith.exists_bulkAt {command : Bytes} (host : Host) (hb : CommandWith command p b) :
    ∃ n p' next, CommandAt host b 0 n command p' ∧ BulkAt host b p' p next := by
  obtain ⟨name, rfl, hr, hfit, hlen⟩ := hb.exists_request
  exact exists_bulkAt_of_request host hr hfit hlen

/-- A pattern that the library accepts is answered by the keys that pass its test. -/
theorem handles_keys (hb : CommandWith (str "KEYS") p b)
    (htest : host.regex (keysRegex p (byteAt host p (sizeT (toInt p.length - 1)))) = some test) :
    ∃ tr, Handles host clientFd b st tr (.ok ()) st ∧
      messages tr = [createArrayReponse ((host.iterate st.database).filter test)] := by
  obtain ⟨n, p', next, hcmd, hk⟩ := hb.exists_bulkAt host
  obtain ⟨tr, hrun, hm⟩ := @exec_parseKEYSCommand host clientFd b p p' next st test hk htest
  obtain ⟨reads, hreads, hx⟩ := exec_command hcmd hrun
  exact ⟨_, hx, by simp [hreads, hm]⟩

/-- A pattern that the library rejects makes the handler throw. -/
theorem not_handles_keys {tr : List Op} {st' : Store} (hb : CommandWith (str "KEYS") p b)
    (hnone : host.regex (keysRegex p (byteAt host p (sizeT (toInt p.length - 1)))) = none) :
    ¬ Handles host clientFd b st tr (.ok ()) st' := by
  intro hok
  obtain ⟨n, p', next, hcmd, hk⟩ := hb.exists_bulkAt host
  obtain ⟨tr', e, st'', -, hrun⟩ : Rejects (parser host clientFd b) (parseKEYSCommand host b p') st := by
    apply rejects_parseKEYSCommand
    rintro ⟨s, ⟨next', hs⟩, hsome⟩
    obtain ⟨rfl, -⟩ := hs.unique hk
    rw [hnone] at hsome
    cases hsome
  obtain ⟨reads, -, hx⟩ := exec_command hcmd hrun
  obtain ⟨-, herr, -⟩ := hok.deterministic hx
  cases herr

theorem createArrayReponse_injective : Function.Injective createArrayReponse := fun ss ss' heq =>
  ((createArrayReponse_request ss).unique (createArrayReponse_request ss')
    (congrArg (· ++ []) heq)).1

theorem mem_iterate {k : Bytes} {db : Database} : k ∈ host.iterate db ↔ k ∈ db := by
  rw [← Multiset.mem_coe, host.iterate_keys]
  exact Finmap.mem_keys

theorem nodup_iterate (host : Host) (db : Database) : (host.iterate db).Nodup := by
  rw [← Multiset.coe_nodup, host.iterate_keys]
  exact db.keys.nodup

theorem CommandWith.length_le {command : Bytes} (hb : CommandWith command (start ++ [last]) b) :
    start.length + 2 ≤ intMax := by
  obtain ⟨name, -, -, -, hlen, -⟩ := hb
  rw [List.length_append, List.length_singleton] at hlen
  omega

/-- A pattern lists what passes its test. -/
theorem listsSelected_iff (hb : CommandWith (str "KEYS") (start ++ [last]) b)
    (htest : host.regex (libraryPattern start last) = some test) :
    ListsSelected host clientFd start last b st ↔ ((IsGlob last → last = byte '*') →
      ∀ k ∈ st.database, test k = true ↔ Selects start last k) := by
  obtain ⟨tr, hx, hm⟩ := @handles_keys host clientFd b _ st test hb
    ((congrArg host.regex (keysRegex_eq host hb.length_le)).trans htest)
  have hmem (k : Bytes) : k ∈ (host.iterate st.database).filter test
      ↔ k ∈ st.database ∧ test k = true := by
    rw [List.mem_filter, mem_iterate]
  constructor
  · rintro ⟨keys, tr', st', hx', hm', -, hkeys⟩ hlast k hk
    obtain ⟨rfl, -, -⟩ := hx.deterministic hx'
    obtain rfl := createArrayReponse_injective (List.singleton_injective (hm.symm.trans hm'))
    have hiff := (hmem k).symm.trans (hkeys hlast k)
    constructor
    · intro ht
      exact (hiff.mp ⟨hk, ht⟩).2
    · intro hsel
      exact (hiff.mpr ⟨hk, hsel⟩).2
  · intro hkeys
    refine ⟨_, tr, st, hx, hm, (nodup_iterate host _).filter _, fun hlast k => ?_⟩
    rw [hmem]
    exact and_congr_right fun hk => hkeys hlast k hk

/-- A pattern that the library rejects is not answered. -/
theorem not_listsSelected (hb : CommandWith (str "KEYS") (start ++ [last]) b)
    (hnone : host.regex (libraryPattern start last) = none) :
    ¬ ListsSelected host clientFd start last b st := by
  rintro ⟨keys, tr, st', hx, -⟩
  exact not_handles_keys hb
    ((congrArg host.regex (keysRegex_eq host hb.length_le)).trans hnone) hx

/-! ### Patterns that mean what they say -/

/-- The literal part of a faithful pattern is matched as it is, and the wildcard matches
what is on one line. -/
theorem exists_test (hregex : Follows d host.regex (libraryPattern start last))
    (hliteral : ∀ c ∈ literal start last, Stands d c) :
    ∃ test, host.regex (libraryPattern start last) = some test ∧ ∀ k, test k = true ↔
      if last = byte '*' then ∃ s, k = start ++ s ∧ ∀ c ∈ s, ¬ IsLineTerminator c
      else k = start ++ [last] := by
  by_cases hlast : last = byte '*'
  · simp only [libraryPattern, literal, if_pos hlast] at hregex hliteral ⊢
    exact hregex.of_startingWith hliteral
  · simp only [libraryPattern, literal, if_neg hlast] at hregex hliteral ⊢
    exact hregex.of_ordinary hliteral

/-- Behind an opening bracket or an escape character at the end, the syntax expects more. -/
theorem not_faithful_of_foreign (h : IsForeign last) : ¬ Faithful d start last := by
  have hall : ∀ c ∈ str "[\\", IsGlob c ∧ c ≠ byte '*' := forall_mem_of_all (by decide)
  rw [Faithful, if_pos (hall last h)]
  rintro ⟨r, hr⟩
  exact hr.not_foreign last (by simp) h

theorem listsSelected_of_faithful (hb : CommandWith (str "KEYS") (start ++ [last]) b)
    (hregex : Follows d host.regex (libraryPattern start last))
    (hfaithful : Faithful d start last) :
    ListsSelected host clientFd start last b st ↔ OnOneLine start last st.database := by
  by_cases hglob : IsGlob last ∧ last ≠ byte '*'
  · simp only [Faithful, if_pos hglob] at hfaithful
    have hpattern : libraryPattern start last = start ++ [last] := if_neg hglob.2
    obtain ⟨test, htest⟩ := hregex.isSome_iff.mpr (hpattern ▸ hfaithful)
    rw [listsSelected_iff hb htest]
    exact iff_of_true (fun h => absurd (h hglob.1) hglob.2) fun h => absurd h hglob.2
  · simp only [Faithful, if_neg hglob] at hfaithful
    obtain ⟨test, htest, hiff⟩ := exists_test hregex hfaithful
    rw [listsSelected_iff hb htest]
    by_cases hlast : last = byte '*'
    · simp only [if_pos hlast] at hiff
      simp only [OnOneLine, Selects, if_pos hlast]
      constructor
      · intro h _ s hs c hc
        obtain ⟨s', heq, hs'⟩ := (hiff _).mp ((h (fun _ => hlast) _ hs).mpr (List.prefix_append start s))
        obtain rfl := List.append_cancel_left heq
        exact hs' c hc
      · intro h _ k hk
        rw [hiff]
        constructor
        · rintro ⟨s, rfl, -⟩
          exact List.prefix_append start s
        · rintro ⟨s, rfl⟩
          exact ⟨s, rfl, h hlast s hk⟩
    · simp only [if_neg hlast] at hiff
      simp only [OnOneLine, Selects, if_neg hlast]
      exact iff_of_true (fun _ k _ => hiff k) fun h => absurd h hlast

/-! ### Patterns that mean something else -/

/-- A store of one key without an expiry time. -/
def holding (k : Bytes) : Store := (Store.empty []).setDatabase (Finmap.singleton k ⟨[], 0⟩)

/-- Characters of the syntax give way to a letter. -/
def masked (d : Dialect) (c : UInt8) : UInt8 := if Stands d c then c else byte 'a'

theorem replacement_masked (d : Dialect) : Replacement d (masked d) where
  ordinary c hc := if_pos hc
  syntactic c hc := by
    rw [masked, if_neg hc]
    decide

theorem map_masked_ne {w : Bytes} {c : UInt8} (hc : c ∈ w) (hspecial : ¬ Stands d c) :
    w.map (masked d) ≠ w := by
  intro heq
  have hfixed : masked d c = c := List.map_inj_left.mp (heq.trans (List.map_id w).symm) c hc
  rw [masked, if_neg hspecial] at hfixed
  rw [← hfixed] at hspecial
  exact hspecial (.inl (by decide))

/-- A key as long as the literal part has no place for a line terminator behind it. -/
theorem onOneLine_holding {w : Bytes} (hw : w.length = (literal start last).length) :
    OnOneLine start last (holding w).database := by
  rintro rfl s hs
  obtain rfl : start ++ s = w := (Finmap.mem_singleton _ _ _).mp hs
  have hnil : s = [] := by
    apply List.eq_nil_of_length_eq_zero
    simpa [literal] using hw
  simp [hnil]

theorem selects_iff_of_length {w : Bytes} (hw : w.length = (literal start last).length) :
    Selects start last w ↔ w = literal start last := by
  unfold Selects literal at *
  split
  · next hlast =>
    rw [if_pos hlast] at hw
    constructor
    · intro hstarts
      exact (hstarts.eq_of_length hw.symm).symm
    · rintro rfl
      exact List.prefix_rfl
  · exact Iff.rfl

/-- The literal part itself, or else the literal part with a letter for each character of
the syntax, is listed wrongly. -/
theorem exists_not_listsSelected (clientFd : ℤ) (hb : CommandWith (str "KEYS") (start ++ [last]) b)
    (hregex : Follows d host.regex (libraryPattern start last))
    (hnot : ¬ Faithful d start last) :
    ∃ w, OnOneLine start last (holding w).database ∧
      ¬ ListsSelected host clientFd start last b (holding w) := by
  have hself := @onOneLine_holding start last (literal start last) rfl
  cases htest : host.regex (libraryPattern start last) with
  | none => exact ⟨_, hself, not_listsSelected hb htest⟩
  | some test =>
    have hlists (w : Bytes) := @listsSelected_iff host clientFd b start last (holding w) test hb htest
    have hmem (w : Bytes) : w ∈ (holding w).database := (Finmap.mem_singleton _ _ _).mpr rfl
    by_cases hglob : IsGlob last ∧ last ≠ byte '*'
    · simp only [Faithful, if_pos hglob] at hnot
      have hpattern : libraryPattern start last = start ++ [last] := if_neg hglob.2
      exact absurd (hregex.isSome_iff.mp ⟨test, htest⟩) (hpattern ▸ hnot)
    · simp only [Faithful, if_neg hglob, not_forall] at hnot
      obtain ⟨c, hc, hspecial⟩ := hnot
      have hlast : IsGlob last → last = byte '*' := fun h => by_contra fun hne => hglob ⟨h, hne⟩
      by_cases hliteral : test (literal start last) = true
      · -- the library matches the other key as well
        have hmasked := hregex.map (replacement_masked d) htest hliteral
        have hlength : ((literal start last).map (masked d)).length = (literal start last).length :=
          List.length_map (masked d)
        refine ⟨_, onOneLine_holding hlength, fun h => ?_⟩
        have hsel := ((hlists _).mp h hlast _ (hmem _)).mp hmasked
        exact map_masked_ne hc hspecial ((selects_iff_of_length hlength).mp hsel)
      · refine ⟨_, hself, fun h => hliteral ?_⟩
        exact ((hlists _).mp h hlast _ (hmem _)).mpr ((selects_iff_of_length rfl).mpr rfl)

theorem expiryTime_holding {w k : Bytes} {v : DBValue}
    (h : (holding w).database.lookup k = some v) : v.expiryTime = 0 := by
  have hk : k ∈ (holding w).database := Finmap.mem_of_lookup_eq_some h
  obtain rfl : k = w := (Finmap.mem_singleton _ _ _).mp hk
  rw [holding, Store.database_setDatabase, Finmap.lookup_singleton_eq] at h
  cases h
  rfl

/-- In either dialect, a faithful pattern lists what it selects exactly when the wildcard stands
for no line terminator, and only a faithful one does so whenever the wildcard stands for none.
None is faithful that ends where the syntax expects more. -/
theorem keys_pattern_iff (clientFd : ℤ) (hb : CommandWith (str "KEYS") (start ++ [last]) b)
    (hregex : Follows d host.regex (libraryPattern start last)) :
    (Faithful d start last → ∀ st, ListsSelected host clientFd start last b st ↔
      OnOneLine start last st.database) ∧
    ((∀ st, (∀ k v, st.database.lookup k = some v → v.expiryTime = 0) →
      OnOneLine start last st.database → ListsSelected host clientFd start last b st) →
      Faithful d start last) ∧
    (IsForeign last → ¬ Faithful d start last) := by
  refine ⟨?_, ?_, not_faithful_of_foreign⟩
  · intro hfaithful st
    exact listsSelected_of_faithful hb hregex hfaithful
  · intro hall
    by_contra hnot
    obtain ⟨w, hline, hlists⟩ := exists_not_listsSelected clientFd hb hregex hnot
    exact hlists (hall (holding w) (fun _ _ => expiryTime_holding) hline)

/-- A host whose library knows one pattern, the prefix `start` with a wildcard. -/
def prefixHost (start : Bytes) : Host :=
  { Host.plain with
    regex := fun pattern =>
      if pattern = startingWith start then
        some fun w => start.isPrefixOf w && (w.drop start.length).all fun c => !IsLineTerminator c
      else none }

theorem follows_prefixHost (hstart : ∀ c ∈ start, Stands d c) :
    Follows d (prefixHost start).regex (libraryPattern start (byte '*')) := by
  obtain ⟨r, hr⟩ := derives_startingWith hstart
  have hpattern : libraryPattern start (byte '*') = startingWith start := if_pos rfl
  simp only [Follows, hpattern, prefixHost, if_true]
  refine ⟨r, hr, fun w => ?_⟩
  rw [hr.matches_startingWith hstart]
  simp only [Bool.and_eq_true, List.isPrefixOf_iff_prefix, List.all_eq_true, Bool.not_eq_true',
    decide_eq_false_iff_not]
  constructor
  · rintro ⟨⟨v, rfl⟩, hv⟩
    rw [List.drop_left] at hv
    exact ⟨v, rfl, hv⟩
  · rintro ⟨v, rfl, hv⟩
    rw [List.drop_left]
    exact ⟨List.prefix_append start v, hv⟩

theorem followsEcmaScript_prefixHost (hstart : ∀ c ∈ start, ¬ IsSyntax c) :
    FollowsEcmaScript (prefixHost start).regex (libraryPattern start (byte '*')) :=
  ⟨.standard, follows_prefixHost fun c hc => .inl (hstart c hc)⟩

theorem commandWith_keys_of_wildcard :
    CommandWith (str "KEYS") (str "a" ++ [byte '*']) (createArrayReponse [str "KEYS", str "a*"]) :=
  ⟨str "KEYS", by decide, createArrayReponse_request _, by decide, by decide, by decide⟩

theorem keys_pattern_of_wildcard :
    (Faithful .lenient (str "a") (byte '*') → ∀ st, ListsSelected (prefixHost (str "a")) 5 (str "a")
      (byte '*') (createArrayReponse [str "KEYS", str "a*"]) st ↔
        OnOneLine (str "a") (byte '*') st.database) ∧
    ((∀ st, (∀ k v, st.database.lookup k = some v → v.expiryTime = 0) →
      OnOneLine (str "a") (byte '*') st.database →
      ListsSelected (prefixHost (str "a")) 5 (str "a") (byte '*')
        (createArrayReponse [str "KEYS", str "a*"]) st) → Faithful .lenient (str "a") (byte '*')) ∧
    (IsForeign (byte '*') → ¬ Faithful .lenient (str "a") (byte '*')) :=
  keys_pattern_iff 5 commandWith_keys_of_wildcard
    (follows_prefixHost (forall_mem_of_all (by decide)))

/-- A key with a line feed in it is not listed. -/
theorem second_line_not_listed :
    (∀ d, Follows d (prefixHost (str "a")).regex (libraryPattern (str "a") (byte '*'))) ∧
      ¬ ListsSelected (prefixHost (str "a")) 5 (str "a") (byte '*')
        (createArrayReponse [str "KEYS", str "a*"]) (holding (str "a\nb")) := by
  have hstands (d : Dialect) : ∀ c ∈ str "a", Stands d c := by
    have hordinary : ∀ c ∈ str "a", ¬ IsSyntax c := forall_mem_of_all (by decide)
    exact fun c hc => .inl (hordinary c hc)
  have hfaithful : Faithful .standard (str "a") (byte '*') := by
    rw [Faithful, if_neg (by decide)]
    exact hstands .standard
  refine ⟨fun d => follows_prefixHost (hstands d), fun h => ?_⟩
  have hline := (listsSelected_of_faithful commandWith_keys_of_wildcard
    (follows_prefixHost (hstands .standard)) hfaithful).mp h
  have hmem : str "a" ++ str "\nb" ∈ (holding (str "a\nb")).database :=
    (Finmap.mem_singleton _ _ _).mpr rfl
  exact hline rfl (str "\nb") hmem 10 (by decide) (.inl rfl)

end RedisServer.KeysPatterns
