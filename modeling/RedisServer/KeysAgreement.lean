import RedisServer.KeysPatterns
import RedisServer.ValueRoundTrip

/-!
# Two answers to which keys exist

GET looks at the expiry time of an entry and erases it when its time has come. KEYS scans
the map and looks at no expiry time, so it goes on listing an entry that is due until the
entry is read.
-/

namespace RedisServer.KeysAgreement
open ByteStrings CxxStrings EcmaScriptPatterns RespGrammar InteractionPrograms ServerState Utils
open RedisParser RequestChain RequestRuns RequestDecoding SetPipelines ValueRoundTrip KeysPatterns

/-- The request `b` is answered by a value. -/
def AnswersValue (host : Host) (clientFd : ℤ) (b : Bytes) (st : Store) : Prop :=
  ∃ v tr st', Handles host clientFd b st tr (.ok ()) st' ∧ messages tr = [createStringReponse v]

/-- The request `b` is answered by a list, without repetition, of the keys for which a GET
is answered by a value. -/
def KeysAgree (host : Host) (clientFd clientFd' : ℤ) (b : Bytes) (st : Store) : Prop :=
  ∃ keys tr st', Handles host clientFd b st tr (.ok ()) st' ∧
    messages tr = [createArrayReponse keys] ∧ keys.Nodup ∧
    ∀ k b', CommandWith (str "GET") k b' → (k ∈ keys ↔ AnswersValue host clientFd' b' st)

/-- The entry has an expiry time, and the time has come. -/
def Due (v : DBValue) (t : ℤ) : Prop := v.expiryTime ≠ 0 ∧ v.expiryTime ≤ t

variable {host : Host} {clientFd clientFd' : ℤ} {b k : Bytes} {st st' : Store} {tr : List Op}

/-! ### GET -/

theorem not_answersValue (hb : CommandWith (str "GET") k b) (hk : Unavailable host k st) :
    ¬ AnswersValue host clientFd b st := by
  obtain ⟨name, hname, hr, hfit, hlen⟩ := hb.exists_request
  obtain ⟨tr, st', hx, hm⟩ := answersNull host clientFd hname hr hfit hlen st hk
  rintro ⟨v, tr', st'', hx', hm'⟩
  obtain ⟨rfl, -, -⟩ := hx.deterministic hx'
  exact nullResponse_ne_createStringReponse v (List.singleton_injective (hm.symm.trans hm'))

theorem answersValue_of_not_due {v : DBValue} (hb : CommandWith (str "GET") k b)
    (hlookup : st.database.lookup k = some v) (hvalue : v.value ≠ nullResponse)
    (hdue : ¬ Due v (host.clock st.ticks)) : AnswersValue host clientFd b st := by
  have hreply : getReply v.value = createStringReponse v.value :=
    getReply_eq_createStringReponse_iff.mpr hvalue
  obtain ⟨n, p, next, hcmd, hk⟩ := hb.exists_bulkAt host
  by_cases hv : v.expiryTime = 0
  · obtain ⟨tr, hx, hm⟩ := handles_getAt hcmd hk
      (@exec_databaseGet_persistent host clientFd b st k v hlookup hv) rfl
    exact ⟨v.value, tr, st, hx, hreply ▸ hm⟩
  · have hlive : host.clock st.ticks < v.expiryTime := not_le.mp fun h => hdue ⟨hv, h⟩
    obtain ⟨tr, hx, hm⟩ := handles_getAt hcmd hk
      (@exec_databaseGet_live host clientFd b st k v hlookup hv hlive) rfl
    exact ⟨v.value, tr, st.tick, hx, hreply ▸ hm⟩

/-- A GET is answered by a value exactly when there is an entry that is not due. -/
theorem answersValue_iff (hb : CommandWith (str "GET") k b)
    (hvalues : ∀ v, st.database.lookup k = some v → v.value ≠ nullResponse) :
    AnswersValue host clientFd b st ↔
      ∃ v, st.database.lookup k = some v ∧ ¬ Due v (host.clock st.ticks) := by
  constructor
  · intro hvalue
    by_contra hnone
    refine not_answersValue hb (fun v hv => ?_) hvalue
    by_contra hdue
    exact hnone ⟨v, hv, hdue⟩
  · rintro ⟨v, hv, hdue⟩
    exact answersValue_of_not_due hb hv (hvalues v hv) hdue

theorem exists_commandWith_get (hk : k.length + 2 ≤ intMax) : ∃ b, CommandWith (str "GET") k b := by
  refine ⟨createArrayReponse [str "GET", k], str "GET", by decide, createArrayReponse_request _,
    by decide, hk, ?_⟩
  have hdigits : (toDecimal k.length).length ≤ 10 := by
    unfold intMax at hk
    rw [toDecimal, List.length_map, Nat.length_toDigits_le_iff (by omega) (by omega)]
    omega
  have hlength : (createArrayReponse [str "GET", k]).length
      = 18 + (toDecimal k.length).length + k.length := by
    have htwo : (toDecimal 2).length = 1 := by decide
    have hthree : (toDecimal 3).length = 1 := by decide
    simp [createArrayReponse, createStringReponse, str, htwo, hthree]
    omega
  unfold intMax at hk
  unfold maxSize
  omega

/-! ### KEYS -/

/-- The pattern of a single `*` is answered by all keys on one line. -/
theorem handles_keys_star (hb : CommandWith (str "KEYS") (str "*") b)
    (hregex : FollowsEcmaScript host.regex (libraryPattern [] (byte '*')))
    (hlines : ∀ k ∈ st.database, ∀ c ∈ k, ¬ IsLineTerminator c) :
    ∃ keys tr st', Handles host clientFd b st tr (.ok ()) st' ∧
      messages tr = [createArrayReponse keys] ∧ keys.Nodup ∧ ∀ k, k ∈ keys ↔ k ∈ st.database := by
  obtain ⟨d, hregex⟩ := hregex
  have hfaithful : Faithful d [] (byte '*') := by
    rw [Faithful, if_neg (by decide)]
    simp [literal]
  have hline : OnOneLine [] (byte '*') st.database := fun _ s hs => hlines s hs
  obtain ⟨keys, tr, st', hx, hm, hnodup, hkeys⟩ :=
    (@listsSelected_of_faithful d host clientFd b [] (byte '*') st hb hregex hfaithful).mpr hline
  refine ⟨keys, tr, st', hx, hm, hnodup, fun k => ?_⟩
  rw [hkeys fun _ => rfl]
  exact and_iff_left List.nil_prefix

/-- An entry that is due is listed, but a GET of it is not answered by a value. -/
theorem not_keysAgree_of_due {v : DBValue} (clientFd clientFd' : ℤ)
    (hb : CommandWith (str "KEYS") (str "*") b)
    (hregex : FollowsEcmaScript host.regex (libraryPattern [] (byte '*')))
    (hlines : ∀ k ∈ st.database, ∀ c ∈ k, ¬ IsLineTerminator c)
    (hlookup : st.database.lookup k = some v) (hlength : k.length + 2 ≤ intMax)
    (hdue : Due v (host.clock st.ticks)) : ¬ KeysAgree host clientFd clientFd' b st := by
  obtain ⟨keys, tr, st', hx, hm, -, hkeys⟩ :=
    @handles_keys_star host clientFd b st hb hregex hlines
  rintro ⟨keys', tr', st'', hx', hm', -, hagree⟩
  obtain ⟨rfl, -, -⟩ := hx.deterministic hx'
  obtain rfl := createArrayReponse_injective (List.singleton_injective (hm.symm.trans hm'))
  obtain ⟨b', hb'⟩ := exists_commandWith_get hlength
  have hlisted : k ∈ keys := (hkeys k).mpr (Finmap.mem_of_lookup_eq_some hlookup)
  have hunavailable : Unavailable host k st := by
    intro v' hv'
    rw [hlookup] at hv'
    cases hv'
    exact hdue
  exact not_answersValue hb' hunavailable ((hagree k b' hb').mp hlisted)

/-- The listing agrees with the lookups exactly when no entry that can be asked for is due. -/
theorem keysAgree_iff (clientFd clientFd' : ℤ) (hb : CommandWith (str "KEYS") (str "*") b)
    (hregex : FollowsEcmaScript host.regex (libraryPattern [] (byte '*')))
    (hlines : ∀ k ∈ st.database, ∀ c ∈ k, ¬ IsLineTerminator c)
    (hvalues : ∀ k v, st.database.lookup k = some v → v.value ≠ nullResponse) :
    KeysAgree host clientFd clientFd' b st ↔
      ∀ k v, st.database.lookup k = some v → k.length + 2 ≤ intMax →
        ¬ Due v (host.clock st.ticks) := by
  constructor
  · intro hagree k v hlookup hlength hdue
    exact not_keysAgree_of_due clientFd clientFd' hb hregex hlines hlookup hlength hdue hagree
  · intro hnone
    obtain ⟨keys, tr, st', hx, hm, hnodup, hkeys⟩ :=
      @handles_keys_star host clientFd b st hb hregex hlines
    refine ⟨keys, tr, st', hx, hm, hnodup, fun k b' hb' => ?_⟩
    have hlength : k.length + 2 ≤ intMax := by
      obtain ⟨name, -, -, -, hlength, -⟩ := hb'
      exact hlength
    rw [answersValue_iff hb' (hvalues k), hkeys]
    constructor
    · intro hk
      obtain ⟨v, hv⟩ := Finmap.mem_iff.mp hk
      exact ⟨v, hv, hnone k v hv hlength⟩
    · rintro ⟨v, hv, -⟩
      exact Finmap.mem_of_lookup_eq_some hv

theorem commandWith_keys_of_star :
    CommandWith (str "KEYS") (str "*") (createArrayReponse [str "KEYS", str "*"]) :=
  ⟨str "KEYS", by decide, createArrayReponse_request _, by decide, by decide, by decide⟩

theorem keysAgree_of_holding :
    KeysAgree (prefixHost []) 5 6 (createArrayReponse [str "KEYS", str "*"]) (holding (str "k")) ↔
      ∀ k v, (holding (str "k")).database.lookup k = some v → k.length + 2 ≤ intMax →
        ¬ Due v ((prefixHost []).clock (holding (str "k")).ticks) := by
  refine keysAgree_iff 5 6 commandWith_keys_of_star (followsEcmaScript_prefixHost (by simp)) ?_ ?_
  · intro k hk
    obtain rfl : k = str "k" := (Finmap.mem_singleton _ _ _).mp hk
    exact forall_mem_of_all (by decide)
  · intro k v hv
    have hk : k ∈ (holding (str "k")).database := Finmap.mem_of_lookup_eq_some hv
    obtain rfl : k = str "k" := (Finmap.mem_singleton _ _ _).mp hk
    rw [holding, Store.database_setDatabase, Finmap.lookup_singleton_eq] at hv
    cases hv
    decide

/-- After a SET whose time has come the key is still listed. -/
theorem due_key_is_listed :
    ∃ tr st, Handles (prefixHost []) 5
        (createArrayReponse [str "SET", str "k", str "v", str "px", str "1"]) (.empty []) tr
        (.ok ()) st ∧
      ¬ KeysAgree (prefixHost []) 5 6 (createArrayReponse [str "KEYS", str "*"]) st := by
  obtain ⟨tr, -, hx⟩ := @handles_sets_of_tail [[str "SET", str "k", str "v", str "px", str "1"]]
    [⟨str "k", str "v", some 1⟩] (createArrayReponse [str "SET", str "k", str "v", str "px", str "1"])
    [] (prefixHost []) 5 (.empty []) (.single (createArrayReponse_request _))
    (.cons (.expiring (by decide) (t := 1) (by decide)) .nil)
    (by simp) (List.forall_mem_cons.mpr ⟨⟨by decide, by decide⟩, by simp⟩) (by decide) (by decide)
  rw [List.append_nil] at hx
  -- the next reading of the clock is the expiry time
  have hdatabase : (afterSets (prefixHost []) [⟨str "k", str "v", some 1⟩] (.empty [])).database
      = Finmap.insert (str "k") ⟨str "v", 1⟩ ∅ := rfl
  refine ⟨tr, _, hx, not_keysAgree_of_due 5 6 commandWith_keys_of_star
    (followsEcmaScript_prefixHost (by simp)) ?_ (Finmap.lookup_insert _) (by decide) ⟨by decide, le_rfl⟩⟩
  intro k hk
  rw [hdatabase, Finmap.mem_insert] at hk
  rcases hk with rfl | hk
  · exact forall_mem_of_all (by decide)
  · exact absurd hk Finmap.notMem_empty

end RedisServer.KeysAgreement
