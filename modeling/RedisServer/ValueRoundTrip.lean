import RedisServer.ReceivedRequests
import RedisServer.RequestFailures
import RedisServer.SetPipelines

/-!
# What GET returns after SET

The lookup answers with the value or with the null reply, in one string type. A value
that is itself the text of the null reply cannot be told from a missing one.
-/

namespace RedisServer.ValueRoundTrip
open ByteStrings CxxStrings RespGrammar InteractionPrograms ServerState Utils RedisParser
open RequestChain RequestRuns RequestDecoding RequestFailures ReceivedRequests SetPipelines

/-- What GET replies with when the lookup answers `response`. -/
def getReply (response : Bytes) : Bytes :=
  if response ≠ nullResponse then createStringReponse response else response

/-- The entry of `k` is missing or its time has come. -/
def Unavailable (host : Host) (k : Bytes) (st : Store) : Prop :=
  ∀ v, st.database.lookup k = some v → v.expiryTime ≠ 0 ∧ v.expiryTime ≤ host.clock st.ticks

/-- Handling `b₁` and then `b₂` is answered by `+OK` and by the value `v`. -/
def ReturnsValue (host : Host) (clientFd clientFd' : ℤ) (b₁ b₂ v : Bytes) (st : Store) : Prop :=
  ∃ tr₁ st₁ tr₂ st₂, Handles host clientFd b₁ st tr₁ (.ok ()) st₁ ∧
    Handles host clientFd' b₂ st₁ tr₂ (.ok ()) st₂ ∧
    messages tr₁ = [okResponse] ∧ messages tr₂ = [createStringReponse v]

/-- Handling `b` while the entry of `k` is unavailable is answered by the null reply. -/
def AnswersNull (host : Host) (clientFd : ℤ) (b k : Bytes) : Prop :=
  ∀ st, Unavailable host k st →
    ∃ tr st', Handles host clientFd b st tr (.ok ()) st' ∧ messages tr = [nullResponse]

variable {host : Host} {clientFd : ℤ} {k v name b : Bytes} {st st' : Store} {tr : List Op}

theorem getReply_eq_createStringReponse_iff :
    getReply v = createStringReponse v ↔ v ≠ nullResponse := by
  unfold getReply
  split
  · next h => exact iff_of_true rfl h
  · next h =>
    rw [not_not] at h
    subst h
    exact iff_of_false (by decide) (by simp)

theorem nullResponse_ne_createStringReponse (v : Bytes) : nullResponse ≠ createStringReponse v := by
  intro heq
  obtain ⟨d, ds, hds⟩ := List.exists_cons_of_ne_nil (toDecimal_numeral v.length).nonempty
  have hdigit : isDigit d = true := (toDecimal_numeral v.length).digits d (hds ▸ List.mem_cons_self)
  rw [createStringReponse, hds] at heq
  -- the length would begin with a minus sign
  obtain rfl : byte '-' = d := List.head_eq_of_cons_eq (List.tail_eq_of_cons_eq heq)
  exact absurd hdigit (by decide)

theorem createStringReponse_injective : Function.Injective createStringReponse := by
  intro v w heq
  have hlines : toDecimal v.length ++ (crlf ++ (v ++ crlf)) = toDecimal w.length ++ (crlf ++ (w ++ crlf)) := by
    simpa [createStringReponse, str, crlf, byte] using heq
  exact List.append_cancel_right
    (Numeral.append_crlf_inj (toDecimal_numeral _) (toDecimal_numeral _) hlines).2.2

theorem handles_getAt {response : Bytes} {n : ℤ} {p next : ℕ}
    (hcmd : CommandAt host b 0 n (str "GET") p) (hk : BulkAt host b p k next)
    (hget : Exec (parser host clientFd b) (databaseGet k) st tr (.ok response) st')
    (hm : messages tr = []) :
    ∃ tr', Handles host clientFd b st tr' (.ok ()) st' ∧ messages tr' = [getReply response] := by
  obtain ⟨reads, hreads, hbulk⟩ : Decodes (parser host clientFd b) (parseBulkString b p) st _ :=
    decodes_parseBulkString hk
  have hreply : Exec (parser host clientFd b)
      (if response ≠ nullResponse then reply (createStringReponse response) else reply response) st'
      [.enqueueMessage (getReply response), .communicationOver] (.ok ()) st' := by
    unfold getReply
    split
    · exact exec_reply _
    · exact exec_reply _
  have hrun : Exec (parser host clientFd b) (parseGETCommand b p) st _ (.ok ()) st' :=
    hbulk.bind (hget.bind hreply)
  have hover : messages [.enqueueMessage (getReply response), .communicationOver]
      = [getReply response] := rfl
  obtain ⟨reads', hreads', hx⟩ := exec_command hcmd hrun
  exact ⟨_, hx, by simp [hreads, hreads', hm, hover]⟩

theorem handles_get {response : Bytes} (hname : name.map toUpper = str "GET")
    (hr : Request [name, k] b) (hfit : Fits [name, k]) (hlen : b.length ≤ maxSize)
    (hget : Exec (parser host clientFd b) (databaseGet k) st tr (.ok response) st')
    (hm : messages tr = []) :
    ∃ tr', Handles host clientFd b st tr' (.ok ()) st' ∧ messages tr' = [getReply response] := by
  obtain ⟨n, p, next, hcmd, hk⟩ := exists_bulkAt_of_request host hr hfit hlen
  rw [hname] at hcmd
  exact handles_getAt hcmd hk hget hm

theorem answersNull (host : Host) (clientFd : ℤ) (hname : name.map toUpper = str "GET")
    (hr : Request [name, k] b) (hfit : Fits [name, k]) (hlen : b.length ≤ maxSize) :
    AnswersNull host clientFd b k := by
  intro st hst
  cases hlookup : st.database.lookup k with
  | none =>
    obtain ⟨tr, hx, hm⟩ := handles_get hname hr hfit hlen
      (@exec_databaseGet_missing host clientFd b st k hlookup) rfl
    exact ⟨tr, _, hx, hm⟩
  | some v =>
    obtain ⟨hv, hexp⟩ := hst v hlookup
    obtain ⟨tr, hx, hm⟩ := handles_get hname hr hfit hlen
      (@exec_databaseGet_expired host clientFd b st k v hlookup hv hexp) rfl
    exact ⟨tr, _, hx, hm⟩

theorem fits_of_toUpper {upper : Bytes} {args : List Bytes} (hname : name.map toUpper = upper)
    (hupper : upper.length = 3) (hargs : ∀ s ∈ args, s.length + 2 ≤ intMax) (hcount : args.length ≤ 2) :
    Fits (name :: args) := by
  have hlength : name.length = 3 := by rw [← hupper, ← hname, List.length_map]
  have hmax : 5 ≤ intMax := by decide
  refine ⟨?_, List.forall_mem_cons.mpr ⟨by omega, hargs⟩⟩
  rw [List.length_cons]
  omega

/-- Requests that no zero byte cuts return every value but the text of the null reply. -/
theorem returnsValue_whole_iff (host : Host) (clientFd clientFd' : ℤ) {set get b₁ b₂ : Bytes}
    (hset : set.map toUpper = str "SET") (hget : get.map toUpper = str "GET")
    (h₁ : Request [set, k, v] b₁) (h₂ : Request [get, k] b₂) (hk : k.length + 2 ≤ intMax)
    (hv : v.length + 2 ≤ intMax) (hlen₁ : b₁.length ≤ maxSize) (hlen₂ : b₂.length ≤ maxSize)
    (st : Store) :
    ReturnsValue host clientFd clientFd' b₁ b₂ v st ∧ AnswersNull host clientFd' b₂ k ↔
      v ≠ nullResponse := by
  have hfit₁ : Fits [set, k, v] := fits_of_toUpper hset rfl (by simpa using ⟨hk, hv⟩) (by simp)
  have hfit₂ : Fits [get, k] := fits_of_toUpper hget rfl (by simpa using hk) (by simp)
  obtain ⟨tr₁, htrace, hx₁⟩ := @handles_sets_of_tail [[set, k, v]] [⟨k, v, none⟩] b₁ [] host
    clientFd st (.single h₁) (.cons (.plain hset) .nil) (by simp) (by simpa using hfit₁)
    (by simpa using hlen₁) (by simp)
  rw [List.append_nil] at hx₁
  have hm₁ : messages tr₁ = [okResponse] := by simpa using htrace.messages
  have hlookup : (afterSets host [⟨k, v, none⟩] st).database.lookup k = some ⟨v, 0⟩ :=
    Finmap.lookup_insert _
  obtain ⟨tr₂, hx₂, hm₂⟩ := handles_get hget h₂ hfit₂ hlen₂
    (@exec_databaseGet_persistent host clientFd' b₂ _ k _ hlookup rfl) rfl
  rw [← getReply_eq_createStringReponse_iff]
  constructor
  · rintro ⟨⟨tr₁', st₁', tr₂', st₂', hx₁', hx₂', -, hm⟩, -⟩
    obtain ⟨-, -, rfl⟩ := hx₁'.deterministic hx₁
    obtain ⟨rfl, -, -⟩ := hx₂'.deterministic hx₂
    exact List.singleton_injective (hm₂.symm.trans hm)
  · intro heq
    rw [heq] at hm₂
    exact ⟨⟨tr₁, _, tr₂, _, hx₁, hx₂, hm₁, hm₂⟩, answersNull host clientFd' hget h₂ hfit₂ hlen₂⟩

theorem not_returnsValue_of_zero {clientFd' : ℤ} {set get b₁ b₂ : Bytes}
    (hset : set.map toUpper = str "SET") (hget : get.map toUpper = str "GET")
    (h₁ : Request [set, k, v] b₁) (h₂ : Request [get, k] b₂) (hfit₁ : Fits [set, k, v])
    (hfit₂ : Fits [get, k]) (hlen₁ : b₁.length ≤ maxSize) (hlen₂ : b₂.length ≤ maxSize)
    (hzero : (0 : UInt8) ∈ k ∨ (0 : UInt8) ∈ v) :
    ¬ ReturnsValue host clientFd clientFd' (recvStr b₁) (recvStr b₂) v st := by
  rintro ⟨tr₁, st₁, tr₂, st₂, hx₁, hx₂, -, hm⟩
  have hlen : (recvStr b₁).length ≤ maxSize := (List.takeWhile_sublist _).length_le.trans hlen₁
  have hb₁ : (0 : UInt8) ∈ b₁ := by
    rw [zero_mem_request_iff h₁]
    rcases hzero with hk | hv
    · exact ⟨k, by simp, hk⟩
    · exact ⟨v, by simp, hv⟩
  obtain ⟨p, last, hcmd, hiff, hbeyond, -⟩ :=
    (received_self b₁).exists_set host (.plain hset) h₁ hfit₁ hlen
  -- the parser returns, so the arguments of the SET are seen
  obtain ⟨k', v', px, next, hargs⟩ : ∃ k' v' px next,
      SetArguments host (recvStr b₁) p ([k, v].length + 1) k' v' px next :=
    arguments_set.mp (hcmd.handled_iff.mp (handled_of_ok hx₁))
  obtain ⟨helements, rfl⟩ := (hiff k' v' px next).mp hargs
  by_cases hk : (0 : UInt8) ∈ k
  · rw [seen, if_pos hk] at helements
    cases helements
  have hv : (0 : UInt8) ∈ v := hzero.resolve_left hk
  have hseen : seen [k, v] = [k, recvStr v] := by rw [seen, if_neg hk, seen, if_pos hv]
  rw [hseen] at helements
  cases helements
  -- and it has assigned what has been received of the value
  obtain ⟨tr₁', r, st₁', hx₁', -, -, hstore⟩ :=
    exists_exec_beyond clientFd ⟨_, p, hcmd, hargs⟩ (hbeyond hb₁) st
  obtain ⟨rfl, rfl, rfl⟩ := hx₁.deterministic hx₁'
  obtain rfl := hstore rfl
  have hlookup : (afterSet host k (recvStr v) none st).database.lookup k = some ⟨recvStr v, 0⟩ :=
    Finmap.lookup_insert _
  have hb₂ : (0 : UInt8) ∉ b₂ := by
    have hzeroGet : (0 : UInt8) ∉ get := zero_notMem_of_toUpper (by rw [hget]; decide)
    rw [zero_mem_request_iff h₂]
    simp [hzeroGet, hk]
  rw [recvStr_eq_self hb₂] at hx₂
  obtain ⟨tr₂', hx₂', hm'⟩ := handles_get hget h₂ hfit₂ hlen₂
    (@exec_databaseGet_persistent host clientFd' b₂ _ k _ hlookup rfl) rfl
  obtain ⟨rfl, -, -⟩ := hx₂.deterministic hx₂'
  have hreply : getReply (recvStr v) = createStringReponse v :=
    List.singleton_injective (hm'.symm.trans hm)
  unfold getReply at hreply
  split at hreply
  · have hlt := length_recvStr_lt hv
    rw [createStringReponse_injective hreply] at hlt
    exact absurd hlt (lt_irrefl _)
  · next hnull =>
    rw [not_not] at hnull
    rw [hnull] at hreply
    exact nullResponse_ne_createStringReponse v hreply

/-- GET after SET returns the value, and the null reply stands for missing values only, if
and only if the value is not the text of the null reply and no zero byte cuts the requests. -/
theorem returnsValue_iff (host : Host) (clientFd clientFd' : ℤ) {set get b₁ b₂ : Bytes}
    (hset : set.map toUpper = str "SET") (hget : get.map toUpper = str "GET")
    (h₁ : Request [set, k, v] b₁) (h₂ : Request [get, k] b₂) (hk : k.length + 2 ≤ intMax)
    (hv : v.length + 2 ≤ intMax) (hlen₁ : b₁.length ≤ maxSize) (hlen₂ : b₂.length ≤ maxSize)
    (st : Store) :
    ReturnsValue host clientFd clientFd' (recvStr b₁) (recvStr b₂) v st ∧
        AnswersNull host clientFd' (recvStr b₂) k ↔
      v ≠ nullResponse ∧ (0 : UInt8) ∉ k ∧ (0 : UInt8) ∉ v := by
  have hzeroSet : (0 : UInt8) ∉ set := zero_notMem_of_toUpper (by rw [hset]; decide)
  have hzeroGet : (0 : UInt8) ∉ get := zero_notMem_of_toUpper (by rw [hget]; decide)
  by_cases hzero : (0 : UInt8) ∈ k ∨ (0 : UInt8) ∈ v
  · refine iff_of_false ?_ (by tauto)
    rintro ⟨hvalue, -⟩
    have hfit₁ : Fits [set, k, v] := fits_of_toUpper hset rfl (by simpa using ⟨hk, hv⟩) (by simp)
    have hfit₂ : Fits [get, k] := fits_of_toUpper hget rfl (by simpa using hk) (by simp)
    exact not_returnsValue_of_zero hset hget h₁ h₂ hfit₁ hfit₂ hlen₁ hlen₂ hzero hvalue
  · rw [not_or] at hzero
    obtain ⟨hzerok, hzerov⟩ := hzero
    have hb₁ : (0 : UInt8) ∉ b₁ := by
      rw [zero_mem_request_iff h₁]
      simp [hzeroSet, hzerok, hzerov]
    have hb₂ : (0 : UInt8) ∉ b₂ := by
      rw [zero_mem_request_iff h₂]
      simp [hzeroGet, hzerok]
    rw [recvStr_eq_self hb₁, recvStr_eq_self hb₂,
      returnsValue_whole_iff host clientFd clientFd' hset hget h₁ h₂ hk hv hlen₁ hlen₂ st]
    exact (and_iff_left ⟨hzerok, hzerov⟩).symm

theorem returnsValue_iff_of_crlf :
    ReturnsValue .plain 5 6 (recvStr (createArrayReponse [str "SET", str "k", str "\r\n"]))
        (recvStr (createArrayReponse [str "get", str "k"])) (str "\r\n") (.empty []) ∧
      AnswersNull .plain 6 (recvStr (createArrayReponse [str "get", str "k"])) (str "k") ↔
      str "\r\n" ≠ nullResponse ∧ (0 : UInt8) ∉ str "k" ∧ (0 : UInt8) ∉ str "\r\n" :=
  returnsValue_iff .plain 5 6 (by decide) (by decide) (createArrayReponse_request _)
    (createArrayReponse_request _) (by decide) (by decide) (by decide) (by decide) _

/-- A stored value that is answered as a missing one. -/
theorem null_text_is_lost :
    ∃ tr₁ st₁ tr₂ st₂, Handles .plain 5
        (recvStr (createArrayReponse [str "SET", str "k", str "$-1\r\n"])) (.empty []) tr₁ (.ok ()) st₁ ∧
      Handles .plain 5 (recvStr (createArrayReponse [str "GET", str "k"])) st₁ tr₂ (.ok ()) st₂ ∧
      st₁.database.lookup (str "k") = some ⟨str "$-1\r\n", 0⟩ ∧
      messages tr₂ = [nullResponse] ∧ [nullResponse] ≠ [createStringReponse (str "$-1\r\n")] := by
  rw [recvStr_eq_self (by decide), recvStr_eq_self (by decide)]
  obtain ⟨tr₁, -, hx₁⟩ := @handles_sets_of_tail [[str "SET", str "k", str "$-1\r\n"]]
    [⟨str "k", str "$-1\r\n", none⟩] (createArrayReponse [str "SET", str "k", str "$-1\r\n"]) []
    .plain 5 (.empty []) (.single (createArrayReponse_request _)) (.cons (.plain (by decide)) .nil)
    (by simp) (List.forall_mem_cons.mpr ⟨⟨by decide, by decide⟩, nofun⟩) (by decide) (by decide)
  rw [List.append_nil] at hx₁
  have hlookup : (afterSets .plain [⟨str "k", str "$-1\r\n", none⟩] (.empty [])).database.lookup
      (str "k") = some ⟨str "$-1\r\n", 0⟩ := Finmap.lookup_insert _
  obtain ⟨tr₂, hx₂, hm₂⟩ := handles_get (b := createArrayReponse [str "GET", str "k"]) (by decide)
    (createArrayReponse_request [str "GET", str "k"]) ⟨by decide, by decide⟩ (by decide)
    (@exec_databaseGet_persistent .plain 5 _ _ _ _ hlookup rfl) rfl
  exact ⟨tr₁, _, tr₂, _, hx₁, hx₂, hlookup, hm₂, by decide⟩

end RedisServer.ValueRoundTrip
