import RedisServer.CoalescedRequests
import RedisServer.ValueRoundTrip

/-!
# A request in several pieces

`client_handler` makes a task of every piece that it receives, and nothing is carried over
from one to the next. So only the first piece of a request counts, and it is enough if no
more than the last line end is missing.
-/

namespace RedisServer.SplitRequests
open ByteStrings CxxStrings RespGrammar InteractionPrograms ServerState Utils RedisParser
open RequestChain RequestRuns RequestDecoding RequestFailures CommandRuns CoalescedRequests
open ValueRoundTrip

def recvBufferSize : ℕ := 4096

/-- The bytes `b` as consecutive results of `recv`. -/
structure Division (b : Bytes) (pieces : List Bytes) : Prop where
  flatten : pieces.flatten = b
  sizes : ∀ piece ∈ pieces, piece ≠ [] ∧ piece.length ≤ recvBufferSize

inductive DataCall where
  | echo (s : Bytes)
  | get (k : Bytes)
  | set (call : SetCall)

/-- The elements of a well-formed ECHO, GET or SET. -/
inductive DataCommand : List Bytes → DataCall → Prop where
  | echo {name s : Bytes} (hname : name.map toUpper = str "ECHO") : DataCommand [name, s] (.echo s)
  | get {name k : Bytes} (hname : name.map toUpper = str "GET") : DataCommand [name, k] (.get k)
  | set {c call} (h : SetCommand c call) : DataCommand c (.set call)

/-- Two outcomes with the same messages, the same result and the same database. -/
structure Alike (tr : List Op) (r : Except Exception Unit) (st : Store) (tr' : List Op)
    (r' : Except Exception Unit) (st' : Store) : Prop where
  messages : messages tr = messages tr'
  result : r = r'
  database : st.database = st'.database

/-- The tasks of the pieces have the same messages, the same result and the same database
as the request `b` in one piece. -/
def ServedAsWhole (host : Host) (clientFd : ℤ) (b : Bytes) (pieces : List Bytes) (st : Store) :
    Prop :=
  ∃ tr r st' tr' r' st'', Handles host clientFd b st tr r st' ∧
    HandlesAll host clientFd (pieces.map recvStr) st tr' r' st'' ∧ Alike tr' r' st'' tr r st'

/-- The buffer is read as one command. -/
inductive ReadsAs (host : Host) (input : Bytes) : DataCall → Prop where
  | echo {n p s next} (hcmd : CommandAt host input 0 n (str "ECHO") p)
      (hs : BulkAt host input p s next) : ReadsAs host input (.echo s)
  | get {n p k next} (hcmd : CommandAt host input 0 n (str "GET") p)
      (hk : BulkAt host input p k next) : ReadsAs host input (.get k)
  | set {call : SetCall} {next} (h : SetAt host input 0 call.key call.value call.px next)
      (hnext : byteAt host input next ≠ byte '*') : ReadsAs host input (.set call)

variable {host : Host} {clientFd : ℤ} {input b e e' s name : Bytes} {c : List Bytes} {pos : ℕ}
  {st st' : Store} {tr : List Op} {r : Except Exception Unit}

section Outcome

/-- A lookup answers the same whatever the buffer. -/
theorem exists_databaseGet (host : Host) (clientFd : ℤ) (k : Bytes) (st : Store) :
    ∃ response st', ∀ buffer, ∃ tr,
      Exec (parser host clientFd buffer) (databaseGet k) st tr (.ok response) st' ∧
        messages tr = [] := by
  cases hfind : st.database.lookup k with
  | none => exact ⟨_, _, fun _ => ⟨_, exec_databaseGet_missing hfind, rfl⟩⟩
  | some v =>
    by_cases hv : v.expiryTime = 0
    · exact ⟨_, _, fun _ => ⟨_, exec_databaseGet_persistent hfind hv, rfl⟩⟩
    · by_cases hlive : host.clock st.ticks < v.expiryTime
      · exact ⟨_, _, fun _ => ⟨_, exec_databaseGet_live hfind hv hlive, rfl⟩⟩
      · exact ⟨_, _, fun _ => ⟨_, exec_databaseGet_expired hfind hv (not_lt.mp hlive), rfl⟩⟩

/-- Every buffer that is read as the same command is handled the same. -/
theorem exists_outcome (host : Host) (clientFd : ℤ) (call : DataCall) (st : Store) :
    ∃ m st', ∀ input, ReadsAs host input call →
      ∃ tr, Handles host clientFd input st tr (.ok ()) st' ∧ messages tr = [m] := by
  cases call with
  | echo s =>
    refine ⟨createStringReponse s, st, fun input h => ?_⟩
    obtain ⟨hcmd, hs⟩ := h
    obtain ⟨reads, hreads, hbulk⟩ : Decodes (parser host clientFd input)
      (parseBulkString input _) st _ := decodes_parseBulkString hs
    have hrun : Exec (parser host clientFd input) (parseECHOCommand input _) st _ (.ok ()) st :=
      hbulk.bind (exec_reply _)
    obtain ⟨reads', hreads', hx⟩ := exec_command hcmd hrun
    have hover : messages [.enqueueMessage (createStringReponse s), .communicationOver]
        = [createStringReponse s] := rfl
    exact ⟨_, hx, by simp [hreads, hreads', hover]⟩
  | get k =>
    obtain ⟨response, st', hget⟩ := exists_databaseGet host clientFd k st
    refine ⟨getReply response, st', fun input h => ?_⟩
    rcases h with - | ⟨hcmd, hk⟩
    obtain ⟨tr, hx, hm⟩ := hget input
    exact handles_getAt hcmd hk hx hm
  | set call =>
    refine ⟨okResponse, afterSet host call.key call.value call.px st, fun input h => ?_⟩
    rcases h with - | - | ⟨hset, hnext⟩
    obtain ⟨tr, tr', htr, htr', hx⟩ := @exec_lastSet host clientFd _ _ _ st _ _ _ hset hnext
    exact ⟨_, hx, by simp [htr.messages, htr'.messages]⟩

end Outcome

/-- The bytes `e` stand at the end of `input` from `pos` on, and no more than two of them are
missing. -/
def StandsCut (input : Bytes) (pos : ℕ) (e : Bytes) : Prop :=
  ∃ pre missing, input ++ missing = pre ++ e ∧ pos = pre.length ∧ missing.length ≤ 2

section Cut

theorem StandsCut.right (h : StandsCut input pos (e ++ e')) :
    StandsCut input (pos + e.length) e' := by
  obtain ⟨pre, missing, hinput, rfl, hlen⟩ := h
  exact ⟨pre ++ e, missing, by simp [hinput], by simp, hlen⟩

theorem StandsCut.left (h : StandsCut input pos (e ++ e')) (he : 2 ≤ e'.length) :
    StandsAt input pos e := by
  obtain ⟨pre, missing, hinput, rfl, hlen⟩ := h
  have htake := congrArg (List.take input.length) hinput
  have hle : (pre ++ e).length ≤ input.length := by
    have hlength := congrArg List.length hinput
    simp only [List.length_append] at hlength ⊢
    omega
  rw [List.take_left, ← List.append_assoc, List.take_append, List.take_of_length_le hle] at htake
  exact ⟨pre, _, htake.trans (List.append_assoc _ _ _), rfl⟩

/-- The first of several bulk strings, the last of which may be cut. -/
theorem exists_bulkAt_of_cut (host : Host) {ss : List Bytes} {body : Bytes}
    (hs : BulkStrings (s :: ss) body) (hfit : s.length + 2 ≤ intMax)
    (hlen : input.length ≤ maxSize) (h : StandsCut input pos body) :
    ∃ body' next, BulkAt host input pos s next ∧ BulkStrings ss body' ∧
      StandsCut input next body' ∧ next + body'.length = pos + body.length := by
  cases hs with
  | @cons _ e _ es hs rest =>
    refine ⟨es, pos + e.length, ?_, rest, h.right, by simp; omega⟩
    obtain ⟨hds⟩ := hs
    rename_i ds
    have hcut : StandsCut input pos (byte '$' :: (ds ++ crlf ++ s) ++ (crlf ++ es)) := by
      simpa using h
    exact bulkAt_of_payload hds hfit hlen (hcut.left (by simp [crlf]))

theorem exists_commandAt_of_cut (host : Host) {arg : Bytes} {args : List Bytes}
    (hr : Request (name :: arg :: args) b) (hfit : Fits (name :: arg :: args))
    (hlen : input.length ≤ maxSize) (h : StandsCut input 0 b) :
    ∃ body p, CommandAt host input 0 ((arg :: args).length + 1) (name.map toUpper) p ∧
      BulkStrings (arg :: args) body ∧ StandsCut input p body ∧ p + body.length = b.length := by
  obtain ⟨hds, hs⟩ := hr
  rename_i ds _
  cases hs with
  | @cons _ e₁ _ body hname hargs =>
    have hcut : StandsCut input 0 (byte '*' :: (ds ++ crlf ++ e₁) ++ body) := by simpa using h
    have hbody : 2 ≤ body.length := by
      have hpos := BulkStrings.forall_length_le hargs arg List.mem_cons_self
      omega
    have hcmd := commandAt_of_name host hds hfit.count hname
      (hfit.lengths name List.mem_cons_self) hlen (hcut.left hbody)
    exact ⟨body, _, by exact_mod_cast hcmd, hargs, hcut.right, by simp; omega⟩

theorem setAt_of_cut (host : Host) {call : SetCall} (hset : SetCommand c call) (hr : Request c b)
    (hfit : Fits c) (hlen : input.length ≤ maxSize) (h : StandsCut input 0 b) :
    SetAt host input 0 call.key call.value call.px b.length := by
  cases hset with
  | plain hname =>
    obtain ⟨body, p, hcmd, hargs, hat, hend⟩ := exists_commandAt_of_cut host hr hfit hlen h
    obtain ⟨body, p₁, hk, hargs, hat, hend₁⟩ :=
      exists_bulkAt_of_cut host hargs (hfit.lengths _ (by simp)) hlen hat
    obtain ⟨body, p₂, hv, hargs, hat, hend₂⟩ :=
      exists_bulkAt_of_cut host hargs (hfit.lengths _ (by simp)) hlen hat
    cases hargs
    obtain rfl : p₂ = b.length := by simp at hend₂; omega
    rw [hname] at hcmd
    exact ⟨_, p, hcmd, .plain (by simp) hk hv⟩
  | expiring hname hms =>
    obtain ⟨body, p, hcmd, hargs, hat, hend⟩ := exists_commandAt_of_cut host hr hfit hlen h
    obtain ⟨body, p₁, hk, hargs, hat, hend₁⟩ :=
      exists_bulkAt_of_cut host hargs (hfit.lengths _ (by simp)) hlen hat
    obtain ⟨body, p₂, hv, hargs, hat, hend₂⟩ :=
      exists_bulkAt_of_cut host hargs (hfit.lengths _ (by simp)) hlen hat
    obtain ⟨body, p₃, hpx, hargs, hat, hend₃⟩ :=
      exists_bulkAt_of_cut host hargs (hfit.lengths _ (by simp)) hlen hat
    obtain ⟨body, p₄, hms', hargs, hat, hend₄⟩ :=
      exists_bulkAt_of_cut host hargs (hfit.lengths _ (by simp)) hlen hat
    cases hargs
    obtain rfl : p₄ = b.length := by simp at hend₄; omega
    rw [hname] at hcmd
    exact ⟨_, p, hcmd, .expiring (by simp) hk hv hpx hms' hms⟩

/-- A request without its last line end, or without a part of it, is read as the request. -/
theorem readsAs_of_cut (host : Host) {call : DataCall} (hc : DataCommand c call)
    (hr : Request c b) (hfit : Fits c) (hlen : input.length ≤ maxSize) (h : StandsCut input 0 b)
    (hset : isSet c = true → byteAt host input b.length ≠ byte '*') : ReadsAs host input call := by
  cases hc with
  | echo hname =>
    obtain ⟨body, p, hcmd, hargs, hat, -⟩ := exists_commandAt_of_cut host hr hfit hlen h
    obtain ⟨_, next, hs, -⟩ := exists_bulkAt_of_cut host hargs (hfit.lengths _ (by simp)) hlen hat
    rw [hname] at hcmd
    exact .echo hcmd hs
  | get hname =>
    obtain ⟨body, p, hcmd, hargs, hat, -⟩ := exists_commandAt_of_cut host hr hfit hlen h
    obtain ⟨_, next, hk, -⟩ := exists_bulkAt_of_cut host hargs (hfit.lengths _ (by simp)) hlen hat
    rw [hname] at hcmd
    exact .get hcmd hk
  | set hcall => exact .set (setAt_of_cut host hcall hr hfit hlen h) (hset (isSet_of_setCommand hcall))

end Cut

section Messages

theorem messages_ne_nil (hx : Exec (parser host clientFd input)
    (parseRESPCommand host clientFd input pos) st tr (.ok ()) st')
    (hstar : byteAt host input pos = byte '*') : messages tr ≠ [] := by
  rcases handled_of_ok hx with hnot | ⟨n, name, p, hcmd, hargs⟩
  · exact absurd hstar hnot
  by_cases hname : name = str "SET"
  · subst hname
    obtain ⟨k, v, px, next, hargs⟩ := arguments_set.mp hargs
    obtain ⟨tr₁, htr₁, hr⟩ := @reaches_setTail host clientFd _ _ _ st _ _ _ ⟨n, p, hcmd, hargs⟩ []
    obtain ⟨rem, rfl, -⟩ := hx.split hr
    rw [messages_append, htr₁.messages]
    exact List.cons_ne_nil _ _
  · obtain ⟨tr', st'', hrun, hcount, -⟩ := @answers_dispatch host clientFd input input p st _ _ hname hargs
    obtain ⟨reads, hreads, hx'⟩ := exec_command hcmd hrun
    obtain ⟨rfl, -, -⟩ := hx.deterministic hx'
    rintro hnil
    simp [hreads] at hnil
    rw [hnil] at hcount
    split at hcount <;> cases hcount

/-- Pieces that are not answered are no commands and change nothing. -/
theorem strays_of_messages_eq_nil {bs : List Bytes}
    (hx : HandlesAll host clientFd bs st tr (.ok ()) st') (hm : messages tr = []) :
    (∀ b ∈ bs, byteAt host b 0 ≠ byte '*') ∧ st' = st := by
  generalize hr : (Except.ok () : Except Exception Unit) = res at hx
  induction hx with
  | nil => exact ⟨nofun, rfl⟩
  | @cons b bs st st₁ st' tr tr' r h rest ih =>
    rw [messages_append, List.append_eq_nil_iff] at hm
    obtain ⟨hstrays, rfl⟩ := ih hm.2 hr
    have hstray : byteAt host b 0 ≠ byte '*' := fun hstar => messages_ne_nil h hstar hm.1
    obtain ⟨_, -, hidle⟩ := handles_stray clientFd hstray st
    exact ⟨List.forall_mem_cons.mpr ⟨hstray, hstrays⟩, (h.deterministic hidle).2.2⟩
  | throw => cases hr

theorem exists_handlesAll_of_strays {bs : List Bytes} (h : ∀ b ∈ bs, byteAt host b 0 ≠ byte '*')
    (st : Store) : ∃ tr, HandlesAll host clientFd bs st tr (.ok ()) st ∧ messages tr = [] := by
  induction bs with
  | nil => exact ⟨[], .nil, rfl⟩
  | cons b bs ih =>
    obtain ⟨hb, hbs⟩ := List.forall_mem_cons.mp h
    obtain ⟨tr, hidle, hx⟩ := handles_stray clientFd hb st
    obtain ⟨tr', hrest, hm⟩ := ih hbs
    exact ⟨_, .cons hx hrest, by simp [messages_eq_nil_of_idle hidle, hm]⟩

end Messages

section Division

theorem byteAt_recvStr {piece : Bytes} (hne : piece ≠ []) :
    byteAt host (recvStr piece) 0 = byte '*' ↔ piece.head? = some (byte '*') := by
  obtain ⟨b, bs, rfl⟩ := List.exists_cons_of_ne_nil hne
  rw [List.head?_cons, Option.some_inj]
  by_cases hb : b = 0
  · subst hb
    have hempty : recvStr (0 :: bs) = [] := rfl
    rw [hempty, show byteAt host [] 0 = 0 from byteAt_length []]
  · have hcons : recvStr (b :: bs) = b :: recvStr bs := by simp [recvStr, hb]
    rw [hcons, byteAt_of_standsAt (standsAt_self _)]

theorem exists_append_crlf {arg : Bytes} {args : List Bytes} {body : Bytes}
    (hs : BulkStrings (arg :: args) body) : ∃ front, body = front ++ crlf := by
  induction args generalizing arg body with
  | nil =>
    cases hs with
    | cons hs hnil =>
      cases hnil
      obtain ⟨hds⟩ := hs
      rename_i ds
      exact ⟨byte '$' :: (ds ++ crlf ++ arg), by simp⟩
  | cons arg' args ih =>
    cases hs with
    | @cons _ e _ _ _ rest =>
      obtain ⟨front, rfl⟩ := ih rest
      exact ⟨e ++ front, by simp⟩

/-- What is missing from a request whose first piece lacks at most two bytes. -/
theorem missing_mem_crlf {call : DataCall} {first : Bytes} {rest : List Bytes}
    (hc : DataCommand c call) (hr : Request c b) (hdiv : Division b (first :: rest))
    (hlen : b.length ≤ first.length + 2) : ∀ x ∈ rest.flatten, x ∈ crlf := by
  obtain ⟨front, rfl⟩ : ∃ front, b = front ++ crlf := by
    obtain ⟨name, arg, args, rfl⟩ : ∃ name arg args, c = name :: arg :: args := by
      cases hc with
      | echo => exact ⟨_, _, _, rfl⟩
      | get => exact ⟨_, _, _, rfl⟩
      | set hcall => cases hcall <;> exact ⟨_, _, _, rfl⟩
    obtain ⟨-, hs⟩ := hr
    cases hs with
    | cons _ hargs =>
      obtain ⟨front, rfl⟩ := exists_append_crlf hargs
      rename_i ds e _
      exact ⟨byte '*' :: (ds ++ crlf ++ (e ++ front)), by simp⟩
  have hflatten : first ++ rest.flatten = front ++ crlf := hdiv.flatten
  intro x hx
  rcases List.append_eq_append_iff.mp hflatten with ⟨more, rfl, hrest⟩ | ⟨present, -, hcrlf⟩
  · obtain rfl : more = [] := by simpa [crlf] using hlen
    rw [hrest] at hx
    exact hx
  · rw [hcrlf]
    exact List.mem_append_right _ hx

theorem standsCut_self (b : Bytes) : StandsCut b 0 b := ⟨[], [], by simp, rfl, by simp⟩

theorem head?_first {first : Bytes} {rest : List Bytes} (hr : Request c b)
    (hdiv : Division b (first :: rest)) : first.head? = some (byte '*') := by
  obtain ⟨more, hmore⟩ := hr.head
  have hflatten : first ++ rest.flatten = b := hdiv.flatten
  obtain ⟨x, xs, rfl⟩ := List.exists_cons_of_ne_nil (hdiv.sizes first List.mem_cons_self).1
  rw [hmore, List.cons_append] at hflatten
  rw [List.head?_cons, (List.cons.inj hflatten).1]

end Division

section Split

variable {call : DataCall} {first : Bytes} {rest : List Bytes}

/-- Only the first piece counts, if no later one is taken for a command. -/
theorem servedAsWhole_cons_iff (host : Host) (clientFd : ℤ) (hc : DataCommand c call)
    (hr : Request c b) (hfit : Fits c) (hlen : b.length ≤ maxSize)
    (hdiv : Division b (first :: rest)) (st : Store) :
    ServedAsWhole host clientFd b (first :: rest) st ↔
      ServedAsWhole host clientFd b [first] st ∧
        ∀ piece ∈ rest, piece.head? ≠ some (byte '*') := by
  have hstar : byteAt host (recvStr first) 0 = byte '*' :=
    (byteAt_recvStr (hdiv.sizes first List.mem_cons_self).1).mpr (head?_first hr hdiv)
  have hstrays : (∀ task ∈ rest.map recvStr, byteAt host task 0 ≠ byte '*') ↔
      ∀ piece ∈ rest, piece.head? ≠ some (byte '*') := by
    rw [List.forall_mem_map]
    exact forall₂_congr fun piece hpiece =>
      (byteAt_recvStr (hdiv.sizes piece (List.mem_cons_of_mem _ hpiece)).1).not
  obtain ⟨m, stw, houtcome⟩ := exists_outcome host clientFd call st
  obtain ⟨trw, hw, hmw⟩ := houtcome b
    (readsAs_of_cut host hc hr hfit hlen (standsCut_self b) fun _ => byteAt_end rfl)
  rw [← hstrays]
  constructor
  · rintro ⟨tr, r, st', tr', r', st'', hx, hpieces, halike⟩
    obtain ⟨rfl, rfl, rfl⟩ := hx.deterministic hw
    obtain ⟨hm, rfl, hdb⟩ := halike
    cases hpieces with
    | @cons _ _ _ st₁ _ tr₁ tr₂ _ hfirst hrest =>
      have hanswer := messages_ne_nil hfirst hstar
      rw [messages_append, hmw] at hm
      rcases List.append_eq_singleton_iff.mp hm with ⟨hnil, -⟩ | ⟨hm₁, hm₂⟩
      · exact absurd hnil hanswer
      obtain ⟨hnot, rfl⟩ := strays_of_messages_eq_nil hrest hm₂
      exact ⟨⟨tr, _, st', tr₁ ++ [], _, st'', hx, .cons hfirst .nil, by simp [hm₁, hmw], rfl, hdb⟩, hnot⟩
  · rintro ⟨⟨tr, r, st', tr', r', st'', hx, hpiece, halike⟩, hnot⟩
    obtain ⟨rfl, rfl, rfl⟩ := hx.deterministic hw
    obtain ⟨hm, rfl, hdb⟩ := halike
    cases hpiece with
    | cons hfirst hnil =>
      cases hnil
      obtain ⟨tr₂, hrest, hm₂⟩ := exists_handlesAll_of_strays hnot st''
      exact ⟨tr, _, st', _, _, st'', hx, .cons hfirst hrest, by simpa [hm₂] using hm, rfl, hdb⟩

/-- A first piece that lacks at most the last line end is enough. -/
theorem servedAsWhole_of_cut (host : Host) (clientFd : ℤ) (hc : DataCommand c call)
    (hr : Request c b) (hfit : Fits c) (hlen : b.length ≤ maxSize)
    (hdiv : Division b (first :: rest)) (hcut : b.length ≤ first.length + 2)
    (hzero : (0 : UInt8) ∉ first)
    (hset : isSet c = true → byteAt host first b.length ≠ byte '*') (st : Store) :
    ServedAsWhole host clientFd b [first] st := by
  have htask : recvStr first = first := recvStr_eq_self hzero
  have hflatten : first ++ rest.flatten = b := hdiv.flatten
  have hmissing : StandsCut first 0 b := by
    refine ⟨[], rest.flatten, hflatten, rfl, ?_⟩
    rw [← hflatten, List.length_append] at hcut
    omega
  have hlen' : first.length ≤ maxSize := by
    rw [← hflatten, List.length_append] at hlen
    omega
  obtain ⟨m, st', houtcome⟩ := exists_outcome host clientFd call st
  obtain ⟨tr, hx, hm⟩ := houtcome b
    (readsAs_of_cut host hc hr hfit hlen (standsCut_self b) fun _ => byteAt_end rfl)
  obtain ⟨tr', hx', hm'⟩ := houtcome first (readsAs_of_cut host hc hr hfit hlen' hmissing hset)
  rw [← htask] at hx'
  exact ⟨tr, _, st', tr' ++ [], _, st', hx, .cons hx' .nil, by simp [hm, hm'], rfl, rfl⟩

/-- A request in several pieces is served as the whole request exactly if its first piece
alone is, and no later piece begins with an asterisk. The first piece is if it lacks at
most the last line end. -/
theorem split_served_iff (host : Host) (clientFd : ℤ) (hc : DataCommand c call)
    (hr : Request c b) (hfit : Fits c) (hlen : b.length ≤ maxSize)
    (hdiv : Division b (first :: rest)) (st : Store) :
    (ServedAsWhole host clientFd b (first :: rest) st ↔
      ServedAsWhole host clientFd b [first] st ∧
        ∀ piece ∈ rest, piece.head? ≠ some (byte '*')) ∧
    (b.length ≤ first.length + 2 → (0 : UInt8) ∉ first →
      (isSet c = true → byteAt host first b.length ≠ byte '*') →
      ServedAsWhole host clientFd b (first :: rest) st) := by
  have hiff := servedAsWhole_cons_iff host clientFd hc hr hfit hlen hdiv st
  refine ⟨hiff, fun hcut hzero hset => hiff.mpr ⟨?_, fun piece hpiece hstar => ?_⟩⟩
  · exact servedAsWhole_of_cut host clientFd hc hr hfit hlen hdiv hcut hzero hset st
  · have hmem : byte '*' ∈ rest.flatten :=
      List.mem_flatten.mpr ⟨piece, hpiece, List.mem_of_head? hstar⟩
    exact absurd (missing_mem_crlf hc hr hdiv hcut _ hmem) (by decide)

/-- A GET whose last line end comes later. -/
theorem split_served_iff_of_get : ServedAsWhole .plain 5 (createArrayReponse [str "GET", str "k"])
    [str "*2\r\n$3\r\nGET\r\n$1\r\nk", crlf] (.empty []) :=
  (split_served_iff .plain 5 (.get (by decide)) (createArrayReponse_request _)
    ⟨by decide, by decide⟩ (by decide) ⟨by decide, by decide⟩ _).2 (by decide) (by decide)
    fun h => absurd h (by decide)

/-- A SET that is cut inside its value assigns the part of the value that has come. -/
theorem cut_value_not_served : ¬ ∀ (host : Host) (clientFd : ℤ) (c : List Bytes) (call : DataCall)
    (b : Bytes) (pieces : List Bytes) (st : Store), DataCommand c call → Request c b → Fits c →
    b.length ≤ maxSize → Division b pieces → ServedAsWhole host clientFd b pieces st := by
  intro h
  obtain ⟨_, _, _, _, _, _, hx, hpieces, halike⟩ := h .plain 5 _ _ _
    [str "*3\r\n$3\r\nSET\r\n$1\r\nk\r\n$5\r\nab", str "cde\r\n"] (.empty [])
    (.set (.plain (k := str "k") (v := str "abcde") (show (str "SET").map toUpper = _ by decide)))
    (createArrayReponse_request _) ⟨by decide, by decide⟩ (by decide) ⟨by decide, by decide⟩
  obtain ⟨_, hwhole⟩ : ∃ tr, Handles .plain 5
      (createArrayReponse [str "SET", str "k", str "abcde"]) (.empty []) tr (.ok ())
      ((Store.empty []).setDatabase ((∅ : Database).insert (str "k") ⟨str "abcde", 0⟩)) :=
    ⟨_, Machine.eval_sound (n := 4) rfl⟩
  obtain ⟨_, hfirst⟩ : ∃ tr, Handles .plain 5
      (recvStr (str "*3\r\n$3\r\nSET\r\n$1\r\nk\r\n$5\r\nab")) (.empty []) tr (.ok ())
      ((Store.empty []).setDatabase ((∅ : Database).insert (str "k") ⟨str "ab", 0⟩)) :=
    ⟨_, Machine.eval_sound (n := 4) rfl⟩
  obtain ⟨_, hsecond⟩ : ∃ tr, Handles .plain 5 (recvStr (str "cde\r\n"))
      ((Store.empty []).setDatabase ((∅ : Database).insert (str "k") ⟨str "ab", 0⟩)) tr (.ok ())
      ((Store.empty []).setDatabase ((∅ : Database).insert (str "k") ⟨str "ab", 0⟩)) :=
    ⟨_, Machine.eval_sound (n := 4) rfl⟩
  obtain ⟨-, -, rfl⟩ := hx.deterministic hwhole
  cases hpieces with
  | cons h₁ hrest =>
    obtain ⟨-, -, rfl⟩ := h₁.deterministic hfirst
    cases hrest with
    | cons h₂ hnil =>
      obtain ⟨-, -, rfl⟩ := h₂.deterministic hsecond
      cases hnil
      have hlookup := congrArg (Finmap.lookup (str "k")) halike.database
      simp +decide at hlookup
    | throw h₂ => cases (h₂.deterministic hsecond).2.1
  | throw h₁ => cases (h₁.deterministic hfirst).2.1

end Split

end RedisServer.SplitRequests
