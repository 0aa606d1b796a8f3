import RedisServer.RequestRelocation
import RedisServer.SetPipelines

/-!
# Several requests in one buffer

Only SET looks behind itself for a further command. So a buffer of several requests is
handled as the requests are one at a time exactly if nothing stands behind the first one
that is not a SET or is cut by a zero byte, or if the process ends there both times.
-/

namespace RedisServer.CoalescedRequests
open ByteStrings CxxStrings RespGrammar InteractionPrograms ServerState Utils RedisParser
open RequestChain RequestRuns RequestDecoding ReceivedRequests RequestRelocation RequestFailures
open SetPipelines

/-- Buffers handled one at a time. An exception ends the process. -/
inductive HandlesAll (host : Host) (clientFd : ℤ) :
    List Bytes → Store → List Op → Except Exception Unit → Store → Prop where
  | nil {st} : HandlesAll host clientFd [] st [] (.ok ()) st
  | cons {b bs st st₁ st' tr tr' r} (h : Handles host clientFd b st tr (.ok ()) st₁)
      (rest : HandlesAll host clientFd bs st₁ tr' r st') :
      HandlesAll host clientFd (b :: bs) st (tr ++ tr') r st'
  | throw {b bs st st' tr e} (h : Handles host clientFd b st tr (.error e) st') :
      HandlesAll host clientFd (b :: bs) st tr (.error e) st'

def otherCommands : List Bytes :=
  [str "PING", str "ECHO", str "GET", str "CONFIG", str "KEYS", str "INFO", str "REPLCONF"]

/-- A well-formed command that a client may send. -/
inductive Supported : List Bytes → Prop where
  | set {c call} (h : SetCommand c call) : Supported c
  | other {name args} (hname : name.map toUpper ∈ otherCommands)
      (hargs : Supplied (name.map toUpper) args) : Supported (name :: args)

def isSet (c : List Bytes) : Bool := c.headI.map toUpper = str "SET"

def WholeSet (c : List Bytes) : Prop := isSet c = true ∧ ∀ s ∈ c, (0 : UInt8) ∉ s

instance (c : List Bytes) : Decidable (WholeSet c) := inferInstanceAs (Decidable (_ ∧ _))

/-- Two outcomes with the same messages and the same database, that end the process or not. -/
structure SameOutcome (tr : List Op) (r : Except Exception Unit) (st : Store) (tr' : List Op)
    (r' : Except Exception Unit) (st' : Store) : Prop where
  messages : messages tr = messages tr'
  ended : r = .ok () ↔ r' = .ok ()
  database : st.database = st'.database

/-- What has to hold of the first request `e` of the buffer `b` that is not a whole SET, and of the
requests `es` behind it. Either the buffer throws nothing, nothing stands behind `e`, and `e` throws
nothing on its own. Or the buffer throws, and so does `e` on its own or at once the next request. -/
def EndsAlike (host : Host) (b e : Bytes) (es : List Bytes) : Prop :=
  (¬ Stops host b 0 ∧ ¬ Stops host (recvStr e) 0 ∧ es = []) ∨
    (Stops host b 0 ∧ (Stops host (recvStr e) 0 ∨ ∃ e' ∈ es.head?, ¬ Handled host (recvStr e') 0))

/-- The condition on the buffer `b` of the requests `es`, which encode the commands. -/
def Continued (host : Host) (b : Bytes) : List (List Bytes) → List Bytes → Prop
  | c :: cmds, e :: es => if WholeSet c then Continued host b cmds es else EndsAlike host b e es
  | _, _ => True

theorem isSet_of_setCommand {c : List Bytes} {call : SetCall} (h : SetCommand c call) :
    isSet c = true := by
  cases h with
  | plain hname => exact decide_eq_true hname
  | expiring hname => exact decide_eq_true hname

theorem ne_set_of_mem {name : Bytes} (h : name ∈ otherCommands) : name ≠ str "SET" := by
  rintro rfl
  revert h
  decide

theorem ne_psync_of_mem {name : Bytes} (h : name ∈ otherCommands) : name ≠ str "PSYNC" := by
  rintro rfl
  revert h
  decide

theorem zero_notMem_of_mem {name : Bytes} (h : name.map toUpper ∈ otherCommands) :
    (0 : UInt8) ∉ name := by
  have hall : ∀ n ∈ otherCommands, (0 : UInt8) ∉ n := by decide
  exact zero_notMem_of_toUpper (hall _ h)

variable {host : Host} {clientFd : ℤ} {input e : Bytes} {c : List Bytes} {pos : ℕ} {st : Store}

section Single

/-- The arguments that are seen suit the command. -/
def Accepted (host : Host) (name : Bytes) (ss : List Bytes) : Prop :=
  Supplied name ss ∧ (name = str "KEYS" → (host.regex (keysRegex ss.headI
    (byteAt host ss.headI (sizeT (toInt ss.headI.length - 1))))).isSome = true)

/-- The arguments of a received command suit it if those that are seen do. -/
theorem arguments_iff (host : Host) {name : Bytes} {args : List Bytes} {body : Bytes} {p : ℕ} {n : ℤ}
    (h : Received input p body) (hs : BulkStrings args body) (hfit : ∀ s ∈ args, s.length + 2 ≤ intMax)
    (hlen : input.length ≤ maxSize) (hsup : Supplied name args) (hset : name ≠ str "SET") :
    Arguments host input name n p ↔ Accepted host name (seen args) := by
  obtain ⟨last, hreads, hbeyond, -⟩ := h.exists_bulksAt host hs hfit hlen
  by_cases hone : name = str "ECHO" ∨ name = str "GET" ∨ name = str "CONFIG" ∨ name = str "KEYS" ∨
      name = str "INFO"
  · obtain ⟨s, ss, hseen⟩ := List.exists_cons_of_length_pos (length_seen_pos (hsup.one hone))
    rw [hseen] at hreads ⊢
    obtain _ | @⟨_, next, _, _, _, hs', hrest⟩ := hreads
    have hpos : 1 ≤ (s :: ss).length := Nat.succ_le_succ (Nat.zero_le _)
    by_cases hkeys : name = str "KEYS"
    · subst hkeys
      have hsupplied : Supplied (str "KEYS") (s :: ss) := ⟨fun _ => hpos, fun h => absurd h (by decide)⟩
      rw [arguments_keys]
      constructor
      · rintro ⟨s', ⟨next', hs''⟩, hregex⟩
        obtain ⟨rfl, -⟩ := hs'.unique hs''
        exact ⟨hsupplied, fun _ => hregex⟩
      · exact fun haccepted => ⟨s, ⟨next, hs'⟩, haccepted.2 rfl⟩
    by_cases hconfig : name = str "CONFIG"
    · subst hconfig
      rw [arguments_config]
      constructor
      · rintro ⟨s', next', hs'', hget⟩
        obtain ⟨rfl, rfl⟩ := hs'.unique hs''
        refine ⟨⟨fun _ => hpos, fun _ hcall => ?_⟩, fun h => absurd h hkeys⟩
        -- a single argument GET has been cut, and nothing can be read behind it
        obtain ⟨s', next', hs'⟩ := hget hcall
        by_contra hshort
        rw [List.length_cons] at hshort
        obtain rfl : ss = [] := List.eq_nil_of_length_eq_zero (by omega)
        cases hrest
        by_cases hzero : ∃ s ∈ args, (0 : UInt8) ∈ s
        · exact (hbeyond ((zero_mem_bulkStrings_iff hs).mpr hzero)).not_bulkAt hs'
        · rw [seen_eq_self fun s hs hmem => hzero ⟨s, hs, hmem⟩] at hseen
          rw [hseen] at hsup
          have htwo := hsup.two rfl hcall
          rw [List.length_singleton] at htwo
          omega
      · rintro ⟨hsupplied, -⟩
        refine ⟨s, next, hs', fun hcall => ?_⟩
        have htwo := hsupplied.two rfl hcall
        rw [List.length_cons] at htwo
        obtain ⟨s', ss, rfl⟩ := List.exists_cons_of_length_pos (show 0 < ss.length by omega)
        cases hrest with
        | cons hs'' => exact ⟨_, _, hs''⟩
    · have hbulk : name = str "ECHO" ∨ name = str "GET" ∨ name = str "INFO" := by
        rcases hone with hecho | hget | hcall | hcall | hinfo
        · exact .inl hecho
        · exact .inr (.inl hget)
        · exact absurd hcall hconfig
        · exact absurd hcall hkeys
        · exact .inr (.inr hinfo)
      rw [arguments_bulk hbulk]
      exact iff_of_true ⟨s, next, hs'⟩
        ⟨⟨fun _ => hpos, fun h => absurd h hconfig⟩, fun h => absurd h hkeys⟩
  · have hnone := hone
    simp only [not_or] at hnone
    obtain ⟨hecho, hget, hconfig, hkeys, hinfo⟩ := hnone
    have hbulk : ¬ (name = str "ECHO" ∨ name = str "GET" ∨ name = str "INFO") := by
      simp only [not_or]
      exact ⟨hecho, hget, hinfo⟩
    rw [Arguments, if_neg hbulk, if_neg hset, if_neg hconfig, if_neg hkeys]
    exact iff_of_true trivial
      ⟨⟨fun h => absurd h hone, fun h => absurd h hconfig⟩, fun h => absurd h hkeys⟩

variable {name : Bytes} {args : List Bytes}

theorem handled_iff_accepted (host : Host) (h : Received input pos e) (hr : Request (name :: args) e)
    (hname : name.map toUpper ∈ otherCommands) (hsup : Supplied (name.map toUpper) args)
    (hfit : Fits (name :: args)) (hlen : input.length ≤ maxSize) :
    Handled host input pos ↔ Accepted host (name.map toUpper) (seen args) := by
  obtain ⟨body, p, hcmd, hs, hat, -⟩ :=
    h.exists_commandAt host hr hfit (zero_notMem_of_mem hname) hlen
  rw [hcmd.handled_iff]
  exact arguments_iff host hat hs (fun s hs => hfit.lengths s (List.mem_cons_of_mem _ hs)) hlen hsup
    (ne_set_of_mem hname)

/-- A received command whose arguments suit it is answered. -/
theorem exists_exec_other (clientFd : ℤ) (h : Received input pos e) (hr : Request (name :: args) e)
    (hname : name.map toUpper ∈ otherCommands) (hfit : Fits (name :: args))
    (hlen : input.length ≤ maxSize) (hhandled : Handled host input pos) (st : Store) : ∃ tr st',
    Exec (parser host clientFd input) (parseRESPCommand host clientFd input pos) st tr (.ok ()) st' ∧
      messages tr ≠ [] := by
  obtain ⟨body, p, hcmd, -⟩ := h.exists_commandAt host hr hfit (zero_notMem_of_mem hname) hlen
  obtain ⟨tr, st', hrun, hcount, -⟩ := @answers_dispatch host clientFd input input p st _ _
    (ne_set_of_mem hname) (hcmd.handled_iff.mp hhandled)
  obtain ⟨reads, hreads, hx⟩ := exec_command hcmd hrun
  refine ⟨_, st', hx, fun hnil => ?_⟩
  rw [if_neg (ne_psync_of_mem hname)] at hcount
  simp [hreads] at hnil
  simp [hnil] at hcount

theorem handled_iff_setElements (host : Host) (h : Received input pos e) {call : SetCall}
    (hset : SetCommand (name :: args) call) (hr : Request (name :: args) e)
    (hfit : Fits (name :: args)) (hlen : input.length ≤ maxSize) : Handled host input pos ↔
      ∃ k v px, SetElements (args.length + 1) (seen args) k v px := by
  obtain ⟨p, last, hcmd, hiff, -⟩ := h.exists_set host hset hr hfit hlen
  rw [hcmd.handled_iff, arguments_set]
  constructor
  · rintro ⟨k, v, px, next, hargs⟩
    exact ⟨k, v, px, ((hiff k v px next).mp hargs).1⟩
  · rintro ⟨k, v, px, helements⟩
    exact ⟨k, v, px, last, (hiff k v px last).mpr ⟨helements, rfl⟩⟩

/-- A command whose arguments do not suit it throws, before it passes a message or changes the
database. -/
theorem exists_throws (clientFd : ℤ) (hnot : ¬ Handled host input pos) (st : Store) : ∃ tr ex st',
    Exec (parser host clientFd input) (parseRESPCommand host clientFd input pos) st tr (.error ex) st' ∧
      messages tr = [] ∧ st'.database = st.database := by
  obtain ⟨tr, ex, st', hinert, hx⟩ := @rejects_parseRESPCommand host clientFd input pos st hnot
  exact ⟨tr, ex, st', hx, hinert.messages, hinert.database_eq hx⟩

theorem exists_handles_set (host : Host) (clientFd : ℤ) {call : SetCall} (hset : SetCommand c call)
    (hr : Request c e) (hfit : Fits c) (hlen : e.length ≤ maxSize) (st : Store) :
    ∃ tr, Handles host clientFd e st tr (.ok ()) (afterSets host [call] st) ∧
      messages tr = [okResponse] := by
  have h := @handles_sets_of_tail [c] [call] e [] host clientFd st (.single hr) (.cons hset .nil)
    (by simp) (by simpa using hfit) (by simpa using hlen) (by simp)
  rw [List.append_nil] at h
  obtain ⟨tr, htrace, hx⟩ := h
  exact ⟨tr, hx, by simpa using htrace.messages⟩

/-- At the two places the parser passes the same messages and leaves the same database. -/
def RunsAlike (host : Host) (clientFd : ℤ) (input : Bytes) (pos : ℕ) (input' : Bytes) (pos' : ℕ)
    (st : Store) : Prop :=
  ∃ tr r st₁ tr' r' st₁',
    Exec (parser host clientFd input) (parseRESPCommand host clientFd input pos) st tr r st₁ ∧
    Exec (parser host clientFd input') (parseRESPCommand host clientFd input' pos') st tr' r' st₁' ∧
    messages tr = messages tr' ∧ st₁.database = st₁'.database

theorem runsAlike_of_not_handled (clientFd : ℤ) {input' : Bytes} {pos' : ℕ}
    (hnot : ¬ Handled host input pos) (hnot' : ¬ Handled host input' pos') (st : Store) :
    RunsAlike host clientFd input pos input' pos' st := by
  obtain ⟨tr, ex, st₁, hx, hm, hdb⟩ := exists_throws clientFd hnot st
  obtain ⟨tr', ex', st₁', hx', hm', hdb'⟩ := exists_throws clientFd hnot' st
  exact ⟨tr, _, st₁, tr', _, st₁', hx, hx', hm.trans hm'.symm, hdb.trans hdb'.symm⟩

/-- A received command that is not a whole SET does the same wherever it stands. -/
theorem runsAlike_of_received (clientFd : ℤ) {input' : Bytes} {pos' : ℕ} (h : Received input pos e)
    (h' : Received input' pos' e) (hsup : Supported c) (hwhole : ¬ WholeSet c) (hr : Request c e)
    (hfit : Fits c) (hlen : input.length ≤ maxSize) (hlen' : input'.length ≤ maxSize) (st : Store) :
    RunsAlike host clientFd input pos input' pos' st := by
  cases hsup with
  | @other name args hname hargs =>
    have hiff := handled_iff_accepted host h hr hname hargs hfit hlen
    have hiff' := handled_iff_accepted host h' hr hname hargs hfit hlen'
    by_cases haccepted : Accepted host (name.map toUpper) (seen args)
    · obtain ⟨tr, st₁, hx, -⟩ :=
        exists_exec_other clientFd h' hr hname hfit hlen' (hiff'.mpr haccepted) st
      exact ⟨tr, _, st₁, tr, _, st₁, exec_relocate h h' hr hfit (zero_notMem_of_mem hname)
        (ne_set_of_mem hname) haccepted.1 hlen hlen' hx, hx, rfl, rfl⟩
    · exact runsAlike_of_not_handled clientFd (mt hiff.mp haccepted) (mt hiff'.mp haccepted) st
  | @set _ call hset =>
    obtain ⟨name, args, rfl⟩ : ∃ name args, c = name :: args := by
      cases hset <;> exact ⟨_, _, rfl⟩
    have hzero : (0 : UInt8) ∈ e := by
      rw [zero_mem_request_iff hr]
      by_contra hnone
      exact hwhole ⟨isSet_of_setCommand hset, fun s hs hmem => hnone ⟨s, hs, hmem⟩⟩
    by_cases helements : ∃ k v px, SetElements (args.length + 1) (seen args) k v px
    · obtain ⟨k, v, px, helements⟩ := helements
      obtain ⟨p, last, hcmd, hargs, hbeyond, -⟩ := h.exists_set host hset hr hfit hlen
      obtain ⟨p', last', hcmd', hargs', hbeyond', -⟩ := h'.exists_set host hset hr hfit hlen'
      obtain ⟨tr, r, st₁, hx, hm, hdb, -⟩ := exists_exec_beyond clientFd
        ⟨_, p, hcmd, (hargs k v px last).mpr ⟨helements, rfl⟩⟩ (hbeyond hzero) st
      obtain ⟨tr', r', st₁', hx', hm', hdb', -⟩ := exists_exec_beyond clientFd
        ⟨_, p', hcmd', (hargs' k v px last').mpr ⟨helements, rfl⟩⟩ (hbeyond' hzero) st
      exact ⟨tr, r, st₁, tr', r', st₁', hx, hx', hm.trans hm'.symm, hdb.trans hdb'.symm⟩
    · exact runsAlike_of_not_handled clientFd
        (mt (handled_iff_setElements host h hset hr hfit hlen).mp helements)
        (mt (handled_iff_setElements host h' hset hr hfit hlen').mp helements) st

/-- A received command in its own buffer is answered, or it throws at once. -/
theorem exists_handles_received (host : Host) (clientFd : ℤ) (hsup : Supported c) (hr : Request c e)
    (hfit : Fits c) (hlen : e.length ≤ maxSize) (st : Store) : ∃ tr r st',
    Handles host clientFd (recvStr e) st tr r st' ∧
      (Handled host (recvStr e) 0 → messages tr ≠ []) ∧
      (¬ Handled host (recvStr e) 0 → messages tr = [] ∧ st'.database = st.database ∧ r ≠ .ok ()) := by
  have hlen' : (recvStr e).length ≤ maxSize := (List.takeWhile_sublist _).length_le.trans hlen
  by_cases hhandled : Handled host (recvStr e) 0
  · cases hsup with
    | @other name args hname hargs =>
      obtain ⟨tr, st', hx, hm⟩ :=
        exists_exec_other clientFd (received_self e) hr hname hfit hlen' hhandled st
      exact ⟨tr, _, st', hx, fun _ => hm, fun hnot => absurd hhandled hnot⟩
    | @set _ call hset =>
      obtain ⟨name, args, rfl⟩ : ∃ name args, c = name :: args := by
        cases hset <;> exact ⟨_, _, rfl⟩
      by_cases hzero : (0 : UInt8) ∈ e
      · obtain ⟨p, last, hcmd, hargs, hbeyond, -⟩ :=
          (received_self e).exists_set host hset hr hfit hlen'
        obtain ⟨k, v, px, helements⟩ :=
          (handled_iff_setElements host (received_self e) hset hr hfit hlen').mp hhandled
        obtain ⟨tr, r, st', hx, hm, -⟩ := exists_exec_beyond clientFd
          ⟨_, p, hcmd, (hargs k v px last).mpr ⟨helements, rfl⟩⟩ (hbeyond hzero) st
        exact ⟨tr, r, st', hx, fun _ => by simp [hm], fun hnot => absurd hhandled hnot⟩
      · obtain ⟨tr, hx, hm⟩ := exists_handles_set host clientFd hset hr hfit hlen st
        rw [recvStr_eq_self hzero] at hhandled ⊢
        exact ⟨tr, _, _, hx, fun _ => by simp [hm], fun hnot => absurd hhandled hnot⟩
  · obtain ⟨tr, ex, st', hx, hm, hdb⟩ := exists_throws clientFd hhandled st
    exact ⟨tr, _, st', hx, fun h => absurd h hhandled, fun _ => ⟨hm, hdb, nofun⟩⟩

end Single

section Separate

variable {es : List Bytes} {tr tr' : List Op} {r r' : Except Exception Unit} {st₁ st₁' st' : Store}

/-- The first of several received requests is answered, or it throws at once. -/
def FirstAnswered (host : Host) (es : List Bytes) (st : Store) (tr : List Op)
    (r : Except Exception Unit) (st' : Store) : Prop :=
  match es with
  | [] => messages tr = [] ∧ st'.database = st.database ∧ r = .ok ()
  | e :: _ => (Handled host (recvStr e) 0 → messages tr ≠ []) ∧
    (¬ Handled host (recvStr e) 0 → messages tr = [] ∧ st'.database = st.database ∧ r ≠ .ok ())

theorem exists_handlesAll (host : Host) (clientFd : ℤ) {cmds : List (List Bytes)}
    (henc : List.Forall₂ Request cmds es) (hsup : ∀ c ∈ cmds, Supported c)
    (hfit : ∀ c ∈ cmds, Fits c) (hlen : ∀ e ∈ es, e.length ≤ maxSize) (st : Store) :
    ∃ tr r st', HandlesAll host clientFd (es.map recvStr) st tr r st' ∧
      FirstAnswered host es st tr r st' := by
  induction henc generalizing st with
  | nil => exact ⟨_, _, _, .nil, rfl, rfl, rfl⟩
  | @cons c e cs es hr henc ih =>
    obtain ⟨hc, hcs⟩ := List.forall_mem_cons.mp hsup
    obtain ⟨hfitc, hfits⟩ := List.forall_mem_cons.mp hfit
    obtain ⟨hlene, hlens⟩ := List.forall_mem_cons.mp hlen
    obtain ⟨tr, r, st₁, hx, hanswered, hthrows⟩ :=
      exists_handles_received host clientFd hc hr hfitc hlene st
    cases r with
    | error ex => exact ⟨tr, _, st₁, .throw hx, hanswered, hthrows⟩
    | ok =>
      obtain ⟨tr', r', st', hrest, -⟩ := ih hcs hfits hlens st₁
      refine ⟨_, r', st', .cons hx hrest, fun hhandled => ?_, fun hnot => ?_⟩
      · rw [messages_append]
        exact List.append_ne_nil_of_left_ne_nil (hanswered hhandled) _
      · exact absurd rfl (hthrows hnot).2.2

/-- A run that ends with one command is like the runs of several if no other follows, or the next
one throws at once. -/
theorem sameOutcome_append_iff (hm : messages tr = messages tr') (hdb : st₁.database = st₁'.database)
    {rest : List Op} (hfirst : FirstAnswered host es st₁' rest r' st') :
    SameOutcome tr r st₁ (tr' ++ rest) r' st' ↔
      (r = .ok () ∧ es = []) ∨ (r ≠ .ok () ∧ ∃ e ∈ es.head?, ¬ Handled host (recvStr e) 0) := by
  cases es with
  | nil =>
    obtain ⟨hnil, hdb', rfl⟩ := hfirst
    constructor
    · exact fun h => .inl ⟨h.ended.mpr rfl, rfl⟩
    · rintro (⟨hr, -⟩ | ⟨-, e, he, -⟩)
      · exact ⟨by rw [messages_append, hnil, List.append_nil, hm], iff_of_true hr rfl, hdb.trans hdb'.symm⟩
      · cases he
  | cons e es =>
    obtain ⟨hanswered, hthrows⟩ := hfirst
    by_cases hhandled : Handled host (recvStr e) 0
    · refine iff_of_false (fun h => hanswered hhandled ?_) ?_
      · have hmessages := h.messages
        rw [messages_append, hm, List.self_eq_append_right] at hmessages
        exact hmessages
      · rintro (⟨-, hnil⟩ | ⟨-, e', he', hnot⟩)
        · cases hnil
        · cases he'
          exact hnot hhandled
    · obtain ⟨hnil, hdb', hr'⟩ := hthrows hhandled
      constructor
      · exact fun h => .inr ⟨mt h.ended.mp hr', e, rfl, hhandled⟩
      · rintro (⟨-, hcons⟩ | ⟨hr, -⟩)
        · cases hcons
        · exact ⟨by rw [messages_append, hnil, List.append_nil, hm], iff_of_false hr hr',
            hdb.trans hdb'.symm⟩

end Separate

section Coalesced

variable {next : ℕ}

/-- A SET hands over to at most one command, and the chain from there ends as its own. -/
theorem stops_iff_of_next (h : Next host input pos next) :
    Stops host input pos ↔ Stops host input next := by
  have ⟨⟨k, v, px, hset⟩, hstar⟩ := h
  constructor
  · rintro ⟨p, hchain, hp⟩
    rcases Relation.ReflTransGen.cases_head hchain with rfl | ⟨q, ⟨⟨k', v', px', hset'⟩, -⟩, hrest⟩
    · obtain ⟨n, p', hcmd, hargs⟩ := hset
      exact absurd (.inr ⟨_, _, p', hcmd, arguments_set.mpr ⟨k, v, px, next, hargs⟩⟩) hp
    · obtain ⟨-, -, -, rfl⟩ := hset.unique hset'
      exact ⟨p, hrest, hp⟩
  · rintro ⟨p, hchain, hp⟩
    exact ⟨p, .head h hchain, hp⟩

theorem byteAt_of_received (host : Host) (h : Received input pos e) (hr : Request c e) :
    byteAt host input pos = byte '*' := by
  obtain ⟨more, hmore⟩ := hr.head
  have hat : Received input pos ([byte '*'] ++ more) := by
    rw [List.singleton_append, ← hmore]
    exact h
  exact byteAt_of_standsAt (hat.left.whole (by decide))

/-- The first request that is not a whole SET, in the buffer and on its own. -/
theorem endsAlike_iff (clientFd : ℤ) {cmds : List (List Bytes)} {es : List Bytes}
    (h : Received input pos e) (hsup : Supported c) (hwhole : ¬ WholeSet c) (hr : Request c e)
    (hfit : Fits c) (hlen : input.length ≤ maxSize) (hlene : e.length ≤ maxSize)
    (henc : List.Forall₂ Request cmds es) (hsups : ∀ c ∈ cmds, Supported c)
    (hfits : ∀ c ∈ cmds, Fits c) (hlens : ∀ e ∈ es, e.length ≤ maxSize)
    (hstops : Stops host input 0 ↔ Stops host input pos) (st : Store) : ∃ tr r st' tr' r' st'',
    Exec (parser host clientFd input) (parseRESPCommand host clientFd input pos) st tr r st' ∧
      HandlesAll host clientFd ((e :: es).map recvStr) st tr' r' st'' ∧
      (SameOutcome tr r st' tr' r' st'' ↔ EndsAlike host input e es) := by
  have hlen' : (recvStr e).length ≤ maxSize := (List.takeWhile_sublist _).length_le.trans hlene
  obtain ⟨tr, r, st₁, tr', r', st₁', hx, hx', hm, hdb⟩ :=
    runsAlike_of_received clientFd h (received_self e) hsup hwhole hr hfit hlen hlen' st
  have hok : r = .ok () ↔ ¬ Stops host input 0 := by rw [hstops, ok_iff_not_stops hx]
  have hok' := ok_iff_not_stops hx'
  cases r' with
  | error ex =>
    refine ⟨tr, r, st₁, tr', _, st₁', hx, .throw hx', ?_⟩
    have hstops' : Stops host (recvStr e) 0 := not_not.mp (mt hok'.mpr nofun)
    constructor
    · intro hsame
      have hended : ¬ r = .ok () := mt hsame.ended.mp nofun
      exact .inr ⟨not_not.mp (mt hok.mpr hended), .inl hstops'⟩
    · rintro (⟨-, hnot, -⟩ | ⟨hinput, -⟩)
      · exact absurd hstops' hnot
      · exact ⟨hm, iff_of_false (fun hr => hok.mp hr hinput) nofun, hdb⟩
  | ok =>
    obtain ⟨rest, r'', st'', hrest, hfirst⟩ := exists_handlesAll host clientFd henc hsups hfits hlens st₁'
    refine ⟨tr, r, st₁, tr' ++ rest, r'', st'', hx, .cons hx' hrest, ?_⟩
    have hnot : ¬ Stops host (recvStr e) 0 := hok'.mp rfl
    have hthrows : r ≠ .ok () ↔ Stops host input 0 := by rw [ne_eq, hok, not_not]
    rw [sameOutcome_append_iff hm hdb hfirst, EndsAlike, hthrows, hok]
    simp only [hnot, not_false_eq_true, true_and, false_or]

/-- The run at a position of the buffer from which on received requests stand to its end, and the
run on the same requests one at a time. -/
theorem continues_as_separate_iff (host : Host) (clientFd : ℤ) {cmds : List (List Bytes)}
    {es : List Bytes} (henc : List.Forall₂ Request cmds es) (hsup : ∀ c ∈ cmds, Supported c)
    (hfit : ∀ c ∈ cmds, Fits c) (hlen : input.length ≤ maxSize) (hlens : ∀ e ∈ es, e.length ≤ maxSize)
    {pos : ℕ} (h : Received input pos es.flatten) (hend : pos + (recvStr es.flatten).length = input.length)
    (hstops : es ≠ [] → (Stops host input 0 ↔ Stops host input pos)) (st : Store) :
    ∃ tr r st' tr' r' st'', Continues host clientFd input pos st tr r st' ∧
      HandlesAll host clientFd (es.map recvStr) st tr' r' st'' ∧
      (SameOutcome tr r st' tr' r' st'' ↔ Continued host input cmds es) := by
  induction henc generalizing pos st with
  | nil =>
    have hnil : recvStr ([] : List Bytes).flatten = [] := rfl
    rw [hnil, List.length_nil, Nat.add_zero] at hend
    exact ⟨_, _, _, _, _, _, (continues_iff_eq (byteAt_end hend)).mpr ⟨rfl, rfl, rfl⟩, .nil,
      iff_of_true ⟨rfl, .rfl, rfl⟩ trivial⟩
  | @cons c e cs es hr henc ih =>
    obtain ⟨hc, hcs⟩ := List.forall_mem_cons.mp hsup
    obtain ⟨hfitc, hfits⟩ := List.forall_mem_cons.mp hfit
    obtain ⟨hlene, hlenes⟩ := List.forall_mem_cons.mp hlens
    rw [List.flatten_cons] at h hend
    have hhere := hstops (List.cons_ne_nil _ _)
    by_cases hwhole : WholeSet c
    · obtain ⟨call, hset⟩ : ∃ call, SetCommand c call := by
        cases hc with
        | set hset => exact ⟨_, hset⟩
        | other hname => exact absurd (of_decide_eq_true hwhole.1) (ne_set_of_mem hname)
      have hzero : (0 : UInt8) ∉ e := by
        rw [zero_mem_request_iff hr]
        rintro ⟨s, hs, hmem⟩
        exact hwhole.2 s hs hmem
      have hat := h.left.whole hzero
      have hrest := h.right hzero
      have hend' : pos + e.length + (recvStr es.flatten).length = input.length := by
        rw [recvStr_append hzero, List.length_append] at hend
        omega
      have hstops' : es ≠ [] → (Stops host input 0 ↔ Stops host input (pos + e.length)) := by
        intro hne
        cases henc with
        | nil => exact absurd rfl hne
        | cons hr' _ =>
          have hSET := setAt_of_setCommand host hset hr hfitc hlen hat
          rw [List.flatten_cons] at hrest
          rw [hhere, stops_iff_of_next ⟨⟨_, _, _, hSET⟩, byteAt_of_received host hrest.left hr'⟩]
      obtain ⟨tr, r, st', tr', r', st'', hx, hseparate, hiff⟩ :=
        ih hcs hfits hlenes hrest hend' hstops' (afterSets host [call] st)
      obtain ⟨tr₁, htrace, hx₁⟩ := continues_sets (.single hr) (.cons hset .nil) (by simpa using hfitc)
        hlen hat hx
      obtain ⟨tr₂, hx₂, hm₂⟩ := exists_handles_set host clientFd hset hr hfitc hlene st
      have hm₁ : messages tr₁ = okResponse :: messages tr := by simpa using htrace.messages
      rw [← recvStr_eq_self hzero] at hx₂
      refine ⟨tr₁, r, st', tr₂ ++ tr', r', st'', hx₁, .cons hx₂ hseparate, ?_⟩
      rw [Continued, if_pos hwhole, ← hiff]
      constructor
      · rintro ⟨hm, hended, hdb⟩
        exact ⟨by simpa [hm₁, hm₂] using hm, hended, hdb⟩
      · rintro ⟨hm, hended, hdb⟩
        exact ⟨by simp [hm₁, hm₂, hm], hended, hdb⟩
    · have hstar := byteAt_of_received host h.left hr
      obtain ⟨tr, r, st', tr', r', st'', hx, hall, hiff⟩ := endsAlike_iff clientFd h.left hc hwhole hr
        hfitc hlen hlene henc hcs hfits hlenes hhere st
      refine ⟨tr, r, st', tr', r', st'', (continues_iff_exec hstar).mpr hx, hall, ?_⟩
      rw [hiff, Continued, if_neg hwhole]

end Coalesced

/-- Requests that arrive in one buffer are handled as they are one at a time if and only if nothing
stands behind the first one that is not a whole SET, or the process ends there both times. -/
theorem coalesced_as_separate_iff (host : Host) (clientFd : ℤ) {cmds : List (List Bytes)}
    {es : List Bytes} (henc : List.Forall₂ Request cmds es) (hsup : ∀ c ∈ cmds, Supported c)
    (hfit : ∀ c ∈ cmds, Fits c) (hlen : es.flatten.length ≤ maxSize) (hne : cmds ≠ []) (st : Store) :
    ∃ tr r st' tr' r' st'', Handles host clientFd (recvStr es.flatten) st tr r st' ∧
      HandlesAll host clientFd (es.map recvStr) st tr' r' st'' ∧
      (SameOutcome tr r st' tr' r' st'' ↔ Continued host (recvStr es.flatten) cmds es) := by
  have hlen' : (recvStr es.flatten).length ≤ maxSize := (List.takeWhile_sublist _).length_le.trans hlen
  have hlens : ∀ e ∈ es, e.length ≤ maxSize := fun e he =>
    (List.sublist_flatten_of_mem he).length_le.trans hlen
  have hreceived := received_self es.flatten
  obtain ⟨tr, r, st', tr', r', st'', hx, hall, hiff⟩ := continues_as_separate_iff host clientFd henc
    hsup hfit hlen' hlens hreceived (Nat.zero_add _) (fun _ => .rfl) st
  have hstar : byteAt host (recvStr es.flatten) 0 = byte '*' := by
    cases henc with
    | nil => exact absurd rfl hne
    | cons hr _ => exact byteAt_of_received host hreceived.left hr
  exact ⟨tr, r, st', tr', r', st'', (continues_iff_exec hstar).mp hx, hall, hiff⟩

/-- A SET and a GET in one buffer. -/
theorem coalesced_as_separate_iff_of_set_get :
    ∃ tr r st' tr' r' st'', Handles .plain 5
        (recvStr [createArrayReponse [str "SET", str "a", str "1"],
          createArrayReponse [str "GET", str "a"]].flatten) (.empty []) tr r st' ∧
      HandlesAll .plain 5 ([createArrayReponse [str "SET", str "a", str "1"],
        createArrayReponse [str "GET", str "a"]].map recvStr) (.empty []) tr' r' st'' ∧
      (SameOutcome tr r st' tr' r' st'' ↔ Continued .plain
        (recvStr [createArrayReponse [str "SET", str "a", str "1"],
          createArrayReponse [str "GET", str "a"]].flatten)
        [[str "SET", str "a", str "1"], [str "GET", str "a"]]
        [createArrayReponse [str "SET", str "a", str "1"], createArrayReponse [str "GET", str "a"]]) :=
  coalesced_as_separate_iff .plain 5
    (.cons (createArrayReponse_request _) (.cons (createArrayReponse_request _) .nil))
    (List.forall_mem_cons.mpr ⟨.set (.plain (by decide)), List.forall_mem_cons.mpr
      ⟨.other (by decide) ⟨fun _ => by decide, fun h => absurd h (by decide)⟩,
        List.forall_mem_nil _⟩⟩)
    (List.forall_mem_cons.mpr ⟨⟨by decide, by decide⟩, List.forall_mem_cons.mpr
      ⟨⟨by decide, by decide⟩, List.forall_mem_nil _⟩⟩) (by decide) (by simp) _

/-- The second of two PINGs in one buffer is not answered. -/
theorem second_ping_ignored :
    ∃ tr st' tr' st'', Handles .plain 5 (recvStr (createArrayReponse [str "PING"] ++
        createArrayReponse [str "PING"])) (.empty []) tr (.ok ()) st' ∧
      HandlesAll .plain 5 ([createArrayReponse [str "PING"], createArrayReponse [str "PING"]].map recvStr)
        (.empty []) tr' (.ok ()) st'' ∧
      messages tr = [pingResponse] ∧ messages tr' = [pingResponse, pingResponse] := by
  have hping : Handles .plain 5 (recvStr (createArrayReponse [str "PING"])) (.empty [])
      [.awaitCommunicationLoop, .enqueueMessage pingResponse, .communicationOver] (.ok ())
      (.empty []) := Machine.eval_sound (n := 1) rfl
  have hpings : Handles .plain 5 (recvStr (createArrayReponse [str "PING"] ++
      createArrayReponse [str "PING"])) (.empty [])
      [.awaitCommunicationLoop, .enqueueMessage pingResponse, .communicationOver] (.ok ())
      (.empty []) := Machine.eval_sound (n := 1) rfl
  exact ⟨_, _, _, _, hpings, .cons hping (.cons hping .nil), rfl, rfl⟩

end RedisServer.CoalescedRequests
