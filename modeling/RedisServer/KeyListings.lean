import RedisServer.KeysPatterns
import RedisServer.Linearization
import RedisServer.ReplyDiscipline

/-!
# What KEYS lists while clients write

KEYS looks at no expiry time, and an entry whose time has come is only erased when a GET finds it.
So the reply to KEYS depends on the GETs of all clients: it lists the keys whose last SET no GET
has found expired since.
-/

namespace RedisServer.KeyListings
open ByteStrings EcmaScriptPatterns InteractionPrograms ServerState Utils RedisParser
open ParserDiscipline ReplyDiscipline RequestChain RequestRuns RequestDecoding LazyExpiry
open KeysPatterns SetPipelines ResponseExchange ServedRequests WorkerPool Linearization

/-- A history, the latest call first, leaves the entry `v` for `k`: it is that of the last SET of
`k`, and no GET has found it expired since. -/
def Kept (past : List (ℤ × Call)) (k : Bytes) (v : DBValue) : Prop :=
  ∃ later t earlier, past = later ++ (t, .set k v.value v.expiryTime) :: earlier ∧
    (∀ c ∈ later, ∀ value e, c.2 ≠ .set k value e) ∧
    ∀ c ∈ later, c.2 = .get k → entryLifetime.alive v c.1

/-- The database holds what the history leaves. -/
def Keeps (st : Store) (past : List (ℤ × Call)) : Prop :=
  ∀ k v, st.database.lookup k = some v ↔ Kept past k v

/-- The pattern stands for the key: a last `*` stands for anything on one line. -/
def StandsFor (start : Bytes) (last : UInt8) (k : Bytes) : Prop :=
  if last = byte '*' then ∃ s, k = start ++ s ∧ ∀ c ∈ s, ¬ IsLineTerminator c
  else k = start ++ [last]

/-! ### Histories -/

section Histories

variable {past : List (ℤ × Call)} {c : ℤ × Call} {t e : ℤ} {k k' value : Bytes} {v : DBValue}

theorem not_kept_nil : ¬ Kept [] k v := by
  rintro ⟨later, t, earlier, hpast, -⟩
  exact absurd hpast.symm (by simp)

theorem kept_set_iff : Kept ((t, .set k value e) :: past) k v ↔ v = ⟨value, e⟩ := by
  constructor
  · rintro ⟨later, t', earlier, hpast, hset, -⟩
    cases later with
    | nil =>
      cases hpast
      rfl
    | cons c later =>
      obtain ⟨rfl, -⟩ := List.cons.inj hpast
      exact absurd rfl (hset _ List.mem_cons_self value e)
  · rintro rfl
    exact ⟨[], t, past, rfl, nofun, nofun⟩

/-- What is kept beyond a call that does not write the key. -/
theorem kept_cons_iff (hc : ∀ value e, c.2 ≠ .set k value e) :
    Kept (c :: past) k v ↔ Kept past k v ∧ (c.2 = .get k → entryLifetime.alive v c.1) := by
  constructor
  · rintro ⟨later, t', earlier, hpast, hset, hget⟩
    cases later with
    | nil =>
      obtain ⟨rfl, -⟩ := List.cons.inj hpast
      exact absurd rfl (hc _ _)
    | cons c' later =>
      obtain ⟨rfl, rfl⟩ := List.cons.inj hpast
      obtain ⟨-, hset⟩ := List.forall_mem_cons.mp hset
      obtain ⟨hfirst, hget⟩ := List.forall_mem_cons.mp hget
      exact ⟨⟨later, t', earlier, rfl, hset, hget⟩, hfirst⟩
  · rintro ⟨⟨later, t', earlier, rfl, hset, hget⟩, hfirst⟩
    exact ⟨c :: later, t', earlier, rfl, List.forall_mem_cons.mpr ⟨hc, hset⟩,
      List.forall_mem_cons.mpr ⟨hfirst, hget⟩⟩

theorem kept_set_of_ne (hk : k ≠ k') : Kept ((t, .set k' value e) :: past) k v ↔ Kept past k v := by
  rw [kept_cons_iff (by rintro _ _ ⟨⟩; exact hk rfl)]
  exact and_iff_left fun h => by cases h

theorem kept_get_iff : Kept ((t, .get k') :: past) k v ↔
    Kept past k v ∧ (k' = k → entryLifetime.alive v t) := by
  rw [kept_cons_iff (by rintro _ _ ⟨⟩), Call.get.injEq]

theorem kept_iff_of_sets (h : ∀ c ∈ past, isSet c = true) :
    Kept past k v ↔ lastSet past k = some v := by
  induction past with
  | nil => exact iff_of_false not_kept_nil nofun
  | cons c past ih =>
    obtain ⟨hc, hpast⟩ := List.forall_mem_cons.mp h
    obtain ⟨t, call⟩ := c
    cases call with
    | get k' => cases hc
    | set k' value e =>
      by_cases hk : k = k'
      · subst hk
        rw [kept_set_iff, lastSet, if_pos rfl, Option.some_inj, eq_comm]
      · rw [kept_set_of_ne hk, ih hpast, lastSet, if_neg hk]

end Histories

/-! ### One request -/

section Requests

variable {host : Host} {task : Task} {cmd : Command} {past : List (ℤ × Call)} {st st' : Store}
  {allowed : Exchange → Move → Prop} {x : Exchange} {acts : List Action}

theorem keeps_afterSet (call : SetCall) (h : Keeps st past) :
    Keeps (afterSet host call.key call.value call.px st)
      ((Command.set call).after (host.clock st.ticks) past) := by
  intro k v
  change (st.database.insert _ _).lookup k = some v ↔ _
  rw [expiryTime_eq_entryAt, Command.after]
  by_cases hk : k = call.key
  · subst hk
    rw [Finmap.lookup_insert, kept_set_iff, Option.some_inj, eq_comm]
  · rw [Finmap.lookup_insert_of_ne _ hk, h, kept_set_of_ne hk]

/-- GET erases an entry that it finds expired, and nothing else. -/
theorem exec_databaseGet_keeps (h : Keeps st past) (clientFd : ℤ) (input k : Bytes) :
    ∃ tr response st', Exec (parser host clientFd input) (databaseGet k) st tr (.ok response) st' ∧
      messages tr = [] ∧ Keeps st' ((host.clock st.ticks, .get k) :: past) := by
  -- the entries of other keys, and an entry that is alive, are those of before
  have hkept (halive : ∀ v, st.database.lookup k = some v → entryLifetime.alive v (host.clock st.ticks)) :
      Keeps st ((host.clock st.ticks, .get k) :: past) := by
    intro k' v
    rw [kept_get_iff, ← h]
    refine (and_iff_left_of_imp fun hv hk => ?_).symm
    subst hk
    exact halive v hv
  cases hfind : st.database.lookup k with
  | none =>
    refine ⟨_, _, st, exec_databaseGet_missing hfind, rfl, hkept fun v hv => ?_⟩
    rw [hfind] at hv
    cases hv
  | some v =>
    have hsame {v' : DBValue} (hv' : st.database.lookup k = some v') : v = v' :=
      Option.some.inj (hfind.symm.trans hv')
    by_cases hv : v.expiryTime = 0
    · exact ⟨_, _, st, exec_databaseGet_persistent hfind hv, rfl,
        hkept fun v' hv' => hsame hv' ▸ .inl hv⟩
    · by_cases hlive : host.clock st.ticks < v.expiryTime
      · exact ⟨_, _, st.tick, exec_databaseGet_live hfind hv hlive, rfl,
          hkept fun v' hv' => hsame hv' ▸ .inr hlive⟩
      · refine ⟨_, _, _, exec_databaseGet_expired hfind hv (not_lt.mp hlive), rfl, fun k' v' => ?_⟩
        rw [Store.database_setDatabase, kept_get_iff, ← h]
        by_cases hk : k' = k
        · subst hk
          rw [Finmap.lookup_erase]
          refine iff_of_false nofun fun ⟨hv', halive⟩ => ?_
          rw [← hsame hv'] at halive
          exact (halive rfl).elim hv hlive
        · rw [Finmap.lookup_erase_ne hk]
          exact (and_iff_left fun hget => absurd hget.symm hk).symm

/-- After a complete session the database holds what the longer history leaves. -/
theorem Keeps.session (h : Keeps st past) (henc : Encodes host task cmd)
    (hrun : RequestRun host task.clientFd task.recvStr st allowed ⟨x, st', acts⟩)
    (hdone : x.handlerPc = .done) : Keeps st' (cmd.after (host.clock st.ticks) past) := by
  cases cmd with
  | set call =>
    obtain ⟨tr, hx, -⟩ := handles_set henc st
    obtain ⟨-, -, rfl⟩ := operations_of_done hrun hdone hx
    exact keeps_afterSet call h
  | get k =>
    cases henc with
    | get hname hc hlen =>
      obtain ⟨tr, response, w, hget, hm, hkeeps⟩ :=
        @exec_databaseGet_keeps host past st h task.clientFd task.recvStr k
      obtain ⟨tr', hx, -⟩ := ValueRoundTrip.handles_get hname hc (RequestDecoding.Request.fits hc hlen)
        (le_maxSize_of_le_intMax hlen) hget hm
      obtain ⟨-, -, rfl⟩ := operations_of_done hrun hdone hx
      exact hkeeps
  | other =>
    obtain ⟨tr, w, hx, hdb⟩ := handles_other_database henc st
    obtain ⟨-, -, rfl⟩ := operations_of_done hrun hdone hx
    intro k v
    rw [hdb]
    exact h k v

end Requests

/-- KEYS lists, each once, the keys of the database that its pattern stands for. -/
theorem handles_keys_standsFor {host : Host} {clientFd : ℤ} {b start : Bytes} {last : UInt8} {st : Store}
    (hb : CommandWith (str "KEYS") (start ++ [last]) b)
    (hregex : FollowsEcmaScript host.regex (libraryPattern start last))
    (hliteral : ∀ c ∈ literal start last, ¬ IsSyntax c) : ∃ keys tr,
      Handles host clientFd b st tr (.ok ()) st ∧ messages tr = [createArrayReponse keys] ∧
      keys.Nodup ∧ ∀ k, k ∈ keys ↔ StandsFor start last k ∧ k ∈ st.database := by
  obtain ⟨d, hregex⟩ := hregex
  obtain ⟨test, htest, hiff⟩ := exists_test hregex fun c hc => .inl (hliteral c hc)
  obtain ⟨tr, hx, hm⟩ := @handles_keys host clientFd b _ st test hb
    ((congrArg host.regex (keysRegex_eq host hb.length_le)).trans htest)
  refine ⟨_, tr, hx, hm, (nodup_iterate host _).filter _, fun k => ?_⟩
  rw [List.mem_filter, mem_iterate, hiff k, and_comm]
  rfl

/-! ### Whole runs -/

section Runs

variable {ι κ : Type} {host : Host} {allowed : Exchange → Move → Prop} {timeouts : Bool}
  {cmd : Task → Command} {loaded : List (ℤ × Call)} {st st' : Store} {tasks : List Task}
  {log log' : List (Task × Action)} {s : Pool ι κ}

/-- The commands of the tasks, each at the reading of the clock that is next when its session
begins. -/
def timed (host : Host) (st : Store) (log : List (Task × Action)) (cmd : Task → Command)
    (tasks : List Task) : List (ℤ × Command) :=
  tasks.map fun task => (host.clock (st.ticks + readingsBefore log task), cmd task)

theorem timed_append (h : ∀ e ∈ log', ∀ t ∈ tasks, t.ticket ≤ e.1.ticket) :
    timed host st (log ++ log') cmd tasks = timed host st log cmd tasks := by
  apply List.map_congr_left
  intro t ht
  rw [readingsBefore_append fun e he => h e he t ht]

theorem Keeps.sessions (hload : Keeps st loaded) (h : Sessions host allowed st tasks log st')
    (htickets : tasks.Pairwise (·.ticket < ·.ticket)) (henc : ∀ t ∈ tasks, Encodes host t (cmd t)) :
    st'.ticks = st.ticks + log.countP (fun e => e.2 = .op .getCurrentTimeMilli) ∧
      Keeps st' (historyAfter loaded (timed host st log cmd tasks)) := by
  induction h with
  | nil => exact ⟨rfl, hload⟩
  | @snoc tasks log st₁ task x l st₂ hbefore run hdone ih =>
    obtain ⟨htbefore, -, hcross⟩ := List.pairwise_append.mp htickets
    have hlater : ∀ t ∈ tasks, t.ticket < task.ticket := fun t ht => hcross t ht task List.mem_cons_self
    obtain ⟨hticks, hkeeps⟩ := ih htbefore fun t ht => henc t (List.mem_append_left _ ht)
    have hlog : ∀ e ∈ log, e.1.ticket < task.ticket := fun e he =>
      hlater _ ((hbefore.log_ordered htbefore).1 e he)
    have hsession : ∀ e ∈ l.map (Prod.mk task), e.1.ticket = task.ticket := by
      intro e he
      obtain ⟨a, -, rfl⟩ := List.mem_map.mp he
      rfl
    have hreading : st.ticks + readingsBefore (log ++ l.map (Prod.mk task)) task = st₁.ticks := by
      rw [readingsBefore_append_of_le le_rfl, readingsBefore_of_lt hlog, ← hticks]
    have hsplit : timed host st (log ++ l.map (Prod.mk task)) cmd (tasks ++ [task])
        = timed host st log cmd tasks ++ [(host.clock st₁.ticks, cmd task)] := by
      rw [timed, List.map_append, List.map_singleton, hreading]
      congr 1
      exact timed_append fun e he t ht => (hsession e he) ▸ (hlater t ht).le
    constructor
    · rw [ticks_of_reaches run.reaches, hticks, List.countP_append, countP_session, Nat.add_assoc]
    · rw [hsplit, historyAfter_snoc]
      exact hkeeps.session (henc task (by simp)) run hdone

variable [DecidableEq ι] [DecidableEq κ] {clientFd : κ → ℤ}

/-- Under any schedule, KEYS lists for each client exactly the keys that its pattern stands for and
that are still kept: those loaded or set by an earlier request of any client, unless an earlier GET
has found their last value expired. Each is listed once. -/
theorem keys_listed (h : PoolRun host clientFd (Undisturbed timeouts) st s)
    (henc : ∀ task ∈ s.finished, Encodes host task (cmd task)) :
    ∃ loaded, (∀ c ∈ loaded, isSet c = true) ∧ (∀ k, lastSet loaded k = st.database.lookup k) ∧
      (s.Idle → Keeps s.store (historyAfter loaded (timed host st s.log cmd s.finished))) ∧
      ∀ before task after start last, s.finished = before ++ task :: after →
        CommandWith (str "KEYS") (start ++ [last]) task.recvStr →
        FollowsEcmaScript host.regex (libraryPattern start last) →
        (∀ c ∈ literal start last, ¬ IsSyntax c) →
        ∃ keys, written s.log task = [createArrayReponse keys] ∧ keys.Nodup ∧ ∀ k, k ∈ keys ↔
          StandsFor start last k ∧
            ∃ v, Kept (historyAfter loaded (timed host st s.log cmd before)) k v := by
  obtain ⟨calls, hcalls⟩ := exists_loaded st.database
  have hsets : ∀ c ∈ calls.filter isSet, isSet c = true := fun c hc => (List.mem_filter.mp hc).2
  have hlast : ∀ k, lastSet (calls.filter isSet) k = st.database.lookup k := fun k => by
    rw [lastSet_filter_isSet, hcalls]
  have hload : Keeps st (calls.filter isSet) := fun k v => by rw [kept_iff_of_sets hsets, hlast]
  have hordered := h.invariant.enqueued_ordered.sublist h.invariant.finished_prefix.sublist
  refine ⟨calls.filter isSet, hsets, hlast, fun hidle => ?_, ?_⟩
  · exact (hload.sessions (h.invariant.idle hidle).2 hordered henc).2
  · intro before task after start last hfinished hb hregex hliteral
    obtain ⟨log₁, st₁, x, st₂, l, log₂, hsessions, run, hdone, hlog, hearlier, hlater⟩ :=
      h.invariant.exists_session hfinished
    rw [hfinished] at hordered henc
    obtain ⟨hbefore, -, hcross⟩ := List.pairwise_append.mp hordered
    obtain ⟨-, hkeeps⟩ :=
      hload.sessions hsessions hbefore fun t ht => henc t (List.mem_append_left _ ht)
    obtain ⟨keys, tr, hx, hm, hnodup, hkeys⟩ :=
      @handles_keys_standsFor host task.clientFd task.recvStr start last st₁ hb hregex hliteral
    obtain ⟨hwrites, -⟩ := writes_of_singleton run hdone hx hm
    refine ⟨keys, ?_, hnodup, fun k => ?_⟩
    · rw [hlog, ← hwrites]
      exact written_of_session hearlier hlater
    · have hsame : timed host st s.log cmd before = timed host st log₁ cmd before := by
        rw [hlog]
        refine timed_append fun e he t ht => ?_
        have ht := hcross t ht task List.mem_cons_self
        rcases List.mem_append.mp he with he | he
        · obtain ⟨a, -, rfl⟩ := List.mem_map.mp he
          exact ht.le
        · exact (ht.trans (hlater e he)).le
      rw [hkeys, hsame]
      refine and_congr_right fun _ => ?_
      rw [Finmap.mem_iff]
      exact exists_congr fun v => hkeeps k v

end Runs

def keysTask : Task := ⟨0, 5, createArrayReponse [str "KEYS", str "*"]⟩

/-- A server whose database holds one value, whose time has come. -/
def dueStore : Store := { loadedStore with ticks := 5 }

/-- One client, one worker and a KEYS, up to its end. -/
theorem keys_listed_at_due : ∃ (s : Pool Unit Unit) (keys : List Bytes), s.AtRest ∧
    s.finished = [keysTask] ∧ written s.log keysTask = [createArrayReponse keys] ∧ keys.Nodup ∧
    str "k" ∈ keys := by
  have hb : CommandWith (str "KEYS") ([] ++ [byte '*']) keysTask.recvStr :=
    ⟨str "KEYS", by decide, createArrayReponse_request _, by decide, by decide, by decide⟩
  have hregex := @followsEcmaScript_prefixHost [] (by simp)
  have hliteral : ∀ c ∈ literal [] (byte '*'), ¬ IsSyntax c := by simp [literal]
  obtain ⟨keys, tr, hx, hm, -⟩ :=
    @handles_keys_standsFor (prefixHost []) 5 keysTask.recvStr [] (byte '*') dueStore hb hregex hliteral
  have hover : Op.communicationOver ∈ tr := concludes_parseRESPCommand _ _ _ _ _ _ _ _ hx
  obtain ⟨l, hserved, -⟩ := exists_served_of_one hx hm hover
  have hstart : PoolRun (prefixHost []) (fun _ => 5) (Undisturbed true) dueStore (Pool.start dueStore : Pool Unit Unit) :=
    .start
  obtain ⟨s, hrun, hrest, -, (hfinished : s.finished = [keysTask]), -⟩ :=
    exists_finished_of_served hstart (atRest_start _) () () hserved
  have hthrows : ∀ st tr e st', ¬ Handles (prefixHost []) 5 keysTask.recvStr st tr (.error e) st' := by
    intro st tr e st' herr
    obtain ⟨keys, tr', hx, -⟩ :=
      @handles_keys_standsFor (prefixHost []) 5 keysTask.recvStr [] (byte '*') st hb hregex hliteral
    obtain ⟨-, hok, -⟩ := hx.deterministic herr
    cases hok
  have hsingle : Encodes (prefixHost []) keysTask .other :=
    @Encodes.other (prefixHost []) keysTask (str "KEYS")
      ⟨⟨_, _, createArrayReponse_request _, by decide⟩, by decide, hthrows⟩ (by decide) (by decide)
  have henc : ∀ task ∈ s.finished, Encodes (prefixHost []) task (Function.const Task .other task) := by
    rw [hfinished]
    intro task htask
    rw [List.mem_singleton.mp htask]
    exact hsingle
  obtain ⟨loaded, hsets, hload, -, hlists⟩ := keys_listed hrun henc
  obtain ⟨keys, hwritten, hnodup, hkeys⟩ :=
    hlists [] keysTask [] [] (byte '*') hfinished hb hregex hliteral
  refine ⟨s, keys, hrest, hfinished, hwritten, hnodup, (hkeys _).mpr ⟨?_, ⟨str "v", 3⟩, ?_⟩⟩
  · rw [StandsFor, if_pos rfl]
    exact ⟨str "k", rfl, forall_mem_of_all (by decide)⟩
  · exact (kept_iff_of_sets hsets).mpr ((hload _).trans Finmap.lookup_singleton_eq)

end RedisServer.KeyListings
