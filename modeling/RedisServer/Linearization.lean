import RedisServer.LazyExpiry
import RedisServer.PoolHistories
import RedisServer.SingleCommands
import RedisServer.ValueRoundTrip

/-!
# The server as one store whose values expire

Requests of all clients take effect one after another, in the order in which they were
enqueued, each at a reading of the clock. The replies are those of a store that is only
written by SET, forgets nothing, and shows a value as long as it is alive.
-/

namespace RedisServer.Linearization
open ByteStrings CxxStrings RespGrammar InteractionPrograms ServerState Utils RedisParser
open ParserDiscipline RequestChain RequestRuns RequestDecoding CommandEffects CommandRuns
open SingleCommands SetPipelines ExpiringMaps LazyExpiry ValueRoundTrip ResponseExchange
open ServedRequests WorkerPool

/-- What a request asks of the store. -/
inductive Command where
  | set (call : SetCall)
  | get (key : Bytes)
  | other

/-- The buffer of the task is one command. A command other than SET and GET may be any that
throws nothing. -/
inductive Encodes (host : Host) (task : Task) : Command → Prop where
  | set {c : List Bytes} {call : SetCall} (hset : SetCommand c call) (hc : Request c task.recvStr)
      (hlen : task.recvStr.length ≤ intMax) : Encodes host task (.set call)
  | get {name k : Bytes} (hname : name.map toUpper = str "GET")
      (hc : Request [name, k] task.recvStr) (hlen : task.recvStr.length ≤ intMax) :
      Encodes host task (.get k)
  | other {name : Bytes} (hb : SingleCommand host task.clientFd name task.recvStr)
      (hset : name ≠ str "SET") (hget : name ≠ str "GET") : Encodes host task .other

/-- The history, the latest call first, after a command at time `t`. -/
def Command.after (t : ℤ) (past : List (ℤ × Call)) : Command → List (ℤ × Call)
  | .set call => (t, .set call.key call.value (SetCall.entryAt t call).2.expiryTime) :: past
  | .get k => (t, .get k) :: past
  | .other => past

/-- The history after commands at their times. -/
def historyAfter (past : List (ℤ × Call)) (timed : List (ℤ × Command)) : List (ℤ × Call) :=
  timed.foldl (fun past c => c.2.after c.1 past) past

/-- How the store answers commands at their times, one after another. -/
inductive Answers : List (ℤ × Call) → List (ℤ × Command) → List (List Bytes) → Prop where
  | nil (past : List (ℤ × Call)) : Answers past [] []
  | set {past t call timed replies} (rest : Answers ((Command.set call).after t past) timed replies) :
      Answers past ((t, .set call) :: timed) ([okResponse] :: replies)
  | get {past t k timed replies} (rest : Answers ((Command.get k).after t past) timed replies) :
      Answers past ((t, .get k) :: timed) ([getReply (answer past k t)] :: replies)
  | other {past t timed w replies} (rest : Answers past timed replies) :
      Answers past ((t, .other) :: timed) (w :: replies)

section Answers

variable {past : List (ℤ × Call)} {timed : List (ℤ × Command)} {replies : List (List Bytes)}
  {c : ℤ × Command} {w : List Bytes}

theorem Answers.snoc (h : Answers past timed replies)
    (hc : Answers (historyAfter past timed) [c] [w]) :
    Answers past (timed ++ [c]) (replies ++ [w]) := by
  induction h with
  | nil past => exact hc
  | set _ ih => exact .set (ih hc)
  | get _ ih => exact .get (ih hc)
  | other _ ih => exact .other (ih hc)

theorem historyAfter_snoc :
    historyAfter past (timed ++ [c]) = c.2.after c.1 (historyAfter past timed) := by
  simp [historyAfter]

end Answers

/-- What a log shows written to the client of a task. -/
def written (log : List (Task × Action)) (task : Task) : List Bytes :=
  writes ((log.filter fun e => e.1 = task).map Prod.snd)

section Written

variable {log : List (Task × Action)} {task task' : Task} {acts : List Action}

theorem written_append_of_ne (h : task' ≠ task) :
    written (log ++ acts.map (Prod.mk task')) task = written log task := by
  have hnone : (acts.map (Prod.mk task')).filter (fun e => e.1 = task) = [] := by
    rw [List.filter_eq_nil_iff]
    intro e he
    obtain ⟨a, -, rfl⟩ := List.mem_map.mp he
    simpa using h
  rw [written, List.filter_append, hnone, List.append_nil, written]

theorem written_append_of_notMem (h : ∀ e ∈ log, e.1 ≠ task) :
    written (log ++ acts.map (Prod.mk task)) task = writes acts := by
  have hlog : log.filter (fun e => e.1 = task) = [] := by
    rw [List.filter_eq_nil_iff]
    simpa using h
  have hacts : (acts.map (Prod.mk task)).filter (fun e => e.1 = task) = acts.map (Prod.mk task) := by
    rw [List.filter_eq_self]
    simp
  rw [written, List.filter_append, hlog, hacts, List.nil_append, List.map_map]
  congr 1
  exact List.map_id acts

theorem written_of_session {log' : List (Task × Action)} (h : ∀ e ∈ log, e.1.ticket < task.ticket)
    (h' : ∀ e ∈ log', task.ticket < e.1.ticket) :
    written (log ++ (acts.map (Prod.mk task) ++ log')) task = writes acts := by
  have hnone : log'.filter (fun e => e.1 = task) = [] := by
    rw [List.filter_eq_nil_iff]
    intro e he
    have hne : e.1 ≠ task := fun heq => absurd (h' e he) (heq ▸ lt_irrefl _)
    simpa using hne
  rw [← List.append_assoc, written, List.filter_append, hnone, List.append_nil]
  exact written_append_of_notMem fun e he heq => absurd (h e he) (heq ▸ lt_irrefl _)

end Written

/-- The readings of the clock that a log shows taken before a task. -/
def readingsBefore (log : List (Task × Action)) (task : Task) : ℕ :=
  log.countP fun e => e.1.ticket < task.ticket ∧ e.2 = .op .getCurrentTimeMilli

section ReadingsBefore

variable {log : List (Task × Action)} {task task' : Task} {acts : List Action}

theorem readingsBefore_append {log' : List (Task × Action)}
    (h : ∀ e ∈ log', task.ticket ≤ e.1.ticket) :
    readingsBefore (log ++ log') task = readingsBefore log task := by
  have hnone : log'.countP
      (fun e => e.1.ticket < task.ticket ∧ e.2 = .op .getCurrentTimeMilli) = 0 := by
    rw [List.countP_eq_zero]
    intro e he
    simp [not_lt.mpr (h e he)]
  rw [readingsBefore, List.countP_append, hnone, Nat.add_zero, readingsBefore]

theorem readingsBefore_append_of_le (h : task.ticket ≤ task'.ticket) :
    readingsBefore (log ++ acts.map (Prod.mk task')) task = readingsBefore log task := by
  apply readingsBefore_append
  intro e he
  obtain ⟨a, -, rfl⟩ := List.mem_map.mp he
  exact h

theorem readingsBefore_of_lt (h : ∀ e ∈ log, e.1.ticket < task.ticket) :
    readingsBefore log task = log.countP fun e => e.2 = .op .getCurrentTimeMilli := by
  apply List.countP_congr
  intro e he
  simp [h e he]

end ReadingsBefore

section Commands

variable {host : Host} {task : Task} {cmd : Command} {past : List (ℤ × Call)} {st : Store}

theorem ticks_performOp (host : Host) (o : Op) (st : Store) :
    (performOp host o st).2.ticks = st.ticks + [o].count .getCurrentTimeMilli := by
  cases o with
  | databaseAt key => simp only [performOp]; split <;> rfl
  | _ => rfl

/-- The store counts the readings of the clock. -/
theorem ticks_of_reaches {clientFd : ℤ} {input : Bytes} {t u : Thread parserSignature} {st' : Store}
    {tr : List Op} (h : Reaches (parser host clientFd input) t st tr u st') :
    st'.ticks = st.ticks + tr.count .getCurrentTimeMilli := by
  induction h with
  | refl => rfl
  | internal _ _ ih => exact ih
  | @performs t u w v o k tr _ _ ih =>
    have hcons : (o :: tr).count .getCurrentTimeMilli =
        [o].count .getCurrentTimeMilli + tr.count .getCurrentTimeMilli := @List.count_append Op _ .getCurrentTimeMilli [o] tr
    rw [ih, hcons, ← Nat.add_assoc]
    congr 1
    exact ticks_performOp host o w

/-- Operations that leave the database as it is. -/
def keepsDatabase : Op → Bool
  | .databaseAt _ | .databaseAssign _ _ | .databaseErase _ => false
  | _ => true

theorem database_performOp {o : Op} (h : keepsDatabase o = true) (st : Store) :
    (performOp host o st).2.database = st.database := by
  cases o <;> first | rfl | cases h

theorem handles_set {call : SetCall} (h : Encodes host task (.set call)) (st : Store) : ∃ tr,
    Handles host task.clientFd task.recvStr st tr (.ok ()) (afterSet host call.key call.value call.px st) ∧
      messages tr = [okResponse] := by
  cases h with
  | set hset hc hlen =>
    have hat := setAt_of_setCommand host hset hc (Request.fits hc hlen) (le_maxSize_of_le_intMax hlen)
      (standsAt_self task.recvStr)
    obtain ⟨tr, tr', hhead, hend, hx⟩ :=
      @exec_lastSet host task.clientFd task.recvStr _ _ st _ _ _ hat (byteAt_end (by simp))
    exact ⟨_, hx, by rw [messages_append, hhead.messages, hend.messages]; rfl⟩

theorem expiryTime_eq_entryAt (host : Host) (st : Store) (call : SetCall) :
    expiryTime host st call.px = (SetCall.entryAt (host.clock st.ticks) call).2.expiryTime := by
  obtain ⟨k, v, px⟩ := call
  cases px <;> rfl

/-- SET keeps the database in step with the history. -/
theorem refines_afterSet (call : SetCall) (h : Refines st past (host.clock st.ticks))
    (hclock : Monotone host.clock) :
    Refines (afterSet host call.key call.value call.px st)
      ((Command.set call).after (host.clock st.ticks) past)
      (host.clock (afterSet host call.key call.value call.px st).ticks) := by
  unfold Refines Command.after
  rw [lastSet_set, ← expiryTime_eq_entryAt host st]
  change Pruned entryLifetime (fun k => (st.database.insert _ _).lookup k) _ _
  rw [lookup_insert]
  exact (h.later (hclock (Nat.le_add_right _ _))).write _ _

/-- GET answers as the history does and keeps the database in step with it. -/
theorem exec_databaseGet_refines (h : Refines st past (host.clock st.ticks))
    (hclock : Monotone host.clock) (clientFd : ℤ) (input k : Bytes) : ∃ tr st',
    Exec (parser host clientFd input) (databaseGet k) st tr
      (.ok (answer past k (host.clock st.ticks))) st' ∧ messages tr = [] ∧
      Refines st' past (host.clock st'.ticks) := by
  have hvisible : ∀ v, Visible entryLifetime (fun k => st.database.lookup k) k (host.clock st.ticks) v ↔
      Visible entryLifetime (lastSet past) k (host.clock st.ticks) v := fun v => h.visible_iff le_rfl
  have hticked : host.clock st.ticks ≤ host.clock (st.ticks + 1) := hclock (Nat.le_succ _)
  cases hfind : st.database.lookup k with
  | none =>
    have hanswer : answer past k (host.clock st.ticks) = nullResponse := by
      unfold answer
      cases hlast : lastSet past k with
      | none => rfl
      | some v =>
        exact if_neg fun halive => nomatch hfind.symm.trans ((hvisible v).mpr ⟨hlast, halive⟩).1
    exact ⟨_, _, hanswer ▸ exec_databaseGet_missing hfind, rfl, h⟩
  | some v =>
    by_cases halive : v.expiryTime = 0 ∨ host.clock st.ticks < v.expiryTime
    · have hlast : lastSet past k = some v := ((hvisible v).mp ⟨hfind, halive⟩).1
      have hanswer : answer past k (host.clock st.ticks) = v.value := by simp [answer, hlast, halive]
      rw [hanswer]
      by_cases hv : v.expiryTime = 0
      · exact ⟨_, _, exec_databaseGet_persistent hfind hv, rfl, h⟩
      · exact ⟨_, _, exec_databaseGet_live hfind hv (halive.resolve_left hv), rfl, h.later hticked⟩
    · have hlast : lastSet past k = some v := by
        rcases h k with heq | ⟨hnone, -⟩
        · exact heq ▸ hfind
        · exact nomatch hnone.symm.trans hfind
      have hanswer : answer past k (host.clock st.ticks) = nullResponse := by
        simp [answer, hlast, halive]
      rw [hanswer]
      have hdead : ¬ entryLifetime.alive v (host.clock (st.ticks + 1)) :=
        entryLifetime.dead_mono halive hticked
      rw [not_or, not_lt] at halive
      refine ⟨_, _, exec_databaseGet_expired hfind halive.1 halive.2, rfl, ?_⟩
      unfold Refines
      rw [Store.database_setDatabase, lookup_erase]
      exact (h.later hticked).drop hfind hdead

theorem handles_get_refines {k : Bytes} (henc : Encodes host task (.get k))
    (h : Refines st past (host.clock st.ticks)) (hclock : Monotone host.clock) : ∃ tr st',
    Handles host task.clientFd task.recvStr st tr (.ok ()) st' ∧
      messages tr = [getReply (answer past k (host.clock st.ticks))] ∧
      Refines st' past (host.clock st'.ticks) := by
  cases henc with
  | get hname hc hlen =>
    obtain ⟨tr, st', hget, hm, hrefines⟩ :=
      exec_databaseGet_refines h hclock task.clientFd task.recvStr k
    obtain ⟨tr', hx, hm'⟩ := ValueRoundTrip.handles_get hname hc (Request.fits hc hlen)
      (le_maxSize_of_le_intMax hlen) hget hm
    exact ⟨tr', st', hx, hm', hrefines⟩

/-- Other commands leave the database as it is. -/
theorem handles_other_database (h : Encodes host task .other) (st : Store) : ∃ tr st',
    Handles host task.clientFd task.recvStr st tr (.ok ()) st' ∧ st'.database = st.database := by
  cases h with
  | @other name hb hset hget =>
    obtain ⟨n, p, hcmd, -, -⟩ := hb.exists_arguments
    have hquery : ∀ o, isQuery o = true → keepsDatabase o = true := by
      intro o ho
      cases o <;> first | rfl | exact nomatch ho
    have halways : (dispatch host task.clientFd task.recvStr n name p).Always
        (fun o : Op => keepsDatabase o = true) (fun _ => False) :=
      always_dispatch hquery rfl hset (absurd · hget) (fun _ => ⟨fun _ => rfl, fun _ => rfl⟩)
        fun _ _ => rfl
    obtain ⟨tr, r, st', hrun⟩ :=
      halways.exists_exec (M := parser host task.clientFd task.recvStr) st
    have hkept : st'.database = st.database :=
      hrun.preserves (I := fun st' => st'.database = st.database) halways
        (fun o st' ho hst' => (database_performOp ho st').trans hst') rfl
    obtain ⟨reads, -, hx⟩ := exec_command hcmd hrun
    cases r with
    | error e => exact absurd hx (hb.throws_nothing _ _ _ _)
    | ok => exact ⟨_, st', hx, hkept⟩

end Commands

section Sessions

variable {host : Host} {timeouts : Bool} {task : Task} {cmd : Command} {past loaded : List (ℤ × Call)}
  {st st' : Store} {x : Exchange} {acts : List Action}

theorem writes_of_singleton {input m : Bytes} {clientFd : ℤ} {tr : List Op} {w : Store}
    (hrun : RequestRun host clientFd input st (Undisturbed timeouts) ⟨x, st', acts⟩)
    (hdone : x.handlerPc = .done) (hx : Handles host clientFd input st tr (.ok ()) w)
    (hm : messages tr = [m]) : writes acts = [m] ∧ st' = w := by
  obtain ⟨hops, -, hst⟩ := operations_of_done hrun hdone hx
  have hleft : x.handlerPc.left = true := by rw [hdone]; rfl
  refine ⟨?_, hst⟩
  rw [sent_eq_passed_of_le_two hrun hleft (by rw [hops, hm]; exact Nat.le_succ 1), hops, hm]

/-- A complete session carries its command out at the reading of the clock it begins with. -/
theorem session_refines (hclock : Monotone host.clock) (h : Refines st past (host.clock st.ticks))
    (henc : Encodes host task cmd)
    (hrun : RequestRun host task.clientFd task.recvStr st (Undisturbed timeouts) ⟨x, st', acts⟩)
    (hdone : x.handlerPc = .done) :
    Answers past [(host.clock st.ticks, cmd)] [writes acts] ∧
      Refines st' (cmd.after (host.clock st.ticks) past) (host.clock st'.ticks) := by
  cases cmd with
  | set call =>
    obtain ⟨tr, hx, hm⟩ := handles_set henc st
    obtain ⟨hwrites, rfl⟩ := writes_of_singleton hrun hdone hx hm
    rw [hwrites]
    exact ⟨.set (.nil _), refines_afterSet call h hclock⟩
  | get k =>
    obtain ⟨tr, w, hx, hm, hrefines⟩ := handles_get_refines henc h hclock
    obtain ⟨hwrites, rfl⟩ := writes_of_singleton hrun hdone hx hm
    rw [hwrites]
    exact ⟨.get (.nil _), hrefines⟩
  | other =>
    obtain ⟨tr, w, hx, hdb⟩ := handles_other_database henc st
    obtain ⟨-, -, rfl⟩ := operations_of_done hrun hdone hx
    refine ⟨.other (.nil _), ?_⟩
    unfold Refines
    rw [hdb, ticks_of_reaches hrun.reaches]
    exact h.later (hclock (Nat.le_add_right _ _))

theorem countP_session (task : Task) (acts : List Action) :
    (acts.map (Prod.mk task)).countP (fun e => e.2 = .op .getCurrentTimeMilli) =
      (operations acts).count .getCurrentTimeMilli := by
  rw [List.countP_map, operations, List.count, List.countP_filterMap]
  apply List.countP_congr
  intro a _
  cases a <;> simp

/-- The tasks as commands, each carried out at the reading of the clock that is next when its
session begins. -/
structure Linearized (host : Host) (st : Store) (loaded : List (ℤ × Call)) (tasks : List Task)
    (log : List (Task × Action)) (timed : List (ℤ × Command)) : Prop where
  encodes : List.Forall₂ (fun task c => Encodes host task c.2) tasks timed
  readings : timed.map Prod.fst = tasks.map fun task => host.clock (st.ticks + readingsBefore log task)
  sorted : timed.Pairwise (·.1 ≤ ·.1)
  answers : Answers loaded timed (tasks.map (written log))

/-- Steps for a later task change nothing of what a log says about the tasks before it. -/
theorem Linearized.append {tasks : List Task} {log : List (Task × Action)} {timed : List (ℤ × Command)}
    (h : Linearized host st loaded tasks log timed) (hlater : ∀ t ∈ tasks, t.ticket < task.ticket)
    (acts : List Action) : Linearized host st loaded tasks (log ++ acts.map (Prod.mk task)) timed := by
  obtain ⟨hencodes, hreadings, hsorted, hanswers⟩ := h
  refine ⟨hencodes, ?_, hsorted, ?_⟩
  · rw [hreadings]
    apply List.map_congr_left
    intro t ht
    rw [readingsBefore_append_of_le (hlater t ht).le]
  · have hold : tasks.map (written (log ++ acts.map (Prod.mk task))) = tasks.map (written log) := by
      apply List.map_congr_left
      intro t ht
      apply written_append_of_ne
      rintro rfl
      exact absurd (hlater _ ht) (lt_irrefl _)
    rw [hold]
    exact hanswers

theorem Sessions.linearized {tasks : List Task} {log : List (Task × Action)}
    (hclock : Monotone host.clock) (hload : Refines st loaded (host.clock st.ticks))
    (h : Sessions host (Undisturbed timeouts) st tasks log st')
    (htickets : tasks.Pairwise (·.ticket < ·.ticket))
    (henc : ∀ task ∈ tasks, ∃ cmd, Encodes host task cmd) :
    ∃ timed, Linearized host st loaded tasks log timed ∧ (∀ c ∈ timed, c.1 ≤ host.clock st'.ticks) ∧
      st'.ticks = st.ticks + log.countP (fun e => e.2 = .op .getCurrentTimeMilli) ∧
      Refines st' (historyAfter loaded timed) (host.clock st'.ticks) := by
  induction h with
  | nil => exact ⟨[], ⟨.nil, rfl, .nil, .nil _⟩, nofun, rfl, hload⟩
  | @snoc tasks log st₁ task x l st₂ hbefore run hdone ih =>
    obtain ⟨htbefore, -, hcross⟩ := List.pairwise_append.mp htickets
    have hlater : ∀ t ∈ tasks, t.ticket < task.ticket := fun t ht => hcross t ht task List.mem_cons_self
    obtain ⟨timed, hlinear, hpast, hticks, hrefines⟩ :=
      ih htbefore fun t ht => henc t (List.mem_append_left _ ht)
    obtain ⟨cmd, hcmd⟩ := henc task (by simp)
    obtain ⟨hanswer, hrefines'⟩ := session_refines hclock hrefines hcmd run hdone
    have hticks' : st₂.ticks = st₁.ticks + (operations l).count .getCurrentTimeMilli :=
      ticks_of_reaches run.reaches
    have hmono : host.clock st₁.ticks ≤ host.clock st₂.ticks :=
      hclock (hticks' ▸ Nat.le_add_right _ _)
    have hlog : ∀ e ∈ log, e.1.ticket < task.ticket := fun e he =>
      hlater _ ((hbefore.log_ordered htbefore).1 e he)
    obtain ⟨hencodes, hreadings, hsorted, hanswers⟩ := hlinear.append hlater l
    have hnew : written (log ++ l.map (Prod.mk task)) task = writes l := by
      apply written_append_of_notMem
      rintro e he rfl
      exact absurd (hlog e he) (lt_irrefl _)
    refine ⟨timed ++ [(host.clock st₁.ticks, cmd)], ⟨?_, ?_, ?_, ?_⟩, ?_, ?_, ?_⟩
    · exact List.rel_append hencodes (.cons hcmd .nil)
    · rw [List.map_append, hreadings, List.map_append, List.map_singleton, List.map_singleton,
        readingsBefore_append_of_le le_rfl, readingsBefore_of_lt hlog, ← hticks]
    · rw [List.pairwise_append]
      exact ⟨hsorted, List.pairwise_singleton _ _, fun c hc c' hc' => by
        rw [List.mem_singleton.mp hc']; exact hpast c hc⟩
    · rw [List.map_append, List.map_singleton, hnew]
      exact hanswers.snoc hanswer
    · rw [List.forall_mem_append]
      exact ⟨fun c hc => (hpast c hc).trans hmono, List.forall_mem_singleton.mpr hmono⟩
    · rw [List.countP_append, countP_session, ← Nat.add_assoc, ← hticks, hticks']
    · rw [historyAfter_snoc]
      exact hrefines'

end Sessions

/-- Every database is the history of the SETs of its entries. -/
theorem exists_loaded (db : Database) : ∃ loaded, ∀ k, lastSet loaded k = db.lookup k := by
  let entry (k : Bytes) : Option (ℤ × Call) := (db.lookup k).map fun v => (0, .set k v.value v.expiryTime)
  have hlist : ∀ ks : List Bytes, ∀ k,
      lastSet (ks.filterMap entry) k = if k ∈ ks then db.lookup k else none := by
    intro ks k
    induction ks with
    | nil => rfl
    | cons k' ks ih =>
      cases hk' : db.lookup k' with
      | none =>
        have hentry : entry k' = none := by simp [entry, hk']
        rw [List.filterMap_cons_none hentry, ih]
        by_cases hk : k = k'
        · subst hk
          simp [hk']
        · simp [hk]
      | some v =>
        have hentry : entry k' = some (0, .set k' v.value v.expiryTime) := by simp [entry, hk']
        rw [List.filterMap_cons_some hentry, lastSet, ih]
        by_cases hk : k = k'
        · subst hk
          simp [hk']
        · simp [hk]
  refine ⟨db.keys.toList.filterMap entry, fun k => ?_⟩
  rw [hlist]
  split
  · rfl
  · next hk =>
    rw [Finset.mem_toList, Finmap.mem_keys] at hk
    exact (Finmap.lookup_eq_none.mpr hk).symm

section Runs

variable {ι κ : Type} {host : Host} {timeouts : Bool} {loaded : List (ℤ × Call)} {st : Store}
  {s : Pool ι κ}

/-- The finished tasks of a server and what has been written for them. -/
theorem finished_linearized (hclock : Monotone host.clock)
    (hload : Refines st loaded (host.clock st.ticks))
    (h : PoolInvariant host (Undisturbed timeouts) st s)
    (henc : ∀ task ∈ s.enqueued, ∃ cmd, Encodes host task cmd) :
    ∃ timed, Linearized host st loaded s.finished s.log timed ∧
      (s.Idle → Refines s.store (historyAfter loaded timed) (host.clock s.store.ticks)) := by
  have htickets := h.enqueued_ordered
  by_cases hidle : s.Idle
  · obtain ⟨hfifo, hsessions⟩ := h.idle hidle
    rw [← hfifo] at htickets henc
    obtain ⟨timed, hlinear, -, -, hrefines⟩ := Sessions.linearized hclock hload hsessions
      (List.pairwise_append.mp htickets).1 fun t ht => henc t (List.mem_append_left _ ht)
    exact ⟨timed, hlinear, fun _ => hrefines⟩
  · obtain ⟨w, task, x, hr⟩ : ∃ w task x, s.Running w task x := by simpa [Pool.Idle] using hidle
    obtain ⟨hfifo, log, l, st₁, hsessions, -, hlog⟩ := h.busy w task x hr
    rw [← hfifo] at htickets henc
    obtain ⟨hbefore, -, hcross⟩ := List.pairwise_append.mp htickets
    obtain ⟨timed, hlinear, -⟩ := Sessions.linearized hclock hload hsessions hbefore
      fun t ht => henc t (List.mem_append_left _ ht)
    refine ⟨timed, ?_, fun hidle' => absurd hidle' hidle⟩
    rw [hlog]
    exact hlinear.append (fun t ht => hcross t ht task List.mem_cons_self) l

variable [DecidableEq ι] [DecidableEq κ] {clientFd : κ → ℤ}

/-- Under any schedule, the finished requests of all clients have been answered as one store
answers them that forgets nothing. They are carried out in the order in which they were
enqueued, at readings of the clock that do not decrease. Whenever no request is being handled,
the database shows at every later time what that store shows. -/
theorem replies_linearized (hclock : Monotone host.clock)
    (h : PoolRun host clientFd (Undisturbed timeouts) st s)
    (henc : ∀ task ∈ s.enqueued, ∃ cmd, Encodes host task cmd) :
    s.finished <+: s.enqueued ∧ ∃ loaded timed, (∀ k, lastSet loaded k = st.database.lookup k) ∧
      Linearized host st loaded s.finished s.log timed ∧
      (s.Idle → ∀ k t v, host.clock s.store.ticks ≤ t →
        (Visible entryLifetime (fun k => s.store.database.lookup k) k t v ↔
          Visible entryLifetime (lastSet (historyAfter loaded timed)) k t v)) := by
  obtain ⟨loaded, hload⟩ := exists_loaded st.database
  have hstart : Refines st loaded (host.clock st.ticks) := fun k => .inl (hload k).symm
  obtain ⟨timed, hlinear, hrest⟩ := finished_linearized hclock hstart h.invariant henc
  exact ⟨h.invariant.finished_prefix, loaded, timed, hload, hlinear,
    fun hidle k t v ht => (hrest hidle).visible_iff ht⟩

end Runs

def getTask : Task := ⟨0, 5, createArrayReponse [str "get", str "k"]⟩

/-- A server whose database holds one value, which is alive until the clock reads 3. -/
def loadedStore : Store := (Store.empty []).setDatabase (Finmap.singleton (str "k") ⟨str "v", 3⟩)

/-- One client, one worker and a GET, up to its end. -/
theorem replies_linearized_at_get : ∃ s : Pool Unit Unit, s.AtRest ∧ s.finished <+: [getTask] ∧
    ∃ loaded timed, (∀ k, lastSet loaded k = loadedStore.database.lookup k) ∧
      Linearized .plain loadedStore loaded s.finished s.log timed := by
  have hx : Handles .plain 5 getTask.recvStr loadedStore
      [.awaitCommunicationLoop, .databaseFind (str "k"), .databaseAt (str "k"), .getCurrentTimeMilli,
        .enqueueMessage (createStringReponse (str "v")), .communicationOver]
      (.ok ()) loadedStore.tick :=
    Machine.eval_sound (n := 4) rfl
  obtain ⟨l, hserved, -⟩ := exists_served_of_one hx rfl (by simp)
  have hstart : PoolRun .plain (fun _ => 5) (Undisturbed true) loadedStore (Pool.start loadedStore : Pool Unit Unit) :=
    .start
  obtain ⟨s, hrun, hrest, -, (hfinished : s.finished = [getTask]), -⟩ :=
    exists_finished_of_served hstart (atRest_start _) () () hserved
  have henq := (hrun.finished_of_atRest hrest).symm.trans hfinished
  have hclock : Monotone Host.plain.clock := fun _ _ h => Int.ofNat_le.mpr h
  obtain ⟨hfifo, loaded, timed, hload, hlinear, -⟩ := replies_linearized hclock hrun (by
    rw [henq]
    intro task htask
    rw [List.mem_singleton.mp htask]
    exact ⟨.get (str "k"), .get (by decide) (createArrayReponse_request [str "get", str "k"])
      (by decide)⟩)
  exact ⟨s, hrest, henq ▸ hfifo, loaded, timed, hload, hlinear⟩

end RedisServer.Linearization
