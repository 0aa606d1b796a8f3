import RedisServer.ShortSends

/-!
# What a lost notification costs

A parser thread that has missed the notification it waits for is never notified again, its
response handler never leaves its loop, and the worker that runs it keeps `mtx`. Whatever the
clients send afterwards, no request is finished and no operation performed any more.
-/

namespace RedisServer.ResponseExchange
open ByteStrings InteractionPrograms ServerState RedisParser ParserDiscipline

/-- The handler has sent a response and not yet notified. -/
def HandlerPc.notifiesSent : HandlerPc → Bool
  | .sending _ | .setSent | .notifySent => true
  | _ => false

/-- The parser waits, and the notification that it waits for will not come. -/
structure Stranded (x : Exchange) : Prop where
  notDone : x.handlerPc ≠ .done
  waiting : (x.parserPc = .entryWaiting ∧ x.handlerInCommunicationLoop = true ∧
      x.handlerPc ≠ .setLoop ∧ x.handlerPc ≠ .notifyLoop) ∨
    (x.parserPc = .sentWaiting ∧ x.isCommunicating = true ∧ x.handlerPc.left = false ∧
      x.responseBuf = [] ∧ x.response = [] ∧ x.handlerPc.notifiesSent = false)

variable {M : Machine parserSignature Store} {mv : Move} {x x' : Exchange} {st st' : Store}
  {acts : List Action} {tr : List Op} {ws : List Bytes}

/-- The parser waits for the loop of the handler or for its response, and the handler has not still
to notify it. -/
def Unheard (x : Exchange) : Prop :=
  (x.parserPc = .entryWaiting ∧ ¬ NotifyToCome x) ∨ (x.parserPc = .sentWaiting ∧ ¬ MessageOwed x)

theorem Discipline.stranded (hd : Discipline x) (hdone : x.handlerPc ≠ .done) (h : Unheard x) :
    Stranded x := by
  rcases h with ⟨hpc, hnotify⟩ | ⟨hpc, howed⟩
  · simp only [NotifyToCome, not_or, not_and] at hnotify
    obtain ⟨htest, hset, hloop⟩ := hnotify
    refine ⟨hdone, .inl ⟨hpc, ?_, hset, hloop⟩⟩
    by_contra hflag
    have hentering := hd.entering (by simpa using hflag)
    cases hpc' : x.handlerPc <;> simp_all [HandlerPc.entering]
  · have hc : x.isCommunicating = true := by
      by_contra hc
      have hquiet := (hd.quiet (by simpa using hc)).2
      simp [hpc, ParserPc.inMessage] at hquiet
    have hin : x.handlerPc.left = false := by
      by_contra hleft
      exact nomatch hc.symm.trans (hd.left (by simpa using hleft))
    have hquiet : ¬ Unnotified x := fun hun => howed ⟨hc, hin, hun⟩
    simp only [Unnotified, not_or, not_and, not_not, not_exists] at hquiet
    obtain ⟨hbuf, htest, hsending, hset, hnotify⟩ := hquiet
    refine ⟨hdone, .inr ⟨hpc, hc, hin, hbuf, ?_, ?_⟩⟩
    · by_contra hne
      have hdelivering := hd.delivering hne
      cases hpc' : x.handlerPc <;> simp_all [HandlerPc.delivering]
    · cases hpc' : x.handlerPc <;> simp_all [HandlerPc.notifiesSent]

theorem Stranded.no_parserStep (h : Stranded x) (hmv : Notified x mv) :
    ¬ ParserStep M mv x st tr x' st' := by
  intro hs
  rcases h.waiting with ⟨hpc, -⟩ | ⟨hpc, -⟩
  all_goals cases hs <;> simp_all [Notified]

/-- The handler goes round its loop, or it waits for the parser to end. -/
theorem Stranded.handlerStep (h : Stranded x) (hs : HandlerStep M mv x ws x') : Stranded x' := by
  obtain ⟨-, ⟨hpc, hflag, hset, hloop⟩ | ⟨hpc, hc, hin, hbuf, hres, hquiet⟩⟩ := h
  · cases hs with
    | testLoop _ hflag' => cases hflag.symm.trans hflag'
    | setLoop hpc' => exact absurd hpc' hset
    | notifyLoop hpc' => exact absurd hpc' hloop
    | join _ hprogram => cases hpc.symm.trans hprogram
    | notifySent hpc' =>
      exact ⟨by simp, .inl ⟨by simp [hpc, ParserPc.notifiedSent], hflag, by simp, by simp⟩⟩
    | _ => exact ⟨by simp, .inl ⟨hpc, hflag, by simp, by simp⟩⟩
  · cases hs with
    | popBuf _ hbuf' => cases hbuf.symm.trans hbuf'
    | testResponse _ hres' => exact absurd hres hres'
    | send hpc' => simp [hpc', HandlerPc.notifiesSent] at hquiet
    | sendFailed hpc' => simp [hpc', HandlerPc.notifiesSent] at hquiet
    | sendDone hpc' => simp [hpc', HandlerPc.notifiesSent] at hquiet
    | setSent hpc' => simp [hpc', HandlerPc.notifiesSent] at hquiet
    | notifySent hpc' => simp [hpc', HandlerPc.notifiesSent] at hquiet
    | testOverBreak _ hover => cases hc.symm.trans hover
    | leaving hpc' => simp [hpc', HandlerPc.left] at hin
    | join hpc' => simp [hpc', HandlerPc.left] at hin
    | notifyLoop hpc' =>
      exact ⟨by simp, .inr ⟨by simp [hpc, ParserPc.notifiedEntry], hc, rfl, hbuf, hres, rfl⟩⟩
    | _ => exact ⟨by simp, .inr ⟨hpc, hc, rfl, hbuf, hres, rfl⟩⟩

theorem Stranded.step (h : Stranded x) (hmv : Notified x mv) (hs : Step M mv x st acts x' st') :
    Stranded x' ∧ st' = st ∧ operations acts = [] := by
  cases hs with
  | parser hs => exact absurd hs (h.no_parserStep hmv)
  | handler hs => exact ⟨h.handlerStep hs, rfl, operations_map_write _⟩

/-- The parser of any request can miss its first notification. -/
theorem exists_stranded (host : Host) (clientFd : ℤ) (input : Bytes) (st : Store) :
    ∃ x, RequestRun host clientFd input st Notified ⟨x, st, []⟩ ∧ x.parserPc = .entryWaiting ∧
      Stranded x := by
  have h₀ : RequestRun host clientFd input st Notified _ := .start
  have h₁ := h₀.step .parser nofun (.parser (.entryTest rfl rfl rfl))
  have h₂ := h₁.step .handler nofun (.handler (.testLoop rfl rfl) nofun)
  have h₃ := h₂.step .handler nofun (.handler (.setLoop rfl) nofun)
  have h₄ := h₃.step .handler nofun (.handler (.notifyLoop rfl) nofun)
  have h₅ := h₄.step .parser nofun (.parser (.entryLock rfl))
  have h₆ := h₅.step .parser nofun (.parser (.entryWait rfl))
  exact ⟨_, h₆, rfl, nofun, .inl ⟨rfl, rfl, nofun, nofun⟩⟩

end RedisServer.ResponseExchange

namespace RedisServer.WorkerPool
open ByteStrings CxxStrings InteractionPrograms ServerState RedisParser ResponseExchange

variable {ι κ : Type}

/-- The worker runs a task whose parser is stranded. -/
def Halted (s : Pool ι κ) (w : ι) (task : Task) : Prop := ∃ x, s.Running w task x ∧ Stranded x

structure SameService (s s' : Pool ι κ) : Prop where
  finished : s'.finished = s.finished
  store : s'.store = s.store
  performed : performed s'.log = performed s.log

theorem SameService.trans {s s' s'' : Pool ι κ} (h : SameService s s') (h' : SameService s' s'') :
    SameService s s'' :=
  ⟨h'.finished.trans h.finished, h'.store.trans h.store, h'.performed.trans h.performed⟩

variable [DecidableEq ι] [DecidableEq κ] {host : Host} {clientFd : κ → ℤ}
  {allowed : Exchange → Move → Prop} {s s' : Pool ι κ} {st : Store} {ev : Event κ} {w : ι} {task : Task}

/-- Any number of steps of the server. -/
def Continues (host : Host) (clientFd : κ → ℤ) (allowed : Exchange → Move → Prop)
    (s s' : Pool ι κ) : Prop :=
  Relation.ReflTransGen (fun s s' => ∃ ev, PoolStep host clientFd allowed ev s s') s s'

theorem PoolStep.mono {allowed' : Exchange → Move → Prop}
    (himp : ∀ x mv, allowed x mv → allowed' x mv) (h : PoolStep host clientFd allowed ev s s') :
    PoolStep host clientFd allowed' ev s s' := by
  cases h with
  | run halive hpc hmv hstep => exact .run halive hpc (himp _ _ hmv) hstep
  | workerLock halive hpc hmtx => exact .workerLock halive hpc hmtx
  | relock halive hpc hmtx => exact .relock halive hpc hmtx
  | _ => constructor <;> assumption

theorem PoolRun.continues {allowed' : Exchange → Move → Prop} (h : PoolRun host clientFd allowed st s)
    (hs : Continues host clientFd allowed' s s') :
    PoolRun host clientFd (fun _ _ => True) st s' := by
  induction hs with
  | refl =>
    induction h with
    | start => exact .start
    | step _ hstep ih => exact ih.step (hstep.mono fun _ _ _ => trivial)
  | tail _ hstep ih =>
    obtain ⟨ev, hstep⟩ := hstep
    exact ih.step (hstep.mono fun _ _ _ => trivial)

theorem Works.continues {log : List (Task × Action)} (h : Works host clientFd allowed s log s') :
    Continues host clientFd allowed s s' := by
  induction h with
  | refl => exact .refl
  | internal _ hs ih => exact ih.tail ⟨_, hs⟩
  | observed _ hs ih => exact ih.tail ⟨_, hs⟩

omit [DecidableEq κ] in
theorem Halted.setWorker (h : Halted s w task) {w' : ι} (hw : w' ≠ w) (pc : WorkerPc) :
    Halted (s.setWorker w' pc) w task := by
  obtain ⟨x, hr, hx⟩ := h
  refine ⟨x, ?_, hx⟩
  rw [Pool.Running, Pool.setWorker_workers, Function.update_of_ne hw.symm]
  exact hr

/-- A stranded task stays where it is, and nothing is done for anybody else. -/
theorem Halted.step (h : Halted s w task) (hlocked : Locked s)
    (hs : PoolStep host clientFd Notified ev s s') : Halted s' w task ∧ SameService s s' := by
  have ⟨x, hr, hx⟩ := h
  have hother {w' : ι} {pc : WorkerPc} (hpc : s.workers w' = pc) (hruns : pc.runs = false) : w' ≠ w := by
    rintro rfl
    rw [← hpc, hr] at hruns
    cases hruns
  cases hs with
  | receive | disconnect | clientLock | push | clientUnlock | notifyNone => exact ⟨⟨x, hr, hx⟩, rfl, rfl, rfl⟩
  | notifyOne halive hpc hw => exact ⟨h.setWorker (hother hw rfl) _, rfl, rfl, rfl⟩
  | workerLock halive hpc | wait halive hpc | spurious halive hpc | relock halive hpc
  | tested halive hpc | pop halive hpc | noTask halive hpc | workerUnlock halive hpc =>
    exact ⟨h.setWorker (hother hpc rfl) _, rfl, rfl, rfl⟩
  | @run _ w' task' x' mv acts x'' st' halive hpc hmv hstep =>
    obtain rfl := hlocked.only_running (by rw [hr]; rfl) hpc
    cases hr.symm.trans hpc
    obtain ⟨hx'', rfl, hnone⟩ := hx.step hmv hstep
    refine ⟨⟨x'', Function.update_self .., hx''⟩, rfl, rfl, ?_⟩
    rw [Pool.record_log, performed_append, performed_map, hnone, List.map_nil, List.append_nil]
    rfl
  | @finish _ w' task' x' halive hpc hdone =>
    obtain rfl := hlocked.only_running (by rw [hr]; rfl) hpc
    cases hr.symm.trans hpc
    exact absurd hdone hx.notDone

theorem Halted.continues (h : Halted s w task) (hlocked : Locked s)
    (hs : Continues host clientFd Notified s s') : Halted s' w task ∧ SameService s s' := by
  have hall : Locked s' ∧ Halted s' w task ∧ SameService s s' := by
    induction hs with
    | refl => exact ⟨hlocked, h, rfl, rfl, rfl⟩
    | tail _ hstep ih =>
      obtain ⟨ev, hstep⟩ := hstep
      obtain ⟨hlocked', hhalted, hsame⟩ := ih
      obtain ⟨hhalted', hsame'⟩ := hhalted.step hlocked' hstep
      exact ⟨locked_step hlocked' hstep, hhalted', hsame.trans hsame'⟩
  exact hall.2

/-- A server at rest that receives anything can come to run it with a stranded parser. -/
theorem exists_halted (hrun : PoolRun host clientFd allowed st s) (hrest : s.AtRest) (w : ι) (c : κ)
    (b : Bytes) : ∃ s₁, Continues host clientFd Notified s s₁ ∧
      Halted s₁ w ⟨s.enqueued.length, clientFd c, b⟩ ∧ SameService s s₁ := by
  obtain ⟨s₁, hworks₁, hserving₁, hstore₁, hlog₁, henq₁⟩ :=
    @Pool.AtRest.exists_serving ι κ _ _ host clientFd Notified s hrest w c b
  obtain ⟨x, hsession, hpc, hx⟩ := exists_stranded host (clientFd c) b s₁.store
  obtain ⟨s₂, hworks₂, hserving₂, hstore₂, henq₂⟩ := hserving₁.exists_works hsession (by simp [hpc])
  have hreceived : PoolStep host clientFd Notified (.received c b) s (s.setClient c (.locking b)) :=
    .receive hrest.alive (hrest.clients c)
  have hcontinues : Continues host clientFd Notified s s₂ :=
    .head ⟨_, hreceived⟩ (hworks₁.trans hworks₂).continues
  refine ⟨s₂, hcontinues, ⟨x, hserving₂.running, hx⟩, ?_, hstore₂.trans hstore₁, ?_⟩
  · -- everything that was enqueued before is finished
    have hafter := ((hrun.continues hcontinues).invariant.busy w _ x hserving₂.running).1
    rw [hserving₂.taskQueue, henq₂, henq₁, ← hrun.finished_of_atRest hrest] at hafter
    exact (List.append_inj' hafter rfl).1
  · rw [hworks₂.log_eq, hlog₁, List.map_nil, List.append_nil]

/-- A running task that waits unheard halts the server. -/
theorem PoolRun.halted (hrun : PoolRun host clientFd allowed st s) {x : Exchange}
    (hr : s.Running w task x) (hx : Unheard x) : Halted s w task := by
  obtain ⟨-, log, l, st₁, -, hsession, -⟩ := hrun.invariant.busy w task x hr
  have hd : Discipline x := hsession.discipline
  refine ⟨x, hr, hd.stranded (fun hdone => ?_) hx⟩
  have hprogram : x.parserPc = .program := (parser_halted_of_done hsession hdone).1
  rcases hx with ⟨hpc, -⟩ | ⟨hpc, -⟩
  · cases hpc.symm.trans hprogram
  · cases hpc.symm.trans hprogram

/-- One lost notification halts the whole server. In any state that the server can reach, once the
parser of the running task waits for the handler's loop or for its response and the handler is not
going to notify it, no schedule without spurious wake-ups finishes a request or performs an
operation any more, for this client or any other. Whatever a server at rest receives, from whichever
client, it can come to that. -/
theorem server_halts (hrun : PoolRun host clientFd allowed st s) :
    (∀ w task x, s.Running w task x → Unheard x → ∀ s', Continues host clientFd Notified s s' →
      (∃ x', s'.Running w task x') ∧ SameService s s') ∧
    (s.AtRest → ∀ w c b, ∃ s₁, Continues host clientFd Notified s s₁ ∧
      ∀ s', Continues host clientFd Notified s₁ s' →
        (∃ x, s'.Running w ⟨s.enqueued.length, clientFd c, b⟩ x) ∧ SameService s s') := by
  refine ⟨fun w task x hr hx s' hs' => ?_, fun hrest w c b => ?_⟩
  · obtain ⟨⟨x', hr', -⟩, hsame⟩ := (hrun.halted hr hx).continues hrun.invariant.locked hs'
    exact ⟨⟨x', hr'⟩, hsame⟩
  · obtain ⟨s₁, hcontinues, hhalted, hsame⟩ := exists_halted hrun hrest w c b
    refine ⟨s₁, hcontinues, fun s' hs' => ?_⟩
    obtain ⟨⟨x, hr, -⟩, hsame'⟩ :=
      hhalted.continues (hrun.continues hcontinues).invariant.locked hs'
    exact ⟨⟨x, hr⟩, hsame.trans hsame'⟩

/-- One client and one worker, and a receive that begins with a zero byte. -/
theorem server_halts_at_start : ∃ s₁ : Pool Unit Unit, ∀ s',
    Continues .plain (fun _ => 5) Notified s₁ s' →
      (∃ x, s'.Running () ⟨0, 5, recvStr [0, 1]⟩ x) ∧ SameService (.start (.empty [])) s' := by
  have hrun : PoolRun .plain (fun _ => 5) Notified (.empty []) (Pool.start (.empty []) : Pool Unit Unit) :=
    .start
  obtain ⟨s₁, -, hhalts⟩ := (server_halts hrun).2 (atRest_start (.empty [])) () () (recvStr [0, 1])
  exact ⟨s₁, hhalts⟩

end RedisServer.WorkerPool
