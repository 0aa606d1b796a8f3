import RedisServer.AmortizedRuns
import RedisServer.RequestOrder

/-!
# No wake-up is lost

`enqueueTask` notifies one worker after it has released the mutex, and a worker that waits
is not counted anywhere. A task can only stay in the queue while some worker is awake or some
client handler is about to notify one. Between two tasks every step of the server brings
one of them closer to the queue.
-/

namespace RedisServer.WorkerPool
open ServerState ResponseExchange AmortizedRuns

variable {ι κ : Type}

/-- What is left to do for a client handler until it receives again. The last step may cost a
worker that is woken up three steps. -/
def ClientPc.rank : ClientPc → ℕ
  | .locking _ => 7
  | .pushing _ => 6
  | .unlocking => 5
  | .notifying => 4
  | .receiving | .disconnected => 0

/-- What is left to do for a worker until it has a task or waits. -/
def WorkerPc.rank : WorkerPc → ℕ
  | .unlocking => 4
  | .locking | .relocking => 3
  | .testing => 2
  | .popping => 1
  | .waiting | .running _ _ => 0

/-- What the pool has still to do if no task arrives and no wait returns for no reason. -/
def Pool.rank [Fintype ι] [Fintype κ] (s : Pool ι κ) : ℕ :=
  ∑ w, (s.workers w).rank + ∑ c, (s.clients c).rank

theorem ClientPc.rank_le (pc : ClientPc) : pc.rank ≤ 7 := by
  cases pc <;> simp [ClientPc.rank]

theorem WorkerPc.rank_le (pc : WorkerPc) : pc.rank ≤ 4 := by
  cases pc <;> simp [WorkerPc.rank]

/-- A task in the queue is seen by somebody, and no worker goes to the queue for nothing. -/
structure Attentive (s : Pool ι κ) : Prop where
  popping : ∀ w, s.workers w = .popping → s.taskQueue ≠ []
  awake : s.taskQueue ≠ [] →
    (∃ w, s.workers w ≠ .waiting) ∨ ∃ c, s.clients c = .unlocking ∨ s.clients c = .notifying
  alive : s.Idle → s.terminated = false

theorem attentive_start (st : Store) : Attentive (Pool.start st : Pool ι κ) where
  popping w h := by simp [Pool.start] at h
  awake h := by simp [Pool.start] at h
  alive _ := rfl

/-! ### Ranks -/

section Ranks

variable [Fintype ι] [Fintype κ]

@[simp] theorem Pool.rank_setMtx (s : Pool ι κ) (owner : Option (ι ⊕ κ)) :
    (s.setMtx owner).rank = s.rank := rfl

@[simp] theorem Pool.rank_setQueue (s : Pool ι κ) (tasks : List Task) :
    (s.setQueue tasks).rank = s.rank := rfl

@[simp] theorem Pool.rank_push (s : Pool ι κ) (task : Task) : (s.push task).rank = s.rank := rfl

theorem Pool.rank_setWorker [DecidableEq ι] (s : Pool ι κ) (w : ι) (pc : WorkerPc) :
    (s.setWorker w pc).rank + (s.workers w).rank = s.rank + pc.rank := by
  have hsum := sum_update_add WorkerPc.rank s.workers w pc
  simp only [Pool.rank, Pool.setWorker_workers, Pool.setWorker_clients]
  omega

theorem Pool.rank_setClient [DecidableEq κ] (s : Pool ι κ) (c : κ) (pc : ClientPc) :
    (s.setClient c pc).rank + (s.clients c).rank = s.rank + pc.rank := by
  have hsum := sum_update_add ClientPc.rank s.clients c pc
  simp only [Pool.rank, Pool.setClient_workers, Pool.setClient_clients]
  omega

theorem Pool.rank_setWorker_lt [DecidableEq ι] {s : Pool ι κ} {w : ι} {pc pc' : WorkerPc}
    (hpc : s.workers w = pc) (h : pc'.rank < pc.rank) : (s.setWorker w pc').rank < s.rank := by
  have hrank := s.rank_setWorker w pc'
  rw [hpc] at hrank
  omega

theorem Pool.rank_setClient_lt [DecidableEq κ] {s : Pool ι κ} {c : κ} {pc pc' : ClientPc}
    (hpc : s.clients c = pc) (h : pc'.rank < pc.rank) : (s.setClient c pc').rank < s.rank := by
  have hrank := s.rank_setClient c pc'
  rw [hpc] at hrank
  omega

/-- A notified worker has less to do than the client handler had left. -/
theorem Pool.rank_notify_lt [DecidableEq ι] [DecidableEq κ] {s : Pool ι κ} {w : ι} {c : κ}
    (hc : s.clients c = .notifying) (hw : s.workers w = .waiting) :
    ((s.setClient c .receiving).setWorker w .relocking).rank < s.rank := by
  have hnotified := s.rank_setClient c .receiving
  have hwoken := (s.setClient c .receiving).rank_setWorker w .relocking
  rw [hc] at hnotified
  rw [Pool.setClient_workers, hw] at hwoken
  simp only [ClientPc.rank, WorkerPc.rank] at hnotified hwoken
  omega

theorem Pool.rank_le (s : Pool ι κ) : s.rank ≤ 4 * Fintype.card ι + 7 * Fintype.card κ := by
  have hworkers : ∑ w, (s.workers w).rank ≤ 4 * Fintype.card ι := by
    rw [Nat.mul_comm]
    exact Finset.sum_le_card_nsmul Finset.univ _ 4 fun w _ => (s.workers w).rank_le
  have hclients : ∑ c, (s.clients c).rank ≤ 7 * Fintype.card κ := by
    rw [Nat.mul_comm]
    exact Finset.sum_le_card_nsmul Finset.univ _ 7 fun c _ => (s.clients c).rank_le
  exact Nat.add_le_add hworkers hclients

end Ranks

variable [DecidableEq ι] [DecidableEq κ] {host : Host} {clientFd : κ → ℤ}
  {allowed : Exchange → Move → Prop} {s s' : Pool ι κ} {st : Store} {ev : Event κ}

/-! ### The invariant -/

omit [DecidableEq κ] in
theorem attentive_setWorker {w : ι} (pc : WorkerPc)
    (hpopping : ∀ w, s.workers w = .popping → s.taskQueue ≠ []) (halive : s.terminated = false)
    (hpop : pc = .popping → s.taskQueue ≠ []) (hwait : pc = .waiting → s.taskQueue = []) :
    Attentive (s.setWorker w pc) where
  popping w' hw' := by
    by_cases hw : w' = w
    · subst hw
      rw [Pool.setWorker_workers, Function.update_self] at hw'
      exact hpop hw'
    · rw [Pool.setWorker_workers, Function.update_of_ne hw] at hw'
      exact hpopping w' hw'
  awake hqueue := by
    refine .inl ⟨w, fun hpc => hqueue ?_⟩
    rw [Pool.setWorker_workers, Function.update_self] at hpc
    exact hwait hpc
  alive _ := halive

omit [DecidableEq ι] in
/-- A client handler steps on, and it does not forget to notify. -/
theorem Attentive.setClient {c : κ} {pc : ClientPc} (h : Attentive s) (halive : s.terminated = false)
    (hnotify : s.clients c = .unlocking ∨ s.clients c = .notifying →
      pc = .notifying ∨ ∃ w, s.workers w ≠ .waiting) : Attentive (s.setClient c pc) where
  popping := h.popping
  awake hqueue := by
    rcases h.awake hqueue with hworker | ⟨c', hc'⟩
    · exact .inl hworker
    by_cases hc : c' = c
    · subst hc
      rcases hnotify hc' with rfl | hworker
      · exact .inr ⟨c', .inr (Function.update_self ..)⟩
      · exact .inl hworker
    · refine .inr ⟨c', ?_⟩
      rwa [Pool.setClient_clients, Function.update_of_ne hc]
  alive _ := halive

omit [DecidableEq ι] [DecidableEq κ] in
theorem Attentive.setMtx (h : Attentive s) (owner : Option (ι ⊕ κ)) : Attentive (s.setMtx owner) :=
  ⟨h.popping, h.awake, h.alive⟩

theorem Attentive.step [Nonempty ι] (h : Attentive s) (hlocked : Locked s)
    (hs : PoolStep host clientFd allowed ev s s') : Attentive s' := by
  cases hs with
  | receive halive hpc => exact h.setClient halive (by simp [hpc])
  | disconnect halive hpc => exact h.setClient halive (by simp [hpc])
  | clientLock halive hpc => exact (h.setClient halive (by simp [hpc])).setMtx _
  | @push _ c recvStr halive hpc =>
    exact
      { popping := fun _ _ => List.concat_ne_nil _ _
        awake := fun _ => .inr ⟨c, .inl (Function.update_self ..)⟩
        alive := fun _ => halive }
  | clientUnlock halive hpc => exact (h.setClient halive fun _ => .inl rfl).setMtx _
  | notifyOne halive hpc hw => exact attentive_setWorker .relocking h.popping halive nofun nofun
  | notifyNone halive hpc hw =>
    exact h.setClient halive fun _ => .inr ⟨Classical.arbitrary ι, hw _⟩
  | workerLock halive hpc => exact (attentive_setWorker .testing h.popping halive nofun nofun).setMtx _
  | wait halive hpc hqueue =>
    exact (attentive_setWorker .waiting h.popping halive nofun fun _ => hqueue).setMtx _
  | spurious halive hpc => exact attentive_setWorker .relocking h.popping halive nofun nofun
  | relock halive hpc => exact (attentive_setWorker .testing h.popping halive nofun nofun).setMtx _
  | tested halive hpc hqueue => exact attentive_setWorker .popping h.popping halive (fun _ => hqueue) nofun
  | @pop _ w task tasks halive hpc hqueue =>
    have hrunning : (s.setWorker w (.running task (task.start host))).workers w
      = .running task (task.start host) := Function.update_self ..
    refine ⟨fun w' hw' => ?_, fun _ => .inl ⟨w, fun hw => ?_⟩, fun _ => halive⟩
    · -- the mutex is held by the worker that takes the task
      have hne : w' ≠ w := by
        rintro rfl
        cases hrunning.symm.trans hw'
      have hpc' : s.workers w' = .popping := by
        rwa [Pool.setQueue_workers, Pool.setWorker_workers, Function.update_of_ne hne] at hw'
      have hheld := hlocked.worker (w := w') (by rw [hpc']; rfl)
      rw [hlocked.worker (w := w) (by rw [hpc]; rfl)] at hheld
      cases hheld
      exact absurd rfl hne
    · cases hrunning.symm.trans hw
  | noTask halive hpc => exact attentive_setWorker .unlocking h.popping halive nofun nofun
  | @run _ w task x mv acts x' st' halive hpc hmv hstep =>
    have hmoved : Attentive (s.setWorker w (.running task x')) :=
      attentive_setWorker _ h.popping halive nofun nofun
    refine ⟨hmoved.popping, hmoved.awake, fun hidle => ?_⟩
    exact absurd (Function.update_self ..) (hidle w task x')
  | @finish _ w task x halive hpc hdone =>
    have hmoved : Attentive (s.setWorker w .unlocking) :=
      attentive_setWorker _ h.popping halive nofun nofun
    exact ⟨hmoved.popping, hmoved.awake, hmoved.alive⟩
  | workerUnlock halive hpc => exact (attentive_setWorker .locking h.popping halive nofun nofun).setMtx _

theorem PoolRun.attentive [Nonempty ι] (h : PoolRun host clientFd allowed st s) : Attentive s := by
  induction h with
  | start => exact attentive_start st
  | step hrun hs ih => exact ih.step hrun.invariant.locked hs

/-! ### Progress -/

/-- What does not depend on the pool: a client sends something or leaves, or a wait returns
although nobody has notified. -/
inductive Outside (s : Pool ι κ) : Pool ι κ → Prop
  | client {c : κ} (pc : ClientPc) (hpc : s.clients c = .receiving) : Outside s (s.setClient c pc)
  | wakeUp {w : ι} (hpc : s.workers w = .waiting) : Outside s (s.setWorker w .relocking)

/-- On whom a step depends. -/
inductive Agent where
  | server | outside
  deriving DecidableEq

/-- A step between two tasks. -/
structure UnservedStep (host : Host) (clientFd : κ → ℤ) (allowed : Exchange → Move → Prop)
    (agent : Agent) (s s' : Pool ι κ) : Prop where
  step : ∃ ev, PoolStep host clientFd allowed ev s s'
  agent : agent = .outside ↔ Outside s s'
  idle : s.Idle
  idle' : s'.Idle

/-- What an awake server does without a task brings it closer to one. -/
theorem rank_lt_of_step [Fintype ι] [Fintype κ] (h : Attentive s) (hidle : s.Idle)
    (hs : PoolStep host clientFd allowed ev s s') (hserver : ¬ Outside s s') : s'.rank < s.rank := by
  cases hs with
  | receive halive hpc => exact absurd (.client _ hpc) hserver
  | disconnect halive hpc => exact absurd (.client _ hpc) hserver
  | clientLock halive hpc =>
    rw [Pool.rank_setMtx]
    exact Pool.rank_setClient_lt hpc (by simp [ClientPc.rank])
  | push halive hpc =>
    rw [Pool.rank_push]
    exact Pool.rank_setClient_lt hpc (by simp [ClientPc.rank])
  | clientUnlock halive hpc =>
    rw [Pool.rank_setMtx]
    exact Pool.rank_setClient_lt hpc (by simp [ClientPc.rank])
  | notifyOne halive hpc hw => exact Pool.rank_notify_lt hpc hw
  | notifyNone halive hpc => exact Pool.rank_setClient_lt hpc (by simp [ClientPc.rank])
  | workerLock halive hpc =>
    rw [Pool.rank_setMtx]
    exact Pool.rank_setWorker_lt hpc (by simp [WorkerPc.rank])
  | wait halive hpc =>
    rw [Pool.rank_setMtx]
    exact Pool.rank_setWorker_lt hpc (by simp [WorkerPc.rank])
  | spurious halive hpc => exact absurd (.wakeUp hpc) hserver
  | relock halive hpc =>
    rw [Pool.rank_setMtx]
    exact Pool.rank_setWorker_lt hpc (by simp [WorkerPc.rank])
  | tested halive hpc => exact Pool.rank_setWorker_lt hpc (by simp [WorkerPc.rank])
  | pop halive hpc =>
    rw [Pool.rank_setQueue]
    exact Pool.rank_setWorker_lt hpc (by simp [WorkerPc.rank])
  | noTask halive hpc hqueue => exact absurd hqueue (h.popping _ hpc)
  | run halive hpc => exact absurd hpc (hidle _ _ _)
  | finish halive hpc => exact absurd hpc (hidle _ _ _)
  | workerUnlock halive hpc =>
    rw [Pool.rank_setMtx]
    exact Pool.rank_setWorker_lt hpc (by simp [WorkerPc.rank])

theorem Outside.rank_le [Fintype ι] [Fintype κ] (h : Outside s s') :
    s.rank ≤ s'.rank ∧ s'.rank ≤ s.rank + 7 := by
  cases h with
  | @client c pc hpc =>
    have hrank := s.rank_setClient c pc
    have hle := pc.rank_le
    have hold : (s.clients c).rank = 0 := by rw [hpc, ClientPc.rank]
    omega
  | @wakeUp w hpc =>
    have hrank := s.rank_setWorker w .relocking
    rw [hpc] at hrank
    simp only [WorkerPc.rank] at hrank
    omega

/-- With a task in the queue the server can always step. -/
theorem Attentive.exists_step [Fintype ι] [Fintype κ] [Nonempty ι] (h : Attentive s)
    (hlocked : Locked s) (hidle : s.Idle) (hqueue : s.taskQueue ≠ []) :
    ∃ s', PoolStep host clientFd allowed .internal s s' ∧ s'.rank < s.rank := by
  have halive := h.alive hidle
  have howner {p : ι ⊕ κ} (hp : threadHolds (s.threads p) = true) : s.mtx ≠ none := by
    rw [(hlocked p).mp hp]
    simp
  cases hmtx : s.mtx with
  | some p =>
    -- the owner of the mutex steps
    have hheld : threadHolds (s.threads p) = true := (hlocked p).mpr hmtx
    cases p with
    | inl w =>
      cases hpc : s.workers w with
      | testing =>
        exact ⟨_, .tested halive hpc hqueue, Pool.rank_setWorker_lt hpc (by simp [WorkerPc.rank])⟩
      | popping =>
        obtain ⟨task, tasks, htasks⟩ := List.exists_cons_of_ne_nil hqueue
        refine ⟨_, .pop halive hpc htasks, ?_⟩
        rw [Pool.rank_setQueue]
        exact Pool.rank_setWorker_lt hpc (by simp [WorkerPc.rank])
      | running task x => exact absurd hpc (hidle w task x)
      | unlocking =>
        refine ⟨_, .workerUnlock halive hpc, ?_⟩
        rw [Pool.rank_setMtx]
        exact Pool.rank_setWorker_lt hpc (by simp [WorkerPc.rank])
      | locking | waiting | relocking =>
        simp [threadHolds, Pool.threads, hpc, WorkerPc.holds] at hheld
    | inr c =>
      cases hpc : s.clients c with
      | pushing recvStr =>
        refine ⟨_, .push halive hpc, ?_⟩
        rw [Pool.rank_push]
        exact Pool.rank_setClient_lt hpc (by simp [ClientPc.rank])
      | unlocking =>
        refine ⟨_, .clientUnlock halive hpc, ?_⟩
        rw [Pool.rank_setMtx]
        exact Pool.rank_setClient_lt hpc (by simp [ClientPc.rank])
      | receiving | locking | notifying | disconnected =>
        simp [threadHolds, Pool.threads, hpc, ClientPc.holds] at hheld
  | none =>
    by_cases hwaiting : ∀ w, s.workers w = .waiting
    · -- one of the workers is notified
      rcases h.awake hqueue with ⟨w, hw⟩ | ⟨c, hc | hc⟩
      · exact absurd (hwaiting w) hw
      · have hheld : threadHolds (s.threads (.inr c)) = true := by
          simp [threadHolds, Pool.threads, hc, ClientPc.holds]
        exact absurd hmtx (howner hheld)
      · have hw := hwaiting (Classical.arbitrary ι)
        exact ⟨_, .notifyOne halive hc hw, Pool.rank_notify_lt hc hw⟩
    · -- a worker that is awake locks the mutex
      obtain ⟨w, hw⟩ := not_forall.mp hwaiting
      cases hpc : s.workers w with
      | locking =>
        refine ⟨_, .workerLock halive hpc hmtx, ?_⟩
        rw [Pool.rank_setMtx]
        exact Pool.rank_setWorker_lt hpc (by simp [WorkerPc.rank])
      | relocking =>
        refine ⟨_, .relock halive hpc hmtx, ?_⟩
        rw [Pool.rank_setMtx]
        exact Pool.rank_setWorker_lt hpc (by simp [WorkerPc.rank])
      | waiting => exact absurd hpc hw
      | testing | popping | running | unlocking =>
        have hheld : threadHolds (s.threads (.inl w)) = true := by
          simp [threadHolds, Pool.threads, hpc, WorkerPc.holds]
        exact absurd hmtx (howner hheld)

theorem prefix_of_step (hs : PoolStep host clientFd allowed ev s s') (hidle : s'.Idle) :
    s.taskQueue <+: s'.taskQueue := by
  cases hs with
  | push => exact List.prefix_append _ _
  | @pop _ w task => exact absurd (Function.update_self ..) (hidle w task (task.start host))
  | _ => exact List.prefix_rfl

/-- What holds as long as the tasks of the queue are not taken. -/
structure Unserved (tasks : List Task) (s : Pool ι κ) : Prop where
  attentive : Attentive s
  locked : Locked s
  idle : s.Idle
  queued : tasks <+: s.taskQueue

theorem Unserved.step [Nonempty ι] {tasks : List Task} {agent : Agent} (h : Unserved tasks s)
    (hs : UnservedStep host clientFd allowed agent s s') : Unserved tasks s' := by
  obtain ⟨ev, hstep⟩ := hs.step
  exact ⟨h.attentive.step h.locked hstep, locked_step h.locked hstep, hs.idle',
    h.queued.trans (prefix_of_step hstep hs.idle')⟩

/-- A step of the server costs one, and what the outside does is worth seven. -/
theorem priced_unservedStep [Fintype ι] [Fintype κ] [Nonempty ι] (tasks : List Task) :
    Priced (UnservedStep host clientFd allowed) (Unserved tasks : Pool ι κ → Prop) Pool.rank
      (fun agent => if agent = .server then 1 else 0)
      (fun agent => if agent = .outside then 7 else 0) where
  keeps _ _ _ h hs := h.step hs
  pays agent s s' h hs := by
    cases agent with
    | server =>
      obtain ⟨ev, hstep⟩ := hs.step
      have hserver : ¬ Outside s s' := fun hout => nomatch hs.agent.mpr hout
      exact rank_lt_of_step h.attentive h.idle hstep hserver
    | outside => exact (hs.agent.mp rfl).rank_le.2

/-- A task in the queue does not wait for a lost wake-up: between two tasks, however the client
handlers and the workers follow one another, the server makes only so many steps of its own
before a worker takes the first task of the queue, and until then it can make one. -/
theorem queued_task_taken [Fintype ι] [Fintype κ] [Nonempty ι] {agents : List Agent}
    (hrun : PoolRun host clientFd allowed st s) (hidle : s.Idle) (hqueue : s.taskQueue ≠ [])
    (hpath : Path (UnservedStep host clientFd allowed) s agents s') :
    agents.count .server ≤
        4 * Fintype.card ι + 7 * Fintype.card κ + 7 * agents.count .outside ∧
      s.taskQueue <+: s'.taskQueue ∧
      ∃ s'', PoolStep host clientFd allowed .internal s' s'' ∧ ¬ Outside s' s'' := by
  have hpriced : Priced (UnservedStep host clientFd allowed) (Unserved s.taskQueue : Pool ι κ → Prop)
      Pool.rank _ _ := priced_unservedStep s.taskQueue
  have hstart : Unserved s.taskQueue s :=
    ⟨hrun.attentive, hrun.invariant.locked, hidle, List.prefix_rfl⟩
  have hend : Unserved s.taskQueue s' := hpath.preserves hstart hpriced.keeps
  refine ⟨?_, hend.queued, ?_⟩
  · have hbound := hpriced.bound hstart hpath
    have hrank := s.rank_le
    rw [sum_map_ite, sum_map_ite] at hbound
    omega
  · have hqueue' : s'.taskQueue ≠ [] := fun hnil =>
      hqueue (List.prefix_nil.mp (hnil ▸ hend.queued))
    obtain ⟨s'', hs, hlt⟩ := hend.attentive.exists_step hend.locked hend.idle hqueue'
    exact ⟨s'', hs, fun hout => absurd hout.rank_le.1 (Nat.not_le.mpr hlt)⟩

/-- One client and one worker, after the client handler has queued a task and before it notifies. -/
theorem queued_task_taken_at_unlock : ∃ s : Pool Unit Unit, s.clients () = .notifying ∧
    [⟨0, 5, [1]⟩] <+: s.taskQueue ∧ ∃ s'', PoolStep .plain (fun _ => 5) (fun _ _ => True) .internal
      s s'' ∧ ¬ Outside s s'' := by
  obtain ⟨s, hrun, hpc, hqueue, halive, hidle⟩ : ∃ s : Pool Unit Unit,
      PoolRun .plain (fun _ => 5) (fun _ _ => True) (.empty []) s ∧ s.clients () = .unlocking ∧
        s.taskQueue = [⟨0, 5, [1]⟩] ∧ s.terminated = false ∧ s.Idle := by
    have hreceived : PoolRun .plain (fun _ => 5) (fun _ _ => True) (.empty [])
        ((Pool.start (.empty []) : Pool Unit Unit).setClient () (.locking [1])) :=
      PoolRun.start.step (.receive rfl rfl)
    have hlocked := hreceived.step (.clientLock (c := ()) rfl rfl rfl)
    have hpushed := hlocked.step (.push (c := ()) rfl rfl)
    exact ⟨_, hpushed, rfl, rfl, rfl, by simp [Pool.Idle, Pool.Running, Pool.start]⟩
  have hstep : PoolStep .plain (fun _ => 5) (fun _ _ => True) .internal s _ :=
    .clientUnlock halive hpc
  have hlt : ((s.setClient () .notifying).setMtx none).rank < s.rank :=
    Pool.rank_setClient_lt hpc (by simp [ClientPc.rank])
  have hunserved : UnservedStep .plain (fun _ => 5) (fun _ _ => True) .server s _ :=
    { step := ⟨_, hstep⟩
      agent := ⟨by simp, fun hout => absurd hout.rank_le.1 (Nat.not_le.mpr hlt)⟩
      idle := hidle
      idle' := hidle }
  obtain ⟨-, hwaits, hprogress⟩ := queued_task_taken hrun hidle (by simp [hqueue])
    (.cons hunserved (.nil _))
  exact ⟨_, rfl, hqueue ▸ hwaits, hprogress⟩

end RedisServer.WorkerPool
