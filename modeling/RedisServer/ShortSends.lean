import RedisServer.ServedRequests

/-!
# Sends that take a part of a message

`send` may take fewer bytes than it is given, and `response_handler` goes on with the rest. Nobody
else sees how often it has to: every run of the server is a run in which the last of these sends
takes the whole message at once, up to the beginning of the message that is being sent.
-/

namespace RedisServer.ResponseExchange
open ByteStrings InteractionPrograms ServerState RedisParser

/-- The flag waits return only when notified, and no send fails. A send takes any number of the
bytes that it is given. -/
def Unbroken (timeouts : Bool) (x : Exchange) (mv : Move) : Prop :=
  Notified x mv ∧ mv ≠ .handlerSend none ∧ (timeouts = false → mv ≠ .handlerTimeout)

/-- The handler sends `k` more bytes of its message, one in each send. -/
theorem Reachable.sendsBytes {M : Machine parserSignature Store} {p : Parser Unit} {st st₁ : Store}
    {timeouts : Bool} {x : Exchange} {log : List Action} {totalSent : ℕ}
    (h : Reachable M p st (Unbroken timeouts) ⟨x, st₁, log⟩) (hpc : x.handlerPc = .sending totalSent)
    (halive : x.parserPc ≠ .terminated) (k : ℕ) (hk : totalSent + k ≤ x.response.length) :
    ∃ log', Reachable M p st (Unbroken timeouts)
        ⟨{ x with handlerPc := .sending (totalSent + k) }, st₁, log'⟩ ∧
      writes log' = writes log ++ ((x.response.drop totalSent).take k).map ([·]) := by
  induction k with
  | zero =>
    have hsame : { x with handlerPc := .sending (totalSent + 0) } = x := by
      rw [Nat.add_zero, ← hpc]
    exact ⟨log, by rwa [hsame], by simp⟩
  | succ k ih =>
    obtain ⟨log', hrun, hwrites⟩ := ih (by omega)
    have hmv : Unbroken timeouts { x with handlerPc := .sending (totalSent + k) }
        (.handlerSend (some 1)) := ⟨nofun, nofun, nofun⟩
    have hsend : HandlerStep M (.handlerSend (some 1)) { x with handlerPc := .sending (totalSent + k) }
        [(x.response.drop (totalSent + k)).take 1]
        { x with handlerPc := .sending (totalSent + k + 1) } :=
      .send rfl (show totalSent + k < x.response.length by omega)
        (show 1 ≤ x.response.length - (totalSent + k) by omega)
    refine ⟨_, hrun.step _ hmv (.handler hsend halive), ?_⟩
    obtain ⟨c, cs, hleft⟩ := List.exists_cons_of_length_pos
      (show 0 < (x.response.drop (totalSent + k)).length by rw [List.length_drop]; omega)
    rw [writes_append, hwrites, writes_map_write, List.take_add, List.drop_drop, hleft, List.map_append,
      List.append_assoc]
    rfl

/-- A session with whole sends can also send its messages byte by byte. -/
theorem Reachable.bytewise {M : Machine parserSignature Store} {p : Parser Unit} {st : Store}
    {timeouts : Bool} {s : Session} (h : Reachable M p st (Undisturbed timeouts) s) :
    ∃ log, Reachable M p st (Unbroken timeouts) ⟨s.exchange, s.store, log⟩ ∧
      writes log = (writes s.log).flatten.map ([·]) := by
  induction h with
  | start => exact ⟨[], .start, rfl⟩
  | @step s acts x' st' mv _ hmv hs ih =>
    obtain ⟨log, hrun, hwrites⟩ := ih
    by_cases hsend : ∃ sent, mv = .handlerSend sent
    · obtain ⟨sent, rfl⟩ := hsend
      cases hs with
      | parser hs => cases hs
      | handler hs halive =>
        cases hs with
        | sendFailed hpc => cases hmv.2.1 none _ rfl hpc
        | @send _ totalSent n hpc hleft hn =>
          obtain ⟨log', hrun', hwrites'⟩ := hrun.sendsBytes hpc halive n (by omega)
          refine ⟨log', hrun', ?_⟩
          rw [hwrites', hwrites, writes_append, writes_map_write, List.flatten_append,
            List.map_append, List.flatten_singleton]
    · have hmv' : Unbroken timeouts s.exchange mv :=
        ⟨hmv.1, fun h => hsend ⟨none, h⟩, hmv.2.2⟩
      have hquiet : writes acts = [] := by
        cases hs with
        | parser hs => exact writes_map_op _
        | handler hs =>
          cases hs with
          | send => exact absurd ⟨_, rfl⟩ hsend
          | _ => rfl
      exact ⟨log ++ acts, hrun.step mv hmv' hs, by simp [hwrites, hquiet]⟩

/-- A message of the given length of which a part has been sent counts as not sent. -/
def HandlerPc.whole (length : ℕ) : HandlerPc → HandlerPc
  | .sending totalSent => if totalSent < length then .sending 0 else .sending totalSent
  | pc => pc

namespace Exchange

/-- The exchange in which nothing of the response has been sent before all of it is sent. -/
def whole (x : Exchange) : Exchange :=
  { x with handlerPc := x.handlerPc.whole x.response.length }

/-- The part of the response that has been sent, if it is not all of it. -/
def begun (x : Exchange) : Bytes :=
  match x.handlerPc with
  | .sending totalSent => if totalSent < x.response.length then x.response.take totalSent else []
  | _ => []

end Exchange

variable {M : Machine parserSignature Store} {mv : Move} {x x' : Exchange} {st st' : Store}
  {tr : List Op} {ws : List Bytes} {acts : List Action} {timeouts : Bool}

theorem HandlerPc.whole_of_zero {pc : HandlerPc} (h : ∀ n, pc = .sending n → n = 0) (length : ℕ) :
    pc.whole length = pc := by
  cases pc with
  | sending n => simp [HandlerPc.whole, h n rfl]
  | _ => rfl

theorem whole_of_zero (h : ∀ n, x.handlerPc = .sending n → n = 0) : x.whole = x := by
  rw [Exchange.whole, HandlerPc.whole_of_zero h]

theorem begun_of_zero (h : ∀ n, x.handlerPc = .sending n → n = 0) : x.begun = [] := by
  cases hpc : x.handlerPc with
  | sending n =>
    obtain rfl := h n hpc
    simp [Exchange.begun, hpc]
  | _ => simp [Exchange.begun, hpc]

theorem HandlerPc.whole_notified (pc : HandlerPc) (length : ℕ) :
    pc.notified.whole length = (pc.whole length).notified := by
  cases pc with
  | sending n =>
    simp only [HandlerPc.notified, HandlerPc.whole]
    split <;> rfl
  | _ => rfl

theorem whole_notified (x : Exchange) (pc : ParserPc) :
    ({ x with parserPc := pc, handlerPc := x.handlerPc.notified } : Exchange).whole =
      { x.whole with parserPc := pc, handlerPc := x.whole.handlerPc.notified } := by
  simp only [Exchange.whole, HandlerPc.whole_notified]

theorem begun_notified (x : Exchange) (pc : ParserPc) :
    ({ x with parserPc := pc, handlerPc := x.handlerPc.notified } : Exchange).begun = x.begun := by
  cases hpc : x.handlerPc <;> simp [Exchange.begun, HandlerPc.notified, hpc]

/-- The parser does not see how much has been sent. -/
theorem ParserStep.whole (h : ParserStep M mv x st tr x' st') :
    ParserStep M mv x.whole st tr x'.whole st' ∧ x'.begun = x.begun := by
  cases h with
  | internal hpc hv => exact ⟨.internal hpc hv, rfl⟩
  | raise hpc hv => exact ⟨.raise hpc hv, rfl⟩
  | plain hpc hv ho => exact ⟨.plain hpc hv ho, rfl⟩
  | entryPass hpc hv hflag => exact ⟨.entryPass hpc hv hflag, rfl⟩
  | entryTest hpc hv hflag => exact ⟨.entryTest hpc hv hflag, rfl⟩
  | entryLock hpc => exact ⟨.entryLock hpc, rfl⟩
  | entryWait hpc => exact ⟨.entryWait hpc, rfl⟩
  | entrySpurious hpc => exact ⟨.entrySpurious hpc, rfl⟩
  | entryRelock hpc hv => exact ⟨.entryRelock hpc hv, rfl⟩
  | msgLock hpc hv hmtx => exact ⟨.msgLock hpc hv hmtx, rfl⟩
  | msgPush hpc hv => exact ⟨.msgPush hpc hv, rfl⟩
  | msgUnlock hpc => exact ⟨.msgUnlock hpc, rfl⟩
  | msgNotify hpc =>
    refine ⟨?_, begun_notified x _⟩
    rw [whole_notified]
    exact .msgNotify hpc
  | sentPass hpc hflag => exact ⟨.sentPass hpc hflag, rfl⟩
  | sentTest hpc hflag => exact ⟨.sentTest hpc hflag, rfl⟩
  | sentLock hpc => exact ⟨.sentLock hpc, rfl⟩
  | sentWait hpc => exact ⟨.sentWait hpc, rfl⟩
  | sentSpurious hpc => exact ⟨.sentSpurious hpc, rfl⟩
  | sentRelock hpc => exact ⟨.sentRelock hpc, rfl⟩
  | sentReset hpc => exact ⟨.sentReset hpc, rfl⟩
  | communicationOver hpc hv => exact ⟨.communicationOver hpc hv, rfl⟩

/-- A handler that is not sending begins at most with the first byte. -/
theorem HandlerStep.zero (h : HandlerStep M mv x ws x') (hx : ∀ n, x.handlerPc ≠ .sending n) (n : ℕ)
    (hn : x'.handlerPc = .sending n) : n = 0 := by
  cases h with
  | send hpc => exact absurd hpc (hx _)
  | testResponse => exact (HandlerPc.sending.inj hn).symm
  | _ => cases hn

/-- Moves one after another, with what is observed of them. -/
inductive Path (M : Machine parserSignature Store) (allowed : Exchange → Move → Prop) (x : Exchange)
    (st : Store) : List Action → Exchange → Store → Prop where
  | refl : Path M allowed x st [] x st
  | tail {acts x₁ st₁ mv acts' x₂ st₂} (h : Path M allowed x st acts x₁ st₁) (hmv : allowed x₁ mv)
      (hs : Step M mv x₁ st₁ acts' x₂ st₂) : Path M allowed x st (acts ++ acts') x₂ st₂

theorem Path.single {allowed : Exchange → Move → Prop} (hmv : allowed x mv)
    (hs : Step M mv x st acts x' st') : Path M allowed x st acts x' st' := Path.refl.tail hmv hs

/-- Whatever is done with the moves `allowed` can be done with the moves `allowed'`, where a send
takes the whole message. What reaches a socket is then to the messages as `R` says. -/
structure Mends (allowed allowed' : Exchange → Move → Prop) (R : Bytes → List Bytes → Prop) :
    Prop where
  other : ∀ {x mv}, allowed x mv → (∀ sent, mv ≠ .handlerSend sent) → ∀ y, allowed' y mv
  handler : ∀ y, allowed' y .handler
  send : ∀ {y}, y.handlerPc = .sending 0 → allowed' y (.handlerSend (some y.response.length))
  nil : R [] []
  whole : ∀ {b ms} m, R b ms → R (b ++ m) (ms ++ [m])
  part : ∀ {x b ms m p}, allowed x (.handlerSend none) → p <+: m → R b ms → R (b ++ p) (ms ++ [m])

theorem mends_unbroken (timeouts : Bool) :
    Mends (Unbroken timeouts) (Undisturbed timeouts) fun b ms => b = ms.flatten where
  other h hsend _ := ⟨h.1, fun sent _ hmv _ => absurd hmv (hsend sent), h.2.2⟩
  handler _ := ⟨nofun, nofun, nofun⟩
  send hpc := by
    refine ⟨nofun, fun sent total hmv htotal => ?_, nofun⟩
    rw [hpc] at htotal
    cases htotal
    cases hmv
    rfl
  nil := rfl
  whole m h := by simp [h]
  part h := absurd rfl h.2.1

/-- What the whole exchange does instead of a step. -/
structure WholeStep (M : Machine parserSignature Store) (allowed' : Exchange → Move → Prop)
    (R : Bytes → List Bytes → Prop) (x : Exchange) (st : Store) (acts : List Action) (x' : Exchange)
    (st' : Store) (acts' : List Action) : Prop where
  performed : operations acts' = operations acts
  written : ∀ {b ms}, R b ms → ∃ b', b ++ (x.begun ++ (writes acts).flatten) = b' ++ x'.begun ∧
    R b' (ms ++ writes acts')
  path : Path M allowed' x.whole st acts' x'.whole st'

theorem ParserStep.ne_send (h : ParserStep M mv x st tr x' st') (sent : Option ℕ) :
    mv ≠ .handlerSend sent := by
  cases h <;> nofun

theorem HandlerStep.ne_send (h : HandlerStep M mv x ws x') (hx : ∀ n, x.handlerPc ≠ .sending n)
    (sent : Option ℕ) : mv ≠ .handlerSend sent := by
  cases h with
  | send hpc => exact absurd hpc (hx _)
  | sendFailed hpc => exact absurd hpc (hx _)
  | _ => nofun

theorem HandlerStep.writes_nil (h : HandlerStep M mv x ws x') (hx : ∀ n, x.handlerPc ≠ .sending n) :
    ws = [] := by
  cases h with
  | send hpc => exact absurd hpc (hx _)
  | _ => rfl

variable {allowed allowed' : Exchange → Move → Prop} {R : Bytes → List Bytes → Prop}

/-- Nothing is written, and nothing of a message is lost. -/
theorem written_of_quiet (hwrites : writes acts = []) (hbegun : x'.begun = x.begun) {b : Bytes}
    {ms : List Bytes} (h : R b ms) :
    ∃ b', b ++ (x.begun ++ (writes acts).flatten) = b' ++ x'.begun ∧ R b' (ms ++ writes acts) :=
  ⟨b, by rw [hwrites, hbegun, List.flatten_nil, List.append_nil], by rwa [hwrites, List.append_nil]⟩

/-- A handler that is not sending makes the same step. -/
theorem HandlerStep.wholeStep_of_quiet (h : HandlerStep M mv x ws x') (hmends : Mends allowed allowed' R)
    (hmv : allowed x mv) (halive : x.parserPc ≠ .terminated) (hx : ∀ n, x.handlerPc ≠ .sending n) :
    WholeStep M allowed' R x st (ws.map .write) x' st (ws.map .write) := by
  obtain rfl := h.writes_nil hx
  have hx' := h.zero hx
  have hzero : ∀ n, x.handlerPc = .sending n → n = 0 := fun n hn => absurd hn (hx n)
  refine ⟨rfl, written_of_quiet rfl ?_, .single (hmends.other hmv (h.ne_send hx) _) ?_⟩
  · rw [begun_of_zero hx', begun_of_zero hzero]
  · rw [whole_of_zero hx', whole_of_zero hzero]
    exact .handler h halive

/-- A send that leaves something changes nothing. -/
theorem wholeStep_of_short {totalSent n : ℕ} (hpc : x.handlerPc = .sending totalSent)
    (hleft : totalSent < x.response.length) (hn : totalSent + n < x.response.length) :
    WholeStep M allowed' R x st [.write ((x.response.drop totalSent).take n)]
      { x with handlerPc := .sending (totalSent + n) } st [] where
  performed := rfl
  written {b ms} h := by
    refine ⟨b, ?_, by rwa [writes_nil, List.append_nil]⟩
    simp [Exchange.begun, writes, hpc, hleft, hn, List.take_add]
  path := by
    have hsame : ({ x with handlerPc := .sending (totalSent + n) } : Exchange).whole = x.whole := by
      simp [Exchange.whole, HandlerPc.whole, hpc, hleft, hn]
    rw [hsame]
    exact .refl

/-- The whole message is sent at once. -/
theorem path_of_send (hmends : Mends allowed allowed' R) {totalSent : ℕ}
    (hpc : x.handlerPc = .sending totalSent) (halive : x.parserPc ≠ .terminated)
    (hleft : totalSent < x.response.length) : Path M allowed' x.whole st [.write x.response]
      { x with handlerPc := .sending x.response.length } st := by
  have hwhole : x.whole.handlerPc = .sending 0 := by
    simp [Exchange.whole, HandlerPc.whole, hpc, hleft]
  have hsend : HandlerStep M (.handlerSend (some x.response.length)) x.whole
      [(x.response.drop 0).take x.response.length]
      { x.whole with handlerPc := .sending (0 + x.response.length) } :=
    .send hwhole (Nat.lt_of_le_of_lt (Nat.zero_le _) hleft) (Nat.sub_zero _).ge
  rw [List.drop_zero, List.take_length, Nat.zero_add] at hsend
  exact .single (hmends.send hwhole) (.handler hsend halive)

/-- The send that takes the last bytes is the one that takes all of them. -/
theorem wholeStep_of_last (hmends : Mends allowed allowed' R) {totalSent n : ℕ}
    (hpc : x.handlerPc = .sending totalSent) (halive : x.parserPc ≠ .terminated)
    (hleft : totalSent < x.response.length) (hn : totalSent + n = x.response.length) :
    WholeStep M allowed' R x st [.write ((x.response.drop totalSent).take n)]
      { x with handlerPc := .sending (totalSent + n) } st [.write x.response] where
  performed := rfl
  written {b ms} h := by
    have hbytes : x.response.take totalSent ++ (x.response.drop totalSent).take n = x.response := by
      rw [← List.take_add, hn, List.take_length]
    refine ⟨b ++ x.response, ?_, hmends.whole x.response h⟩
    simp [Exchange.begun, writes, hpc, hleft, hn, hbytes]
  path := by
    have hend : ({ x with handlerPc := .sending (totalSent + n) } : Exchange).whole
        = { x with handlerPc := .sending x.response.length } := by
      simp [Exchange.whole, HandlerPc.whole, hn]
    rw [hend]
    exact path_of_send hmends hpc halive hleft

/-- Where a send fails, the whole message is sent and the rest of it is lost. -/
theorem wholeStep_of_failed (hmends : Mends allowed allowed' R) {totalSent : ℕ}
    (hmv : allowed x (.handlerSend none)) (hpc : x.handlerPc = .sending totalSent)
    (halive : x.parserPc ≠ .terminated) (hleft : totalSent < x.response.length) :
    WholeStep M allowed' R x st [] { x with handlerPc := .setSent, response := [] } st
      [.write x.response] where
  performed := rfl
  written {b ms} h := by
    refine ⟨b ++ x.response.take totalSent, ?_, hmends.part hmv (List.take_prefix _ _) h⟩
    simp [Exchange.begun, hpc, hleft]
  path := by
    have hdone : HandlerStep M .handler { x with handlerPc := .sending x.response.length } []
        { x with handlerPc := .setSent, response := [] } := .sendDone rfl le_rfl
    have hallowed : allowed' { x with handlerPc := .sending x.response.length } .handler :=
      hmends.handler _
    exact (path_of_send hmends hpc halive hleft).tail hallowed (.handler hdone halive)

theorem HandlerStep.wholeStep (h : HandlerStep M mv x ws x') (hmends : Mends allowed allowed' R)
    (hmv : allowed x mv) (halive : x.parserPc ≠ .terminated) :
    ∃ acts', WholeStep M allowed' R x st (ws.map .write) x' st acts' := by
  by_cases hsending : ∀ n, x.handlerPc ≠ .sending n
  · exact ⟨_, h.wholeStep_of_quiet hmends hmv halive hsending⟩
  · cases h with
    | @send _ totalSent n hpc hleft hn =>
      have hle : totalSent + n ≤ x.response.length := by omega
      rcases Nat.lt_or_eq_of_le hle with hlt | heq
      · exact ⟨_, wholeStep_of_short hpc hleft hlt⟩
      · exact ⟨_, wholeStep_of_last hmends hpc halive hleft heq⟩
    | sendFailed hpc hleft => exact ⟨_, wholeStep_of_failed hmends hmv hpc halive hleft⟩
    | @sendDone _ totalSent hpc hall =>
      have hwhole : x.whole = x := by
        have hsame : x.handlerPc.whole x.response.length = x.handlerPc := by
          rw [hpc, HandlerPc.whole, if_neg (Nat.not_lt.mpr hall)]
        rw [Exchange.whole, hsame]
      refine ⟨[], rfl, written_of_quiet rfl ?_, .single (hmends.other hmv nofun _) ?_⟩
      · simp [Exchange.begun, hpc, Nat.not_lt.mpr hall]
      · rw [hwhole]
        exact .handler (.sendDone hpc hall) halive
    | _ => simp_all

theorem Step.wholeStep (h : Step M mv x st acts x' st') (hmends : Mends allowed allowed' R)
    (hmv : allowed x mv) : ∃ acts', WholeStep M allowed' R x st acts x' st' acts' := by
  cases h with
  | parser h =>
    obtain ⟨hstep, hbegun⟩ := h.whole
    exact ⟨_, rfl, written_of_quiet (writes_map_op _) hbegun,
      .single (hmends.other hmv h.ne_send _) (.parser hstep)⟩
  | handler h halive => exact h.wholeStep hmends hmv halive

end RedisServer.ResponseExchange

namespace RedisServer.WorkerPool
open ByteStrings InteractionPrograms ServerState Utils RedisParser ResponseExchange ServedRequests

variable {ι κ : Type}

def WorkerPc.whole : WorkerPc → WorkerPc
  | .running task x => .running task x.whole
  | pc => pc

def WorkerPc.runs : WorkerPc → Bool
  | .running _ _ => true
  | _ => false

/-- The server in which sends take whole messages, with its own log. -/
@[simps] def Pool.whole (s : Pool ι κ) (log : List (Task × Action)) : Pool ι κ :=
  { s with workers := fun w => (s.workers w).whole, log := log }

/-- The operations of all tasks. -/
def performed (log : List (Task × Action)) : List (Task × Op) :=
  log.filterMap fun e =>
    match e.2 with
    | .op o => some (e.1, o)
    | .write _ => none

/-- The bytes that the response handlers have written to a socket. -/
def replied (fd : ℤ) (log : List (Task × Action)) : Bytes :=
  log.flatMap fun e => if e.1.clientFd = fd then (writes [e.2]).flatten else []

/-- The messages, or parts of messages, that have been written to a socket. -/
def sentTo (fd : ℤ) (log : List (Task × Action)) : List Bytes :=
  log.flatMap fun e => if e.1.clientFd = fd then writes [e.2] else []

theorem performed_append (log log' : List (Task × Action)) :
    performed (log ++ log') = performed log ++ performed log' := List.filterMap_append

theorem replied_append (fd : ℤ) (log log' : List (Task × Action)) :
    replied fd (log ++ log') = replied fd log ++ replied fd log' := List.flatMap_append

theorem sentTo_append (fd : ℤ) (log log' : List (Task × Action)) :
    sentTo fd (log ++ log') = sentTo fd log ++ sentTo fd log' := List.flatMap_append

theorem replied_eq_flatten (fd : ℤ) (log : List (Task × Action)) :
    replied fd log = (sentTo fd log).flatten := by
  induction log with
  | nil => rfl
  | cons e log ih =>
    have hsplit : replied fd (e :: log) = replied fd [e] ++ replied fd log := replied_append fd [e] log
    have hsplit' : sentTo fd (e :: log) = sentTo fd [e] ++ sentTo fd log := sentTo_append fd [e] log
    rw [hsplit, hsplit', List.flatten_append, ih]
    by_cases hfd : e.1.clientFd = fd <;> simp [replied, sentTo, hfd]

theorem performed_map (task : Task) (acts : List Action) :
    performed (acts.map (Prod.mk task)) = (operations acts).map (Prod.mk task) := by
  induction acts with
  | nil => rfl
  | cons a acts ih =>
    cases a with
    | op o => simpa [performed, operations] using ih
    | write b => simpa [performed, operations] using ih

theorem sentTo_map (fd : ℤ) (task : Task) (acts : List Action) :
    sentTo fd (acts.map (Prod.mk task)) = if task.clientFd = fd then writes acts else [] := by
  induction acts with
  | nil => simp [sentTo]
  | cons a acts ih =>
    rw [List.map_cons, ← List.singleton_append, sentTo_append, ih]
    by_cases hfd : task.clientFd = fd
    · simp only [sentTo, hfd, if_true, List.flatMap_cons, List.flatMap_nil, List.append_nil]
      rw [← writes_append, List.singleton_append]
    · simp [sentTo, hfd]

theorem replied_map (fd : ℤ) (task : Task) (acts : List Action) :
    replied fd (acts.map (Prod.mk task)) = if task.clientFd = fd then (writes acts).flatten else [] := by
  rw [replied_eq_flatten, sentTo_map]
  split <;> rfl

/-- The two logs show the same operations and, up to the beginning of the message that a running
task is sending, the same bytes. -/
structure SameTraffic (s : Pool ι κ) (log : List (Task × Action)) : Prop where
  performed : performed log = performed s.log
  idle : s.Idle → ∀ fd, replied fd s.log = replied fd log
  busy : ∀ w task x, s.Running w task x → ∀ fd,
    replied fd s.log = replied fd log ++ if task.clientFd = fd then x.begun else []

/-- The logs show the same operations, and what has reached a socket is to the messages of `log` as
`R` says, up to the beginning of the message that a running task is sending. -/
structure Mirrors (R : Bytes → List Bytes → Prop) (s : Pool ι κ) (log : List (Task × Action)) :
    Prop where
  performed : performed log = performed s.log
  idle : s.Idle → ∀ fd, R (replied fd s.log) (sentTo fd log)
  busy : ∀ w task x, s.Running w task x → ∀ fd, ∃ b,
    replied fd s.log = b ++ (if task.clientFd = fd then x.begun else []) ∧ R b (sentTo fd log)

/-- If nothing is lost, the same bytes have been written. -/
theorem Mirrors.sameTraffic {s : Pool ι κ} {log : List (Task × Action)}
    (h : Mirrors (fun b ms => b = ms.flatten) s log) : SameTraffic s log where
  performed := h.performed
  idle hidle fd := (h.idle hidle fd).trans (replied_eq_flatten fd log).symm
  busy w task x hr fd := by
    obtain ⟨b, hb, rfl⟩ := h.busy w task x hr fd
    rw [hb, replied_eq_flatten]

theorem WorkerPc.whole_eq_waiting {pc : WorkerPc} : pc.whole = .waiting ↔ pc = .waiting := by
  cases pc <;> simp [WorkerPc.whole]

variable {s s' : Pool ι κ} {log : List (Task × Action)}

variable {R : Bytes → List Bytes → Prop} {allowed allowed' : Exchange → Move → Prop}

theorem mirrors_start (hnil : R [] []) (st : Store) : Mirrors R (Pool.start st : Pool ι κ) [] where
  performed := rfl
  idle _ _ := hnil
  busy w task x hr := by simp [Pool.Running, Pool.start] at hr

/-- Steps that no task makes. -/
theorem Mirrors.frame (h : Mirrors R s log) (hlog : s'.log = s.log)
    (hrun : ∀ w task x, s'.Running w task x ↔ s.Running w task x) : Mirrors R s' log where
  performed := by
    rw [hlog]
    exact h.performed
  idle hidle fd := by
    rw [hlog]
    exact h.idle (fun w task x hr => hidle w task x ((hrun w task x).mpr hr)) fd
  busy w task x hr fd := by
    rw [hlog]
    exact h.busy w task x ((hrun w task x).mp hr) fd

theorem Mirrors.setMtx (h : Mirrors R s log) (owner : Option (ι ⊕ κ)) :
    Mirrors R (s.setMtx owner) log := ⟨h.performed, h.idle, h.busy⟩

theorem Mirrors.push (h : Mirrors R s log) (task : Task) : Mirrors R (s.push task) log :=
  ⟨h.performed, h.idle, h.busy⟩

theorem Mirrors.setQueue (h : Mirrors R s log) (tasks : List Task) :
    Mirrors R (s.setQueue tasks) log := ⟨h.performed, h.idle, h.busy⟩

theorem Mirrors.finish (h : Mirrors R s log) (task : Task) : Mirrors R (s.finish task) log :=
  ⟨h.performed, h.idle, h.busy⟩

@[simp] theorem whole_setMtx (s : Pool ι κ) (owner : Option (ι ⊕ κ)) (log : List (Task × Action)) :
    (s.setMtx owner).whole log = (s.whole log).setMtx owner := rfl

@[simp] theorem whole_push (s : Pool ι κ) (task : Task) (log : List (Task × Action)) :
    (s.push task).whole log = (s.whole log).push task := rfl

@[simp] theorem whole_setQueue (s : Pool ι κ) (tasks : List Task) (log : List (Task × Action)) :
    (s.setQueue tasks).whole log = (s.whole log).setQueue tasks := rfl

@[simp] theorem whole_finish (s : Pool ι κ) (task : Task) (log : List (Task × Action)) :
    (s.finish task).whole log = (s.whole log).finish task := rfl

section Threads

variable [DecidableEq ι] [DecidableEq κ]

omit [DecidableEq ι] in
theorem Mirrors.setClient (h : Mirrors R s log) (c : κ) (pc : ClientPc) :
    Mirrors R (s.setClient c pc) log := ⟨h.performed, h.idle, h.busy⟩

omit [DecidableEq κ] in
/-- A worker that runs no task steps on. -/
theorem Mirrors.setWorker {w : ι} {pc : WorkerPc} (h : Mirrors R s log)
    (hpc : s.workers w = pc) (pc' : WorkerPc) (hold : pc.runs = false) (hnew : pc'.runs = false) :
    Mirrors R (s.setWorker w pc') log := by
  refine h.frame (by rfl) fun w' task x => ?_
  rw [Pool.Running, Pool.Running, Pool.setWorker_workers]
  by_cases hw : w' = w
  · subst hw
    rw [Function.update_self, hpc]
    constructor
    · rintro rfl
      cases hnew
    · rintro rfl
      cases hold
  · rw [Function.update_of_ne hw]

omit [DecidableEq κ] in
/-- A worker begins with a task. -/
theorem Mirrors.begin (h : Mirrors R s log) (hidle : s.Idle) (w : ι) (task : Task) (x : Exchange)
    (hbegun : x.begun = []) : Mirrors R (s.setWorker w (.running task x)) log where
  performed := h.performed
  idle hidle' := absurd (Function.update_self ..) (hidle' w task x)
  busy w' task' y hr fd := by
    by_cases hw : w' = w
    · subst hw
      rw [Pool.Running, Pool.setWorker_workers, Function.update_self] at hr
      cases hr
      exact ⟨_, by rw [hbegun, ite_self, List.append_nil]; rfl, h.idle hidle fd⟩
    · rw [Pool.Running, Pool.setWorker_workers, Function.update_of_ne hw] at hr
      exact absurd hr (hidle w' task' y)

omit [DecidableEq κ] in
/-- The task that runs is done. -/
theorem Mirrors.end {w : ι} {task : Task} {x : Exchange} (h : Mirrors R s log)
    (hr : s.Running w task x) (honly : ∀ w' task' y, s.Running w' task' y → w' = w)
    (hbegun : x.begun = []) : Mirrors R (s.setWorker w .unlocking) log where
  performed := h.performed
  idle _ fd := by
    obtain ⟨b, hb, hR⟩ := h.busy w task x hr fd
    rw [hbegun, ite_self, List.append_nil] at hb
    exact hb ▸ hR
  busy w' task' y hr' := by
    rw [Pool.Running, Pool.setWorker_workers] at hr'
    by_cases hw : w' = w
    · rw [hw, Function.update_self] at hr'
      cases hr'
    · rw [Function.update_of_ne hw] at hr'
      exact absurd (honly w' task' y hr') hw

omit [DecidableEq ι] in
@[simp] theorem whole_setClient (s : Pool ι κ) (c : κ) (pc : ClientPc) (log : List (Task × Action)) :
    (s.setClient c pc).whole log = (s.whole log).setClient c pc := rfl

omit [DecidableEq κ] in
@[simp] theorem whole_setWorker (s : Pool ι κ) (w : ι) (pc : WorkerPc) (log : List (Task × Action)) :
    (s.setWorker w pc).whole log = (s.whole log).setWorker w pc.whole := by
  have hworkers : (fun w' => (Function.update s.workers w pc w').whole)
      = Function.update (fun w' => (s.workers w').whole) w pc.whole := by
    funext w'
    by_cases hw : w' = w
    · subst hw
      rw [Function.update_self, Function.update_self]
    · rw [Function.update_of_ne hw, Function.update_of_ne hw]
  simp only [Pool.whole, Pool.setWorker, hworkers]

variable {host : Host} {clientFd : κ → ℤ} {timeouts : Bool} {st : Store} {ev : Event κ}

omit [DecidableEq ι] [DecidableEq κ] in
/-- While a worker takes or runs a task no other one runs a task. -/
theorem Locked.only_running (h : Locked s) {w w' : ι} {task : Task} {x : Exchange}
    (hw : (s.workers w).holds = true) (hr : s.Running w' task x) : w' = w := by
  have hheld : (s.workers w').holds = true := by
    rw [hr]
    rfl
  exact Sum.inl.inj (Option.some.inj ((h.worker hheld).symm.trans (h.worker hw)))

/-- The task that runs makes several moves. -/
theorem PoolRun.path {w : ι} {task : Task} {x x' : Exchange} {acts : List Action} {st' : Store}
    (h : PoolRun host clientFd allowed st s) (halive : s.terminated = false)
    (hpc : s.workers w = .running task x) (hx : x.parserPc ≠ .terminated)
    (hpath : Path (task.parser host) allowed x s.store acts x' st') :
    PoolRun host clientFd allowed st ((s.setWorker w (.running task x')).record task acts x' st') := by
  induction hpath with
  | refl =>
    have hworkers : Function.update s.workers w (.running task x) = s.workers :=
      Function.update_eq_self_iff.mpr hpc.symm
    have hsame : (s.setWorker w (.running task x)).record task [] x s.store = s := by
      rw [Pool.record, decide_eq_false hx, ← halive, List.map_nil, List.append_nil, Pool.setWorker,
        hworkers]
    rwa [hsame]
  | @tail acts x₁ st₁ mv acts' x₂ st₂ _ hmv hs ih =>
    have hstep := ih.step (@PoolStep.run ι κ _ _ host clientFd allowed
      ((s.setWorker w (.running task x₁)).record task acts x₁ st₁) w task x₁ mv acts' x₂ st₂
      (decide_eq_false hs.alive) (Function.update_self ..) hmv hs)
    have hsame : (((s.setWorker w (.running task x₁)).record task acts x₁ st₁).setWorker w
        (.running task x₂)).record task acts' x₂ st₂
        = (s.setWorker w (.running task x₂)).record task (acts ++ acts') x₂ st₂ := by
      simp [Pool.record, Pool.setWorker]
    rwa [hsame] at hstep

/-- A task takes a step, and the whole server the steps that show the same. -/
theorem Mirrors.run (h : Mirrors R s log) (hmends : Mends allowed allowed' R) (hlocked : Locked s)
    (hwhole : PoolRun host clientFd allowed' st (s.whole log)) {w : ι} {task : Task}
    {x x' : Exchange} {mv : Move} {acts : List Action} {st' : Store} (halive : s.terminated = false)
    (hpc : s.workers w = .running task x) (hmv : allowed x mv)
    (hstep : Step (task.parser host) mv x s.store acts x' st') :
    ∃ log', Mirrors R ((s.setWorker w (.running task x')).record task acts x' st') log' ∧
      PoolRun host clientFd allowed' st
        (((s.setWorker w (.running task x')).record task acts x' st').whole log') := by
  obtain ⟨acts', hsteps⟩ := hstep.wholeStep hmends hmv
  refine ⟨log ++ acts'.map (Prod.mk task), ⟨?_, fun hidle => ?_, ?_⟩, ?_⟩
  · rw [performed_append, performed_map, hsteps.performed, h.performed, ← performed_map,
      ← performed_append]
    rfl
  · exact absurd (Function.update_self ..) (hidle w task x')
  · intro w' task' y hr fd
    have hw : w' = w := by
      by_contra hne
      rw [Pool.Running, Pool.record_workers, Pool.setWorker_workers, Function.update_of_ne hne] at hr
      exact hne (hlocked.only_running (by rw [hpc]; rfl) hr)
    subst hw
    rw [Pool.Running, Pool.record_workers, Pool.setWorker_workers, Function.update_self] at hr
    cases hr
    obtain ⟨b, hb, hR⟩ := h.busy w' task x hpc fd
    rw [Pool.record_log, Pool.setWorker_log, replied_append, replied_map, hb, sentTo_append, sentTo_map]
    by_cases hfd : task.clientFd = fd
    · obtain ⟨b', hb', hR'⟩ := hsteps.written hR
      simp only [hfd, if_true]
      exact ⟨b', by rw [List.append_assoc, hb'], hR'⟩
    · exact ⟨b, by simp [hfd], by simpa [hfd] using hR⟩
  · have hpc' : (s.whole log).workers w = .running task x.whole := congrArg WorkerPc.whole hpc
    have hend : ((s.setWorker w (.running task x')).record task acts x' st').whole
        (log ++ acts'.map (Prod.mk task))
          = ((s.whole log).setWorker w (.running task x'.whole)).record task acts' x'.whole st' :=
      congrArg (fun t : Pool ι κ => t.record task acts' x'.whole st')
        (whole_setWorker s w (.running task x') log)
    rw [hend]
    exact hwhole.path halive hpc' hstep.alive hsteps.path

/-- The server takes a step, and the whole server the steps for it. -/
theorem Mirrors.step (h : Mirrors R s log) (hmends : Mends allowed allowed' R) (hlocked : Locked s)
    (hwhole : PoolRun host clientFd allowed' st (s.whole log))
    (hs : PoolStep host clientFd allowed ev s s') :
    ∃ log', Mirrors R s' log' ∧ PoolRun host clientFd allowed' st (s'.whole log') := by
  have hold {w : ι} {pc : WorkerPc} (hpc : s.workers w = pc) : (s.whole log).workers w = pc.whole :=
    congrArg WorkerPc.whole hpc
  cases hs with
  | @receive _ c recvStr halive hpc =>
    refine ⟨log, h.setClient _ _, ?_⟩
    rw [whole_setClient]
    exact hwhole.step (.receive halive hpc)
  | disconnect halive hpc =>
    refine ⟨log, h.setClient _ _, ?_⟩
    rw [whole_setClient]
    exact hwhole.step (.disconnect halive hpc)
  | clientLock halive hpc hmtx =>
    refine ⟨log, (h.setClient _ _).setMtx _, ?_⟩
    rw [whole_setMtx, whole_setClient]
    exact hwhole.step (.clientLock halive hpc hmtx)
  | push halive hpc =>
    refine ⟨log, (h.setClient _ _).push _, ?_⟩
    rw [whole_push, whole_setClient]
    exact hwhole.step (.push halive hpc)
  | clientUnlock halive hpc =>
    refine ⟨log, (h.setClient _ _).setMtx _, ?_⟩
    rw [whole_setMtx, whole_setClient]
    exact hwhole.step (.clientUnlock halive hpc)
  | @notifyOne _ c w halive hpc hw =>
    have hwoken : Mirrors R ((s.setWorker w .relocking).setClient c .receiving) log :=
      (h.setWorker hw .relocking rfl rfl).setClient c .receiving
    refine ⟨log, hwoken, ?_⟩
    rw [whole_setWorker, whole_setClient]
    exact hwhole.step (.notifyOne halive hpc (hold hw))
  | notifyNone halive hpc hw =>
    refine ⟨log, h.setClient _ _, ?_⟩
    rw [whole_setClient]
    exact hwhole.step (.notifyNone halive hpc fun w hwaiting => hw w (WorkerPc.whole_eq_waiting.mp hwaiting))
  | workerLock halive hpc hmtx =>
    refine ⟨log, (h.setWorker hpc .testing rfl rfl).setMtx _, ?_⟩
    rw [whole_setMtx, whole_setWorker]
    exact hwhole.step (.workerLock halive (hold hpc) hmtx)
  | wait halive hpc hqueue =>
    refine ⟨log, (h.setWorker hpc .waiting rfl rfl).setMtx _, ?_⟩
    rw [whole_setMtx, whole_setWorker]
    exact hwhole.step (.wait halive (hold hpc) hqueue)
  | spurious halive hpc =>
    refine ⟨log, h.setWorker hpc .relocking rfl rfl, ?_⟩
    rw [whole_setWorker]
    exact hwhole.step (.spurious halive (hold hpc))
  | relock halive hpc hmtx =>
    refine ⟨log, (h.setWorker hpc .testing rfl rfl).setMtx _, ?_⟩
    rw [whole_setMtx, whole_setWorker]
    exact hwhole.step (.relock halive (hold hpc) hmtx)
  | tested halive hpc hqueue =>
    refine ⟨log, h.setWorker hpc .popping rfl rfl, ?_⟩
    rw [whole_setWorker]
    exact hwhole.step (.tested halive (hold hpc) hqueue)
  | @pop _ w task tasks halive hpc hqueue =>
    have hidle : s.Idle := by
      intro w' task' x hr
      obtain rfl := hlocked.only_running (by rw [hpc]; rfl) hr
      cases hpc.symm.trans hr
    have hstart : (task.start host).whole = task.start host := rfl
    refine ⟨log, (h.begin hidle w task (task.start host) rfl).setQueue _, ?_⟩
    rw [whole_setQueue, whole_setWorker, WorkerPc.whole, hstart]
    exact hwhole.step (.pop halive (hold hpc) hqueue)
  | noTask halive hpc hqueue =>
    refine ⟨log, h.setWorker hpc .unlocking rfl rfl, ?_⟩
    rw [whole_setWorker]
    exact hwhole.step (.noTask halive (hold hpc) hqueue)
  | run halive hpc hmv hstep => exact h.run hmends hlocked hwhole halive hpc hmv hstep
  | @finish _ w task x halive hpc hdone =>
    have hbegun : x.begun = [] := by rw [Exchange.begun, hdone]
    have hend : x.whole.handlerPc = .done := by
      change x.handlerPc.whole _ = .done
      rw [hdone]
      rfl
    refine ⟨log, (h.end hpc (fun w' task' y => hlocked.only_running (by rw [hpc]; rfl)) hbegun).finish _,
      ?_⟩
    rw [whole_finish, whole_setWorker]
    exact hwhole.step (.finish halive (hold hpc) hend)
  | workerUnlock halive hpc =>
    refine ⟨log, (h.setWorker hpc .locking rfl rfl).setMtx _, ?_⟩
    rw [whole_setMtx, whole_setWorker]
    exact hwhole.step (.workerUnlock halive (hold hpc))

/-- Every run has a run with whole sends. -/
theorem exists_mirrored (hmends : Mends allowed allowed' R)
    (h : PoolRun host clientFd allowed st s) :
    ∃ log, PoolRun host clientFd allowed' st (s.whole log) ∧ Mirrors R s log := by
  induction h with
  | start => exact ⟨[], .start, mirrors_start hmends.nil st⟩
  | step hrun hs ih =>
    obtain ⟨log, hwhole, hmirrors⟩ := ih
    obtain ⟨log', hmirrors', hwhole'⟩ := hmirrors.step hmends hrun.invariant.locked hwhole hs
    exact ⟨log', hwhole', hmirrors'⟩

/-- Short sends are not seen by anybody. For every run of the server in which sends take parts of
messages there is one with the same clients, workers, queue and store in which every send takes a
whole message. All tasks perform the same operations in the same order, and to every socket the
response handlers have written the same bytes, up to the beginning of the message that the running
task is sending. -/
theorem short_sends_simulated (h : PoolRun host clientFd (Unbroken timeouts) st s) :
    ∃ log, PoolRun host clientFd (Undisturbed timeouts) st (s.whole log) ∧ SameTraffic s log := by
  obtain ⟨log, hwhole, hmirrors⟩ := exists_mirrored (mends_unbroken timeouts) h
  exact ⟨log, hwhole, hmirrors.sameTraffic⟩

end Threads

/-- A run can serve a request while `send` takes one byte at a time. -/
theorem short_sends_simulated_byte_by_byte : ∃ (s : Pool Unit Unit) (log : List (Task × Action)),
    s.finished = [⟨0, 5, createArrayReponse [str "PING"]⟩] ∧
      sentTo 5 s.log = (str "+PONG\r\n").map ([·]) ∧
      PoolRun .plain (fun _ => 5) (Unbroken true) (.empty []) s ∧
      PoolRun .plain (fun _ => 5) (Undisturbed true) (.empty []) (s.whole log) ∧
      SameTraffic s log := by
  have hx : Handles .plain 5 (createArrayReponse [str "PING"]) (.empty [])
      [.awaitCommunicationLoop, .enqueueMessage (str "+PONG\r\n"), .communicationOver] (.ok ())
      (.empty []) := Machine.eval_sound (n := 4) rfl
  obtain ⟨l, ⟨x, hsession, hdone⟩, hl⟩ := exists_served_of_one hx rfl (by simp)
  obtain ⟨l', hsession', hl'⟩ := hsession.bytewise
  have hstart : PoolRun .plain (fun _ => 5) (Unbroken true) (.empty []) (.start (.empty []) : Pool Unit Unit) :=
    .start
  obtain ⟨s, hrun, -, -, hfinished, hlog⟩ :=
    exists_finished_of_served hstart (atRest_start _) () () ⟨x, hsession', hdone⟩
  obtain ⟨log, hwhole, hsame⟩ := short_sends_simulated hrun
  refine ⟨s, log, hfinished, ?_, hrun, hwhole, hsame⟩
  rw [hlog, sentTo_append, sentTo_map, if_pos rfl, hl', hl]
  rfl

end RedisServer.WorkerPool
