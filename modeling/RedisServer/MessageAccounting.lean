import RedisServer.NotificationTiming
import RedisServer.RequestFailures

/-!
# Messages passed and messages sent

Every message passed is sent, in the hands of the handler, or buffered. The handler
sends one message in each iteration and leaves when the exchange is over. At most two
messages never leave a second one behind; with three, the first response that the
parser does not wait for keeps `response_sent` raised, and the rest may pile up.
-/

namespace RedisServer.ResponseExchange
open ByteStrings InteractionPrograms ServerState Utils RedisParser ParserDiscipline RequestChain
open RequestRuns RequestFailures

/-- Every `send` to the client takes all bytes it is given. -/
def FullSends (x : Exchange) (mv : Move) : Prop :=
  ∀ sent totalSent, mv = .handlerSend sent → x.handlerPc = .sending totalSent →
    sent = some (x.response.length - totalSent)

/-- The flag waits return only when notified and every send is complete. Whether the
timed wait of the handler may also return by itself is left open. -/
def Undisturbed (timeouts : Bool) (x : Exchange) (mv : Move) : Prop :=
  Notified x mv ∧ FullSends x mv ∧ (timeouts = false → mv ≠ .handlerTimeout)

/-- The message the handler has popped and not sent. -/
def Exchange.inFlight (x : Exchange) : List Bytes :=
  match x.handlerPc with
  | .testResponse => if x.response = [] then [] else [x.response]
  | .sending 0 => [x.response]
  | _ => []

/-- The handler has sent a message and not yet tested the end of the exchange. -/
def HandlerPc.delivered : HandlerPc → Bool
  | .sending (_ + 1) | .setSent | .notifySent => true
  | _ => false

/-- The handler has popped what there was and will not pop again before it tests the end
of the exchange. -/
def HandlerPc.popped : HandlerPc → Bool
  | .testResponse | .sending _ | .setSent | .notifySent | .testOver | .leaving | .joining
  | .done => true
  | _ => false

/-- The parser has pushed a message and not come past its wait for the response. -/
def ParserPc.blocked : ParserPc → Bool
  | .msgUnlock | .msgNotify | .sentTest | .sentLock | .sentWait | .sentWaiting => true
  | _ => false

def ParserPc.woken : ParserPc → Bool
  | .sentRelock | .sentReset => true
  | _ => false

structure Accounted (s : Session) : Prop where
  account : writes s.log ++ s.exchange.inFlight ++ s.exchange.responseBuf =
    messages (operations s.log)
  sending : ∀ t, s.exchange.handlerPc = .sending t →
    s.exchange.response ≠ [] ∧ (t = 0 ∨ t = s.exchange.response.length)

/-- As long as nothing has been popped the parser has not come past its first message. -/
structure Untouched (x : Exchange) : Prop where
  notSent : x.responseSent = false
  notWoken : x.parserPc.woken = false
  notDelivered : x.handlerPc.delivered = false
  first : x.responseBuf = [] ∨ (∃ m, x.responseBuf = [m]) ∧ x.parserPc.blocked = true

structure Paced (s : Session) : Prop where
  untouched : writes s.log ++ s.exchange.inFlight = [] → Untouched s.exchange
  popped : s.exchange.handlerPc.popped = true → (messages (operations s.log)).length ≤ 2 →
    s.exchange.responseBuf = []

attribute [local simp] HandlerPc.delivered HandlerPc.popped ParserPc.blocked ParserPc.woken
  ParserPc.holdsBuf HandlerPc.holdsBuf HandlerPc.left ParserPc.inMessage HandlerPc.delivering

variable {host : Host} {clientFd : ℤ} {input : Bytes} {st : Store}

theorem accounted_start (p : Parser Unit) (st : Store) : Accounted ⟨.start p, st, []⟩ where
  account := rfl
  sending := nofun

theorem paced_start (p : Parser Unit) (st : Store) : Paced ⟨.start p, st, []⟩ where
  untouched := fun _ => ⟨rfl, rfl, rfl, .inl rfl⟩
  popped := nofun

theorem messages_plain {o : Op} (h : Plain o) : messages [o] = [] := by
  cases o with
  | enqueueMessage m => exact absurd rfl (h.2.2 m)
  | _ => rfl

theorem inFlight_notified (x : Exchange) (pc : ParserPc) :
    ({ x with parserPc := pc, handlerPc := x.handlerPc.notified } : Exchange).inFlight =
      x.inFlight := by
  cases h : x.handlerPc <;> simp [Exchange.inFlight, HandlerPc.notified, h]

theorem accounted_parserStep {mv : Move} {s : Session} {x' : Exchange} {st' : Store} {tr : List Op}
    (h : Accounted s)
    (hs : ParserStep (parser host clientFd input) mv s.exchange s.store tr x' st') :
    Accounted ⟨x', st', s.log ++ tr.map .op⟩ := by
  have ⟨ha, hsend⟩ := h
  have hlog : ∀ tr, messages tr = [] →
      messages (operations (s.log ++ tr.map .op)) = messages (operations s.log) := by
    intro tr htr
    simp [htr]
  have hwrites : ∀ tr : List Op, writes (s.log ++ tr.map .op) = writes s.log := by
    intro tr
    simp
  cases hs with
  | plain hpc hv ho => exact ⟨by rw [hlog _ (messages_plain ho), hwrites]; exact ha, hsend⟩
  | msgPush hpc hv =>
    refine ⟨?_, hsend⟩
    rw [hwrites]
    simp only [operations_append, operations_map_op, messages_append, ← ha]
    simp [Exchange.inFlight, messages]
  | msgNotify hpc =>
    refine ⟨?_, fun t ht => hsend t ?_⟩
    · rw [hlog _ rfl, hwrites]
      simp only [inFlight_notified]
      exact ha
    · cases hx : s.exchange.handlerPc <;> simp_all [HandlerPc.notified]
  | _ => exact ⟨by rw [hlog _ rfl, hwrites]; exact ha, hsend⟩

theorem accounted_handlerStep {mv : Move} {s : Session} {x' : Exchange} {ws : List Bytes}
    (hd : Discipline s.exchange) (h : Accounted s) (hfull : FullSends s.exchange mv)
    (hs : HandlerStep (parser host clientFd input) mv s.exchange ws x') :
    Accounted ⟨x', s.store, s.log ++ ws.map .write⟩ := by
  have ⟨ha, hsend⟩ := h
  have hres : s.exchange.handlerPc.delivering = false → s.exchange.response = [] := by
    intro hpc
    by_contra hne
    exact Bool.false_ne_true (hpc.symm.trans (hd.delivering hne))
  cases hs with
  | popEmpty hpc hbuf =>
    refine ⟨?_, fun _ ht => by cases ht⟩
    simpa [Exchange.inFlight, hpc, hbuf, hres (by simp [hpc])] using ha
  | @popBuf _ m ms hpc hbuf =>
    have hm : m ≠ [] := hd.messages_ne_nil m (by rw [hbuf]; exact List.mem_cons_self)
    refine ⟨?_, fun _ ht => by cases ht⟩
    simpa [Exchange.inFlight, hpc, hbuf, hm] using ha
  | testResponse hpc hne =>
    refine ⟨?_, fun t ht => ?_⟩
    · simpa [Exchange.inFlight, hpc, hne] using ha
    · cases ht
      exact ⟨hne, .inl rfl⟩
  | @send _ totalSent n hpc hleft hn =>
    obtain rfl : n = s.exchange.response.length - totalSent :=
      Option.some.inj (hfull _ _ rfl hpc)
    obtain ⟨hne, rfl | rfl⟩ := hsend _ hpc
    · have hpos : s.exchange.response.length = s.exchange.response.length - 1 + 1 := by omega
      refine ⟨?_, fun t ht => ?_⟩
      · simp only [Exchange.inFlight, hpc] at ha
        simp only [Exchange.inFlight, Nat.zero_add, Nat.sub_zero, List.drop_zero, List.take_length,
          List.map_cons, List.map_nil, operations_append, messages_append, writes_append]
        rw [hpos]
        simpa [operations, writes, messages] using ha
      · cases ht
        exact ⟨hne, .inr (by simp)⟩
    · omega
  | sendFailed hpc hleft => cases hfull _ _ rfl hpc
  | @sendDone _ totalSent hpc hall =>
    obtain ⟨hne, rfl | rfl⟩ := hsend _ hpc
    · exact absurd (List.length_eq_zero_iff.mp (by omega)) hne
    · obtain ⟨n, hn⟩ := Nat.exists_eq_succ_of_ne_zero (mt List.length_eq_zero_iff.mp hne)
      refine ⟨?_, fun _ ht => by cases ht⟩
      simpa [Exchange.inFlight, hpc, hn] using ha
  | _ =>
    rename_i hpc
    refine ⟨?_, by simp⟩
    simpa [Exchange.inFlight, *] using ha

/-- A step that touches neither the buffer nor what has been passed and sent. -/
private theorem Paced.frame {s : Session} {x' : Exchange} {st' : Store} {log' : List Action}
    (h : Paced s) (hw : writes log' = writes s.log) (hi : x'.inFlight = s.exchange.inFlight)
    (hm : messages (operations log') = messages (operations s.log))
    (hb : x'.responseBuf = s.exchange.responseBuf)
    (hpop : x'.handlerPc.popped = true → s.exchange.handlerPc.popped = true)
    (hu : Untouched s.exchange → Untouched x') : Paced ⟨x', st', log'⟩ where
  untouched := fun hnil => hu (h.untouched (by rwa [← hw, ← hi]))
  popped := fun hp hlen => hb.trans (h.popped (hpop hp) (by rwa [← hm]))

/-- A step of the parser that passes no message. -/
private theorem Paced.frameParser {s : Session} {x' : Exchange} {st' : Store} {tr : List Op}
    (h : Paced s) (hm : messages tr = []) (hi : x'.inFlight = s.exchange.inFlight)
    (hb : x'.responseBuf = s.exchange.responseBuf)
    (hpop : x'.handlerPc.popped = true → s.exchange.handlerPc.popped = true)
    (hu : Untouched s.exchange → Untouched x') : Paced ⟨x', st', s.log ++ tr.map .op⟩ := by
  refine h.frame ?_ hi ?_ hb hpop hu
  · rw [writes_append, writes_map_op, List.append_nil]
  · rw [operations_append, operations_map_op, messages_append, hm, List.append_nil]

theorem paced_parserStep {mv : Move} {s : Session} {x' : Exchange} {st' : Store} {tr : List Op}
    (hd : Discipline s.exchange) (h : Paced s) (hn : Notified s.exchange mv)
    (hs : ParserStep (parser host clientFd input) mv s.exchange s.store tr x' st') :
    Paced ⟨x', st', s.log ++ tr.map .op⟩ := by
  cases hs with
  | plain hpc hv ho =>
    exact h.frameParser (messages_plain ho) rfl rfl id fun ⟨h₁, h₂, h₃, h₄⟩ => ⟨h₁, h₂, h₃, h₄⟩
  | msgPush hpc hv =>
    -- the first message finds the buffer empty, and the handler does not own the mutex
    refine ⟨fun hnil => ?_, fun hpop => ?_⟩
    · rw [writes_append, writes_map_op, List.append_nil] at hnil
      have ⟨h₁, h₂, h₃, h₄⟩ := h.untouched hnil
      have hbuf : s.exchange.responseBuf = [] := h₄.resolve_right (by simp [hpc])
      exact ⟨h₁, rfl, h₃, .inr ⟨⟨_, by rw [hbuf]; rfl⟩, rfl⟩⟩
    · have hown := hd.parser_owns (by rw [hpc]; rfl)
      have hfree := hd.handler_owns
      have hcomm := hd.left
      have hquiet := hd.quiet
      cases hx : s.exchange.handlerPc <;> simp_all
  | msgNotify hpc =>
    refine h.frameParser rfl (inFlight_notified _ _) rfl ?_ ?_
    · cases hx : s.exchange.handlerPc <;> simp [HandlerPc.notified]
    · rintro ⟨h₁, h₂, h₃, h₄⟩
      refine ⟨h₁, rfl, ?_, by simpa [hpc] using h₄⟩
      revert h₃
      cases hx : s.exchange.handlerPc <;> simp [HandlerPc.notified]
  | entrySpurious hpc => exact absurd rfl hn
  | sentSpurious hpc => exact absurd rfl hn
  | _ =>
    rename_i hpc
    refine h.frameParser rfl rfl rfl id ?_
    rintro ⟨h₁, h₂, h₃, h₄⟩
    exact ⟨by simp_all, by simp_all, h₃, by simp_all⟩

theorem paced_handlerStep {mv : Move} {s : Session} {x' : Exchange} {ws : List Bytes}
    (hd : Discipline s.exchange) (ha : Accounted s) (h : Paced s) (hfull : FullSends s.exchange mv)
    (hs : HandlerStep (parser host clientFd input) mv s.exchange ws x') :
    Paced ⟨x', s.store, s.log ++ ws.map .write⟩ := by
  have hlog : messages (operations (s.log ++ ws.map .write)) = messages (operations s.log) := by
    simp
  have hres : s.exchange.handlerPc.delivering = false → s.exchange.response = [] := by
    intro hpc
    by_contra hne
    exact Bool.false_ne_true (hpc.symm.trans (hd.delivering hne))
  cases hs with
  | notifyLoop hpc =>
    refine h.frame (by simp) (by simp [Exchange.inFlight, hpc]) hlog rfl (by simp) ?_
    rintro ⟨h₁, h₂, h₃, h₄⟩
    refine ⟨h₁, ?_, rfl, ?_⟩ <;>
      cases hx : s.exchange.parserPc <;> simp_all [ParserPc.notifiedEntry]
  | popEmpty hpc hbuf =>
    refine ⟨fun hnil => ?_, fun _ _ => hbuf⟩
    have hr := hres (by simp [hpc])
    obtain ⟨h₁, h₂, h₃, h₄⟩ := h.untouched (by simpa [Exchange.inFlight, hpc, hr] using hnil)
    exact ⟨h₁, h₂, rfl, .inl hbuf⟩
  | @popBuf _ m ms hpc hbuf =>
    have hm : m ≠ [] := hd.messages_ne_nil m (by rw [hbuf]; exact List.mem_cons_self)
    refine ⟨fun hnil => by simp [Exchange.inFlight, hm] at hnil, fun _ hlen => ?_⟩
    -- two messages in the buffer would mean that the first of three has already been popped
    by_contra hms
    rw [hlog, ← ha.account, hbuf] at hlen
    have hpos : 0 < ms.length := List.length_pos_of_ne_nil hms
    have hnil : writes s.log ++ s.exchange.inFlight = [] := by
      rw [← List.length_eq_zero_iff]
      simp only [List.length_append, List.length_cons] at hlen ⊢
      omega
    obtain ⟨-, -, -, hfirst⟩ := h.untouched hnil
    simp_all
  | testResponse hpc hne =>
    refine ⟨fun hnil => by simp [Exchange.inFlight] at hnil, fun _ hlen => ?_⟩
    exact h.popped (by simp [hpc]) (by rwa [hlog] at hlen)
  | @send _ totalSent n hpc hleft hn =>
    refine ⟨fun hnil => ?_, fun _ hlen => h.popped (by simp [hpc]) (by rwa [hlog] at hlen)⟩
    simp [writes] at hnil
  | sendFailed hpc hleft => cases hfull _ _ rfl hpc
  | @sendDone _ totalSent hpc hall =>
    refine ⟨fun hnil => ?_, fun _ hlen => h.popped (by simp [hpc]) (by rwa [hlog] at hlen)⟩
    -- a response that is sent out has been counted as delivered
    obtain ⟨hne, htotal⟩ := ha.sending _ hpc
    have hpos : 0 < s.exchange.response.length := List.length_pos_of_ne_nil hne
    obtain ⟨n, rfl⟩ : ∃ n, totalSent = n + 1 := Nat.exists_eq_succ_of_ne_zero (by omega)
    have hun := h.untouched (by simpa [Exchange.inFlight, hpc] using hnil)
    simpa [hpc] using hun.notDelivered
  | notifySent hpc =>
    refine ⟨fun hnil => ?_, fun _ hlen => h.popped (by simp [hpc]) (by rwa [hlog] at hlen)⟩
    have hun := h.untouched (by simpa [Exchange.inFlight, hpc] using hnil)
    simpa [hpc] using hun.notDelivered
  | _ =>
    rename_i hpc
    refine h.frame (by simp) (by simp [Exchange.inFlight, *]) hlog rfl (by simp [*]) ?_
    rintro ⟨h₁, h₂, h₃, h₄⟩
    exact ⟨by simp_all, by simp_all, by simp_all, by simp_all⟩

/-- While every send is complete, every message passed is sent, in flight or buffered. -/
theorem Reachable.accounted {s : Session} (h : RequestRun host clientFd input st FullSends s) :
    Accounted s := by
  induction h with
  | start => exact accounted_start _ st
  | step mv h hfull hs ih =>
    cases hs with
    | parser hs => exact accounted_parserStep ih hs
    | handler hs _ => exact accounted_handlerStep (h.discipline) ih hfull hs

/-- What has been written to the client are messages that the parser has passed. -/
theorem mem_messages_of_mem_writes {s : Session} (h : RequestRun host clientFd input st FullSends s)
    {m : Bytes} (hm : m ∈ writes s.log) : m ∈ messages (operations s.log) := by
  rw [← h.accounted.account]
  exact List.mem_append_left _ (List.mem_append_left _ hm)

theorem RequestRun.paced {timeouts : Bool} {s : Session}
    (h : RequestRun host clientFd input st (Undisturbed timeouts) s) :
    Discipline s.exchange ∧ Accounted s ∧ Paced s := by
  refine ⟨h.discipline, (h.mono fun _ _ hmv => hmv.2.1).accounted, ?_⟩
  induction h with
  | start => exact paced_start _ st
  | @step s acts x' st' mv h hmv hs ih =>
    have hd : Discipline s.exchange := h.discipline
    have ha : Accounted s := (h.mono fun _ _ hmv => hmv.2.1).accounted
    cases hs with
    | parser hs => exact paced_parserStep hd ih hmv.1 hs
    | handler hs _ => exact paced_handlerStep hd ha ih hmv.2.1 hs

/-- What has been sent and what is still buffered, when the handler has left its loop. -/
theorem sent_append_buffered_of_left {timeouts : Bool} {s : Session}
    (h : RequestRun host clientFd input st (Undisturbed timeouts) s)
    (hleft : s.exchange.handlerPc.left = true) :
    writes s.log ++ s.exchange.responseBuf = messages (operations s.log) := by
  obtain ⟨-, ha, -⟩ := h.paced
  rw [← ha.account]
  cases hx : s.exchange.handlerPc <;> simp_all [Exchange.inFlight]

/-- If the parser passes at most two messages, the handler has sent them all, each once
and in order, when it leaves its loop. -/
theorem sent_eq_passed_of_le_two {timeouts : Bool} {s : Session}
    (h : RequestRun host clientFd input st (Undisturbed timeouts) s)
    (hleft : s.exchange.handlerPc.left = true)
    (hlen : (messages (operations s.log)).length ≤ 2) :
    writes s.log = messages (operations s.log) := by
  obtain ⟨-, -, hp⟩ := h.paced
  have hpopped : s.exchange.handlerPc.popped = true := by
    cases hx : s.exchange.handlerPc <;> simp_all
  rw [← sent_append_buffered_of_left h hleft, hp.popped hpopped hlen, List.append_nil]

end RedisServer.ResponseExchange
