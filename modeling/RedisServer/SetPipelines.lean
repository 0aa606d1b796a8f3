import RedisServer.OrderedOverwrites
import RedisServer.RequestDecoding

/-!
# Pipelines of SETs

The parser's run on a buffer that begins with SETs: every one of them assigns and is
answered in turn, then comes whatever stands behind them, and then every level of the
recursion sends the whole buffer to every replica.
-/

namespace RedisServer.SetPipelines
open ByteStrings CxxStrings RespGrammar InteractionPrograms ServerState Utils RedisParser
open RequestChain RequestRuns RequestDecoding OrderedOverwrites

def afterSets (host : Host) : List SetCall → Store → Store
  | [], st => st
  | call :: calls, st => afterSets host calls (afterSet host call.key call.value call.px st)

/-- The assignments of a list of SETs, with the expiry times they compute. -/
def assigned (host : Host) : List SetCall → Store → List (Bytes × DBValue)
  | [], _ => []
  | call :: calls, st =>
    (call.key, ⟨call.value, expiryTime host st call.px⟩) ::
      assigned host calls (afterSet host call.key call.value call.px st)

/-- What the parser does at `pos` when it comes there from a SET: nothing if no command
stands there. -/
def Continues (host : Host) (clientFd : ℤ) (input : Bytes) (pos : ℕ) (st : Store) (tr : List Op)
    (r : Except Exception Unit) (st' : Store) : Prop :=
  if byteAt host input pos = byte '*' then
    Exec (parser host clientFd input) (parseRESPCommand host clientFd input pos) st tr r st'
  else tr = [] ∧ r = .ok () ∧ st' = st

/-- The sockets that each SET of a pipeline sends to, at the end of the run: none if the
run throws before the recursion returns. -/
def finalTargets (host : Host) (r : Except Exception Unit) (info : ServerInfo) : List ℤ :=
  match r with
  | .ok () => targets host info
  | .error _ => []

/-- The operations of a run on `calls` and then `rest` whose SETs send to `fds`. -/
structure PipelineTrace (host : Host) (input : Bytes) (calls : List SetCall) (st : Store)
    (fds : List ℤ) (rest tr : List Op) : Prop where
  messages : messages tr = List.replicate calls.length okResponse ++ messages rest
  sendsTo : ∀ fd, sendsTo fd tr =
    sendsTo fd rest ++ List.replicate (calls.length * fds.count fd) input
  assignments : assignments tr = assigned host calls st ++ assignments rest

variable {host : Host} {clientFd : ℤ} {input : Bytes}

section Continues

variable {pos : ℕ} {st st' : Store} {tr : List Op} {r : Except Exception Unit}

theorem continues_iff_exec (h : byteAt host input pos = byte '*') :
    Continues host clientFd input pos st tr r st' ↔
      Exec (parser host clientFd input) (parseRESPCommand host clientFd input pos) st tr r st' := by
  rw [Continues, if_pos h]

theorem continues_iff_eq (h : byteAt host input pos ≠ byte '*') :
    Continues host clientFd input pos st tr r st' ↔ tr = [] ∧ r = .ok () ∧ st' = st := by
  rw [Continues, if_neg h]

end Continues

theorem serverInfo_afterSets (calls : List SetCall) (st : Store) :
    (afterSets host calls st).serverInfo = st.serverInfo := by
  induction calls generalizing st with
  | nil => rfl
  | cons call calls ih => exact ih _

/-- SETs overwrite the database in their order. -/
theorem database_afterSets (calls : List SetCall) (st : Store) :
    (afterSets host calls st).database = overwrite (assigned host calls st) st.database := by
  induction calls generalizing st with
  | nil => rfl
  | cons call calls ih => exact ih _

/-- The run on a pipeline of SETs, given the run on what follows it. -/
theorem continues_sets {cmds : List (List Bytes)} {calls : List SetCall} {e : Bytes} {pos : ℕ}
    {st st' : Store} {rest : List Op} {r : Except Exception Unit} (hp : Pipeline cmds e)
    (hsets : SetCommands cmds calls) (hfit : ∀ c ∈ cmds, Fits c) (hlen : input.length ≤ maxSize)
    (hat : StandsAt input pos e)
    (hrest : Continues host clientFd input (pos + e.length) (afterSets host calls st) rest r st') :
    ∃ tr, PipelineTrace host input calls st (finalTargets host r st'.serverInfo) rest tr ∧
      Continues host clientFd input pos st tr r st' := by
  induction hsets generalizing e pos st with
  | nil =>
    obtain rfl := hp.eq_nil
    exact ⟨rest, ⟨rfl, fun fd => by simp, rfl⟩, hrest⟩
  | @cons c call cs calls hset hsets ih =>
    have hstar : byteAt host input pos = byte '*' := byteAt_pipeline hp hat
    obtain ⟨hc', hcs⟩ := List.forall_mem_cons.mp hfit
    cases hp with
    | @cons _ e _ es hc hp =>
      have hSET := setAt_of_setCommand host hset hc hc' hlen hat.left
      rw [List.length_append, ← Nat.add_assoc] at hrest
      obtain ⟨tr, ⟨hm, hs, ha⟩, htr⟩ := ih hp hcs hat.right hrest
      simp only [continues_iff_exec hstar]
      by_cases hnext : byteAt host input (pos + e.length) = byte '*'
      · rw [continues_iff_exec hnext] at htr
        cases r with
        | ok =>
          obtain ⟨tr₁, tr₂, h₁, h₂, hexec⟩ := exec_set hSET hnext htr
          refine ⟨_, ⟨?_, fun fd => ?_, ?_⟩, hexec⟩
          · simp [h₁.messages, h₂.messages, hm, List.replicate_succ]
          · simp only [sendsTo_append, h₁.sendsTo, h₂.sendsTo, hs, List.nil_append, finalTargets,
              List.length_cons, Nat.succ_mul, List.replicate_add, List.append_assoc]
          · simp [h₁.assignments, h₂.assignments, ha, assigned]
        | error =>
          obtain ⟨tr₁, h₁, hexec⟩ := exec_set_throws hSET hnext htr
          refine ⟨_, ⟨?_, fun fd => ?_, ?_⟩, hexec⟩
          · simp [h₁.messages, hm, List.replicate_succ]
          · simp [h₁.sendsTo, hs, finalTargets]
          · simp [h₁.assignments, ha, assigned]
      · rw [continues_iff_eq hnext] at htr
        obtain ⟨rfl, rfl, rfl⟩ := htr
        obtain ⟨tr₁, tr₂, h₁, h₂, hexec⟩ := @exec_lastSet _ clientFd _ _ _ st _ _ _ hSET hnext
        have hcalls : calls = [] := by
          cases hsets with
          | nil => rfl
          | cons => exact absurd (byteAt_pipeline hp hat.right) hnext
        subst hcalls
        refine ⟨_, ⟨?_, fun fd => ?_, ?_⟩, hexec⟩
        · simpa [h₁.messages, h₂.messages] using hm
        · simpa [h₁.sendsTo, h₂.sendsTo, afterSet, finalTargets] using hs fd
        · simpa [h₁.assignments, h₂.assignments, assigned] using ha

theorem handles_sets_of_tail {cmds : List (List Bytes)} {calls : List SetCall} {e tail : Bytes}
    (host : Host) (clientFd : ℤ) (st : Store) (hp : Pipeline cmds e) (hsets : SetCommands cmds calls)
    (hne : cmds ≠ []) (hfit : ∀ c ∈ cmds, Fits c) (hlen : (e ++ tail).length ≤ maxSize)
    (htail : tail.head? ≠ some (byte '*')) :
    ∃ tr, PipelineTrace host (e ++ tail) calls st (targets host st.serverInfo) [] tr ∧
      Handles host clientFd (e ++ tail) st tr (.ok ()) (afterSets host calls st) := by
  have hat : StandsAt (e ++ tail) 0 (e ++ tail) := standsAt_self _
  have hbyte : byteAt host (e ++ tail) (0 + e.length) ≠ byte '*' := by
    cases tail with
    | nil => exact byteAt_end (by simp)
    | cons b tail =>
      rw [byteAt_of_standsAt hat.right]
      simpa using htail
  have hend : Continues host clientFd (e ++ tail) (0 + e.length) (afterSets host calls st) [] (.ok ())
      (afterSets host calls st) := (continues_iff_eq hbyte).mpr ⟨rfl, rfl, rfl⟩
  obtain ⟨tr, htrace, htr⟩ := continues_sets hp hsets hfit hlen hat.left hend
  rw [serverInfo_afterSets] at htrace
  obtain ⟨c, cs, rfl⟩ := List.exists_cons_of_ne_nil hne
  exact ⟨tr, htrace, (continues_iff_exec (byteAt_pipeline hp hat.left)).mp htr⟩

theorem handles_sets {cmds : List (List Bytes)} {calls : List SetCall} (host : Host)
    (clientFd : ℤ) (st : Store) (hp : Pipeline cmds input) (hsets : SetCommands cmds calls)
    (hne : cmds ≠ []) (hlen : input.length ≤ intMax) :
    ∃ tr, PipelineTrace host input calls st (targets host st.serverInfo) [] tr ∧
      Handles host clientFd input st tr (.ok ()) (afterSets host calls st) := by
  have h := @handles_sets_of_tail cmds calls input [] host clientFd st hp hsets hne
    (Pipeline.fits hp hlen) (by simpa using le_maxSize_of_le_intMax hlen) (by simp)
  rwa [List.append_nil] at h

/-- The entry a SET writes while the clock stands at `t`. -/
def SetCall.entryAt (t : ℤ) (call : SetCall) : Bytes × DBValue :=
  (call.key, ⟨call.value, match call.px with
    | none => 0
    | some ms => t + ms⟩)

theorem assigned_of_clock {t : ℤ} (hclock : ∀ n, host.clock n = t) (calls : List SetCall)
    (st : Store) : assigned host calls st = calls.map (SetCall.entryAt t) := by
  induction calls generalizing st with
  | nil => rfl
  | cons call calls ih =>
    rw [assigned, List.map_cons, ih]
    obtain ⟨k, v, px⟩ := call
    cases px with
    | none => rfl
    | some ms => simp [SetCall.entryAt, expiryTime, hclock]

/-- SETs in front of anything but a command, with the clock standing still: each is
answered, and together they overwrite the database in their order. -/
theorem sets_overwrite_before_tail {cmds : List (List Bytes)} {calls : List SetCall}
    {e tail : Bytes} {t : ℤ} (host : Host) (clientFd : ℤ) (st : Store)
    (hclock : ∀ n, host.clock n = t) (hp : Pipeline cmds e) (hsets : SetCommands cmds calls)
    (hne : cmds ≠ []) (hfit : ∀ c ∈ cmds, Fits c) (hlen : (e ++ tail).length ≤ maxSize)
    (htail : tail.head? ≠ some (byte '*')) :
    (∃ tr st', Handles host clientFd (e ++ tail) st tr (.ok ()) st') ∧
    ∀ tr r st', Handles host clientFd (e ++ tail) st tr r st' →
      r = .ok () ∧ messages tr = List.replicate cmds.length okResponse ∧
      st'.database = overwrite (calls.map (SetCall.entryAt t)) st.database := by
  obtain ⟨tr, htrace, hexec⟩ := handles_sets_of_tail host clientFd st hp hsets hne hfit hlen htail
  refine ⟨⟨tr, _, hexec⟩, fun tr' r st' hexec' => ?_⟩
  obtain ⟨rfl, rfl, rfl⟩ := hexec'.deterministic hexec
  refine ⟨rfl, ?_, ?_⟩
  · simpa [hsets.length_eq] using htrace.messages
  · rw [database_afterSets, assigned_of_clock hclock]

/-- A SET, a SET with an expiry time and the beginning of a third request without its
array header. -/
theorem sets_overwrite_before_tail_of_two :
    let host := { Host.plain with clock := fun _ => 1000 }
    let e := createArrayReponse [str "SET", str "a", str "1"] ++
      createArrayReponse [str "set", str "b", str "2", str "px", str "50"]
    (∃ tr st', Handles host 5 (e ++ str "$3\r\n") (.empty []) tr (.ok ()) st') ∧
    ∀ tr r st', Handles host 5 (e ++ str "$3\r\n") (.empty []) tr r st' →
      r = .ok () ∧ messages tr = List.replicate 2 okResponse ∧
      st'.database = overwrite ([⟨str "a", str "1", none⟩, ⟨str "b", str "2", some 50⟩].map
        (SetCall.entryAt 1000)) (Store.empty []).database :=
  sets_overwrite_before_tail _ 5 _ (fun _ => rfl)
    (.cons (createArrayReponse_request _) (.single (createArrayReponse_request _)))
    (.cons (.plain (by decide)) (.cons (.expiring (by decide) (by decide)) .nil)) (by simp)
    (by simp only [List.forall_mem_cons, List.not_mem_nil, false_imp_iff, implies_true, and_true]
        exact ⟨⟨by decide, by decide⟩, ⟨by decide, by decide⟩⟩) (by decide) (by decide)

end RedisServer.SetPipelines
