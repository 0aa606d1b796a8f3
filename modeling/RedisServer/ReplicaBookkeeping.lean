import RedisServer.ChainContracts
import RedisServer.CommandRuns
import RedisServer.RequestDecoding

/-!
# The count and the list of connected slaves

PSYNC counts a replica and adds its socket in two separate calls. Between them the count is
one ahead; everywhere else it is the length of the list, so the propagation loop, which
stops at the count, looks up only sockets that are there.
-/

namespace RedisServer.ReplicaBookkeeping
open ByteStrings CxxStrings InteractionPrograms ServerState Utils RedisParser ParserDiscipline
open RequestChain RequestRuns RequestDecoding ChainContracts CommandEffects CommandRuns

/-- The count is the length of the list, and a slave has no replicas. -/
structure Balanced (info : ServerInfo) : Prop where
  connectedSlaves : info.connectedSlaves = info.connectedSlavesFd.length
  slave : info.role = str "slave" → info.connectedSlavesFd = []

/-- Between the two calls of PSYNC. -/
structure Ahead (info : ServerInfo) : Prop where
  connectedSlaves : info.connectedSlaves = info.connectedSlavesFd.length + 1
  role : info.role = str "master"

/-- The states that the requests handled so far, one at a time, lead to. -/
inductive Reachable (host : Host) : Store → Prop where
  | master (db : Database) (masterReplid : Bytes) (ticks : ℕ) :
      Reachable host ⟨db, ServerInfo.initial masterReplid, ticks⟩
  | slave (db : Database) (masterReplid : Bytes) (ticks : ℕ) :
      Reachable host ⟨db, (ServerInfo.initial masterReplid).updateRole (str "slave"), ticks⟩
  | handles {st st' : Store} {clientFd : ℤ} {input : Bytes} {tr : List Op}
      (h : Reachable host st) (hx : Handles host clientFd input st tr (.ok ()) st') :
      Reachable host st'

/-- Every operation is performed, and every procedure called, on balanced books, but for the
second call of PSYNC; lookups in the list are in range. -/
def bookkeeping : Contract parserSignature Store where
  allows
    | .updateConnectedSlaves n, st =>
      Balanced st.serverInfo ∧ Ahead { st.serverInfo with connectedSlaves := n }
    | .addConnectedSlave _, st => Ahead st.serverInfo
    | .getConnectedSlaveFd i, st =>
      Balanced st.serverInfo ∧ i < st.serverInfo.connectedSlavesFd.length
    | _, st => Balanced st.serverInfo
  calls _ st := Balanced st.serverInfo
  returns st := Balanced st.serverInfo

/-- Operations that neither write the books nor look up a socket. -/
def leavesBooks : Op → Bool
  | .updateConnectedSlaves _ | .addConnectedSlave _ | .getConnectedSlaveFd _ => false
  | _ => true

theorem leavesBooks_of_isQuery (o : Op) (h : isQuery o = true) : leavesBooks o = true := by
  cases o <;> first | rfl | exact nomatch h

variable {host : Host} {clientFd : ℤ} {input : Bytes} {st st' : Store} {tr : List Op}
  {t : Thread parserSignature}

theorem Balanced.count_eq_zero {info : ServerInfo} (h : Balanced info) (hrole : info.role = str "slave") :
    info.connectedSlaves = 0 := by
  rw [h.connectedSlaves, h.slave hrole]
  rfl

theorem Ahead.add {info : ServerInfo} (h : Ahead info) (fd : ℤ) :
    Balanced { info with connectedSlavesFd := info.connectedSlavesFd ++ [fd] } where
  connectedSlaves := by simp [h.connectedSlaves]
  slave hrole := absurd (h.role.symm.trans hrole) (by decide)

theorem serverInfo_performOp {o : Op} (h : leavesBooks o = true) (st : Store) :
    (performOp host o st).2.serverInfo = st.serverInfo := by
  cases o with
  | databaseAt key => simp only [performOp]; split <;> rfl
  | _ => first | rfl | cases h

/-- A program without calls that leaves the books alone. -/
theorem keeps_of_always {α : Type} {p : Parser α} (h : p.Always (fun o : Op => leavesBooks o = true)
    (fun _ => False)) (hst : Balanced st.serverInfo) :
    p.Keeps (parser host clientFd input) bookkeeping (fun _ st => Balanced st.serverInfo) st := by
  refine .of_always h (fun o st ho hbal => ?_) (fun o st ho hbal => ?_) (fun _ h => h) hst
  · cases o <;> first | exact hbal | exact nomatch ho
  · exact (serverInfo_performOp ho st).symm ▸ hbal

theorem keeps_psync (hst : Balanced st.serverInfo) :
    (parsePSYNCCommand host clientFd).Keeps (parser host clientFd input) bookkeeping
      (fun _ => bookkeeping.returns) st := by
  refine keeps_parsePSYNCCommand (fun _ h => h) (fun _ _ h _ => h) (fun _ h => h) (fun hrole => ?_) hst
  have hahead : Ahead { st.serverInfo with connectedSlaves := st.serverInfo.connectedSlaves + 1 } :=
    ⟨by simp [hst.connectedSlaves], hrole⟩
  exact ⟨⟨hst, hahead⟩, hahead, hahead.add clientFd⟩

theorem keeps_propagate (i : ℕ) (hst : Balanced st.serverInfo) :
    (propagate input i).Keeps (parser host clientFd input) bookkeeping
      (fun _ => bookkeeping.returns) st := by
  apply keeps_getInfo_bind hst
  split
  · next hi =>
    have hlt : i < st.serverInfo.connectedSlavesFd.length := by
      have hcount := hst.connectedSlaves
      change (i : ℤ) < st.serverInfo.connectedSlaves at hi
      omega
    exact ⟨⟨hst, hlt⟩, hst, hst, fun _ h => h⟩
  · exact hst

theorem keeps_setTail (hst : Balanced st.serverInfo) (next : ℕ) :
    (setTail input next).Keeps (parser host clientFd input) bookkeeping
      (fun _ => bookkeeping.returns) st := by
  have hend : ∀ st : Store, Balanced st.serverInfo → setEnd.Keeps (parser host clientFd input)
      bookkeeping (fun _ => bookkeeping.returns) st := by
    intro st hst
    apply keeps_getInfo_bind hst
    split
    · exact ⟨hst, fun st' h => ⟨h, h⟩⟩
    · exact ⟨hst, hst⟩
  refine Program.Keeps.bind ((keeps_of_always ((queries_charAt _ _).always leavesBooks_of_isQuery) hst).mono fun c st hst => ?_)
  split
  · exact ⟨hst, hend⟩
  · exact hend st hst

theorem keeps_dispatch {n : ℤ} {name : Bytes} {p : ℕ} (hst : Balanced st.serverInfo) :
    (dispatch host clientFd input n name p).Keeps (parser host clientFd input) bookkeeping
      (fun _ => bookkeeping.returns) st := by
  by_cases hset : name = str "SET"
  · subst hset
    rw [dispatch_set, parseSETCommand_eq]
    refine Program.Keeps.bind (Program.Keeps.mono (keeps_of_always ?_ hst)
      fun next st hst => keeps_setTail hst next)
    exact always_setHead leavesBooks_of_isQuery (fun _ _ => rfl) rfl input p n
  by_cases hpsync : name = str "PSYNC"
  · subst hpsync
    exact keeps_psync hst
  · exact keeps_of_always (always_dispatch leavesBooks_of_isQuery rfl hset
      (fun _ => ⟨fun _ => rfl, fun _ => rfl⟩) (absurd · hpsync) fun _ _ => rfl) hst

/-- The parser keeps the books. -/
theorem bookkeeping_keptBy (host : Host) (clientFd : ℤ) (input : Bytes) :
    bookkeeping.KeptBy (parser host clientFd input) := by
  intro f st hst
  cases f with
  | propagate i => exact keeps_propagate i hst
  | parseRESPCommand pos =>
    refine ⟨hst, ?_⟩
    dsimp only
    apply Program.Keeps.bind (p := charAt input pos)
    apply (keeps_of_always ((queries_charAt _ _).always leavesBooks_of_isQuery) hst).mono
    intro c st hst
    split
    · exact ⟨hst, hst⟩
    · apply Program.Keeps.bind
      exact (keeps_of_always ((queries_parseCommandName _ _).always leavesBooks_of_isQuery) hst).mono fun _ st hst =>
        keeps_dispatch hst

/-- The books are balanced between two requests. -/
theorem Reachable.balanced (h : Reachable host st) : Balanced st.serverInfo := by
  induction h with
  | master => exact ⟨rfl, fun _ => rfl⟩
  | slave => exact ⟨rfl, fun _ => rfl⟩
  | handles _ hx ih =>
    exact hx.keeps (bookkeeping_keptBy _ _ _)
      (bookkeeping_keptBy _ _ _ (.parseRESPCommand 0) _ ih) () rfl

/-- The propagation loop alone, which leaves the books alone. -/
def propagation (info : ServerInfo) : Contract parserSignature Store where
  allows
    | .getConnectedSlaveFd i, st => st.serverInfo = info ∧ (i : ℤ) < info.connectedSlaves
    | _, st => st.serverInfo = info
  calls f st := (∃ i, f = .propagate i) ∧ st.serverInfo = info
  returns st := st.serverInfo = info

theorem propagation_keptBy (host : Host) (clientFd : ℤ) (input : Bytes) (info : ServerInfo) :
    (propagation info).KeptBy (parser host clientFd input) := by
  rintro f st ⟨⟨i, rfl⟩, rfl⟩
  have hloop : (if (i : ℤ) < st.serverInfo.connectedSlaves then do
        let fd ← perform (.getConnectedSlaveFd i)
        perform (.send fd input)
        invoke (.propagate (i + 1))
      else return ()).Keeps (parser host clientFd input) (propagation st.serverInfo)
        (fun _ => (propagation st.serverInfo).returns) st := by
    split
    · next hi => exact ⟨⟨rfl, hi⟩, rfl, ⟨⟨_, rfl⟩, rfl⟩, fun _ h => h⟩
    · exact rfl
  exact ⟨rfl, hloop⟩

/-- Inside the loop the books are those the loop began with. -/
theorem serverInfo_of_keeps {info : ServerInfo}
    (h : t.Keeps (parser host clientFd input) (propagation info) st) : st.serverInfo = info := by
  rcases h.cases with ⟨o, k, -, ho⟩ | ⟨f, hf⟩ | hst
  · cases o <;> first | exact ho | exact ho.1
  · exact hf.2
  · exact hst

/-- At every point the books are balanced or one ahead. -/
theorem balanced_or_ahead_of_keeps (h : t.Keeps (parser host clientFd input) bookkeeping st) :
    Balanced st.serverInfo ∨ Ahead st.serverInfo := by
  rcases h.cases with ⟨o, k, -, ho⟩ | ⟨f, hf⟩ | hst
  · cases o with
    | addConnectedSlave fd => exact .inr ho
    | updateConnectedSlaves n => exact .inl ho.1
    | getConnectedSlaveFd i => exact .inl ho.1
    | _ => exact .inl ho
  · exact .inl hf
  · exact .inl hst

/-- In every reachable state and at every point of the next request, the propagation loop runs
on balanced books and looks up sockets that are there, and a slave has no replicas. -/
theorem reachable_books (h : Reachable host st)
    (hr : Reaches (parser host clientFd input) (.start (parseRESPCommand host clientFd input 0)) st
      tr t st') :
    (∀ i ks, t = ⟨propagate input i, ks⟩ → ∀ tr' u st'',
      Reaches (parser host clientFd input) (.start (propagate input i)) st' tr' u st'' →
        st''.serverInfo.connectedSlaves = st''.serverInfo.connectedSlavesFd.length ∧
        ∀ j k, u.view (parser host clientFd input) = .performs (.getConnectedSlaveFd j) k →
          j < st''.serverInfo.connectedSlavesFd.length) ∧
    (∀ j k, t.view (parser host clientFd input) = .performs (.getConnectedSlaveFd j) k →
      j < st'.serverInfo.connectedSlavesFd.length) ∧
    (st'.serverInfo.role = str "slave" →
      st'.serverInfo.connectedSlaves = 0 ∧ st'.serverInfo.connectedSlavesFd = []) := by
  have hbody := bookkeeping_keptBy host clientFd input
  have ht : t.Keeps (parser host clientFd input) bookkeeping st' :=
    hr.keeps hbody (.start (hbody (.parseRESPCommand 0) _ h.balanced))
  refine ⟨?_, fun j k hv => (ht.performs hv).1.2, fun hrole => ?_⟩
  · rintro i ks rfl tr' u st'' hloop
    have hbal : Balanced st'.serverInfo := (ht.performs rfl).1
    have hprop := propagation_keptBy host clientFd input st'.serverInfo
    have hu : u.Keeps (parser host clientFd input) (propagation st'.serverInfo) st'' :=
      hloop.keeps hprop (.start (hprop (.propagate i) _ ⟨⟨i, rfl⟩, rfl⟩))
    rw [serverInfo_of_keeps hu]
    refine ⟨hbal.connectedSlaves, fun j k hv => ?_⟩
    have hj : (j : ℤ) < st'.serverInfo.connectedSlaves := (hu.performs hv).1.2
    have hcount := hbal.connectedSlaves
    omega
  · rcases balanced_or_ahead_of_keeps ht with hbal | hahead
    · exact ⟨hbal.count_eq_zero hrole, hbal.slave hrole⟩
    · exact absurd (hahead.role.symm.trans hrole) (by decide)

/-- The end of a SET on a master with a replica looks up its socket. -/
private theorem reaches_lookup (hrole : st.serverInfo.role = str "master")
    (hcount : ((0 : ℕ) : ℤ) < st.serverInfo.connectedSlaves) (ks : List (Parser Unit)) : ∃ tr t k,
    Reaches (parser host clientFd input) ⟨setEnd, ks⟩ st tr t st ∧
      t.view (parser host clientFd input) = .performs (.getConnectedSlaveFd 0) k := by
  have hend : Reaches (parser host clientFd input) ⟨setEnd, ks⟩ st [.serverInfo]
      ⟨if st.serverInfo.role = str "master" then do
        invoke (.propagate 0)
        communicationOver
      else communicationOver, ks⟩ st := .performs rfl (.refl _ _)
  rw [if_pos hrole] at hend
  have hround : Reaches (parser host clientFd input)
      ⟨propagate input 0, communicationOver :: ks⟩ st [.serverInfo]
      ⟨if ((0 : ℕ) : ℤ) < st.serverInfo.connectedSlaves then do
        let fd ← perform (.getConnectedSlaveFd 0)
        perform (.send fd input)
        invoke (.propagate (0 + 1))
      else return (), communicationOver :: ks⟩ st := .performs rfl (.refl _ _)
  rw [if_pos hcount] at hround
  exact ⟨_, _, _, hend.trans (.internal rfl hround), rfl⟩

/-- A replica registers and another client sets a key: the loop looks up the replica. -/
theorem reachable_books_of_psync : ∃ st tr t st' k, Reachable .plain st ∧
    Reaches (parser .plain 6 (createArrayReponse [str "SET", str "k", str "v"]))
      (.start (parseRESPCommand .plain 6 (createArrayReponse [str "SET", str "k", str "v"]) 0)) st
      tr t st' ∧
    t.view (parser .plain 6 (createArrayReponse [str "SET", str "k", str "v"])) =
      .performs (.getConnectedSlaveFd 0) k ∧ 0 < st'.serverInfo.connectedSlavesFd.length := by
  obtain ⟨tr₀, hpsync⟩ : ∃ tr, Handles .plain 5 (createArrayReponse [str "PSYNC", str "?", str "-1"])
      (.empty []) tr (.ok ()) (.empty [5]) := ⟨_, Machine.eval_sound (n := 1) rfl⟩
  have hreach : Reachable .plain (.empty [5]) := .handles (.master ∅ [] 0) hpsync
  have hcall : SetCommand [str "SET", str "k", str "v"] ⟨str "k", str "v", none⟩ :=
    .plain (by decide)
  have hset := setAt_of_setCommand .plain hcall (createArrayReponse_request _) ⟨by decide, by decide⟩
    (by decide) ⟨[], [], (List.append_nil _).symm, rfl⟩
  obtain ⟨tr, -, hr⟩ := @reaches_setEnd .plain 6 _ _ _ (.empty [5]) _ _ _ hset (by decide) []
  obtain ⟨tr', t, k, hr', hview⟩ := @reaches_lookup .plain 6
    (createArrayReponse [str "SET", str "k", str "v"])
    (afterSet .plain (str "k") (str "v") none (.empty [5])) rfl (by decide) []
  have hlookup := hr.trans hr'
  exact ⟨_, _, t, _, k, hreach, hlookup, hview, (reachable_books hreach hlookup).2.1 0 k hview⟩

end RedisServer.ReplicaBookkeeping
