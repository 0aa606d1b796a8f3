import RedisServer.Handshake
import RedisServer.KeysAgreement
import RedisServer.Linearization
import RedisServer.RdbRoundTrip
import RedisServer.ReplyDiscipline
import RedisServer.ResyncOrdering

/-!
# From the command line to the replies

`main` reads the command line, then the file that it names, and only then opens the socket on
which it accepts clients. The settings may stand in any order and more than once. Until a key is SET, every GET of it is
answered by what the file holds, whatever the other clients ask for.
-/

namespace RedisServer.ServerStartup
open ByteStrings CxxStrings RespGrammar InteractionPrograms ServerState Utils RedisParser FileStreams
open ParserDiscipline RequestChain RequestRuns RequestDecoding MasterAddress Handshake ValueRoundTrip
open KeysPatterns KeysAgreement RdbParser RdbRoundTrip OrderedOverwrites LazyExpiry Linearization
open ResponseExchange ServedRequests ResyncOrdering WorkerPool

/-- What the server has when it begins to listen. -/
structure Started where
  config : Config
  info : ReplicaInfo
  database : Database

/-- The stream of a file. `disk` holds the contents of the files that can be opened. -/
def openFile (disk : Bytes → Option Bytes) (path : Bytes) : IFStream :=
  match disk path with
  | some contents => .opened contents
  | none => .closed

/-- What the system answers while the socket is set up. -/
structure SocketResults where
  serverFd : ℤ
  setsockopt : ℤ
  bind : ℤ
  listen : ℤ

/-- The checks of `main`. -/
def SocketResults.Listens (r : SocketResults) : Prop :=
  ¬ (r.serverFd < 0 ∨ r.setsockopt < 0 ∨ r.bind ≠ 0 ∨ r.listen ≠ 0)

instance : DecidablePred SocketResults.Listens := fun _ => inferInstanceAs (Decidable (¬ _))

/-- `main` up to where it listens. Without a socket it returns 1. -/
def startup (disk : Bytes → Option Bytes) (locals : ℕ → Locals) (masterReplid : Bytes)
    (results : SocketResults) (args : List Bytes) : Except Exception (Option Started) := do
  let (config, info) ← parseCommandLineArgs args .initial (.initial masterReplid)
  let file := openFile disk (config.dir ++ str "/" ++ config.dbfilename)
  let database := (parse locals ⟨file, 0, ∅⟩).2.state
  if results.Listens then return some ⟨config, info, database⟩ else return none

namespace Started

def host (s : Started) (host : Host) : Host :=
  { host with dir := s.config.dir, dbfilename := s.config.dbfilename }

def store (s : Started) : Store := ⟨s.database, s.info.toServerInfo, 0⟩

end Started

/-! ### Settings -/

/-- A setting on the command line of a master. -/
inductive Setting where
  | dir (value : Bytes)
  | dbfilename (value : Bytes)
  | port (value : ℕ)

namespace Setting

def arguments : Setting → List Bytes
  | .dir value => [str "--dir", value]
  | .dbfilename value => [str "--dbfilename", value]
  | .port value => [str "--port", toDecimal value]

def apply (config : Config) : Setting → Config
  | .dir value => { config with dir := value }
  | .dbfilename value => { config with dbfilename := value }
  | .port value => { config with port := value }

def dir? : Setting → Option Bytes
  | .dir value => some value
  | _ => none

def dbfilename? : Setting → Option Bytes
  | .dbfilename value => some value
  | _ => none

/-- A port has to be a number that `stoi` can read. -/
def Readable : Setting → Prop
  | .port value => value ≤ intMax
  | _ => True

end Setting

/-- The value that was given last. -/
def lastGiven (f : Setting → Option Bytes) (settings : List Setting) : Bytes :=
  (settings.filterMap f).getLast?.getD []

/-- No setting begins with the name of the program. -/
def IsProgram (name : Bytes) : Prop :=
  name ∉ [str "--dir", str "--dbfilename", str "--port", str "--replicaof"]

variable {settings : List Setting} {config : Config} {info : ReplicaInfo} {name : Bytes}

theorem parseCommandLineArgs_setting {setting : Setting} (h : setting.Readable) (args : List Bytes) :
    parseCommandLineArgs (setting.arguments ++ args) config info
      = parseCommandLineArgs args (setting.apply config) info := by
  cases setting with
  | dir value => simp [Setting.arguments, Setting.apply, parseCommandLineArgs]
  | dbfilename value =>
    have hne : str "--dbfilename" ≠ str "--dir" := by decide
    simp [Setting.arguments, Setting.apply, parseCommandLineArgs, hne]
  | port value =>
    have hvalue : stoi (toDecimal value) = .ok (value : ℤ) := stoi_numeral (toDecimal_numeral value) h
    exact parseCommandLineArgs_port hvalue args config info

theorem parseCommandLineArgs_settings (h : ∀ setting ∈ settings, setting.Readable) :
    parseCommandLineArgs (settings.flatMap Setting.arguments) config info
      = .ok (settings.foldl Setting.apply config, info) := by
  induction settings generalizing config with
  | nil => rfl
  | cons setting settings ih =>
    rw [List.flatMap_cons, parseCommandLineArgs_setting (h setting List.mem_cons_self)]
    exact ih fun s hs => h s (List.mem_cons_of_mem _ hs)

/-- The name of the program is skipped. -/
theorem parseCommandLineArgs_program (hname : IsProgram name) (args : List Bytes) :
    parseCommandLineArgs (name :: args) config info = parseCommandLineArgs args config info := by
  simp only [IsProgram, List.mem_cons, List.not_mem_nil, not_or] at hname
  obtain ⟨hdir, hfile, hport, hmaster, -⟩ := hname
  cases args with
  | nil => rfl
  | cons value args =>
    rw [parseCommandLineArgs, if_neg hdir, if_neg hfile, if_neg hport, if_neg hmaster]

theorem lastGiven_cons (f : Setting → Option Bytes) (setting : Setting) (settings : List Setting) :
    ((setting :: settings).filterMap f).getLast? =
      (settings.filterMap f).getLast?.or (f setting) := by
  cases hf : f setting with
  | none => simp [hf]
  | some value =>
    rw [List.filterMap_cons, hf, List.getLast?_cons]
    cases (settings.filterMap f).getLast? <;> rfl

/-- The last setting of each kind counts. -/
theorem foldl_apply (settings : List Setting) (config : Config) :
    (settings.foldl Setting.apply config).dir
        = (settings.filterMap Setting.dir?).getLast?.getD config.dir ∧
      (settings.foldl Setting.apply config).dbfilename
        = (settings.filterMap Setting.dbfilename?).getLast?.getD config.dbfilename := by
  induction settings generalizing config with
  | nil => exact ⟨rfl, rfl⟩
  | cons setting settings ih =>
    obtain ⟨hdir, hfile⟩ := ih (setting.apply config)
    rw [List.foldl_cons, hdir, hfile, lastGiven_cons, lastGiven_cons]
    cases setting
    all_goals
      constructor
      · cases (settings.filterMap Setting.dir?).getLast? <;> rfl
      · cases (settings.filterMap Setting.dbfilename?).getLast? <;> rfl

/-! ### Replies of the started server -/

/-- The file at the path, if there is one, is of the supported fragment and has these entries. -/
def Holds (disk : Bytes → Option Bytes) (path : Bytes) (entries : List Entry) : Prop :=
  match disk path with
  | none => entries = []
  | some contents => ∃ databases, RdbFile databases contents ∧ databases.flatten = entries

instance (v : DBValue) (t : ℤ) : Decidable (Due v t) := inferInstanceAs (Decidable (_ ∧ _))

/-- The reply to a GET at the time `t`. The last entry of a key counts. -/
def lookupReply (entries : List Entry) (t : ℤ) (k : Bytes) : Bytes :=
  match lastValue k entries with
  | none => nullResponse
  | some v => if Due v t then nullResponse else getReply v.value

/-- The reply to a CONFIG GET. -/
def configGetReply (dir dbfilename field : Bytes) : Bytes :=
  if field = str "dir" then createArrayReponse [field, dir]
  else if field = str "dbfile" then createArrayReponse [field, dbfilename]
  else nullResponse

/-- A request of CONFIG GET. -/
def ConfigGet (field b : Bytes) : Prop :=
  ∃ name command, name.map toUpper = str "CONFIG" ∧ command.map toUpper = str "GET" ∧
    Request [name, command, field] b ∧ Fits [name, command, field] ∧ b.length ≤ maxSize

section Replies
variable {host : Host} {clientFd : ℤ} {b k field : Bytes} {st : Store} {entries : List Entry}
  {loaded : List (ℤ × Call)} {timed : List (ℤ × Command)}

/-- A history of the entries answers a GET by the reply. -/
theorem getReply_answer (h : lastSet loaded k = lastValue k entries) (t : ℤ) :
    getReply (answer loaded k t) = lookupReply entries t k := by
  have hnull : getReply nullResponse = nullResponse := by decide
  unfold answer lookupReply
  rw [h]
  cases lastValue k entries with
  | none => exact hnull
  | some v =>
    by_cases hdue : Due v t
    · have halive : ¬ (v.expiryTime = 0 ∨ t < v.expiryTime) := by
        rw [not_or, not_lt]
        exact hdue
      simp only [if_pos hdue, if_neg halive, hnull]
    · have halive : v.expiryTime = 0 ∨ t < v.expiryTime := by
        unfold Due at hdue
        omega
      simp only [if_neg hdue, if_pos halive]

/-- The history of a key does not change until it is set. -/
theorem lastSet_historyAfter (hset : ∀ c ∈ timed, ∀ call, c.2 = .set call → call.key ≠ k) :
    lastSet (historyAfter loaded timed) k = lastSet loaded k := by
  induction timed using List.reverseRecOn with
  | nil => rfl
  | append_singleton timed c ih =>
    rw [List.forall_mem_append, List.forall_mem_singleton] at hset
    rw [historyAfter_snoc, ← ih hset.1]
    obtain ⟨t, cmd⟩ := c
    cases cmd with
    | set call => exact if_neg fun hk => hset.2 call rfl hk.symm
    | get k' => rfl
    | other => rfl

theorem handles_config (hb : ConfigGet field b) :
    ∃ tr, Handles host clientFd b st tr (.ok ()) st ∧
      messages tr = [configGetReply host.dir host.dbfilename field] := by
  obtain ⟨name, command, hname, hcommand, hr, hfit, hlen⟩ := hb
  obtain ⟨body, p, hcmd, hargs, hat, -⟩ :=
    exists_commandAt_of_request host hr hfit hlen (standsAt_self b)
  obtain ⟨body', next, hget, hfield, hat', -⟩ :=
    exists_bulkAt_of_cons host hargs (hfit.lengths command (by simp)) hlen hat
  obtain ⟨-, last, hvalue, -⟩ :=
    exists_bulkAt_of_cons host hfield (hfit.lengths field (by simp)) hlen hat'
  obtain ⟨tr₁, htr₁, h₁⟩ : Decodes (parser host clientFd b) (parseBulkString b p) st _ :=
    decodes_parseBulkString hget
  obtain ⟨tr₂, htr₂, h₂⟩ : Decodes (parser host clientFd b) (parseBulkString b next) st _ :=
    decodes_parseBulkString hvalue
  have hreply : Exec (parser host clientFd b)
      (if field = str "dir" then reply (createArrayReponse [field, host.dir])
        else if field = str "dbfile" then reply (createArrayReponse [field, host.dbfilename])
        else reply nullResponse) st
      [.enqueueMessage (configGetReply host.dir host.dbfilename field), .communicationOver]
      (.ok ()) st := by
    unfold configGetReply
    split_ifs <;> exact exec_reply _
  have hrun : Exec (parser host clientFd b) (parseCONFIGGETCommand host b p) st
      (tr₁ ++ (tr₂ ++ [.enqueueMessage (configGetReply host.dir host.dbfilename field),
        .communicationOver])) (.ok ()) st := by
    refine h₁.bind ?_
    dsimp only
    rw [if_pos hcommand]
    exact h₂.bind hreply
  rw [hname] at hcmd
  obtain ⟨reads, hreads, hx⟩ := exec_command hcmd hrun
  have hover : messages [.enqueueMessage (configGetReply host.dir host.dbfilename field),
      .communicationOver] = [configGetReply host.dir host.dbfilename field] := rfl
  exact ⟨_, hx, by simp [hreads, htr₁, htr₂, hover]⟩

end Replies

/-- What the parser leaves in the database. -/
theorem state_parse {disk : Bytes → Option Bytes} {path : Bytes} {entries : List Entry}
    (hfile : Holds disk path entries) (locals : ℕ → Locals) :
    (parse locals ⟨openFile disk path, 0, ∅⟩).2.state = overwrite entries ∅ := by
  unfold Holds at hfile
  unfold openFile
  split at hfile
  · next hnone =>
    rw [hnone, hfile]
    rfl
  · next contents hsome =>
    obtain ⟨databases, hrdb, rfl⟩ := hfile
    obtain ⟨s, hs, hstate⟩ := parse_loads_entries hrdb locals ∅
    rw [hsome]
    dsimp only
    rw [hs]
    exact hstate

/-- What `startup` leaves in the database is what the file holds, if it can be opened. -/
theorem exists_startup (hname : IsProgram name) (hsettings : ∀ setting ∈ settings, setting.Readable)
    {disk : Bytes → Option Bytes} {entries : List Entry}
    (hfile : Holds disk (lastGiven Setting.dir? settings ++ str "/"
      ++ lastGiven Setting.dbfilename? settings) entries)
    (locals : ℕ → Locals) (masterReplid : Bytes) {results : SocketResults}
    (hresults : results.Listens) :
    ∃ s, startup disk locals masterReplid results (name :: settings.flatMap Setting.arguments)
        = .ok (some s) ∧
      s.config.dir = lastGiven Setting.dir? settings ∧
      s.config.dbfilename = lastGiven Setting.dbfilename? settings ∧
      s.info = .initial masterReplid ∧ s.database = overwrite entries ∅ := by
  obtain ⟨hdir, hdbfilename⟩ := foldl_apply settings .initial
  let config : Config := settings.foldl Setting.apply .initial
  let file := openFile disk (config.dir ++ str "/" ++ config.dbfilename)
  refine ⟨⟨config, .initial masterReplid, (parse locals ⟨file, 0, ∅⟩).2.state⟩, ?_, hdir, hdbfilename,
    rfl, ?_⟩
  · rw [startup, parseCommandLineArgs_program hname, parseCommandLineArgs_settings hsettings]
    simp only [hresults, if_true]
    rfl
  · refine @state_parse disk (config.dir ++ str "/" ++ config.dbfilename) entries ?_ locals
    rw [hdir, hdbfilename]
    exact hfile

/-! ### Runs of the started server -/

section Runs

variable {ι κ : Type} {host : Host} {timeouts : Bool} {st : Store} {tasks before after : List Task}
  {task : Task} {k : Bytes} {loaded : List (ℤ × Call)} {allowed : Exchange → Move → Prop}

/-- A finished task has had its session behind those of the tasks before it. -/
theorem exists_written {s : Pool ι κ} (h : PoolInvariant host allowed st s)
    (hfinished : s.finished = before ++ task :: after) : ∃ log₁ st₁ x st₂ acts,
      Sessions host allowed st before log₁ st₁ ∧
      RequestRun host task.clientFd task.recvStr st₁ allowed ⟨x, st₂, acts⟩ ∧ x.handlerPc = .done ∧
      written s.log task = writes acts ∧
      readingsBefore s.log task = log₁.countP fun e => e.2 = .op .getCurrentTimeMilli := by
  obtain ⟨log₁, st₁, x, st₂, acts, log₂, hbefore, hrun, hdone, hlog, hearlier, hlater⟩ :=
    h.exists_session hfinished
  refine ⟨log₁, st₁, x, st₂, acts, hbefore, hrun, hdone, ?_, ?_⟩
  · rw [hlog]
    exact written_of_session hearlier hlater
  · rw [hlog, readingsBefore_append, readingsBefore_of_lt hearlier]
    intro e he
    rcases List.mem_append.mp he with he | he
    · obtain ⟨a, -, rfl⟩ := List.mem_map.mp he
      exact le_rfl
    · exact (hlater e he).le

theorem exists_encodes {timed : List (ℤ × Command)} {c : ℤ × Command}
    (h : List.Forall₂ (fun task c => Encodes host task c.2) tasks timed) (hc : c ∈ timed) :
    ∃ t ∈ tasks, Encodes host t c.2 := by
  induction h with
  | nil => cases hc
  | cons henc _ ih =>
    rcases List.mem_cons.mp hc with rfl | hc
    · exact ⟨_, List.mem_cons_self, henc⟩
    · obtain ⟨t, ht, henc'⟩ := ih hc
      exact ⟨t, List.mem_cons_of_mem _ ht, henc'⟩

/-- A GET of a key that no earlier task sets is answered by what was loaded. -/
theorem written_get {s : Pool ι κ}
    (h : PoolInvariant host (Undisturbed timeouts) st s)
    (hfinished : s.finished = before ++ task :: after) (hclock : Monotone host.clock)
    (hload : Refines st loaded (host.clock st.ticks))
    (henc : ∀ t ∈ before, ∃ cmd, Encodes host t cmd) (hget : Encodes host task (.get k))
    (hset : ∀ t ∈ before, ∀ call, Encodes host t (.set call) → call.key ≠ k) :
    written s.log task =
      [getReply (answer loaded k (host.clock (st.ticks + readingsBefore s.log task)))] := by
  obtain ⟨log₁, st₁, x, st₂, acts, hbefore, hrun, hdone, hwritten, hreadings⟩ :=
    exists_written h hfinished
  have hordered := h.enqueued_ordered.sublist h.finished_prefix.sublist
  rw [hfinished] at hordered
  have htickets := (List.pairwise_append.mp hordered).1
  obtain ⟨timed, hlinear, -, hticks, hrefines⟩ :=
    Sessions.linearized hclock hload hbefore htickets henc
  obtain ⟨tr, w, hx, hm, -⟩ := handles_get_refines hget hrefines hclock
  have hlast : lastSet (historyAfter loaded timed) k = lastSet loaded k := by
    apply lastSet_historyAfter
    rintro c hc call hcall
    obtain ⟨t, ht, hencodes⟩ := exists_encodes hlinear.encodes hc
    exact hset t ht call (hcall ▸ hencodes)
  rw [hwritten, hreadings, ← hticks, (writes_of_singleton hrun hdone hx hm).1]
  unfold answer
  rw [hlast]

theorem written_config {field : Bytes} {s : Pool ι κ}
    (h : PoolInvariant host (Undisturbed timeouts) st s)
    (hfinished : s.finished = before ++ task :: after) (hb : ConfigGet field task.recvStr) :
    written s.log task = [configGetReply host.dir host.dbfilename field] := by
  obtain ⟨log₁, st₁, x, st₂, acts, -, hrun, hdone, hwritten, -⟩ := exists_written h hfinished
  obtain ⟨tr, hx, hm⟩ := @handles_config host task.clientFd task.recvStr field st₁ hb
  rw [hwritten, (writes_of_singleton hrun hdone hx hm).1]

variable [DecidableEq ι] [DecidableEq κ]

/-- The settings may come in any order, and again. Once the server listens, under any schedule of any
number of clients and workers, a GET of a key that no earlier request sets is answered by what
the file at the last path holds, and a CONFIG GET by the last settings. -/
theorem started_server_answers (hname : IsProgram name)
    (hsettings : ∀ setting ∈ settings, setting.Readable)
    {disk : Bytes → Option Bytes} {entries : List Entry}
    (hfile : Holds disk (lastGiven Setting.dir? settings ++ str "/"
      ++ lastGiven Setting.dbfilename? settings) entries)
    (locals : ℕ → Locals) (masterReplid : Bytes) {results : SocketResults}
    (hresults : results.Listens) :
    ∃ s₀, startup disk locals masterReplid results (name :: settings.flatMap Setting.arguments)
        = .ok (some s₀) ∧
      ∀ (host : Host) (clientFd : κ → ℤ) (timeouts : Bool) (s : Pool ι κ), Monotone host.clock →
        PoolRun (s₀.host host) clientFd (Undisturbed timeouts) s₀.store s →
        (∀ task ∈ s.enqueued, ∃ cmd, Encodes (s₀.host host) task cmd) →
        ∀ before task after, s.finished = before ++ task :: after →
          (∀ k, Encodes (s₀.host host) task (.get k) →
            (∀ t ∈ before, ∀ call, Encodes (s₀.host host) t (.set call) → call.key ≠ k) →
            written s.log task =
              [lookupReply entries (host.clock (readingsBefore s.log task)) k]) ∧
          ∀ field, ConfigGet field task.recvStr →
            written s.log task = [configGetReply (lastGiven Setting.dir? settings)
              (lastGiven Setting.dbfilename? settings) field] := by
  obtain ⟨s₀, hs₀, hdir, hdbfilename, -, hdatabase⟩ :=
    exists_startup hname hsettings hfile locals masterReplid hresults
  refine ⟨s₀, hs₀, fun host clientFd timeouts s hclock hrun henc before task after hfinished => ?_⟩
  have hinvariant := hrun.invariant
  constructor
  · intro k hget hset
    obtain ⟨loaded, hload⟩ := exists_loaded s₀.store.database
    have hrefines : Refines s₀.store loaded (host.clock 0) := fun k => .inl (hload k).symm
    have hlast : lastSet loaded k = lastValue k entries := by
      rw [hload]
      change s₀.database.lookup k = _
      rw [hdatabase, lookup_overwrite, Finmap.lookup_empty, Option.or_none]
    have hpast : before <+: s.finished := ⟨task :: after, hfinished.symm⟩
    have hbefore : before <+: s.enqueued := hpast.trans hinvariant.finished_prefix
    have hwritten := written_get hinvariant hfinished hclock hrefines
      (fun t ht => henc t (hbefore.subset ht)) hget hset
    rw [hwritten, getReply_answer hlast]
    change [lookupReply entries (host.clock (0 + readingsBefore s.log task)) k] = _
    rw [Nat.zero_add]
  · intro field hb
    have hwritten := written_config hinvariant hfinished hb
    rw [← hdir, ← hdbfilename]
    exact hwritten

end Runs

/-- A file with one entry, which is alive until the clock reads 3. -/
theorem exists_rdbFile : ∃ contents, RdbFile [[(str "k", ⟨str "v", 3⟩)]] contents := by
  have hkey : RdbString (str "k") (1 :: str "k") := .raw (by decide)
  have hvalue : RdbString (str "v") (1 :: str "v") := .raw (by decide)
  have hsize : RdbSize 1 1 [] := .six (by decide)
  have hentries := Sequence.cons (RdbEntry.expiring 3 (by decide) hkey hvalue) .nil
  have hsection : RdbSection [(str "k", ⟨str "v", 3⟩)] _ :=
    .mk 0 (by decide) (by decide) hsize hsize hentries
  exact ⟨_, .mk (str "0011") [1, 2, 3, 4, 5, 6, 7, 8] rfl .nil (.cons hsection .nil) rfl (by simp)⟩

/-- The directory is given twice. -/
def givenTwice : List Setting :=
  [.dir (str "/tmp"), .port 6380, .dbfilename (str "dump.rdb"), .dir (str "/data")]

/-- One client, one worker and a GET of the only key in the file. -/
theorem started_server_answers_of_file : ∃ disk s₀, ∃ s : Pool Unit Unit,
    startup disk (fun _ => default) [] ⟨3, 0, 0, 0⟩
        (str "server" :: givenTwice.flatMap Setting.arguments) = .ok (some s₀) ∧ s.AtRest ∧ s.finished = [getTask] ∧ written s.log getTask = [createStringReponse (str "v")] := by
  obtain ⟨contents, hcontents⟩ := exists_rdbFile
  let disk : Bytes → Option Bytes := fun path =>
    if path = str "/data/dump.rdb" then some contents else none
  have hresults : SocketResults.Listens ⟨3, 0, 0, 0⟩ := by decide
  have hname : IsProgram (str "server") := by
    unfold IsProgram
    decide
  have hsettings : ∀ setting ∈ givenTwice, setting.Readable := by
    simp [givenTwice, Setting.Readable, intMax]
  have hfile : Holds disk (lastGiven Setting.dir? givenTwice ++ str "/"
      ++ lastGiven Setting.dbfilename? givenTwice) [(str "k", ⟨str "v", 3⟩)] := by
    have hpath : lastGiven Setting.dir? givenTwice ++ str "/"
        ++ lastGiven Setting.dbfilename? givenTwice = str "/data/dump.rdb" := by decide
    have hdisk : disk (str "/data/dump.rdb") = some contents := if_pos rfl
    unfold Holds
    rw [hpath, hdisk]
    exact ⟨_, hcontents, rfl⟩
  obtain ⟨s₀, hs₀, hdir, hdbfilename, hinfo, hdatabase⟩ :=
    exists_startup hname hsettings hfile (fun _ => default) [] hresults
  obtain ⟨s₀', hs₀', hanswers⟩ :=
    @started_server_answers _ _ Unit Unit _ _ hname hsettings disk _ hfile (fun _ => default) [] _
      hresults
  obtain rfl : s₀ = s₀' := by
    rw [hs₀] at hs₀'
    exact Option.some.inj (Except.ok.inj hs₀')
  -- the file is known, so the run of the GET can be computed
  have hlookup : s₀.store.database.lookup (str "k") = some ⟨str "v", 3⟩ := by
    change s₀.database.lookup (str "k") = _
    rw [hdatabase]
    rfl
  have hget : Exec (parser (s₀.host .plain) 5 getTask.recvStr) (databaseGet (str "k")) s₀.store
      [.databaseFind (str "k"), .databaseAt (str "k"), .getCurrentTimeMilli] (.ok (str "v"))
      s₀.store.tick :=
    exec_databaseGet_live hlookup (by decide) (show (0 : ℤ) < 3 by decide)
  have hcmd : CommandWith (str "GET") (str "k") getTask.recvStr :=
    ⟨str "get", by decide, createArrayReponse_request _, by decide, by decide, by decide⟩
  obtain ⟨n, p, next, hat, hkey⟩ := hcmd.exists_bulkAt (s₀.host .plain)
  obtain ⟨tr, hx, hm⟩ := handles_getAt hat hkey hget rfl
  have hover : Op.communicationOver ∈ tr := ReplyDiscipline.concludes_parseRESPCommand _ _ _ _ _ _ _ _ hx
  obtain ⟨l, hserved, -⟩ := exists_served_of_one hx hm hover
  have hstart : PoolRun (s₀.host .plain) (fun _ => 5) (Undisturbed true) s₀.store (Pool.start s₀.store : Pool Unit Unit) :=
    .start
  obtain ⟨s, hrun, hrest, -, (hfinished : s.finished = [getTask]), -⟩ :=
    exists_finished_of_served hstart (atRest_start _) () () hserved
  have henq := (hrun.finished_of_atRest hrest).symm.trans hfinished
  have hclock : Monotone Host.plain.clock := fun _ _ h => Int.ofNat_le.mpr h
  have henc : ∀ task ∈ s.enqueued, ∃ cmd, Encodes (s₀.host .plain) task cmd := by
    rw [henq, List.forall_mem_singleton]
    exact ⟨_, .get (by decide) (createArrayReponse_request [str "get", str "k"]) (by decide)⟩
  obtain ⟨hwritten, -⟩ :=
    hanswers .plain (fun _ => 5) true s hclock hrun henc [] getTask [] hfinished
  have hget := hwritten (str "k")
    (.get (by decide) (createArrayReponse_request [str "get", str "k"]) (by decide)) (by simp)
  have hreadings : readingsBefore s.log getTask = 0 := by
    simp [readingsBefore, getTask]
  refine ⟨disk, s₀, s, hs₀, hrest, hfinished, ?_⟩
  rw [hget, hreadings]
  decide

end RedisServer.ServerStartup
