import RedisServer.MasterAddress
import RedisServer.ArrayRoundTrip

/-!
# The handshake of a replica

A replica announces itself to its master with four messages that are written out by hand. The
second one holds the listening port behind a fixed length, so the decoder reads it back for
ports of four digits only.
-/

namespace RedisServer.Handshake
open ByteStrings CxxStrings RespGrammar InteractionPrograms ServerState Utils RedisParser
open RequestChain RequestDecoding ArrayRoundTrip MasterAddress

/-- The globals that the command line sets. -/
structure Config where
  dir : Bytes
  dbfilename : Bytes
  port : ℤ
  deriving DecidableEq

def Config.initial : Config := ⟨[], [], 6379⟩

/-- At most one of the tests holds of an argument. The socket that `connect_to_master` opens is
left out. -/
def parseCommandLineArgs : List Bytes → Config → ReplicaInfo →
    Except Exception (Config × ReplicaInfo)
  | arg :: value :: args, config, info =>
    if arg = str "--dir" then parseCommandLineArgs args { config with dir := value } info
    else if arg = str "--dbfilename" then
      parseCommandLineArgs args { config with dbfilename := value } info
    else if arg = str "--port" then do
      let port ← stoi value
      parseCommandLineArgs args { config with port := port } info
    else if arg = str "--replicaof" then do
      let info ← getMasterIpPort value (info.updateRole (str "slave"))
      parseCommandLineArgs args config info
    else parseCommandLineArgs (value :: args) config info
  | _, config, info => .ok (config, info)

/-- The messages in the order in which they are sent. -/
def sendHandshake (config : Config) (info : ReplicaInfo) : List Bytes :=
  if info.role = str "slave" then
    [str "*1\r\n$4\r\nPING\r\n",
      str "*3\r\n$8\r\nREPLCONF\r\n$14\r\nlistening-port\r\n$4\r\n" ++ intToString config.port ++
        str "\r\n",
      str "*3\r\n$8\r\nREPLCONF\r\n$4\r\ncapa\r\n$6\r\npsync2\r\n",
      str "*3\r\n$5\r\nPSYNC\r\n$1\r\n?\r\n$2\r\n-1\r\n"]
  else []

/-- What the messages are meant to say. -/
def handshakeArguments (config : Config) : List (List Bytes) :=
  [[str "PING"], [str "REPLCONF", str "listening-port", intToString config.port],
    [str "REPLCONF", str "capa", str "psync2"], [str "PSYNC", str "?", str "-1"]]

/-- The message is decoded as the arguments, up to its end. -/
def Says (message : Bytes) (arguments : List Bytes) : Prop :=
  parseArray message 0 = .pure (some (arguments, message.length))

def HandshakeDecoded (config : Config) (info : ReplicaInfo) : Prop :=
  List.Forall₂ Says (sendHandshake config info) (handshakeArguments config)

variable {config : Config} {info : ReplicaInfo} {digits : Bytes}

/-! ### Ports from the command line -/

/-- A replica that listens on a given port. -/
def replicaArguments (port : ℕ) : List Bytes :=
  [str "server", str "--port", toDecimal port, str "--replicaof", str "localhost 6379"]

theorem parseCommandLineArgs_port {value : Bytes} {port : ℤ} (hvalue : stoi value = .ok port)
    (args : List Bytes) (config : Config) (info : ReplicaInfo) :
    parseCommandLineArgs (str "--port" :: value :: args) config info
      = parseCommandLineArgs args { config with port := port } info := by
  rw [parseCommandLineArgs, if_neg (by decide), if_neg (by decide), if_pos rfl, hvalue]
  rfl

theorem parseCommandLineArgs_replicaof {value : Bytes} {info info' : ReplicaInfo}
    (hvalue : getMasterIpPort value (info.updateRole (str "slave")) = .ok info')
    (args : List Bytes) (config : Config) :
    parseCommandLineArgs (str "--replicaof" :: value :: args) config info
      = parseCommandLineArgs args config info' := by
  rw [parseCommandLineArgs, if_neg (by decide), if_neg (by decide), if_neg (by decide), if_pos rfl,
    hvalue]
  rfl

theorem parseCommandLineArgs_replica {port : ℕ} (hport : port ≤ 65535) (config : Config)
    (info : ReplicaInfo) : ∃ info', info'.role = str "slave" ∧
      parseCommandLineArgs (replicaArguments port) config info
        = .ok ({ config with port := port }, info') := by
  have hstoi : stoi (toDecimal port) = .ok port :=
    stoi_numeral (toDecimal_numeral port) (hport.trans (by decide))
  have hblanks : Blanks (str " ") := ⟨forall_mem_of_all (by decide), by decide⟩
  have hset : SetsAddress (info.updateRole (str "slave")) (str "localhost") (str " ") 6379 :=
    setsAddress_localhost _ hblanks (by decide)
  have htext : str "localhost" ++ str " " ++ toDecimal 6379 = str "localhost 6379" := by decide
  rw [SetsAddress, htext] at hset
  obtain ⟨info', hrole, hmaster⟩ : ∃ info' : ReplicaInfo, info'.role = str "slave" ∧
      getMasterIpPort (str "localhost 6379") (info.updateRole (str "slave")) = .ok info' :=
    ⟨_, rfl, hset⟩
  refine ⟨info', hrole, ?_⟩
  rw [replicaArguments, parseCommandLineArgs, if_neg (by decide), if_neg (by decide),
    if_neg (by decide), if_neg (by decide), parseCommandLineArgs_port hstoi,
    parseCommandLineArgs_replicaof hmaster]
  rfl

/-! ### The messages -/

/-- A message that the encoder could have written. -/
theorem says_of_eq_createArrayReponse {ss : List Bytes} {message : Bytes}
    (heq : createArrayReponse ss = message) (hfit : Fits ss) (hlen : message.length ≤ maxSize) :
    Says message ss := by
  subst heq
  have hstands : StandsAt (createArrayReponse ss) 0 (createArrayReponse ss) := ⟨[], [], by simp, rfl⟩
  have h := parseArray_of_request (createArrayReponse_request ss) hfit hlen hstands
  rwa [Nat.zero_add] at h

/-- The text of the message in front of the port. -/
def portHeader : Bytes := str "*3\r\n$8\r\nREPLCONF\r\n$14\r\nlistening-port\r\n$4\r\n"

/-- Four bytes are read for the port, whatever its length. -/
theorem parseArray_portMessage (hlen : digits.length ≤ 11) :
    parseArray (portHeader ++ digits ++ str "\r\n") 0 = .pure (some ([str "REPLCONF",
      str "listening-port", (digits ++ str "\r\n").take 4], portHeader.length + 6)) := by
  have hmax : (portHeader ++ digits ++ str "\r\n").length ≤ maxSize := by
    have hheader : portHeader.length = 43 := by decide
    have hend : (str "\r\n").length = 2 := rfl
    simp only [List.length_append, hheader, hend, maxSize]
    omega
  have hsplit : portHeader = byte '*' :: (toDecimal 3 ++ crlf) ++ (createStringReponse (str "REPLCONF") ++
      (createStringReponse (str "listening-port") ++ byte '$' :: (toDecimal 4 ++ crlf))) := by decide
  have hstands : StandsAt (portHeader ++ digits ++ str "\r\n") 0 portHeader :=
    ⟨[], digits ++ str "\r\n", by simp, rfl⟩
  rw [hsplit] at hstands
  have hstar := hstands.left
  have hname := hstands.right.left
  have hword := hstands.right.right.left
  have hport := hstands.right.right.right
  rw [← hsplit] at hstar hname hword hport
  -- the positions of the elements
  have hpos : 0 + 1 + (toDecimal 3).length + 2 = 4 := by decide
  have hpos₁ : 0 + (byte '*' :: (toDecimal 3 ++ crlf)).length = 4 := by decide
  have hpos₂ : 4 + (createStringReponse (str "REPLCONF")).length = 18 := by decide
  have hpos₃ : 18 + (createStringReponse (str "listening-port")).length = 39 := by decide
  have hpos₄ : 39 + 1 + (toDecimal 4).length + 2 = portHeader.length := by decide
  rw [hpos₁] at hname
  rw [hpos₁, hpos₂] at hword
  rw [hpos₁, hpos₂, hpos₃] at hport
  have hheader := parseArrayHeader_of_numeral (toDecimal_numeral 3) (by decide) hmax hstar
  have hfirst := parseBulkString_of_bulkString (createStringReponse_bulkString (str "REPLCONF"))
    (by decide) hmax hname
  have hsecond := parseBulkString_of_bulkString
    (createStringReponse_bulkString (str "listening-port")) (by decide) hmax hword
  have hin := hport.length_le
  have hthird := parseBulkString_eq_pure
    (@bulkAt_of_announced .plain _ _ 4 _ (toDecimal_numeral 4) (by decide) hmax hport) (by omega)
  rw [hpos] at hheader
  rw [hpos₂] at hfirst
  rw [hpos₃] at hsecond
  rw [hpos₄, List.append_assoc, List.drop_left, Nat.add_assoc, ← List.append_assoc] at hthird
  have hthree : (3 : ℤ).toNat = 3 := rfl
  simp only [parseArray, charAt_of_standsAt hstar, Program.pure_bind, ne_eq, not_true_eq_false,
    if_false, hheader, Nat.cast_ofNat, hthree, parseElements, hfirst, hsecond, hthird, Program.pure_eq]

/-- The message is read back exactly when the port has four digits. -/
theorem says_port_iff (hlen : digits.length ≤ 11) : Says (portHeader ++ digits ++ str "\r\n")
    [str "REPLCONF", str "listening-port", digits] ↔ digits.length = 4 := by
  have htotal : (portHeader ++ digits ++ str "\r\n").length = portHeader.length + digits.length + 2 := by
    rw [List.length_append, List.length_append]
    rfl
  rw [Says, parseArray_portMessage hlen, htotal]
  constructor
  · intro h
    have hcursor := congrArg Prod.snd (Option.some.inj (Program.pure.inj h))
    change portHeader.length + 6 = portHeader.length + digits.length + 2 at hcursor
    omega
  · intro hfour
    rw [← hfour, List.take_left, hfour]

theorem says_fixed : Says (str "*1\r\n$4\r\nPING\r\n") [str "PING"] ∧
    Says (str "*3\r\n$8\r\nREPLCONF\r\n$4\r\ncapa\r\n$6\r\npsync2\r\n")
      [str "REPLCONF", str "capa", str "psync2"] ∧
    Says (str "*3\r\n$5\r\nPSYNC\r\n$1\r\n?\r\n$2\r\n-1\r\n") [str "PSYNC", str "?", str "-1"] :=
  ⟨says_of_eq_createArrayReponse (by decide) ⟨by decide, by decide⟩ (by decide),
    says_of_eq_createArrayReponse (by decide) ⟨by decide, by decide⟩ (by decide),
    says_of_eq_createArrayReponse (by decide) ⟨by decide, by decide⟩ (by decide)⟩

theorem decoded_iff_of_port {port : ℕ} (hport : port ≤ 65535) (hconfig : config.port = port)
    (hrole : info.role = str "slave") :
    HandshakeDecoded config info ↔ 1000 ≤ port ∧ port ≤ 9999 := by
  have hdigits : intToString config.port = toDecimal port := by
    rw [hconfig, intToString, if_neg (by omega), Int.natAbs_natCast]
  have hfive : (toDecimal port).length ≤ 5 := (length_toDecimal_le_iff (by omega)).mpr (by omega)
  have hfour : (toDecimal port).length ≤ 4 ↔ port < 10 ^ 4 := length_toDecimal_le_iff (by omega)
  have hthree : (toDecimal port).length ≤ 3 ↔ port < 10 ^ 3 := length_toDecimal_le_iff (by omega)
  obtain ⟨hping, hcapa, hpsync⟩ := says_fixed
  have hsays := @says_port_iff (toDecimal port) (by omega)
  rw [HandshakeDecoded, sendHandshake, if_pos hrole, handshakeArguments, hdigits]
  have hmessages : List.Forall₂ Says
      [str "*1\r\n$4\r\nPING\r\n", portHeader ++ toDecimal port ++ str "\r\n",
        str "*3\r\n$8\r\nREPLCONF\r\n$4\r\ncapa\r\n$6\r\npsync2\r\n",
        str "*3\r\n$5\r\nPSYNC\r\n$1\r\n?\r\n$2\r\n-1\r\n"]
      [[str "PING"], [str "REPLCONF", str "listening-port", toDecimal port],
        [str "REPLCONF", str "capa", str "psync2"], [str "PSYNC", str "?", str "-1"]]
      ↔ (toDecimal port).length = 4 := by
    simp only [List.forall₂_cons, hping, hcapa, hpsync, hsays, List.Forall₂.nil, true_and, and_true]
  rw [portHeader] at hmessages
  rw [hmessages]
  omega

/-- Every port can be set, and the four messages say what they are meant to say exactly when it
has four digits. -/
theorem handshake_decoded_iff {port : ℕ} (hport : port ≤ 65535) (masterReplid : Bytes) :
    (∃ args config info, parseCommandLineArgs args .initial (.initial masterReplid)
        = .ok (config, info) ∧ config.port = port ∧ info.role = str "slave") ∧
    ∀ (config : Config) (info : ReplicaInfo), config.port = port → info.role = str "slave" →
      (HandshakeDecoded config info ↔ 1000 ≤ port ∧ port ≤ 9999) := by
  constructor
  · obtain ⟨info, hrole, hparse⟩ := parseCommandLineArgs_replica hport .initial (.initial masterReplid)
    exact ⟨_, _, info, hparse, rfl, hrole⟩
  · intro config info hconfig hrole
    exact decoded_iff_of_port hport hconfig hrole

theorem handshake_decoded_of_default :
    HandshakeDecoded .initial ((ReplicaInfo.initial []).updateRole (str "slave")) :=
  ((@handshake_decoded_iff 6379 (by decide) []).2 _ _ rfl rfl).mpr (by decide)

/-- A replica that listens on port 80 says something else. -/
theorem short_port_not_decoded : ¬ ∀ (config : Config) (info : ReplicaInfo), 1 ≤ config.port →
    config.port ≤ 65535 → info.role = str "slave" → HandshakeDecoded config info := by
  intro hall
  have hdecoded := hall { Config.initial with port := 80 }
    ((ReplicaInfo.initial []).updateRole (str "slave")) (by decide) (by decide) rfl
  have hport := (@decoded_iff_of_port _ _ 80 (by decide) rfl rfl).mp hdecoded
  omega

end RedisServer.Handshake
