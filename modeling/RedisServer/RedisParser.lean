import RedisServer.ServerState

/-!
# The request parser

Each handler is the program of operations its source performs. The cursor is passed
and returned explicitly. `parseRESPCommand` and the propagation loop are procedures,
so the recursion of SET is a call and not an unfolding.
-/

namespace RedisServer.RedisParser
open ByteStrings CxxStrings FileStreams InteractionPrograms ServerState Utils

/-- `s[pos]`. Past the terminator the subscript is undefined and finds whatever
memory holds there. -/
def charAt (s : Bytes) (pos : ℕ) : Parser UInt8 :=
  match charAt? s pos with
  | some b => .pure b
  | none => perform (.readOutside s pos)

def parseBulkString (input : Bytes) (pos : ℕ) : Parser (Bytes × ℕ) := do
  if (← charAt input pos) ≠ byte '$' then
    .throw (.runtimeError "protocol error: expected bulk string")
  else
    let pos := sizeT (pos + 1)
    let lengthEnd := find input crlf pos
    let length ← .ofExcept ((substr input pos (sizeT (lengthEnd - pos))).bind stoi)
    let pos := sizeT (lengthEnd + 2)
    let bulkString ← .ofExcept (substr input pos (sizeT length))
    return (bulkString, sizeT (pos + toInt (length + 2)))

/-- `DatabaseHandler::set`. The assignment runs under `database_mutex`. -/
def databaseSet (key value : Bytes) (expiryTime : ℤ) : Parser Unit :=
  perform (.databaseAssign key ⟨value, expiryTime⟩)

/-- `DatabaseHandler::get`. The clock is read only for an entry with an expiry time. -/
def databaseGet (key : Bytes) : Parser Bytes := do
  if ← perform (.databaseFind key) then
    let responseStruct ← perform (.databaseAt key)
    if responseStruct.expiryTime = 0 then
      return responseStruct.value
    else if (← perform .getCurrentTimeMilli) < responseStruct.expiryTime then
      return responseStruct.value
    else
      perform (.databaseErase key)
      return nullResponse
  else
    return nullResponse

/-- A getter of `ServerInfo`. -/
def getInfo {α : Type} (field : ServerInfo → α) : Parser α := do
  return field (← perform .serverInfo)

def getRole : Parser Bytes := getInfo ServerInfo.role
def getConnectedSlaves : Parser ℤ := getInfo ServerInfo.connectedSlaves
def getMasterReplid : Parser Bytes := getInfo ServerInfo.masterReplid
def getMasterReplOffset : Parser ℤ := getInfo ServerInfo.masterReplOffset
def getSecondReplOffset : Parser ℤ := getInfo ServerInfo.secondReplOffset
def getReplBacklogActive : Parser ℤ := getInfo ServerInfo.replBacklogActive
def getReplBacklogSize : Parser ℤ := getInfo ServerInfo.replBacklogSize
def getReplBacklogFirstByteOffset : Parser ℤ := getInfo ServerInfo.replBacklogFirstByteOffset
def getReplBacklogHistlen : Parser ℤ := getInfo ServerInfo.replBacklogHistlen

def enqueueMessage (message : Bytes) : Parser Unit := perform (.enqueueMessage message)

def communicationOver : Parser Unit := perform .communicationOver

/-- Pass one message and end the exchange. -/
def reply (message : Bytes) : Parser Unit := do
  enqueueMessage message
  communicationOver

/-- The content of `RDB_FILE_PATH` as the master sends it. -/
def resyncPayload (host : Host) : Bytes :=
  readRdbFileBinary host.uninitialized <|
    match host.emptyRdb with
    | some contents => .opened contents
    | none => .closed

def fullResyncMessage (replid : Bytes) : Bytes := str "+FULLRESYNC " ++ replid ++ str " 0\r\n"

def rdbMessage (host : Host) : Bytes :=
  str "$" ++ toDecimal (resyncPayload host).length ++ str "\r\n" ++ resyncPayload host

def parsePSYNCCommand (host : Host) (clientFd : ℤ) : Parser Unit := do
  if (← getRole) = str "master" then
    let connectedSlaves ← getConnectedSlaves
    perform (.updateConnectedSlaves (connectedSlaves + 1))
    perform (.addConnectedSlave clientFd)
  enqueueMessage (fullResyncMessage (← getMasterReplid))
  enqueueMessage (rdbMessage host)
  communicationOver

def parseREPLCONFCommand : Parser Unit := reply okResponse

def parseINFOCommand (input : Bytes) (pos : ℕ) : Parser Unit := do
  let (command, _) ← parseBulkString input pos
  if command.map toUpper = str "REPLICATION" then
    let role ← getRole
    let connectedSlaves ← getConnectedSlaves
    let masterReplid ← getMasterReplid
    let masterReplOffset ← getMasterReplOffset
    let secondReplOffset ← getSecondReplOffset
    let replBacklogActive ← getReplBacklogActive
    let replBacklogSize ← getReplBacklogSize
    let replBacklogFirstByteOffset ← getReplBacklogFirstByteOffset
    let replBacklogHistlen ← getReplBacklogHistlen
    reply <| createStringReponse <|
      str "role:" ++ role ++ str "\r" ++
      str "connected_slaves:" ++ intToString connectedSlaves ++ str "\r" ++
      str "master_replid:" ++ masterReplid ++ str "\r" ++
      str "master_repl_offset:" ++ intToString masterReplOffset ++ str "\r" ++
      str "second_repl_offset:" ++ intToString secondReplOffset ++ str "\r" ++
      str "repl_backlog_active:" ++ intToString replBacklogActive ++ str "\r" ++
      str "repl_backlog_size:" ++ intToString replBacklogSize ++ str "\r" ++
      str "repl_backlog_first_byte_offset:" ++ intToString replBacklogFirstByteOffset ++ str "\r" ++
      str "repl_backlog_histlen:" ++ intToString replBacklogHistlen ++ str "\r"
  else
    reply (createStringReponse [])

/-- The regular expression KEYS builds from its argument and the argument's last
character. An empty argument has no last character: the subscript is -1. -/
def keysRegex (toMatch : Bytes) (last : UInt8) : Bytes :=
  if last = byte '*' then
    str "(" ++ toMatch.take (sizeT (toInt toMatch.length - 1)) ++ str ")(.*)"
  else toMatch

def parseKEYSCommand (host : Host) (input : Bytes) (pos : ℕ) : Parser Unit := do
  let (toMatch, _) ← parseBulkString input pos
  let last ← charAt toMatch (sizeT (toInt toMatch.length - 1))
  match host.regex (keysRegex toMatch last) with
  | none => .throw .regexError
  | some pattern =>
    let keys ← perform .databaseKeys
    reply (createArrayReponse (keys.filter pattern))

def parseCONFIGGETCommand (host : Host) (input : Bytes) (pos : ℕ) : Parser Unit := do
  let (command, pos) ← parseBulkString input pos
  if command.map toUpper = str "GET" then
    let (configVariable, _) ← parseBulkString input pos
    if configVariable = str "dir" then
      reply (createArrayReponse [configVariable, host.dir])
    else if configVariable = str "dbfile" then
      reply (createArrayReponse [configVariable, host.dbfilename])
    else
      reply nullResponse
  else
    reply nullResponse

def parseGETCommand (input : Bytes) (pos : ℕ) : Parser Unit := do
  let (argument, _) ← parseBulkString input pos
  let response ← databaseGet argument
  if response ≠ nullResponse then
    reply (createStringReponse response)
  else
    reply response

/-- One round of the loop over the connected slaves, which reads their number again
before every round. -/
def propagate (input : Bytes) (i : ℕ) : Parser Unit := do
  if (i : ℤ) < (← getConnectedSlaves) then
    let fd ← perform (.getConnectedSlaveFd i)
    perform (.send fd input)
    invoke (.propagate (i + 1))
  else
    return ()

/-- The expiry time of a SET with more than three elements. -/
def parseExpiry (input : Bytes) (pos : ℕ) (numElements : ℤ) : Parser (ℤ × ℕ) := do
  if numElements > 3 then
    let (_, pos) ← parseBulkString input pos
    let (expiryValue, pos) ← parseBulkString input pos
    let currentTime ← perform .getCurrentTimeMilli
    let milliseconds ← .ofExcept (stoi expiryValue)
    return (currentTime + milliseconds, pos)
  else
    return (0, pos)

def parseSETCommand (input : Bytes) (pos : ℕ) (numElements : ℤ) : Parser Unit := do
  let (argument1, pos) ← parseBulkString input pos
  let (argument2, pos) ← parseBulkString input pos
  let (expiryTime, pos) ← parseExpiry input pos numElements
  databaseSet argument1 argument2 expiryTime
  enqueueMessage okResponse
  if (← charAt input pos) = byte '*' then
    invoke (.parseRESPCommand pos)
  if (← getRole) = str "master" then
    invoke (.propagate 0)
  communicationOver

def parseECHOCommand (input : Bytes) (pos : ℕ) : Parser Unit := do
  let (argument, _) ← parseBulkString input pos
  reply (createStringReponse argument)

def parsePINGCommand : Parser Unit := reply pingResponse

/-- The array header and the command name: the number of elements, the name in upper
case and the cursor after it. -/
def parseCommandName (input : Bytes) (pos : ℕ) : Parser (ℤ × Bytes × ℕ) := do
  let pos := sizeT (pos + 1)
  let elementsEnd := find input crlf pos
  let numElements ← .ofExcept ((substr input pos (sizeT (elementsEnd - pos))).bind stoi)
  let (command, pos) ← parseBulkString input (sizeT (elementsEnd + 2))
  return (numElements, command.map toUpper, pos)

/-- The chain of comparisons that selects the handler. -/
def dispatch (host : Host) (clientFd : ℤ) (input : Bytes) (numElements : ℤ) (command : Bytes)
    (pos : ℕ) : Parser Unit :=
  if command = str "ECHO" then parseECHOCommand input pos
  else if command = str "PING" then parsePINGCommand
  else if command = str "SET" then parseSETCommand input pos numElements
  else if command = str "GET" then parseGETCommand input pos
  else if command = str "CONFIG" then parseCONFIGGETCommand host input pos
  else if command = str "KEYS" then parseKEYSCommand host input pos
  else if command = str "INFO" then parseINFOCommand input pos
  else if command = str "REPLCONF" then parseREPLCONFCommand
  else if command = str "PSYNC" then parsePSYNCCommand host clientFd
  else reply nullResponse

def parseRESPCommand (host : Host) (clientFd : ℤ) (input : Bytes) (pos : ℕ) : Parser Unit := do
  perform .awaitCommunicationLoop
  if (← charAt input pos) ≠ byte '*' then
    communicationOver
  else
    let (numElements, command, pos) ← parseCommandName input pos
    dispatch host clientFd input numElements command pos

/-- The machine that runs the parser of one request. -/
def parser (host : Host) (clientFd : ℤ) (input : Bytes) : Machine parserSignature Store where
  step := performOp host
  body
    | .parseRESPCommand pos => parseRESPCommand host clientFd input pos
    | .propagate i => propagate input i

/-- The parser's run on a request, started at the beginning of its buffer. -/
def Handles (host : Host) (clientFd : ℤ) (input : Bytes) (st : Store) (tr : List Op)
    (r : Except Exception Unit) (st' : Store) : Prop :=
  Exec (parser host clientFd input) (parseRESPCommand host clientFd input 0) st tr r st'

end RedisServer.RedisParser
