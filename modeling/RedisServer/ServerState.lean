import RedisServer.InteractionThreads
import RedisServer.Utils
import Mathlib.Data.Finmap
import Mathlib.Data.List.Lex
import Mathlib.Data.Multiset.Sort

/-!
# Shared state and the operations on it

The store is what the parser threads of all requests share: the database, the
server info and the number of clock readings taken so far. The host is what the
program does not control: its configuration, the files, the clock, the regular
expression library, the iteration order of a hash map and the bytes past the end of
a string.
-/

namespace RedisServer.ServerState
open ByteStrings CxxStrings InteractionPrograms

structure DBValue where
  value : Bytes
  expiryTime : ℤ
  deriving DecidableEq, Repr

/-- The value `operator[]` inserts for a missing key. -/
def DBValue.default : DBValue := ⟨[], 0⟩

/-- The `unordered_map` of the database, without an order on its entries. -/
abbrev Database := Finmap fun _ : Bytes => DBValue

/-- `connectedSlaves` is an `int` of the source, which is enough for 2^31 - 1 registrations. -/
structure ServerInfo where
  role : Bytes
  connectedSlaves : ℤ
  masterReplid : Bytes
  masterReplOffset : ℤ
  secondReplOffset : ℤ
  replBacklogActive : ℤ
  replBacklogSize : ℤ
  replBacklogFirstByteOffset : ℤ
  replBacklogHistlen : ℤ
  connectedSlavesFd : List ℤ
  deriving DecidableEq, Repr

/-- The constructor, for a generated replication id. -/
def ServerInfo.initial (masterReplid : Bytes) : ServerInfo where
  role := str "master"
  connectedSlaves := 0
  masterReplid := masterReplid
  masterReplOffset := 0
  secondReplOffset := -1
  replBacklogActive := -1
  replBacklogSize := -1
  replBacklogFirstByteOffset := -1
  replBacklogHistlen := -1
  connectedSlavesFd := []

def ServerInfo.updateRole (info : ServerInfo) (role : Bytes) : ServerInfo :=
  { info with role := role }

/-- A regular expression library: it rejects a pattern or returns its full-match test. -/
abbrev RegexLibrary := Bytes → Option (Bytes → Bool)

structure Host where
  dir : Bytes
  dbfilename : Bytes
  /-- The contents of `RDB_FILE_PATH`, if it can be opened. -/
  emptyRdb : Option Bytes
  /-- What an uninitialized eight-byte local holds. -/
  uninitialized : UInt64
  /-- The readings of the system clock in milliseconds, in the order they are taken. -/
  clock : ℕ → ℤ
  regex : RegexLibrary
  /-- The byte an out-of-range subscript of a string finds. -/
  outside : Bytes → ℕ → UInt8
  /-- The element an out-of-range subscript of `connected_slaves_fd` finds. -/
  outsideFd : ℕ → ℤ
  /-- The keys of a map in the order a range loop visits them. -/
  iterate : Database → List Bytes
  iterate_keys : ∀ db, (iterate db : Multiset Bytes) = db.keys.val

/-- The order of byte strings by their first difference. -/
def Lexicographic (a b : Bytes) : Prop := a.map UInt8.toNat ≤ b.map UInt8.toNat

instance : DecidableRel Lexicographic := fun _ _ => inferInstanceAs (Decidable (_ ≤ _))

instance : IsTrans Bytes Lexicographic := ⟨fun _ _ _ => le_trans⟩

instance : Std.Antisymm Lexicographic :=
  ⟨fun _ _ h h' => List.map_injective_iff.mpr (fun _ _ => UInt8.toNat.inj) (le_antisymm h h')⟩

instance : Std.Total Lexicographic := ⟨fun _ _ => le_total _ _⟩

/-- A host with a steady clock, no files, keys in order and a library of patterns
without special characters, which match only themselves. -/
def Host.plain : Host where
  dir := []
  dbfilename := []
  emptyRdb := none
  uninitialized := 0
  clock := fun n => n
  regex := fun pattern => some (fun key => key = pattern)
  outside := fun _ _ => 0
  outsideFd := fun _ => 0
  iterate := fun db => db.keys.val.sort Lexicographic
  iterate_keys := fun _ => Multiset.sort_eq _ _

structure Store where
  database : Database
  serverInfo : ServerInfo
  ticks : ℕ

/-- The steps of a parser thread that other threads could observe. -/
inductive Op where
  | awaitCommunicationLoop
  | enqueueMessage (message : Bytes)
  | communicationOver
  | databaseFind (key : Bytes)
  | databaseAt (key : Bytes)
  | databaseAssign (key : Bytes) (value : DBValue)
  | databaseErase (key : Bytes)
  | databaseKeys
  | getCurrentTimeMilli
  | serverInfo
  | updateConnectedSlaves (connectedSlaves : ℤ)
  | addConnectedSlave (fd : ℤ)
  | getConnectedSlaveFd (index : ℕ)
  | send (fd : ℤ) (bytes : Bytes)
  | readOutside (s : Bytes) (index : ℕ)
  deriving DecidableEq

abbrev Op.Answer : Op → Type
  | .databaseFind _ => Bool
  | .databaseAt _ => DBValue
  | .databaseKeys => List Bytes
  | .getCurrentTimeMilli => ℤ
  | .serverInfo => ServerInfo
  | .getConnectedSlaveFd _ => ℤ
  | .readOutside _ _ => UInt8
  | _ => Unit

/-- The procedures of the parser that call themselves or loop. -/
inductive Proc where
  | parseRESPCommand (pos : ℕ)
  | propagate (i : ℕ)
  deriving DecidableEq

abbrev parserSignature : Signature where
  Op := Op
  Answer := Op.Answer
  Proc := Proc
  Err := Exception

abbrev Parser (α : Type) := Program parserSignature α

def perform (o : Op) : Parser o.Answer := .op o .pure

def invoke (f : Proc) : Parser Unit := .call f (.pure ())

@[simp] theorem perform_bind {α : Type} (o : Op) (f : o.Answer → Parser α) :
    (perform o >>= f) = .op o f := rfl

@[simp] theorem invoke_bind {α : Type} (l : Proc) (f : Unit → Parser α) :
    (invoke l >>= f) = .call l (f ()) := rfl

namespace Store

/-- A server without data, with the given replicas registered. -/
def empty (connectedSlavesFd : List ℤ) : Store where
  database := ∅
  serverInfo :=
    { ServerInfo.initial [] with
      connectedSlaves := connectedSlavesFd.length
      connectedSlavesFd := connectedSlavesFd }
  ticks := 0

def setDatabase (st : Store) (db : Database) : Store := { st with database := db }

/-- One more clock reading. -/
def tick (st : Store) : Store := { st with ticks := st.ticks + 1 }

def setServerInfo (st : Store) (info : ServerInfo) : Store := { st with serverInfo := info }

@[simp] theorem database_setDatabase (st : Store) (db : Database) :
    (st.setDatabase db).database = db := rfl

@[simp] theorem serverInfo_setDatabase (st : Store) (db : Database) :
    (st.setDatabase db).serverInfo = st.serverInfo := rfl

@[simp] theorem ticks_setDatabase (st : Store) (db : Database) :
    (st.setDatabase db).ticks = st.ticks := rfl

@[simp] theorem database_tick (st : Store) : st.tick.database = st.database := rfl

@[simp] theorem serverInfo_tick (st : Store) : st.tick.serverInfo = st.serverInfo := rfl

@[simp] theorem ticks_tick (st : Store) : st.tick.ticks = st.ticks + 1 := rfl

@[simp] theorem database_setServerInfo (st : Store) (info : ServerInfo) :
    (st.setServerInfo info).database = st.database := rfl

@[simp] theorem serverInfo_setServerInfo (st : Store) (info : ServerInfo) :
    (st.setServerInfo info).serverInfo = info := rfl

end Store

/-- What one operation answers and does to the store. The reply and propagation
operations leave the store as it is; their effects are on the sockets. The parser does
not look at what the `send` of a propagation returns. That it takes all bytes is an
assumption about the socket of the replica. -/
def performOp (host : Host) : (o : Op) → Store → o.Answer × Store
  | .awaitCommunicationLoop, st => ((), st)
  | .enqueueMessage _, st => ((), st)
  | .communicationOver, st => ((), st)
  | .databaseFind key, st => ((st.database.lookup key).isSome, st)
  | .databaseAt key, st =>
    match st.database.lookup key with
    | some v => (v, st)
    | none => (.default, st.setDatabase (st.database.insert key .default))
  | .databaseAssign key v, st => ((), st.setDatabase (st.database.insert key v))
  | .databaseErase key, st => ((), st.setDatabase (st.database.erase key))
  | .databaseKeys, st => (host.iterate st.database, st)
  | .getCurrentTimeMilli, st => (host.clock st.ticks, st.tick)
  | .serverInfo, st => (st.serverInfo, st)
  | .updateConnectedSlaves n, st =>
    ((), st.setServerInfo { st.serverInfo with connectedSlaves := n })
  | .addConnectedSlave fd, st =>
    ((), st.setServerInfo
      { st.serverInfo with connectedSlavesFd := st.serverInfo.connectedSlavesFd ++ [fd] })
  | .getConnectedSlaveFd i, st => (st.serverInfo.connectedSlavesFd.getD i (host.outsideFd i), st)
  | .send _ _, st => ((), st)
  | .readOutside s i, st => (host.outside s i, st)

/-- The messages passed to `enqueueMessage` in a list of operations. -/
def messages (tr : List Op) : List Bytes :=
  tr.filterMap fun
    | .enqueueMessage m => some m
    | _ => none

/-- The byte strings propagated to the socket `fd`, one for each `send`. -/
def sendsTo (fd : ℤ) (tr : List Op) : List Bytes :=
  tr.filterMap fun
    | .send fd' b => if fd' = fd then some b else none
    | _ => none

/-- The assignments to database entries. -/
def assignments (tr : List Op) : List (Bytes × DBValue) :=
  tr.filterMap fun
    | .databaseAssign k v => some (k, v)
    | _ => none

@[simp] theorem messages_nil : messages [] = [] := rfl

@[simp] theorem sendsTo_nil (fd : ℤ) : sendsTo fd [] = [] := rfl

@[simp] theorem assignments_nil : assignments [] = [] := rfl

@[simp] theorem messages_append (tr tr' : List Op) :
    messages (tr ++ tr') = messages tr ++ messages tr' := List.filterMap_append

@[simp] theorem sendsTo_append (fd : ℤ) (tr tr' : List Op) :
    sendsTo fd (tr ++ tr') = sendsTo fd tr ++ sendsTo fd tr' := List.filterMap_append

@[simp] theorem assignments_append (tr tr' : List Op) :
    assignments (tr ++ tr') = assignments tr ++ assignments tr' := List.filterMap_append

@[simp] theorem messages_await_cons (tr : List Op) :
    messages (.awaitCommunicationLoop :: tr) = messages tr := rfl

@[simp] theorem sendsTo_await_cons (fd : ℤ) (tr : List Op) :
    sendsTo fd (.awaitCommunicationLoop :: tr) = sendsTo fd tr := rfl

@[simp] theorem assignments_await_cons (tr : List Op) :
    assignments (.awaitCommunicationLoop :: tr) = assignments tr := rfl

end RedisServer.ServerState
