import RedisServer.CxxStrings
import RedisServer.FileStreams
import RedisServer.RespGrammar

/-! # Replies and the resync payload -/

namespace RedisServer.Utils
open ByteStrings CxxStrings FileStreams RespGrammar

def nullResponse : Bytes := str "$-1\r\n"
def pingResponse : Bytes := str "+PONG\r\n"
def okResponse : Bytes := str "+OK\r\n"

def createStringReponse (response : Bytes) : Bytes :=
  str "$" ++ toDecimal response.length ++ str "\r\n" ++ response ++ str "\r\n"

def createArrayReponse (responseArr : List Bytes) : Bytes :=
  str "*" ++ toDecimal responseArr.length ++ str "\r\n" ++ (responseArr.map createStringReponse).flatten

/-- Eight rounds of the loop that moves the low byte of `value` into `reversed`. -/
def reverseEndianness (value : UInt64) : UInt64 :=
  ((List.range 8).foldl (fun (s : UInt64 × UInt64) _ =>
    ((s.1 <<< 8) ||| (s.2 &&& 0xFF), s.2 >>> 8)) (0, value)).1

/-- The bytes of `value` from the shift by 56 down to the shift by 0. -/
def uint64ToString (value : UInt64) : Bytes :=
  (List.range 8).map fun i => ((value >>> ((7 - i) * 8).toUInt64) &&& 0xFF).toUInt8

/-- A word as the little-endian host loads it. -/
def loadWord (bytes : Bytes) : UInt64 := (littleEndian bytes).toUInt64

/-- The loop of `read_rdb_file_binary`. A read that stops early leaves the rest of
`byte` as the previous round left it, and the round still appends eight bytes. -/
def readRdbFileBinaryLoop (byte : Bytes) (file : IFStream) : Bytes :=
  if _h : file.fail = false then
    let byte' := overlay (file.read 8).1 byte
    uint64ToString (reverseEndianness (loadWord byte')) ++
      readRdbFileBinaryLoop byte' (file.read 8).2
  else []
termination_by file.remaining
decreasing_by exact IFStream.remaining_read_lt (by omega) _h

/-- `uninitialized` is what the local `byte` holds before the first read. -/
def readRdbFileBinary (uninitialized : UInt64) (file : IFStream) : Bytes :=
  readRdbFileBinaryLoop (toLittleEndian 8 uninitialized.toNat) file

theorem createStringReponse_bulkString (s : Bytes) : BulkString s (createStringReponse s) := by
  have h := BulkString.mk (toDecimal_numeral s.length)
  simpa [createStringReponse, str, crlf, byte] using h

theorem createArrayReponse_request (ss : List Bytes) : Request ss (createArrayReponse ss) := by
  have hs : BulkStrings ss (ss.map createStringReponse).flatten := by
    induction ss with
    | nil => exact .nil
    | cons s ss ih => exact .cons (createStringReponse_bulkString s) ih
  have h := Request.mk (toDecimal_numeral ss.length) hs
  simpa [createArrayReponse, str, crlf, byte] using h

end RedisServer.Utils
