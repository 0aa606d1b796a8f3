import RedisServer.ByteStrings
import Mathlib.Tactic.Linarith

/-!
# Binary input streams

Only `read` moves these streams, so the end-of-file bit and the fail bit are always
set together and one flag stands for both. A failed read leaves the bytes of the
destination that it did not reach as they were.
-/

namespace RedisServer.FileStreams
open ByteStrings

/-- An `std::ifstream` opened in binary mode. -/
structure IFStream where
  rest : Bytes
  fail : Bool
  deriving DecidableEq, Repr

namespace IFStream

/-- A freshly opened stream over a file's contents. -/
def opened (contents : Bytes) : IFStream := ⟨contents, false⟩

/-- A stream whose file could not be opened. -/
def closed : IFStream := ⟨[], true⟩

/-- `file.read(destination, n)`: the bytes delivered and the stream afterwards. -/
def read (file : IFStream) (n : ℕ) : Bytes × IFStream :=
  if file.fail then ([], file)
  else if n ≤ file.rest.length then (file.rest.take n, ⟨file.rest.drop n, false⟩)
  else (file.rest, ⟨[], true⟩)

/-- Reading what is there moves the stream past it. -/
@[simp] theorem read_append (xs rest : Bytes) :
    (IFStream.mk (xs ++ rest) false).read xs.length = (xs, ⟨rest, false⟩) := by
  simp [read]

/-- How far a loop guarded by the stream state is from its end. -/
def remaining (file : IFStream) : ℕ := if file.fail then 0 else file.rest.length + 1

theorem remaining_read_lt {file : IFStream} {n : ℕ} (hn : 0 < n) (h : file.fail = false) :
    (file.read n).2.remaining < file.remaining := by
  obtain ⟨rest, fail⟩ := file
  subst h
  by_cases hn' : n ≤ rest.length
  · simp [read, remaining, hn']
    omega
  · simp [read, remaining, hn']

theorem remaining_read_le (file : IFStream) (n : ℕ) : (file.read n).2.remaining ≤ file.remaining := by
  obtain ⟨rest, fail⟩ := file
  cases fail with
  | true => simp [read, remaining]
  | false =>
    by_cases hn : n ≤ rest.length
    · simp [read, remaining, hn]
    · simp [read, remaining, hn]

end IFStream

/-- The destination after a read that delivered `got`. -/
def overlay (got destination : Bytes) : Bytes := got ++ destination.drop got.length

@[simp] theorem overlay_of_length_eq {got destination : Bytes}
    (h : got.length = destination.length) : overlay got destination = got := by
  simp [overlay, h]

@[simp] theorem overlay_nil (destination : Bytes) : overlay [] destination = destination := rfl

/-- The value of bytes stored least significant first. -/
def littleEndian : Bytes → ℕ
  | [] => 0
  | b :: bs => b.toNat + 256 * littleEndian bs

/-- `n` bytes of a value, least significant first. -/
def toLittleEndian : ℕ → ℕ → Bytes
  | 0, _ => []
  | n + 1, v => v.toUInt8 :: toLittleEndian n (v / 256)

/-- `n` bytes of a value, most significant first. -/
def toBigEndian (n v : ℕ) : Bytes := (toLittleEndian n v).reverse

@[simp] theorem length_toLittleEndian (n v : ℕ) : (toLittleEndian n v).length = n := by
  induction n generalizing v with
  | zero => rfl
  | succ n ih => simp [toLittleEndian, ih]

theorem littleEndian_toLittleEndian {n v : ℕ} (h : v < 256 ^ n) :
    littleEndian (toLittleEndian n v) = v := by
  induction n generalizing v with
  | zero => simp [toLittleEndian, littleEndian]; omega
  | succ n ih =>
    have hv : v / 256 < 256 ^ n := Nat.div_lt_of_lt_mul (by rw [pow_succ] at h; linarith)
    simp only [toLittleEndian, littleEndian, ih hv, Nat.toUInt8, UInt8.toNat_ofNat']
    omega

theorem littleEndian_lt (bs : Bytes) : littleEndian bs < 256 ^ bs.length := by
  induction bs with
  | nil => simp [littleEndian]
  | cons b bs ih =>
    have hb : b.toNat < 256 := b.toNat_lt
    simp only [littleEndian, List.length_cons, pow_succ]
    omega

/-- Bytes are the little-endian form of their own value. -/
theorem toLittleEndian_littleEndian (bs : Bytes) :
    toLittleEndian bs.length (littleEndian bs) = bs := by
  induction bs with
  | nil => rfl
  | cons b bs ih =>
    have hb : b.toNat < 256 := b.toNat_lt
    have hlow : (littleEndian (b :: bs)).toUInt8 = b := by
      apply UInt8.toNat.inj
      simp only [littleEndian, Nat.toUInt8, UInt8.toNat_ofNat']
      omega
    have hhigh : littleEndian (b :: bs) / 256 = littleEndian bs := by
      simp only [littleEndian]
      omega
    rw [List.length_cons, toLittleEndian, hlow, hhigh, ih]

/-- One more byte at the significant end. -/
theorem toLittleEndian_succ (n v : ℕ) :
    toLittleEndian (n + 1) v = toLittleEndian n v ++ [(v / 256 ^ n).toUInt8] := by
  induction n generalizing v with
  | zero => simp [toLittleEndian]
  | succ n ih =>
    rw [toLittleEndian, ih, Nat.div_div_eq_div_mul, ← pow_succ', toLittleEndian, List.cons_append]

end RedisServer.FileStreams
