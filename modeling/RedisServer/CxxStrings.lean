import RedisServer.ByteStrings
import Mathlib.Data.List.TakeWhile
import Mathlib.Tactic.Linarith

/-!
# The `std::string` functions the server uses

`size_t` has 64 bits and `int` has 32. Conversions and unsigned arithmetic wrap, so
that a failed `find` and a negative announced length act as in the program.
-/

namespace RedisServer.CxxStrings
open ByteStrings

/-- What the request decoder and the library functions it calls can throw. -/
inductive Exception where
  | runtimeError (what : String)
  | invalidArgument
  | outOfRange
  | regexError
  deriving DecidableEq, Repr

/-- Conversion to `size_t`. -/
def sizeT (i : ℤ) : ℕ := (i % 2 ^ 64).toNat

/-- Conversion to `int`. -/
def toInt (i : ℤ) : ℤ := i.bmod (2 ^ 32)

def npos : ℕ := 2 ^ 64 - 1

/-- `std::string::max_size()`. -/
def maxSize : ℕ := 2 ^ 63 - 1

/-- `INT_MAX`. -/
def intMax : ℕ := 2 ^ 31 - 1

def indexOf? (needle : Bytes) : Bytes → Option ℕ
  | [] => if needle = [] then some 0 else none
  | b :: s => if needle.isPrefixOf (b :: s) then some 0 else (indexOf? needle s).map (· + 1)

/-- `s.find(needle, pos)`. -/
def find (s needle : Bytes) (pos : ℕ) : ℕ :=
  match indexOf? needle (s.drop pos) with
  | some i => pos + i
  | none => npos

/-- `s.substr(pos, n)`. -/
def substr (s : Bytes) (pos n : ℕ) : Except Exception Bytes :=
  if pos ≤ s.length then .ok ((s.drop pos).take n) else .error .outOfRange

/-- `s[pos]`, where the standard defines it: the terminator follows the last byte. -/
def charAt? (s : Bytes) (pos : ℕ) : Option UInt8 :=
  if pos < s.length then s[pos]? else if pos = s.length then some 0 else none

/-- `isspace` in the "C" locale. -/
def isSpace (b : UInt8) : Bool := b = 32 || (9 ≤ b.toNat && b.toNat ≤ 13)

/-- `toupper` in the "C" locale. -/
def toUpper (b : UInt8) : UInt8 := if 97 ≤ b.toNat ∧ b.toNat ≤ 122 then b - 32 else b

/-- `std::stoi`: skip blanks, an optional sign, the longest run of digits. -/
def stoi (s : Bytes) : Except Exception ℤ :=
  let t := s.dropWhile isSpace
  let unsigned := if t.head? = some (byte '-') ∨ t.head? = some (byte '+') then t.tail else t
  let ds := unsigned.takeWhile isDigit
  let v : ℤ := if t.head? = some (byte '-') then -(decimalValue ds) else decimalValue ds
  if ds = [] then .error .invalidArgument
  else if v < -(2 ^ 31) ∨ (intMax : ℤ) < v then .error .outOfRange
  else .ok v

/-- `std::to_string` of a signed integer. -/
def intToString (i : ℤ) : Bytes :=
  if i < 0 then byte '-' :: toDecimal i.natAbs else toDecimal i.natAbs

/-- `std::string(rec_buf, 0, bytesReceived)`, as `client_handler` calls it. The buffer is read as a
C string, so the string ends before the first zero byte. -/
def recvStr (received : Bytes) : Bytes := received.takeWhile (· ≠ 0)

section RecvStr

variable {b front rest : Bytes}

theorem recvStr_recvStr (b : Bytes) : recvStr (recvStr b) = recvStr b := List.takeWhile_idem

theorem recvStr_eq_self (h : (0 : UInt8) ∉ b) : recvStr b = b :=
  List.takeWhile_eq_self_iff.mpr fun x hx => by simpa using ne_of_mem_of_not_mem hx h

theorem recvStr_append (h : (0 : UInt8) ∉ front) : recvStr (front ++ rest) = front ++ recvStr rest :=
  List.takeWhile_append_of_pos fun x hx => by simpa using ne_of_mem_of_not_mem hx h

theorem zero_notMem_recvStr (b : Bytes) : (0 : UInt8) ∉ recvStr b := fun h => by
  simpa using List.mem_takeWhile_imp h

theorem exists_recvStr_append (h : (0 : UInt8) ∈ b) : ∃ rest, b = recvStr b ++ 0 :: rest := by
  induction b with
  | nil => cases h
  | cons x b ih =>
    by_cases hx : x = 0
    · subst hx
      exact ⟨b, rfl⟩
    · obtain ⟨rest, hrest⟩ := ih ((List.mem_cons.mp h).resolve_left (Ne.symm hx))
      have hcons : recvStr (x :: b) = x :: recvStr b := List.takeWhile_cons_of_pos (by simpa using hx)
      exact ⟨rest, by rw [hcons, List.cons_append, ← hrest]⟩

theorem recvStr_append_of_mem (h : (0 : UInt8) ∈ front) : recvStr (front ++ rest) = recvStr front := by
  obtain ⟨more, hmore⟩ := exists_recvStr_append h
  have hsplit : front ++ rest = recvStr front ++ (0 :: (more ++ rest)) := by
    rw [← List.cons_append, ← List.append_assoc, ← hmore]
  rw [hsplit, recvStr_append (zero_notMem_recvStr front)]
  exact List.append_nil _

theorem length_recvStr_lt (h : (0 : UInt8) ∈ b) : (recvStr b).length < b.length := by
  obtain ⟨rest, hrest⟩ := exists_recvStr_append h
  have hlength := congrArg List.length hrest
  rw [List.length_append, List.length_cons] at hlength
  omega

end RecvStr

@[simp] theorem sizeT_natCast {n : ℕ} (h : n < 2 ^ 64) : sizeT n = n := by
  simp only [sizeT]
  omega

theorem sizeT_lt (i : ℤ) : sizeT i < 2 ^ 64 := by
  simp only [sizeT]
  omega

theorem toInt_of_le {i : ℤ} (h₀ : 0 ≤ i) (h₁ : i ≤ intMax) : toInt i = i := by
  simp only [intMax] at h₁
  simp only [toInt]
  exact Int.bmod_eq_of_le (by omega) (by omega)

theorem indexOf?_crlf_append {xs post : Bytes} (h : (13 : UInt8) ∉ xs) :
    indexOf? crlf (xs ++ (crlf ++ post)) = some xs.length := by
  induction xs with
  | nil => simp [crlf, indexOf?]
  | cons b xs ih =>
    have hb : (13 : UInt8) ≠ b := fun hb => h (hb ▸ List.mem_cons_self)
    have ih' := ih (fun hm => h (List.mem_cons_of_mem _ hm))
    simp [indexOf?, crlf, List.isPrefixOf, hb] at ih' ⊢
    simpa using ih'

/-- The first line end after text without carriage returns. -/
theorem find_crlf {pre xs post : Bytes} (h : (13 : UInt8) ∉ xs) :
    find (pre ++ (xs ++ (crlf ++ post))) crlf pre.length = pre.length + xs.length := by
  simp [find, indexOf?_crlf_append h]

@[simp] theorem charAt?_append_cons (pre post : Bytes) (b : UInt8) :
    charAt? (pre ++ b :: post) pre.length = some b := by
  simp [charAt?]

@[simp] theorem charAt?_length (s : Bytes) : charAt? s s.length = some 0 := by
  simp [charAt?]

theorem charAt?_eq_none_iff {s : Bytes} {pos : ℕ} : charAt? s pos = none ↔ s.length < pos := by
  unfold charAt?
  split
  · simp; omega
  · split <;> simp <;> omega

theorem isSpace_of_isDigit {b : UInt8} (h : isDigit b = true) : isSpace b = false := by
  simp only [isDigit, Bool.and_eq_true, decide_eq_true_eq] at h
  have hb : b ≠ 32 := by rintro rfl; exact absurd h.1 (by decide)
  simp only [isSpace, hb, decide_false, Bool.false_or, Bool.and_eq_false_iff, decide_eq_false_iff_not]
  omega

/-- A numeral in range is read as its value. -/
theorem stoi_numeral {n : ℕ} {ds : Bytes} (h : Numeral n ds) (hn : n ≤ intMax) :
    stoi ds = .ok n := by
  obtain ⟨d, rest, rfl⟩ := List.exists_cons_of_ne_nil h.nonempty
  have hd := h.digits d List.mem_cons_self
  have hsign : d ≠ byte '-' ∧ d ≠ byte '+' := by
    constructor <;> (rintro rfl; exact absurd hd (by decide))
  have htake : (d :: rest).takeWhile isDigit = d :: rest :=
    List.takeWhile_eq_self_iff.mpr h.digits
  have hv := h.value
  simp only [intMax] at hn
  simp only [stoi, List.dropWhile_cons, isSpace_of_isDigit hd, Bool.false_eq_true, if_false,
    List.head?_cons, Option.some.injEq, hsign.1, hsign.2, or_self, htake, hv, intMax,
    List.cons_ne_nil]
  rw [if_neg (by omega)]

end RedisServer.CxxStrings
