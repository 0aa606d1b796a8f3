import Mathlib.Data.List.Basic
import Mathlib.Tactic.Common

/-!
# Byte strings and decimal numerals

Byte strings are lists of bytes. A numeral is a nonempty run of ASCII digits;
leading zeros are allowed, as in the RESP length fields.
-/

namespace RedisServer.ByteStrings

abbrev Bytes := List UInt8

/-- The byte of an ASCII character. -/
def byte (c : Char) : UInt8 := c.toNat.toUInt8

/-- The bytes of an ASCII text. -/
def str (s : String) : Bytes := s.toList.map byte

/-- A check of every byte of a fixed text. -/
theorem forall_mem_of_all {p : UInt8 → Prop} [DecidablePred p] {xs : Bytes}
    (h : xs.all (fun c => p c) = true) : ∀ c ∈ xs, p c := fun c hc =>
  of_decide_eq_true (List.all_eq_true.mp h c hc)

/-- Carriage return and line feed. -/
def crlf : Bytes := [13, 10]

def isDigit (b : UInt8) : Bool := 48 ≤ b.toNat && b.toNat ≤ 57

def decimalValue (ds : Bytes) : ℕ := ds.foldl (fun n d => 10 * n + (d.toNat - 48)) 0

/-- `ds` is a decimal notation of `n`. -/
structure Numeral (n : ℕ) (ds : Bytes) : Prop where
  nonempty : ds ≠ []
  digits : ∀ d ∈ ds, isDigit d = true
  value : decimalValue ds = n

/-- The shortest decimal notation. -/
def toDecimal (n : ℕ) : Bytes := (Nat.toDigits 10 n).map byte

private theorem toNat_byte_of_isDigit {c : Char} (h : c.isDigit = true) :
    (byte c).toNat = c.toNat ∧ 48 ≤ c.toNat ∧ c.toNat ≤ 57 := by
  have hc : 48 ≤ c.toNat ∧ c.toNat ≤ 57 := by
    simp only [Char.isDigit, Bool.and_eq_true, decide_eq_true_eq, ge_iff_le] at h
    exact ⟨h.1, h.2⟩
  refine ⟨?_, hc⟩
  simp only [byte, Nat.toUInt8, UInt8.toNat_ofNat']
  omega

private theorem decimalValue_map_byte (cs : List Char) (h : ∀ c ∈ cs, c.isDigit = true) (n : ℕ) :
    (cs.map byte).foldl (fun n d => 10 * n + (d.toNat - 48)) n = Nat.ofDigitChars 10 cs n := by
  induction cs generalizing n with
  | nil => simp
  | cons c cs ih =>
    rw [List.map_cons, List.foldl_cons, Nat.ofDigitChars_cons,
      ih (fun c' hc' => h c' (List.mem_cons_of_mem _ hc')),
      (toNat_byte_of_isDigit (h c List.mem_cons_self)).1]
    rfl

theorem toDecimal_numeral (n : ℕ) : Numeral n (toDecimal n) where
  nonempty := by simp [toDecimal]
  digits := by
    intro d hd
    obtain ⟨c, hc, rfl⟩ := List.mem_map.mp hd
    have hcd := toNat_byte_of_isDigit (Nat.isDigit_of_mem_toDigits (by omega) (by omega) hc)
    simp [isDigit, hcd.1, hcd.2]
  value := by
    rw [decimalValue, toDecimal, decimalValue_map_byte _
      (fun c hc => Nat.isDigit_of_mem_toDigits (by omega) (by omega) hc)]
    exact Nat.ofDigitChars_ten_toDigits

theorem Numeral.cr_notMem {n : ℕ} {ds : Bytes} (h : Numeral n ds) : (13 : UInt8) ∉ ds := by
  intro hm
  exact absurd (h.digits 13 hm) (by decide)

/-- Two byte strings that agree up to the first carriage return of each. -/
theorem append_cr_inj {xs ys r r' : Bytes} (hx : (13 : UInt8) ∉ xs) (hy : (13 : UInt8) ∉ ys)
    (h : xs ++ 13 :: r = ys ++ 13 :: r') : xs = ys ∧ r = r' := by
  induction xs generalizing ys with
  | nil =>
    cases ys with
    | nil => exact ⟨rfl, List.tail_eq_of_cons_eq h⟩
    | cons b ys =>
      have hb := List.head_eq_of_cons_eq h
      exact absurd (hb ▸ List.mem_cons_self) hy
  | cons a xs ih =>
    cases ys with
    | nil =>
      have ha := List.head_eq_of_cons_eq h
      exact absurd (ha ▸ List.mem_cons_self) hx
    | cons b ys =>
      obtain ⟨rfl, ht⟩ := List.cons.inj h
      obtain ⟨rfl, rfl⟩ := ih (fun hm => hx (List.mem_cons_of_mem _ hm))
        (fun hm => hy (List.mem_cons_of_mem _ hm)) ht
      exact ⟨rfl, rfl⟩

/-- A numeral that ends in a line end is read in one way only. -/
theorem Numeral.append_crlf_inj {n m : ℕ} {ds ds' r r' : Bytes} (h : Numeral n ds)
    (h' : Numeral m ds') (heq : ds ++ (crlf ++ r) = ds' ++ (crlf ++ r')) :
    n = m ∧ ds = ds' ∧ r = r' := by
  obtain ⟨rfl, hr⟩ := append_cr_inj h.cr_notMem h'.cr_notMem heq
  exact ⟨h.value.symm.trans h'.value, rfl, List.tail_eq_of_cons_eq hr⟩

end RedisServer.ByteStrings
