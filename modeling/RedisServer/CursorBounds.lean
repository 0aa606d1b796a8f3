import RedisServer.RequestDecoding
import Mathlib.Logic.Relation

/-!
# How far the cursor can be

A field that is read as an integer has a first byte, so it begins inside the buffer, and a
line end that is found lies inside it too. What comes behind the field depends on the
announced length alone and may be anywhere.
-/

namespace RedisServer.CursorBounds
open ByteStrings CxxStrings RespGrammar InteractionPrograms ServerState Utils RedisParser
open RequestChain RequestDecoding

theorem indexOf?_le {needle s : Bytes} {i : ℕ} (h : indexOf? needle s = some i) :
    i + needle.length ≤ s.length := by
  induction s generalizing i with
  | nil =>
    simp only [indexOf?] at h
    split at h
    · next hn => cases h; simp [hn]
    · cases h
  | cons b s ih =>
    simp only [indexOf?] at h
    split at h
    · next hp =>
      cases h
      simpa using (List.isPrefixOf_iff_prefix.mp hp).length_le
    · obtain ⟨j, hj, rfl⟩ := Option.map_eq_some_iff.mp h
      have hle := ih hj
      simp
      omega

/-- A line end is found inside the string or not at all. -/
theorem find_crlf_le {s : Bytes} {pos : ℕ} (hpos : pos ≤ s.length) :
    find s crlf pos = npos ∨ pos ≤ find s crlf pos ∧ find s crlf pos + 2 ≤ s.length := by
  unfold find
  split
  · next i h =>
    have hle := indexOf?_le h
    simp [crlf] at hle
    exact .inr ⟨by omega, by omega⟩
  · exact .inl rfl

/-- Behind the line end of a field, or behind the wrapped position of a missing one, the
buffer is not yet over. -/
theorem payload_le {s : Bytes} {pos : ℕ} (hpos : pos < s.length) (hlen : s.length ≤ maxSize) :
    sizeT (find s crlf pos + 2) ≤ s.length := by
  rcases find_crlf_le hpos.le with h | ⟨-, h⟩
  · have hwrap : sizeT ((npos : ℤ) + 2) = 1 := by decide
    rw [h, hwrap]
    omega
  · have hbig : s.length < 2 ^ 64 := lt_of_le_of_lt hlen (by decide)
    rw [show (find s crlf pos : ℤ) + 2 = ((find s crlf pos + 2 : ℕ) : ℤ) from rfl,
      sizeT_natCast (by omega)]
    exact h

section Fields

variable {host : Host} {input : Bytes} {pos next : ℕ} {n : ℤ} {s name : Bytes} {lineEnd : ℕ}

/-- A field that is read as an integer is not empty. -/
theorem IntField.lt_length (h : IntField input pos n lineEnd) : pos < input.length := by
  obtain ⟨-, hle, hint⟩ := h
  by_contra hpos
  rw [List.drop_eq_nil_of_le (by omega), List.take_nil] at hint
  cases hint

/-- An integer does not begin with an asterisk. -/
theorem not_intField_star (h : byteAt host input pos = byte '*') :
    ¬ IntField input pos n lineEnd := by
  intro hfield
  have hlt := IntField.lt_length hfield
  obtain ⟨-, -, hint⟩ := hfield
  have hbyte : input[pos] = byte '*' := by simpa [byteAt, charAt?, hlt] using h
  rw [List.drop_eq_getElem_cons hlt, hbyte] at hint
  generalize sizeT (lineEnd - pos) = width at hint
  cases width with
  | zero =>
    rw [List.take_zero] at hint
    cases hint
  | succ k =>
    rw [List.take_succ_cons] at hint
    simp +decide [stoi] at hint

/-- In a buffer that begins with an asterisk, the next position of a field that is read is
not wrapped. -/
theorem succ_lt_length (hstar : byteAt host input 0 = byte '*') (hpos : pos < 2 ^ 64)
    (h : IntField input (sizeT (pos + 1)) n lineEnd) : pos + 1 < input.length := by
  have hlt := IntField.lt_length h
  by_cases hlast : pos + 1 = 2 ^ 64
  · have hzero : sizeT ((pos : ℤ) + 1) = 0 := by
      have hcast : (pos : ℤ) + 1 = 2 ^ 64 := by exact_mod_cast hlast
      rw [hcast]
      rfl
    rw [hzero] at h
    exact absurd h (not_intField_star hstar)
  · rwa [show (pos : ℤ) + 1 = ((pos + 1 : ℕ) : ℤ) from rfl, sizeT_natCast (by omega)] at hlt

theorem BulkAt.succ_lt_length (hstar : byteAt host input 0 = byte '*') (hpos : pos < 2 ^ 64)
    (h : BulkAt host input pos s next) : pos + 1 < input.length := by
  obtain ⟨-, length, lineEnd, hfield, -⟩ := h
  exact CursorBounds.succ_lt_length hstar hpos hfield

theorem CommandAt.succ_lt_length (hstar : byteAt host input 0 = byte '*') (hpos : pos < 2 ^ 64)
    (h : CommandAt host input pos n name next) : pos + 1 < input.length := by
  obtain ⟨-, lineEnd, raw, hfield, -⟩ := h
  exact CursorBounds.succ_lt_length hstar hpos hfield

theorem BulkAt.length_le (h : BulkAt host input pos s next) : s.length ≤ input.length := by
  obtain ⟨-, length, lineEnd, -, -, rfl, -⟩ := h
  rw [List.length_take, List.length_drop]
  omega

theorem BulkAt.next_lt (h : BulkAt host input pos s next) : next < 2 ^ 64 := by
  obtain ⟨-, length, lineEnd, -, -, -, rfl⟩ := h
  exact sizeT_lt _

theorem CommandAt.next_lt (h : CommandAt host input pos n name next) : next < 2 ^ 64 := by
  obtain ⟨-, lineEnd, raw, -, hraw, -⟩ := h
  exact BulkAt.next_lt hraw

theorem SetArguments.next_lt {k v : Bytes} {px : Option ℤ}
    (h : SetArguments host input pos n k v px next) : next < 2 ^ 64 := by
  cases h with
  | plain _ _ hv => exact BulkAt.next_lt hv
  | expiring _ _ _ _ he => exact BulkAt.next_lt he

end Fields

/-- Where the cursor lands behind a string whose length is announced as `length` on a line
that ends at `lineEnd`. -/
def bulkEnd (length : ℤ) (lineEnd : ℕ) : ℕ := sizeT (sizeT (lineEnd + 2) + toInt (length + 2))

/-- At `pos` stands a SET whose last string announces `length` on a line that ends at
`lineEnd`. -/
inductive LastLine (host : Host) (input : Bytes) (pos : ℕ) : ℤ → ℕ → Prop where
  | plain {n p k p₁ v next length lineEnd} (hcmd : CommandAt host input pos n (str "SET") p)
      (hn : n ≤ 3) (hk : BulkAt host input p k p₁) (hv : BulkAt host input p₁ v next)
      (hline : IntField input (sizeT (p₁ + 1)) length lineEnd) : LastLine host input pos length lineEnd
  | expiring {n p k p₁ v p₂ px p₃ e next ms length lineEnd}
      (hcmd : CommandAt host input pos n (str "SET") p) (hn : 3 < n)
      (hk : BulkAt host input p k p₁) (hv : BulkAt host input p₁ v p₂)
      (hpx : BulkAt host input p₂ px p₃) (he : BulkAt host input p₃ e next) (hms : stoi e = .ok ms)
      (hline : IntField input (sizeT (p₃ + 1)) length lineEnd) : LastLine host input pos length lineEnd

section Chain

variable {host : Host} {input : Bytes} {pos p q next : ℕ} {n length : ℤ} {lineEnd : ℕ}
  {k v name s : Bytes} {px : Option ℤ}

theorem BulkAt.next_eq (h : BulkAt host input pos s next)
    (hline : IntField input (sizeT (pos + 1)) length lineEnd) : next = bulkEnd length lineEnd := by
  obtain ⟨-, length', lineEnd', hfield, -, -, rfl⟩ := h
  obtain ⟨rfl, rfl⟩ := hfield.unique hline
  rfl

/-- The last line of a SET says where it ends. -/
theorem exists_setAt_of_lastLine (h : LastLine host input pos length lineEnd) :
    ∃ k v px, SetAt host input pos k v px (bulkEnd length lineEnd) := by
  cases h with
  | plain hcmd hn hk hv hline =>
    rw [← BulkAt.next_eq hv hline]
    exact ⟨_, _, none, _, _, hcmd, .plain hn hk hv⟩
  | expiring hcmd hn hk hv hpx he hms hline =>
    rw [← BulkAt.next_eq he hline]
    exact ⟨_, _, some _, _, _, hcmd, .expiring hn hk hv hpx he hms⟩

theorem exists_lastLine_of_setAt (h : SetAt host input pos k v px next) :
    ∃ length lineEnd, LastLine host input pos length lineEnd ∧ next = bulkEnd length lineEnd := by
  obtain ⟨n, p, hcmd, hargs⟩ := h
  cases hargs with
  | plain hn hk hv =>
    obtain ⟨-, length, lineEnd, hline, -⟩ := id hv
    exact ⟨length, lineEnd, .plain hcmd hn hk hv hline, BulkAt.next_eq hv hline⟩
  | expiring hn hk hv hpx he hms =>
    obtain ⟨-, length, lineEnd, hline, -⟩ := id he
    exact ⟨length, lineEnd, .expiring hcmd hn hk hv hpx he hms hline, BulkAt.next_eq he hline⟩

/-- The positions that a chain of SETs leads to are not past the range of `size_t`. -/
theorem chain_lt (h : Relation.ReflTransGen (Next host input) 0 p) : p < 2 ^ 64 := by
  cases h with
  | refl => decide
  | tail _ hnext =>
    obtain ⟨⟨k, v, px, n, q, -, hargs⟩, -⟩ := hnext
    exact SetArguments.next_lt hargs

/-- The buffer of a chain that comes to a command begins with one. -/
theorem chain_star (h : Relation.ReflTransGen (Next host input) 0 p)
    (hcmd : CommandAt host input p n name q) : byteAt host input 0 = byte '*' := by
  rcases h.cases_head with rfl | ⟨_, hnext, -⟩
  · exact hcmd.1
  · obtain ⟨⟨k, v, px, n, q, hcmd', -⟩, -⟩ := hnext
    exact hcmd'.1

/-- The name of a command that a chain of SETs leads to stands inside the buffer. -/
theorem CommandAt.name_le (h : Relation.ReflTransGen (Next host input) 0 p)
    (hcmd : CommandAt host input p n name q) :
    sizeT (find input crlf (sizeT (p + 1)) + 2) ≤ input.length := by
  have hstar := chain_star h hcmd
  obtain ⟨-, lineEnd, raw, ⟨rfl, -, -⟩, hraw, -⟩ := hcmd
  have hlt := BulkAt.succ_lt_length hstar (sizeT_lt _) hraw
  omega

/-- A command that a chain of SETs leads to stands inside the buffer. -/
theorem chain_succ_lt (h : Relation.ReflTransGen (Next host input) 0 p)
    (hcmd : CommandAt host input p n name q) : p + 1 < input.length :=
  CommandAt.succ_lt_length (chain_star h hcmd) (chain_lt h) hcmd

end Chain

end RedisServer.CursorBounds
