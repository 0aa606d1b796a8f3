import RedisServer.CursorBounds

/-!
# Which bulk strings are accepted

The length of a bulk string is read by `stoi`, which skips blanks, takes a sign and stops
at the first character that is not a digit; the line end behind it may be missing, the
payload is clipped to the buffer and the line end behind the payload is not looked at.
-/

namespace RedisServer.BulkStringGrammar
open ByteStrings CxxStrings RespGrammar InteractionPrograms ServerState Utils RedisParser
open RequestChain RequestDecoding CursorBounds

/-- At `pos` stands the bulk string of `s`, up to `next`, with a length in the range of `int`. -/
def GrammarAt (input : Bytes) (pos : ℕ) (s : Bytes) (next : ℕ) : Prop :=
  ∃ e, BulkString s e ∧ s.length ≤ intMax ∧ StandsAt input pos e ∧ next = pos + e.length

/-- If a dollar sign stands at `pos` and `stoi` accepts the text from there to the next
line end, or to the end of the buffer, then this text is a numeral closed by a line end,
not above `INT_MAX - 2`, and so many bytes and a line end stand behind it. -/
def ProperlyAnnounced (input : Bytes) (pos : ℕ) : Prop :=
  ∀ length lineEnd, input[pos]? = some (byte '$') → IntField input (pos + 1) length lineEnd →
    ∃ ds payload, length = (payload : Bytes).length ∧ Numeral payload.length ds ∧
      payload.length + 2 ≤ intMax ∧ StandsAt input (pos + 1) (ds ++ crlf ++ (payload ++ crlf))

variable {host : Host} {input s : Bytes} {pos next : ℕ}

theorem byteAt_eq_iff {b : UInt8} (hpos : pos ≤ input.length) (hb : b ≠ 0) :
    byteAt host input pos = b ↔ input[pos]? = some b := by
  rcases hpos.lt_or_eq with hlt | rfl
  · simp [byteAt, charAt?, hlt]
  · simpa using hb.symm

/-- Inside the buffer the decoder returns or throws, and it returns what stands there. -/
theorem parseBulkString_cases (hpos : pos ≤ input.length) :
    (∃ s next, parseBulkString input pos = .pure (s, next) ∧ BulkAt host input pos s next) ∨
    ∃ e, parseBulkString input pos = .throw e ∧ ¬ ∃ s next, BulkAt host input pos s next := by
  by_cases h : ∃ s next, BulkAt host input pos s next
  · obtain ⟨s, next, h⟩ := h
    exact .inl ⟨s, next, parseBulkString_eq_pure h hpos, h⟩
  · refine .inr ?_
    by_cases hdollar : byteAt host input pos = byte '$'
    · simp only [parseBulkString, charAt_eq_pure host hpos, Program.pure_bind, hdollar, ne_eq,
        not_true_eq_false, if_false]
      cases hint : (substr input (sizeT (pos + 1)) (sizeT (find input crlf (sizeT (pos + 1)) -
          sizeT (pos + 1)))).bind stoi with
      | error e => exact ⟨e, rfl, h⟩
      | ok length =>
        cases hpayload : substr input (sizeT (find input crlf (sizeT (pos + 1)) + 2))
            (sizeT length) with
        | error e =>
          refine ⟨e, ?_, h⟩
          change ((Program.ofExcept (substr input (sizeT (find input crlf (sizeT (pos + 1)) + 2))
            (sizeT length)) : Parser Bytes) >>= _) = _
          rw [hpayload]
          rfl
        | ok s =>
          obtain ⟨hin, rfl⟩ := substr_eq_ok.mp hpayload
          exact absurd ⟨_, _, hdollar, length, _, ⟨rfl, substr_stoi_eq_ok.mp hint⟩, hin, rfl, rfl⟩ h
    · refine ⟨.runtimeError "protocol error: expected bulk string", ?_, h⟩
      simp only [parseBulkString, charAt_eq_pure host hpos, Program.pure_bind, ne_eq, hdollar,
        not_false_eq_true, if_true]

theorem parseBulkString_eq_pure_iff (host : Host) (hpos : pos ≤ input.length) :
    parseBulkString input pos = .pure (s, next) ↔ BulkAt host input pos s next := by
  constructor
  · intro heq
    rcases @parseBulkString_cases host input pos hpos with ⟨s', next', heq', h⟩ | ⟨e, heq', -⟩
    · cases heq.symm.trans heq'
      exact h
    · cases heq.symm.trans heq'
  · exact fun h => parseBulkString_eq_pure h hpos

theorem exists_bulkAt {length : ℤ} {lineEnd : ℕ} (hlen : input.length ≤ maxSize)
    (hdollar : byteAt host input pos = byte '$') (hfield : IntField input (pos + 1) length lineEnd) :
    ∃ s, BulkAt host input pos s (sizeT (sizeT (lineEnd + 2) + toInt (length + 2))) := by
  have hlt := IntField.lt_length hfield
  have hbig : input.length < 2 ^ 64 := lt_of_le_of_lt hlen (by decide)
  have hstart : sizeT ((pos : ℤ) + 1) = pos + 1 := sizeT_natCast (n := pos + 1) (by omega)
  have hin := payload_le hlt hlen
  rw [← hfield.1] at hin
  exact ⟨_, hdollar, length, lineEnd, by rwa [hstart], hin, rfl, rfl⟩

theorem toInt_of_big {i : ℤ} (h₀ : 2 ^ 31 ≤ i) (h₁ : i < 2 ^ 32) : toInt i = i - 2 ^ 32 := by
  simp only [toInt, Int.bmod_def]
  omega

theorem GrammarAt.intField (h : GrammarAt input pos s next) (hlen : input.length ≤ maxSize) :
    ∃ ds, Numeral s.length ds ∧ StandsAt input (pos + 1) (ds ++ crlf ++ (s ++ crlf)) ∧
      IntField input (pos + 1) s.length (pos + 1 + ds.length) ∧
      next = pos + 1 + ds.length + 2 + (s.length + 2) := by
  obtain ⟨e, hs, hint, hat, rfl⟩ := h
  obtain ⟨hds⟩ := hs
  rename_i ds
  have htail : StandsAt input (pos + 1) (ds ++ crlf ++ (s ++ crlf)) := hat.tail
  exact ⟨ds, hds, htail, intField_of_numeral hds hint hlen htail.left, by simp [crlf]; omega⟩

/-- The decoder adds two to the announced length as an `int`, so it lands behind the
string only if that does not overflow. -/
theorem GrammarAt.fits (h : GrammarAt input pos s next) (hlen : input.length ≤ maxSize)
    (hbulk : BulkAt host input pos s next) : s.length + 2 ≤ intMax := by
  obtain ⟨ds, -, hat, hfield, hnext⟩ := h.intField hlen
  have hin := hat.length_le
  have hint : s.length ≤ intMax := h.choose_spec.2.1
  have hdollar := hbulk.1
  obtain ⟨s', hbulk'⟩ := exists_bulkAt hlen hdollar hfield
  obtain ⟨-, heq⟩ := hbulk.unique hbulk'
  have hcrlf : crlf.length = 2 := rfl
  simp only [maxSize] at hlen
  simp only [List.length_append, hcrlf] at hin
  by_contra hbig
  simp only [intMax] at hint hbig
  have hline : sizeT (((pos + 1 + ds.length : ℕ) : ℤ) + 2) = pos + 1 + ds.length + 2 :=
    sizeT_natCast (n := pos + 1 + ds.length + 2) (by omega)
  rw [hline, toInt_of_big (by omega) (by omega), hnext] at heq
  simp only [sizeT] at heq
  omega

/-- The decoder accepts exactly the grammar, with the right payload and cursor, if and only
if whatever announces a length here announces it properly. -/
theorem accepts_grammar_iff (input : Bytes) (pos : ℕ) (hlen : input.length ≤ maxSize)
    (hpos : pos ≤ input.length) :
    (∀ s next, parseBulkString input pos = .pure (s, next) ↔ GrammarAt input pos s next) ↔
      ProperlyAnnounced input pos := by
  have hdollar_iff : byteAt .plain input pos = byte '$' ↔ input[pos]? = some (byte '$') :=
    byteAt_eq_iff hpos (by decide)
  simp only [parseBulkString_eq_pure_iff .plain hpos]
  constructor
  · intro h length lineEnd hdollar hfield
    obtain ⟨s, hbulk⟩ := exists_bulkAt hlen (hdollar_iff.mpr hdollar) hfield
    have hgrammar := (h _ _).mp hbulk
    obtain ⟨ds, hds, hat, hfield', -⟩ := hgrammar.intField hlen
    obtain ⟨rfl, -⟩ := hfield.unique hfield'
    exact ⟨ds, s, rfl, hds, hgrammar.fits hlen hbulk, hat⟩
  · intro h s next
    constructor
    · intro hbulk
      have hdollar := hdollar_iff.mp hbulk.1
      have hbig : input.length < 2 ^ 64 := lt_of_le_of_lt hlen (by decide)
      obtain ⟨hlt, hbyte⟩ := List.getElem?_eq_some_iff.mp hdollar
      have hstart : sizeT ((pos : ℤ) + 1) = pos + 1 := sizeT_natCast (n := pos + 1) (by omega)
      have hbulk' := hbulk
      obtain ⟨-, length, lineEnd, hfield, -⟩ := hbulk
      rw [hstart] at hfield
      obtain ⟨ds, payload, -, hds, hfit, hat⟩ := h length lineEnd hdollar hfield
      have hat' : StandsAt input pos (byte '$' :: (ds ++ crlf ++ (payload ++ crlf))) := by
        obtain ⟨pre, post, hinput, hpre⟩ := hat
        refine ⟨input.take pos, post, ?_, by simp; omega⟩
        have hdrop : input.drop (pos + 1) = ds ++ crlf ++ (payload ++ crlf) ++ post := by
          rw [hinput, hpre, List.drop_left]
        rw [List.cons_append, ← hdrop, ← hbyte, List.getElem_cons_drop, List.take_append_drop]
      obtain ⟨rfl, rfl⟩ := hbulk'.unique (bulkAt_of_bulkString (.mk hds) hfit hlen hat')
      exact ⟨_, .mk hds, by omega, hat', rfl⟩
    · intro hgrammar
      obtain ⟨ds, hds, hat, hfield, -⟩ := hgrammar.intField hlen
      obtain ⟨e, hs, hint, hstands, rfl⟩ := hgrammar
      have hdollar : input[pos]? = some (byte '$') := by
        obtain ⟨-⟩ := hs
        exact hdollar_iff.mp (byteAt_of_standsAt hstands)
      obtain ⟨ds', payload, hlength, -, hfit, -⟩ := h _ _ hdollar hfield
      have hlength : s.length = payload.length := by exact_mod_cast hlength
      exact bulkAt_of_bulkString hs (by omega) hlen hstands

/-- A complete bulk string with a payload of two bytes. -/
theorem accepts_grammar_iff_at_start :
    (∀ s next, parseBulkString (str "$2\r\nab\r\n") 0 = .pure (s, next) ↔
      GrammarAt (str "$2\r\nab\r\n") 0 s next) ↔ ProperlyAnnounced (str "$2\r\nab\r\n") 0 :=
  accepts_grammar_iff _ 0 (by decide) (by decide)

/-- A truncated payload is returned, stored and acknowledged. -/
theorem truncated_string_accepted :
    parseBulkString (str "$5\r\nab") 0 = .pure (str "ab", 11) ∧
    (∀ s next, ¬ GrammarAt (str "$5\r\nab") 0 s next) ∧
    ∃ tr st', Handles .plain 5 (str "*3\r\n$3\r\nSET\r\n$1\r\nk\r\n$5\r\nab") (.empty []) tr
        (.ok ()) st' ∧
      messages tr = [okResponse] ∧ st'.database.lookup (str "k") = some ⟨str "ab", 0⟩ := by
  refine ⟨rfl, ?_, ?_⟩
  · intro s next h
    obtain ⟨ds, -, hat, hfield, -⟩ := h.intField (by decide)
    obtain ⟨hlength, -⟩ := hfield.unique
      (show IntField (str "$5\r\nab") 1 5 2 from ⟨by decide, by decide, by decide⟩)
    have hle := hat.length_le
    simp only [List.length_append] at hle
    have hs : s.length = 5 := by exact_mod_cast hlength
    rw [hs] at hle
    simp [str, crlf] at hle
    omega
  · refine ⟨_, _, Machine.eval_sound (n := 2) rfl, rfl, ?_⟩
    exact Finmap.lookup_insert _

end RedisServer.BulkStringGrammar
