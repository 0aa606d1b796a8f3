import RedisServer.RequestDecoding

/-!
# The request decoder undoes the array encoder

The parser reads a command's elements one at a time, as its handlers ask for them. Here
the same steps read a whole array: the header as in `parseRESPCommand`, then one
`parseBulkString` for each announced element. Inside the buffer these steps look nothing
up, so what they return is an equation between programs.
-/

namespace RedisServer.ArrayRoundTrip
open ByteStrings CxxStrings RespGrammar InteractionPrograms ServerState Utils RedisParser
open RequestChain RequestDecoding

/-- The number of elements in an array header, and the cursor behind it. -/
def parseArrayHeader (input : Bytes) (pos : ℕ) : Parser (ℤ × ℕ) := do
  let pos := sizeT (pos + 1)
  let elementsEnd := find input crlf pos
  let numElements ← .ofExcept ((substr input pos (sizeT (elementsEnd - pos))).bind stoi)
  return (numElements, sizeT (elementsEnd + 2))

/-- `n` bulk strings one after another. -/
def parseElements (input : Bytes) : ℕ → ℕ → Parser (List Bytes × ℕ)
  | 0, pos => return ([], pos)
  | n + 1, pos => do
    let (s, pos) ← parseBulkString input pos
    let (ss, pos) ← parseElements input n pos
    return (s :: ss, pos)

/-- The array at `pos`, and the cursor behind it. -/
def parseArray (input : Bytes) (pos : ℕ) : Parser (Option (List Bytes × ℕ)) := do
  if (← charAt input pos) ≠ byte '*' then
    return none
  else
    let (numElements, pos) ← parseArrayHeader input pos
    return some (← parseElements input numElements.toNat pos)

theorem parseCommandName_eq (input : Bytes) (pos : ℕ) :
    parseCommandName input pos = parseArrayHeader input pos >>= fun (numElements, pos) => do
      let (command, pos) ← parseBulkString input pos
      return (numElements, command.map toUpper, pos) := by
  simp only [parseCommandName, parseArrayHeader, Program.bind_assoc]
  rfl

variable {input : Bytes} {pos : ℕ} {s : Bytes}

theorem charAt_of_standsAt {b : UInt8} {e : Bytes} (h : StandsAt input pos (b :: e)) :
    charAt input pos = .pure b := by
  have hpos := h.length_le
  rw [charAt_eq_pure .plain (by simp at hpos; omega), byteAt_of_standsAt h]

theorem parseBulkString_of_bulkString {e : Bytes} (hs : BulkString s e)
    (hfit : s.length + 2 ≤ intMax) (hlen : input.length ≤ maxSize) (h : StandsAt input pos e) :
    parseBulkString input pos = .pure (s, pos + e.length) := by
  have hpos := h.length_le
  have hbulk : BulkAt .plain input pos s (pos + e.length) := bulkAt_of_bulkString hs hfit hlen h
  exact parseBulkString_eq_pure hbulk (by omega)

/-- Bulk strings are decoded one by one, up to the end of the last. -/
theorem parseElements_of_bulkStrings {ss : List Bytes} {body : Bytes} (hs : BulkStrings ss body)
    (hfit : ∀ s ∈ ss, s.length + 2 ≤ intMax) (hlen : input.length ≤ maxSize)
    (h : StandsAt input pos body) :
    parseElements input ss.length pos = .pure (ss, pos + body.length) := by
  induction hs generalizing pos with
  | nil => rfl
  | @cons s e ss es hs rest ih =>
    obtain ⟨hfit, hfits⟩ := List.forall_mem_cons.mp hfit
    simp only [List.length_cons, parseElements, parseBulkString_of_bulkString hs hfit hlen h.left,
      ih hfits h.right, Program.pure_bind, Program.pure_eq, List.length_append, Nat.add_assoc]

theorem parseArrayHeader_of_numeral {n : ℕ} {ds : Bytes} (hds : Numeral n ds) (hn : n ≤ intMax)
    (hlen : input.length ≤ maxSize) (h : StandsAt input pos (byte '*' :: (ds ++ crlf))) :
    parseArrayHeader input pos = .pure ((n : ℤ), pos + 1 + ds.length + 2) := by
  have hin := h.length_le
  simp only [List.length_cons, List.length_append] at hin
  have hbig : input.length + 2 < 2 ^ 64 := by simp [maxSize] at hlen; omega
  have hcrlf : crlf.length = 2 := rfl
  have hfield := intField_of_numeral hds hn hlen h.tail
  have hstart : sizeT ((pos : ℤ) + 1) = pos + 1 := sizeT_natCast (n := pos + 1) (by omega)
  have hline : sizeT ((find input crlf (pos + 1) : ℤ) + 2) = pos + 1 + ds.length + 2 := by
    rw [← hfield.1]
    exact sizeT_natCast (n := pos + 1 + ds.length + 2) (by omega)
  have hint := hfield.2
  rw [hfield.1] at hint
  simp only [parseArrayHeader, hstart, substr_stoi_eq_ok.mpr hint, hline]
  rfl

/-- The header of a request is decoded as its number of elements, and they stand behind it. -/
theorem parseArrayHeader_of_request {ss : List Bytes} {e : Bytes} (hr : Request ss e)
    (hcount : ss.length ≤ intMax) (hlen : input.length ≤ maxSize) (h : StandsAt input pos e) :
    ∃ body next, parseArrayHeader input pos = .pure (ss.length, next) ∧ BulkStrings ss body ∧
      StandsAt input next body ∧ next + body.length = pos + e.length := by
  obtain ⟨hds, hs⟩ := hr
  rename_i ds body
  have hheader : StandsAt input pos (byte '*' :: (ds ++ crlf)) := StandsAt.left (v := body) h
  have hbody : StandsAt input (pos + 1 + ds.length + 2) body := by
    have hright := StandsAt.right (u := byte '*' :: (ds ++ crlf)) (v := body) h
    simpa [crlf, Nat.add_assoc, Nat.add_comm, Nat.add_left_comm] using hright
  refine ⟨body, _, parseArrayHeader_of_numeral hds hcount hlen hheader, hs, hbody, ?_⟩
  simp [crlf]
  omega

theorem charAt_of_request {ss : List Bytes} {e : Bytes} (hr : Request ss e)
    (h : StandsAt input pos e) : charAt input pos = .pure (byte '*') := by
  obtain ⟨rest, rfl⟩ := hr.head
  exact charAt_of_standsAt h

/-- A request is decoded as its elements, up to its end. -/
theorem parseArray_of_request {ss : List Bytes} {e : Bytes} (hr : Request ss e) (hfit : Fits ss)
    (hlen : input.length ≤ maxSize) (h : StandsAt input pos e) :
    parseArray input pos = .pure (some (ss, pos + e.length)) := by
  obtain ⟨body, next, hheader, hs, hbody, hend⟩ := parseArrayHeader_of_request hr hfit.count hlen h
  simp only [parseArray, charAt_of_request hr h, Program.pure_bind, ne_eq, not_true_eq_false, if_false,
    hheader, Int.toNat_natCast, parseElements_of_bulkStrings hs hfit.lengths hlen hbody,
    Program.pure_eq, hend]

/-- Decoding undoes encoding wherever the array stands, and no encoding continues another. -/
theorem parseArray_createArrayReponse (ss : List Bytes) (hfit : Fits ss) :
    (∀ pre post : Bytes, (pre ++ createArrayReponse ss ++ post).length ≤ maxSize →
      parseArray (pre ++ createArrayReponse ss ++ post) pre.length =
        .pure (some (ss, pre.length + (createArrayReponse ss).length))) ∧
    ∀ ss', createArrayReponse ss <+: createArrayReponse ss' → ss = ss' := by
  constructor
  · intro pre post hlen
    exact parseArray_of_request (createArrayReponse_request ss) hfit hlen ⟨pre, post, by simp, rfl⟩
  · rintro ss' ⟨post, hpost⟩
    have heq : createArrayReponse ss ++ post = createArrayReponse ss' ++ [] := by simpa using hpost
    exact ((createArrayReponse_request ss).unique (createArrayReponse_request ss') heq).1

/-- Payloads that look like protocol text. -/
theorem parseArray_createArrayReponse_of_crlf :
    (∀ pre post : Bytes, (pre ++ createArrayReponse [str "\r\n", str "*1\r\n"] ++ post).length ≤ maxSize →
      parseArray (pre ++ createArrayReponse [str "\r\n", str "*1\r\n"] ++ post) pre.length =
        .pure (some ([str "\r\n", str "*1\r\n"],
          pre.length + (createArrayReponse [str "\r\n", str "*1\r\n"]).length))) ∧
    ∀ ss', createArrayReponse [str "\r\n", str "*1\r\n"] <+: createArrayReponse ss' →
      [str "\r\n", str "*1\r\n"] = ss' :=
  parseArray_createArrayReponse _ ⟨by decide, by decide⟩

end RedisServer.ArrayRoundTrip
