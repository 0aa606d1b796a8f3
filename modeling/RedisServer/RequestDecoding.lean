import RedisServer.RequestRuns

/-!
# Well-formed requests are decoded as what they are

What the parser reads at the place of a request of the grammar: the command's name and
its arguments, with the cursor landing on the first byte after each of them. The decoder
adds two to every announced length, so a payload must stay that far below `INT_MAX`.
-/

namespace RedisServer.RequestDecoding
open ByteStrings CxxStrings RespGrammar InteractionPrograms ServerState Utils RedisParser
open RequestChain RequestRuns

/-- The bytes `e` stand in `input` at `pos`. -/
def StandsAt (input : Bytes) (pos : ℕ) (e : Bytes) : Prop :=
  ∃ pre post, input = pre ++ (e ++ post) ∧ pos = pre.length

section StandsAt

variable {input e : Bytes} {pos : ℕ}

theorem standsAt_self (input : Bytes) : StandsAt input 0 input := ⟨[], [], by simp, rfl⟩

theorem StandsAt.left {u v : Bytes} (h : StandsAt input pos (u ++ v)) : StandsAt input pos u := by
  obtain ⟨pre, post, rfl, rfl⟩ := h
  exact ⟨pre, v ++ post, by simp, rfl⟩

theorem StandsAt.right {u v : Bytes} (h : StandsAt input pos (u ++ v)) :
    StandsAt input (pos + u.length) v := by
  obtain ⟨pre, post, rfl, rfl⟩ := h
  exact ⟨pre ++ u, post, by simp, by simp⟩

theorem StandsAt.tail {b : UInt8} (h : StandsAt input pos (b :: e)) : StandsAt input (pos + 1) e :=
  StandsAt.right (u := [b]) h

theorem StandsAt.length_le (h : StandsAt input pos e) : pos + e.length ≤ input.length := by
  obtain ⟨pre, post, rfl, rfl⟩ := h
  simp

end StandsAt

section Fields

variable {host : Host} {input : Bytes} {pos : ℕ}

/-- A conversion to `size_t` that changes nothing. -/
private theorem sizeT_eq {i : ℤ} {n : ℕ} (h : i = n) (hn : n < 2 ^ 64) : sizeT i = n := by
  subst h
  exact sizeT_natCast hn

theorem byteAt_of_standsAt {b : UInt8} {e : Bytes} (h : StandsAt input pos (b :: e)) :
    byteAt host input pos = b := by
  obtain ⟨pre, post, rfl, rfl⟩ := h
  simp [byteAt]

@[simp] theorem byteAt_length (s : Bytes) : byteAt host s s.length = 0 := by
  simp [byteAt]

/-- A numeral that ends in a line end is read as its value. -/
theorem intField_of_numeral {n : ℕ} {ds : Bytes} (hds : Numeral n ds) (hn : n ≤ intMax)
    (hlen : input.length ≤ maxSize) (h : StandsAt input pos (ds ++ crlf)) :
    IntField input pos n (pos + ds.length) := by
  have hle := h.length_le
  obtain ⟨pre, post, rfl, rfl⟩ := h
  refine ⟨by rw [List.append_assoc, find_crlf hds.cr_notMem], by omega, ?_⟩
  have hwidth : sizeT (((pre.length + ds.length : ℕ) : ℤ) - pre.length) = ds.length := by
    apply sizeT_eq (by omega)
    simp [maxSize] at hlen hle
    omega
  rw [hwidth]
  simpa using stoi_numeral hds hn

/-- Elements whose number and lengths the program's integers hold, with room for the line
end that the decoder adds to a length. -/
structure Fits (ss : List Bytes) : Prop where
  count : ss.length ≤ intMax
  lengths : ∀ s ∈ ss, s.length + 2 ≤ intMax

theorem BulkString.length_le {s e : Bytes} (h : BulkString s e) : s.length + 5 ≤ e.length := by
  obtain ⟨hds⟩ := h
  simp [crlf]

theorem BulkStrings.length_le {ss : List Bytes} {e : Bytes} (h : BulkStrings ss e) :
    ss.length ≤ e.length := by
  induction h with
  | nil => simp
  | cons hs _ ih =>
    have hpos := BulkString.length_le hs
    simp
    omega

theorem BulkStrings.forall_length_le {ss : List Bytes} {e : Bytes} (h : BulkStrings ss e) :
    ∀ s ∈ ss, s.length + 5 ≤ e.length := by
  induction h with
  | nil => exact nofun
  | cons hs _ ih =>
    have hhead := BulkString.length_le hs
    refine List.forall_mem_cons.mpr ⟨by simp; omega, fun s hmem => ?_⟩
    have htail := ih s hmem
    simp
    omega

/-- A request of at most `INT_MAX` bytes has elements that fit. -/
theorem Request.fits {ss : List Bytes} {e : Bytes} (h : Request ss e) (hlen : e.length ≤ intMax) :
    Fits ss := by
  obtain ⟨-, hs⟩ := h
  have hcount := BulkStrings.length_le hs
  simp at hlen
  refine ⟨by omega, fun s hmem => ?_⟩
  have hlength := BulkStrings.forall_length_le hs s hmem
  omega

theorem Pipeline.fits {cmds : List (List Bytes)} {e : Bytes} (h : Pipeline cmds e)
    (hlen : e.length ≤ intMax) : ∀ c ∈ cmds, Fits c := by
  induction h with
  | nil => exact nofun
  | cons hc _ ih =>
    rw [List.length_append] at hlen
    exact List.forall_mem_cons.mpr ⟨Request.fits hc (by omega), ih (by omega)⟩

theorem le_maxSize_of_le_intMax {n : ℕ} (h : n ≤ intMax) : n ≤ maxSize :=
  h.trans (by decide)

/-- Behind an announced length as many bytes are read, and the cursor goes two bytes further. -/
theorem bulkAt_of_announced {n : ℕ} {ds : Bytes} (hds : Numeral n ds) (hfit : n + 2 ≤ intMax)
    (hlen : input.length ≤ maxSize) (h : StandsAt input pos (byte '$' :: (ds ++ crlf))) :
    BulkAt host input pos ((input.drop (pos + 1 + ds.length + 2)).take n)
      (pos + 1 + ds.length + 2 + n + 2) := by
  have hin := h.length_le
  simp only [List.length_cons, List.length_append] at hin
  have hcrlf : crlf.length = 2 := rfl
  have hbig : input.length < 2 ^ 63 := by simp [maxSize] at hlen; omega
  have hn : n < 2 ^ 31 := by simp [intMax] at hfit; omega
  have hstart : sizeT ((pos : ℤ) + 1) = pos + 1 := sizeT_eq (by omega) (by omega)
  have hline : sizeT (((pos + 1 + ds.length : ℕ) : ℤ) + 2) = pos + 1 + ds.length + 2 :=
    sizeT_eq (by omega) (by omega)
  have hfield := intField_of_numeral hds (by omega) hlen h.tail
  refine ⟨byteAt_of_standsAt h, n, pos + 1 + ds.length, ?_, ?_, ?_, ?_⟩
  · rwa [hstart]
  · rw [hline]
    omega
  · rw [hline, sizeT_natCast (by omega)]
  · have hint : toInt ((n : ℤ) + 2) = (n + 2 : ℕ) := by
      rw [toInt_of_le (by omega) (by exact_mod_cast hfit)]
      rfl
    rw [hline, hint]
    exact (sizeT_eq (by omega) (by omega)).symm

/-- A bulk string is read up to its end, even where its last line end is missing. -/
theorem bulkAt_of_payload {s ds : Bytes} (hds : Numeral s.length ds) (hfit : s.length + 2 ≤ intMax)
    (hlen : input.length ≤ maxSize) (h : StandsAt input pos (byte '$' :: (ds ++ crlf ++ s))) :
    BulkAt host input pos s (pos + (byte '$' :: (ds ++ crlf ++ (s ++ crlf))).length) := by
  have hannounced : StandsAt input pos (byte '$' :: (ds ++ crlf)) := StandsAt.left (v := s) h
  have hbulk := @bulkAt_of_announced host input pos s.length ds hds hfit hlen hannounced
  have hpayload : (input.drop (pos + 1 + ds.length + 2)).take s.length = s := by
    obtain ⟨pre, post, rfl, rfl⟩ := h
    have hpre : pre.length + 1 + ds.length + 2 = (pre ++ (byte '$' :: (ds ++ crlf))).length := by
      simp [crlf]
      omega
    have hsplit : pre ++ (byte '$' :: (ds ++ crlf ++ s) ++ post)
        = (pre ++ (byte '$' :: (ds ++ crlf))) ++ (s ++ post) := by simp
    rw [hpre, hsplit, List.drop_left, List.take_left]
  have hnext : pos + 1 + ds.length + 2 + s.length + 2
      = pos + (byte '$' :: (ds ++ crlf ++ (s ++ crlf))).length := by
    simp [crlf]
    omega
  rwa [hpayload, hnext] at hbulk

/-- A bulk string is read as its payload, up to its end. -/
theorem bulkAt_of_bulkString {s e : Bytes} (hs : BulkString s e) (hfit : s.length + 2 ≤ intMax)
    (hlen : input.length ≤ maxSize) (h : StandsAt input pos e) :
    BulkAt host input pos s (pos + e.length) := by
  obtain ⟨hds⟩ := hs
  rename_i ds
  have hat : StandsAt input pos (byte '$' :: (ds ++ crlf ++ s) ++ crlf) := by simpa using h
  exact bulkAt_of_payload hds hfit hlen hat.left

/-- The first of a list of bulk strings, and where the others stand. -/
theorem exists_bulkAt_of_cons (host : Host) {s : Bytes} {ss : List Bytes} {body : Bytes}
    (hs : BulkStrings (s :: ss) body) (hfit : s.length + 2 ≤ intMax)
    (hlen : input.length ≤ maxSize) (h : StandsAt input pos body) :
    ∃ body' next, BulkAt host input pos s next ∧ BulkStrings ss body' ∧
      StandsAt input next body' ∧ next + body'.length = pos + body.length := by
  cases hs with
  | @cons _ e _ es hs rest =>
    exact ⟨es, pos + e.length, bulkAt_of_bulkString hs hfit hlen h.left, rest, h.right, by simp; omega⟩

/-- An array header and a name are read as the command they name. -/
theorem commandAt_of_name (host : Host) {n : ℕ} {name ds e : Bytes} (hds : Numeral n ds)
    (hn : n ≤ intMax) (hname : BulkString name e) (hfit : name.length + 2 ≤ intMax)
    (hlen : input.length ≤ maxSize) (h : StandsAt input pos (byte '*' :: (ds ++ crlf ++ e))) :
    CommandAt host input pos n (name.map toUpper)
      (pos + (byte '*' :: (ds ++ crlf ++ e)).length) := by
  have hin := h.length_le
  simp only [List.append_assoc, List.length_cons, List.length_append] at h hin ⊢
  have hcrlf : crlf.length = 2 := rfl
  have hbig : input.length + 2 < 2 ^ 64 := by simp [maxSize] at hlen; omega
  have hstart : sizeT ((pos : ℤ) + 1) = pos + 1 := sizeT_eq (by omega) (by omega)
  have hline : sizeT (((pos + 1 + ds.length : ℕ) : ℤ) + 2) = pos + 1 + ds.length + 2 :=
    sizeT_eq (by omega) (by omega)
  have hds' : StandsAt input (pos + 1) (ds ++ crlf ++ e) := by simpa using h.tail
  have hfield := intField_of_numeral hds hn hlen hds'.left
  have hbulk : BulkAt host input (pos + 1 + ds.length + 2) name
      (pos + 1 + ds.length + 2 + e.length) :=
    bulkAt_of_bulkString hname hfit hlen (by simpa [crlf, Nat.add_assoc] using hds'.right)
  refine ⟨byteAt_of_standsAt h, pos + 1 + ds.length, name, ?_, ?_, rfl⟩
  · rwa [hstart]
  · rw [hline]
    convert hbulk using 1
    omega

/-- A request is read as the command it names, and where its arguments stand. -/
theorem exists_commandAt_of_request (host : Host) {name : Bytes} {args : List Bytes} {e : Bytes}
    (hc : Request (name :: args) e) (hfit : Fits (name :: args)) (hlen : input.length ≤ maxSize)
    (h : StandsAt input pos e) :
    ∃ body p, CommandAt host input pos (args.length + 1) (name.map toUpper) p ∧
      BulkStrings args body ∧ StandsAt input p body ∧ p + body.length = pos + e.length := by
  obtain ⟨hds, hs⟩ := hc
  rename_i ds _
  cases hs with
  | @cons _ e₁ _ body hname hargs =>
    have hat : StandsAt input pos (byte '*' :: (ds ++ crlf ++ e₁) ++ body) := by simpa using h
    have hcmd := commandAt_of_name host hds hfit.count hname
      (hfit.lengths name List.mem_cons_self) hlen hat.left
    exact ⟨body, _, by exact_mod_cast hcmd, hargs, hat.right, by simp; omega⟩

/-- A request with one argument. -/
theorem exists_bulkAt_of_request (host : Host) {name argument : Bytes}
    (hc : Request [name, argument] input) (hfit : Fits [name, argument])
    (hlen : input.length ≤ maxSize) : ∃ n p next,
    CommandAt host input 0 n (name.map toUpper) p ∧ BulkAt host input p argument next := by
  obtain ⟨body, p, hcmd, hargs, hat, -⟩ :=
    exists_commandAt_of_request host hc hfit hlen (standsAt_self input)
  obtain ⟨_, next, hbulk, -⟩ :=
    exists_bulkAt_of_cons host hargs (hfit.lengths argument (by simp)) hlen hat
  exact ⟨_, p, next, hcmd, hbulk⟩

end Fields

/-- A SET: a key, a value and the milliseconds it is to live, if it expires. -/
structure SetCall where
  key : Bytes
  value : Bytes
  px : Option ℤ

/-- The elements of a well-formed SET, up to the case of its name. -/
inductive SetCommand : List Bytes → SetCall → Prop where
  | plain {name k v} (hname : name.map toUpper = str "SET") : SetCommand [name, k, v] ⟨k, v, none⟩
  | expiring {name k v px ms : Bytes} {t : ℤ} (hname : name.map toUpper = str "SET")
      (hms : stoi ms = .ok t) : SetCommand [name, k, v, px, ms] ⟨k, v, some t⟩

/-- Well-formed SETs. -/
abbrev SetCommands (cmds : List (List Bytes)) (calls : List SetCall) : Prop :=
  List.Forall₂ SetCommand cmds calls

section Sets

variable {host : Host} {input : Bytes} {pos : ℕ}

/-- A well-formed SET is read as such, up to its end. -/
theorem setAt_of_setCommand (host : Host) {c : List Bytes} {call : SetCall} {e : Bytes}
    (hset : SetCommand c call) (hc : Request c e) (hfit : Fits c) (hlen : input.length ≤ maxSize)
    (h : StandsAt input pos e) :
    SetAt host input pos call.key call.value call.px (pos + e.length) := by
  cases hset with
  | plain hname =>
    obtain ⟨body, p, hcmd, hargs, hat, hend⟩ := exists_commandAt_of_request host hc hfit hlen h
    obtain ⟨body, p₁, hk, hargs, hat, hend₁⟩ :=
      exists_bulkAt_of_cons host hargs (hfit.lengths _ (by simp)) hlen hat
    obtain ⟨body, p₂, hv, hargs, hat, hend₂⟩ :=
      exists_bulkAt_of_cons host hargs (hfit.lengths _ (by simp)) hlen hat
    cases hargs
    obtain rfl : p₂ = pos + e.length := by simp at hend₂; omega
    rw [hname] at hcmd
    exact ⟨_, p, hcmd, .plain (by simp) hk hv⟩
  | expiring hname hms =>
    obtain ⟨body, p, hcmd, hargs, hat, hend⟩ := exists_commandAt_of_request host hc hfit hlen h
    obtain ⟨body, p₁, hk, hargs, hat, hend₁⟩ :=
      exists_bulkAt_of_cons host hargs (hfit.lengths _ (by simp)) hlen hat
    obtain ⟨body, p₂, hv, hargs, hat, hend₂⟩ :=
      exists_bulkAt_of_cons host hargs (hfit.lengths _ (by simp)) hlen hat
    obtain ⟨body, p₃, hpx, hargs, hat, hend₃⟩ :=
      exists_bulkAt_of_cons host hargs (hfit.lengths _ (by simp)) hlen hat
    obtain ⟨body, p₄, hms', hargs, hat, hend₄⟩ :=
      exists_bulkAt_of_cons host hargs (hfit.lengths _ (by simp)) hlen hat
    cases hargs
    obtain rfl : p₄ = pos + e.length := by simp at hend₄; omega
    rw [hname] at hcmd
    exact ⟨_, p, hcmd, .expiring (by simp) hk hv hpx hms' hms⟩

/-- Behind a pipeline that ends its buffer stands no further command. -/
theorem byteAt_end (hend : pos = input.length) : byteAt host input pos ≠ byte '*' := by
  subst hend
  rw [byteAt_length]
  decide

/-- The first byte of a pipeline that is not empty. -/
theorem byteAt_pipeline {c : List Bytes} {cs : List (List Bytes)} {e : Bytes}
    (hp : Pipeline (c :: cs) e) (h : StandsAt input pos e) : byteAt host input pos = byte '*' := by
  cases hp with
  | cons hc _ =>
    obtain ⟨rest, rfl⟩ := hc.head
    exact byteAt_of_standsAt h

end Sets

end RedisServer.RequestDecoding
