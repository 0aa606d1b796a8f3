import RedisServer.RequestDecoding
import RedisServer.RequestFailures

/-!
# Requests that a zero byte cuts

`client_handler` keeps what it receives up to the first zero byte. A request with a zero byte in
one of its elements reaches the parser without what stands behind that byte: the arguments before
are read, of the cut one a part is read, and nothing can be read behind it.
-/

namespace RedisServer.ReceivedRequests
open ByteStrings CxxStrings RespGrammar InteractionPrograms ServerState Utils RedisParser
open RequestChain RequestRuns RequestDecoding RequestFailures

section Zeros

variable {s e name : Bytes} {ss : List Bytes}

theorem Numeral.zero_notMem {n : ℕ} {ds : Bytes} (h : Numeral n ds) : (0 : UInt8) ∉ ds := fun hmem =>
  absurd (h.digits 0 hmem) (by decide)

theorem zero_mem_bulkString_iff (h : BulkString s e) : (0 : UInt8) ∈ e ↔ (0 : UInt8) ∈ s := by
  obtain ⟨hds⟩ := h
  have hzero := Numeral.zero_notMem hds
  have hcrlf : (0 : UInt8) ∉ crlf := by decide
  have hdollar : (0 : UInt8) ≠ byte '$' := by decide
  simp [hzero, hcrlf, hdollar]

theorem zero_mem_bulkStrings_iff (h : BulkStrings ss e) :
    (0 : UInt8) ∈ e ↔ ∃ s ∈ ss, (0 : UInt8) ∈ s := by
  induction h with
  | nil => simp
  | cons hs _ ih => rw [List.mem_append, zero_mem_bulkString_iff hs, ih, List.exists_mem_cons_iff]

theorem zero_mem_request_iff (h : Request ss e) : (0 : UInt8) ∈ e ↔ ∃ s ∈ ss, (0 : UInt8) ∈ s := by
  obtain ⟨hds, hs⟩ := h
  have hzero := Numeral.zero_notMem hds
  have hcrlf : (0 : UInt8) ∉ crlf := by decide
  have hstar : (0 : UInt8) ≠ byte '*' := by decide
  rw [← zero_mem_bulkStrings_iff hs]
  simp [hzero, hcrlf, hstar]

theorem zero_notMem_of_toUpper (h : (0 : UInt8) ∉ name.map toUpper) : (0 : UInt8) ∉ name :=
  fun hmem => h (List.mem_map_of_mem hmem)

end Zeros

/-- What is received of the bytes `e` stands in `input` at `pos`, and at its end if `e` is cut. -/
structure Received (input : Bytes) (pos : ℕ) (e : Bytes) : Prop where
  standsAt : StandsAt input pos (recvStr e)
  ends : (0 : UInt8) ∈ e → pos + (recvStr e).length = input.length

section Received

variable {input e e' : Bytes} {pos : ℕ}

theorem received_self (b : Bytes) : Received (recvStr b) 0 b :=
  ⟨standsAt_self _, fun _ => Nat.zero_add _⟩

theorem Received.whole (h : Received input pos e) (he : (0 : UInt8) ∉ e) : StandsAt input pos e := by
  have hat := h.standsAt
  rwa [recvStr_eq_self he] at hat

theorem Received.left (h : Received input pos (e ++ e')) : Received input pos e := by
  obtain ⟨hat, hends⟩ := h
  by_cases he : (0 : UInt8) ∈ e
  · rw [recvStr_append_of_mem he] at hat hends
    exact ⟨hat, fun _ => hends (List.mem_append_left _ he)⟩
  · rw [recvStr_append he] at hat
    refine ⟨?_, fun hmem => absurd hmem he⟩
    rw [recvStr_eq_self he]
    exact hat.left

theorem Received.right (h : Received input pos (e ++ e')) (he : (0 : UInt8) ∉ e) :
    Received input (pos + e.length) e' := by
  obtain ⟨hat, hends⟩ := h
  rw [recvStr_append he] at hat hends
  refine ⟨hat.right, fun hmem => ?_⟩
  have hend := hends (List.mem_append_right _ hmem)
  rw [List.length_append] at hend
  omega

end Received

/-- A position from which nothing can be read any more. -/
structure Beyond (input : Bytes) (pos : ℕ) : Prop where
  lt : input.length < pos
  bound : pos + 1 < 2 ^ 64

/-- The bulk strings `ss` are read one after another, from the first position to the last. -/
inductive BulksAt (host : Host) (input : Bytes) : ℕ → List Bytes → ℕ → Prop where
  | nil {pos} : BulksAt host input pos [] pos
  | cons {pos next last s ss} (h : BulkAt host input pos s next) (rest : BulksAt host input next ss last) :
      BulksAt host input pos (s :: ss) last

/-- What is read of a list of elements, the last of which a zero byte may cut. -/
def seen : List Bytes → List Bytes
  | [] => []
  | s :: ss => if (0 : UInt8) ∈ s then [recvStr s] else s :: seen ss

section Reading

variable {host : Host} {input e body s : Bytes} {ss ss' : List Bytes} {pos last last' : ℕ}

theorem Beyond.not_bulkAt (h : Beyond input pos) {next : ℕ} : ¬ BulkAt host input pos s next := by
  rintro ⟨-, length, lineEnd, ⟨-, hle, -⟩, -⟩
  have hlt := h.lt
  have hbound := h.bound
  rw [show ((pos : ℤ) + 1) = ((pos + 1 : ℕ) : ℤ) by push_cast; rfl, sizeT_natCast hbound] at hle
  omega

theorem Beyond.not_commandAt (h : Beyond input pos) {n : ℤ} {name : Bytes} {next : ℕ} :
    ¬ CommandAt host input pos n name next := by
  rintro ⟨-, lineEnd, raw, ⟨-, hle, -⟩, -⟩
  have hlt := h.lt
  have hbound := h.bound
  rw [show ((pos : ℤ) + 1) = ((pos + 1 : ℕ) : ℤ) by push_cast; rfl, sizeT_natCast hbound] at hle
  omega

theorem Beyond.handled_iff (h : Beyond input pos) :
    Handled host input pos ↔ byteAt host input pos ≠ byte '*' := by
  refine ⟨fun hhandled => hhandled.resolve_right ?_, .inl⟩
  rintro ⟨n, name, p, hcmd, -⟩
  exact h.not_commandAt hcmd

/-- Of a bulk string in a received request as much is read as is there. -/
theorem Received.bulkAt (h : Received input pos e) (hs : BulkString s e)
    (hfit : s.length + 2 ≤ intMax) (hlen : input.length ≤ maxSize) :
    BulkAt host input pos (recvStr s) (pos + e.length) ∧
      ((0 : UInt8) ∈ s → Beyond input (pos + e.length)) := by
  by_cases hzero : (0 : UInt8) ∈ s
  · obtain ⟨hds⟩ := hs
    rename_i ds
    have hfront : (0 : UInt8) ∉ byte '$' :: (ds ++ crlf) := by
      have hdigits := Numeral.zero_notMem hds
      have hcrlf : (0 : UInt8) ∉ crlf := by decide
      have hdollar : (0 : UInt8) ≠ byte '$' := by decide
      simp [hdigits, hcrlf, hdollar]
    have hcut : Received input pos ((byte '$' :: (ds ++ crlf)) ++ (s ++ crlf)) := by simpa using h
    have hpayload := (hcut.right hfront).left
    have hend := hpayload.ends hzero
    have hfrontLen : (byte '$' :: (ds ++ crlf)).length = 1 + ds.length + 2 := by
      simp [crlf]
      omega
    have hbulk := @bulkAt_of_announced host input pos _ _ hds hfit hlen (hcut.left.whole hfront)
    have hread : (input.drop (pos + 1 + ds.length + 2)).take s.length = recvStr s := by
      obtain ⟨pre, post, hinput, hpos⟩ := hpayload.standsAt
      have hpost : post = [] := by
        have hlength := congrArg List.length hinput
        rw [List.length_append, List.length_append, ← hpos] at hlength
        exact List.eq_nil_of_length_eq_zero (by omega)
      rw [hpost, List.append_nil] at hinput
      have hpre : pos + 1 + ds.length + 2 = pre.length := by omega
      rw [hpre, hinput, List.drop_left, List.take_of_length_le (length_recvStr_lt hzero).le]
    have hnext : pos + 1 + ds.length + 2 + s.length + 2
        = pos + (byte '$' :: (ds ++ crlf ++ (s ++ crlf))).length := by
      simp [crlf]
      omega
    rw [hread, hnext] at hbulk
    refine ⟨hbulk, fun _ => ⟨?_, ?_⟩⟩
    · have hlt := length_recvStr_lt hzero
      omega
    · simp only [intMax] at hfit
      simp only [maxSize] at hlen
      omega
  · have he : (0 : UInt8) ∉ e := mt (zero_mem_bulkString_iff hs).mp hzero
    rw [recvStr_eq_self hzero]
    exact ⟨bulkAt_of_bulkString hs hfit hlen (h.whole he), fun hmem => absurd hmem hzero⟩

/-- Of received bulk strings those before the first zero byte are read, and a part of that one. -/
theorem Received.exists_bulksAt (host : Host) (h : Received input pos body) (hs : BulkStrings ss body)
    (hfit : ∀ s ∈ ss, s.length + 2 ≤ intMax) (hlen : input.length ≤ maxSize) :
    ∃ last, BulksAt host input pos (seen ss) last ∧ ((0 : UInt8) ∈ body → Beyond input last) ∧
      ((0 : UInt8) ∉ body → last = pos + body.length) := by
  induction hs generalizing pos with
  | nil => exact ⟨pos, .nil, fun hmem => absurd hmem List.not_mem_nil, fun _ => rfl⟩
  | @cons s e ss es hs rest ih =>
    obtain ⟨hfits, hfitss⟩ := List.forall_mem_cons.mp hfit
    obtain ⟨hbulk, hbeyond⟩ := @Received.bulkAt host _ _ _ _ h.left hs hfits hlen
    by_cases hzero : (0 : UInt8) ∈ s
    · have he := (zero_mem_bulkString_iff hs).mpr hzero
      refine ⟨pos + e.length, ?_, fun _ => hbeyond hzero, fun hnot => ?_⟩
      · rw [seen, if_pos hzero]
        exact .cons hbulk .nil
      · exact absurd (List.mem_append_left _ he) hnot
    · have he := mt (zero_mem_bulkString_iff hs).mp hzero
      obtain ⟨last, hreads, hcut, hwhole⟩ := ih (h.right he) hfitss
      rw [recvStr_eq_self hzero] at hbulk
      refine ⟨last, ?_, fun hmem => hcut ?_, fun hnot => ?_⟩
      · rw [seen, if_neg hzero]
        exact .cons hbulk hreads
      · exact (List.mem_append.mp hmem).resolve_left he
      · rw [hwhole fun hmem => hnot (List.mem_append_right _ hmem), List.length_append]
        omega

theorem BulksAt.unique (h : BulksAt host input pos ss last) (h' : BulksAt host input pos ss' last')
    (hlen : ss.length = ss'.length) : ss = ss' ∧ last = last' := by
  induction h generalizing ss' with
  | nil =>
    obtain rfl := List.eq_nil_of_length_eq_zero hlen.symm
    cases h'
    exact ⟨rfl, rfl⟩
  | cons hs _ ih =>
    cases h' with
    | nil => cases hlen
    | cons hs' hrest' =>
      obtain ⟨rfl, rfl⟩ := hs.unique hs'
      obtain ⟨rfl, rfl⟩ := ih hrest' (Nat.succ.inj hlen)
      exact ⟨rfl, rfl⟩

/-- Behind the end no more is read. -/
theorem BulksAt.length_le (h : BulksAt host input pos ss last) (hbeyond : Beyond input last)
    (h' : BulksAt host input pos ss' last') : ss'.length ≤ ss.length := by
  induction h generalizing ss' with
  | nil =>
    cases h' with
    | nil => exact le_rfl
    | cons hs' => exact absurd hs' hbeyond.not_bulkAt
  | cons hs _ ih =>
    cases h' with
    | nil => exact Nat.zero_le _
    | cons hs' hrest' =>
      obtain ⟨-, rfl⟩ := hs.unique hs'
      exact Nat.succ_le_succ (ih hbeyond hrest')

theorem length_seen_le (ss : List Bytes) : (seen ss).length ≤ ss.length := by
  induction ss with
  | nil => exact le_rfl
  | cons s ss ih =>
    rw [seen]
    split
    · exact Nat.succ_le_succ (Nat.zero_le _)
    · exact Nat.succ_le_succ ih

theorem length_seen_pos (h : 0 < ss.length) : 0 < (seen ss).length := by
  obtain ⟨s, ss, rfl⟩ := List.exists_cons_of_length_pos h
  rw [seen]
  split <;> exact Nat.zero_lt_succ _

theorem seen_eq_self (h : ∀ s ∈ ss, (0 : UInt8) ∉ s) : seen ss = ss := by
  induction ss with
  | nil => rfl
  | cons s ss ih =>
    obtain ⟨hs, hss⟩ := List.forall_mem_cons.mp h
    rw [seen, if_neg hs, ih hss]

/-- All that is read from a list of received elements, if as much of it is read as there is. -/
theorem BulksAt.eq_seen (h : BulksAt host input pos (seen ss) last)
    (hcut : (∃ s ∈ ss, (0 : UInt8) ∈ s) → Beyond input last) (h' : BulksAt host input pos ss' last')
    (hlen : ss'.length = ss.length) : ss' = seen ss ∧ last' = last := by
  have hsame : (seen ss).length = ss'.length := by
    by_cases hzero : ∃ s ∈ ss, (0 : UInt8) ∈ s
    · have hmost := h.length_le (hcut hzero) h'
      have hleast := length_seen_le ss
      omega
    · rw [seen_eq_self fun s hs hmem => hzero ⟨s, hs, hmem⟩, hlen]
  obtain ⟨hss, hlast⟩ := h.unique h' hsame
  exact ⟨hss.symm, hlast.symm⟩

end Reading

section Commands

variable {host : Host} {input e name : Bytes} {args ss : List Bytes} {pos p last next : ℕ} {n : ℤ}
  {k v : Bytes} {px : Option ℤ}

/-- The name of a received request is read, and what is received of its arguments stands behind. -/
theorem Received.exists_commandAt (host : Host) (h : Received input pos e)
    (hr : Request (name :: args) e) (hfit : Fits (name :: args)) (hname : (0 : UInt8) ∉ name)
    (hlen : input.length ≤ maxSize) : ∃ body p,
    CommandAt host input pos (args.length + 1) (name.map toUpper) p ∧ BulkStrings args body ∧
      Received input p body ∧ p + body.length = pos + e.length := by
  obtain ⟨hds, hs⟩ := hr
  rename_i ds _
  cases hs with
  | @cons _ e₁ _ body hbulk hargs =>
    have hcut : Received input pos (byte '*' :: (ds ++ crlf ++ e₁) ++ body) := by simpa using h
    have hfront : (0 : UInt8) ∉ byte '*' :: (ds ++ crlf ++ e₁) := by
      have hdigits := Numeral.zero_notMem hds
      have hcrlf : (0 : UInt8) ∉ crlf := by decide
      have hstar : (0 : UInt8) ≠ byte '*' := by decide
      have he₁ := mt (zero_mem_bulkString_iff hbulk).mp hname
      simp [hdigits, hcrlf, hstar, he₁]
    have hcmd := commandAt_of_name host hds hfit.count hbulk
      (hfit.lengths name List.mem_cons_self) hlen (hcut.left.whole hfront)
    exact ⟨body, _, by exact_mod_cast hcmd, hargs, hcut.right hfront, by simp; omega⟩

/-- The elements that are read are the arguments of a SET whose header says `n`. -/
inductive SetElements (n : ℤ) : List Bytes → Bytes → Bytes → Option ℤ → Prop where
  | plain {k v : Bytes} (hn : n ≤ 3) : SetElements n [k, v] k v none
  | expiring {k v px ms : Bytes} {t : ℤ} (hn : 3 < n) (hms : stoi ms = .ok t) :
      SetElements n [k, v, px, ms] k v (some t)

theorem setArguments_of_bulksAt (h : BulksAt host input p ss last) (hset : SetElements n ss k v px) :
    SetArguments host input p n k v px last := by
  cases hset with
  | plain hn =>
    obtain _ | ⟨hk, _ | ⟨hv, ⟨⟩⟩⟩ := h
    exact .plain hn hk hv
  | expiring hn hms =>
    obtain _ | ⟨hk, _ | ⟨hv, _ | ⟨hpx, _ | ⟨he, ⟨⟩⟩⟩⟩⟩ := h
    exact .expiring hn hk hv hpx he hms

theorem exists_bulksAt_of_setArguments (h : SetArguments host input p n k v px next) :
    ∃ ss, BulksAt host input p ss next ∧ SetElements n ss k v px := by
  cases h with
  | plain hn hk hv => exact ⟨_, .cons hk (.cons hv .nil), .plain hn⟩
  | expiring hn hk hv hpx he hms =>
    exact ⟨_, .cons hk (.cons hv (.cons hpx (.cons he .nil))), .expiring hn hms⟩

/-- As many arguments as a SET of that header has. -/
theorem SetElements.length_eq {call : SetCall} (hc : SetCommand (name :: args) call)
    (h : SetElements (args.length + 1) ss k v px) : ss.length = args.length := by
  cases hc with
  | plain =>
    cases h with
    | plain => rfl
    | expiring hn => simp at hn
  | expiring =>
    cases h with
    | plain hn => simp at hn
    | expiring => rfl

/-- A received SET is read as far as its elements are seen. -/
theorem Received.exists_set (host : Host) (h : Received input pos e) {call : SetCall}
    (hset : SetCommand (name :: args) call) (hr : Request (name :: args) e)
    (hfit : Fits (name :: args)) (hlen : input.length ≤ maxSize) : ∃ p last,
    CommandAt host input pos (args.length + 1) (str "SET") p ∧
      (∀ k v px next, SetArguments host input p (args.length + 1) k v px next ↔
        SetElements (args.length + 1) (seen args) k v px ∧ next = last) ∧
      ((0 : UInt8) ∈ e → Beyond input last) ∧ ((0 : UInt8) ∉ e → last = pos + e.length) := by
  have hname : name.map toUpper = str "SET" := by
    cases hset with
    | plain hname => exact hname
    | expiring hname => exact hname
  have hzero : (0 : UInt8) ∉ name := zero_notMem_of_toUpper (by rw [hname]; decide)
  obtain ⟨body, p, hcmd, hs, hat, hend⟩ := h.exists_commandAt host hr hfit hzero hlen
  obtain ⟨last, hreads, hcut, hwhole⟩ := hat.exists_bulksAt host hs
    (fun s hs => hfit.lengths s (List.mem_cons_of_mem _ hs)) hlen
  have hiff : (0 : UInt8) ∈ e ↔ (0 : UInt8) ∈ body := by
    rw [zero_mem_request_iff hr, zero_mem_bulkStrings_iff hs, List.exists_mem_cons_iff,
      or_iff_right hzero]
  rw [hname] at hcmd
  refine ⟨p, last, hcmd, fun k v px next => ⟨fun hargs => ?_, ?_⟩, fun he => hcut (hiff.mp he),
    fun he => ?_⟩
  · obtain ⟨ss, hss, helements⟩ := exists_bulksAt_of_setArguments hargs
    obtain ⟨rfl, rfl⟩ := hreads.eq_seen (fun hmem => hcut ((zero_mem_bulkStrings_iff hs).mpr hmem)) hss
      (helements.length_eq hset)
    exact ⟨helements, rfl⟩
  · rintro ⟨helements, rfl⟩
    exact setArguments_of_bulksAt hreads helements
  · rw [hwhole (mt hiff.mpr he), hend]

/-- The run of a SET whose end lies beyond the buffer. It throws if an asterisk is found there. -/
theorem exists_exec_beyond (clientFd : ℤ) (h : SetAt host input pos k v px next)
    (hbeyond : Beyond input next) (st : Store) : ∃ tr r st',
    Exec (parser host clientFd input) (parseRESPCommand host clientFd input pos) st tr r st' ∧
      messages tr = [okResponse] ∧ st'.database = (afterSet host k v px st).database ∧
      (r = .ok () → st' = afterSet host k v px st) := by
  by_cases hstar : byteAt host input next = byte '*'
  · have hnot : ¬ Handled host input next := fun hhandled => hbeyond.handled_iff.mp hhandled hstar
    obtain ⟨tr', e, st', hinert, hthrows⟩ :=
      @rejects_parseRESPCommand host clientFd input next (afterSet host k v px st) hnot
    obtain ⟨tr, htr, hx⟩ := exec_set_throws h hstar hthrows
    exact ⟨_, _, st', hx, by simp [htr.messages, hinert.messages], hinert.database_eq hthrows, nofun⟩
  · obtain ⟨tr, tr', htr, htr', hx⟩ := @exec_lastSet host clientFd input pos next st k v px h hstar
    exact ⟨_, _, _, hx, by simp [htr.messages, htr'.messages], rfl, fun _ => rfl⟩

end Commands

end RedisServer.ReceivedRequests
