import RedisServer.ByteStrings

/-!
# The RESP request grammar

A request is an array of bulk strings. The grammar is stated independently of any
reader or writer. It is unambiguous, whatever bytes follow and whatever bytes the
payloads contain.
-/

namespace RedisServer.RespGrammar
open ByteStrings

/-- `$`, the length of `s`, a line end, `s`, a line end. -/
inductive BulkString : Bytes → Bytes → Prop where
  | mk {s ds : Bytes} (h : Numeral s.length ds) :
      BulkString s (byte '$' :: (ds ++ crlf ++ (s ++ crlf)))

inductive BulkStrings : List Bytes → Bytes → Prop where
  | nil : BulkStrings [] []
  | cons {s e : Bytes} {ss es} (h : BulkString s e) (rest : BulkStrings ss es) :
      BulkStrings (s :: ss) (e ++ es)

/-- `*`, the number of elements, a line end, the elements. -/
inductive Request : List Bytes → Bytes → Prop where
  | mk {ss : List Bytes} {ds body : Bytes} (h : Numeral ss.length ds) (hs : BulkStrings ss body) :
      Request ss (byte '*' :: (ds ++ crlf ++ body))

/-- Requests one after another in one byte string. -/
inductive Pipeline : List (List Bytes) → Bytes → Prop where
  | nil : Pipeline [] []
  | cons {c e : _} {cs es} (h : Request c e) (rest : Pipeline cs es) :
      Pipeline (c :: cs) (e ++ es)

theorem BulkString.unique {s s' e e' r r' : Bytes} (h : BulkString s e) (h' : BulkString s' e')
    (heq : e ++ r = e' ++ r') : s = s' ∧ e = e' ∧ r = r' := by
  obtain ⟨hn⟩ := h
  obtain ⟨hn'⟩ := h'
  simp only [List.cons_append, List.append_assoc] at heq
  obtain ⟨hlen, rfl, hrest⟩ := hn.append_crlf_inj hn' (List.tail_eq_of_cons_eq heq)
  obtain ⟨rfl, hr⟩ := List.append_inj hrest hlen
  exact ⟨rfl, rfl, List.append_cancel_left hr⟩

theorem BulkStrings.unique {ss ss' : List Bytes} {e e' r r' : Bytes} (h : BulkStrings ss e)
    (h' : BulkStrings ss' e') (hlen : ss.length = ss'.length) (heq : e ++ r = e' ++ r') :
    ss = ss' ∧ e = e' ∧ r = r' := by
  induction h generalizing ss' e' with
  | nil =>
    cases h' with
    | nil => exact ⟨rfl, rfl, heq⟩
    | cons => cases hlen
  | cons hs _ ih =>
    cases h' with
    | nil => cases hlen
    | cons hs' rest' =>
      rw [List.append_assoc, List.append_assoc] at heq
      obtain ⟨rfl, rfl, ht⟩ := hs.unique hs' heq
      obtain ⟨rfl, rfl, rfl⟩ := ih rest' (Nat.succ.inj hlen) ht
      exact ⟨rfl, rfl, rfl⟩

theorem Request.unique {ss ss' : List Bytes} {e e' r r' : Bytes} (h : Request ss e)
    (h' : Request ss' e') (heq : e ++ r = e' ++ r') : ss = ss' ∧ e = e' ∧ r = r' := by
  obtain ⟨hn, hs⟩ := h
  obtain ⟨hn', hs'⟩ := h'
  simp only [List.cons_append, List.append_assoc] at heq
  obtain ⟨hlen, rfl, hrest⟩ := hn.append_crlf_inj hn' (List.tail_eq_of_cons_eq heq)
  obtain ⟨rfl, rfl, rfl⟩ := hs.unique hs' hlen hrest
  exact ⟨rfl, rfl, rfl⟩

theorem Request.ne_nil {ss : List Bytes} {e : Bytes} (h : Request ss e) : e ≠ [] := by
  obtain ⟨_, _⟩ := h
  exact List.cons_ne_nil _ _

theorem Request.head {ss : List Bytes} {e : Bytes} (h : Request ss e) :
    ∃ rest, e = byte '*' :: rest := by
  obtain ⟨_, _⟩ := h
  exact ⟨_, rfl⟩

/-- A byte string is a pipeline of at most one list of requests. -/
theorem Pipeline.unique {cs cs' : List (List Bytes)} {b : Bytes} (h : Pipeline cs b)
    (h' : Pipeline cs' b) : cs = cs' := by
  induction h generalizing cs' with
  | nil =>
    generalize hb : ([] : Bytes) = b at h'
    cases h' with
    | nil => rfl
    | cons hc _ => exact absurd (List.append_eq_nil_iff.mp hb.symm).1 hc.ne_nil
  | @cons c e cs es hc rest ih =>
    generalize hb : e ++ es = b at h'
    cases h' with
    | nil => exact absurd (List.append_eq_nil_iff.mp hb).1 hc.ne_nil
    | cons hc' rest' =>
      obtain ⟨rfl, -, rfl⟩ := hc.unique hc' hb
      rw [ih rest']

theorem Pipeline.append {cs cs' : List (List Bytes)} {b b' : Bytes} (h : Pipeline cs b)
    (h' : Pipeline cs' b') : Pipeline (cs ++ cs') (b ++ b') := by
  induction h with
  | nil => exact h'
  | cons hc _ ih => rw [List.append_assoc]; exact .cons hc ih

/-- A pipeline repeated is the pipeline of its requests repeated. -/
theorem Pipeline.replicate {cs : List (List Bytes)} {b : Bytes} (h : Pipeline cs b) (n : ℕ) :
    Pipeline (List.replicate n cs).flatten (List.replicate n b).flatten := by
  induction n with
  | zero => exact .nil
  | succ n ih => exact h.append ih

theorem Pipeline.single {c : List Bytes} {e : Bytes} (h : Request c e) : Pipeline [c] e := by
  simpa using Pipeline.cons h .nil

theorem Pipeline.eq_nil {b : Bytes} (h : Pipeline [] b) : b = [] := by
  cases h; rfl

end RedisServer.RespGrammar
