import RedisServer.CxxStrings
import RedisServer.EcmaScriptPatterns
import Mathlib.Data.List.Infix

/-!
# Searching with ECMAScript patterns

Patterns with alternatives, numbered and unnumbered groups, greedy quantifiers and the escapes
`\d` and `\s` are read into syntax trees. A tree is run by backtracking: all ways in which it can
match are listed in the order in which they are tried, and a search takes the first way from the
first place where there is one.
-/

namespace RedisServer.EcmaScriptSearch
open ByteStrings CxxStrings EcmaScriptPatterns

inductive CharacterClass where
  | digit
  | space
  deriving DecidableEq

def CharacterClass.contains : CharacterClass → UInt8 → Bool
  | .digit => isDigit
  | .space => isSpace

inductive Pattern where
  | empty
  | char (c : UInt8)
  | escaped (k : CharacterClass)
  | seq (r s : Pattern)
  | alt (r s : Pattern)
  | group (i : ℕ) (r : Pattern)
  | times (r : Pattern) (min : ℕ) (max : Option ℕ)
  deriving DecidableEq

/-! ### Reading a pattern

A reader takes the number of groups that were opened before and returns what it has read, the
number of groups opened by then and the characters behind. It fails on every other syntax. -/

def numeral (xs : Bytes) : Option (ℕ × Bytes) :=
  if xs.takeWhile isDigit = [] then none
  else some (decimalValue (xs.takeWhile isDigit), xs.dropWhile isDigit)

/-- What stands between the braces of a quantifier, and the closing brace. -/
def bounds (xs : Bytes) : Option ((ℕ × Option ℕ) × Bytes) := do
  let (m, rest) ← numeral xs
  match rest with
  | c :: rest =>
    if c = rightBrace then some ((m, some m), rest)
    else if c ≠ byte ',' then none
    else if rest.head? = some rightBrace then some ((m, none), rest.tail)
    else do
      let (n, rest) ← numeral rest
      if rest.head? = some rightBrace ∧ m ≤ n then some ((m, some n), rest.tail) else none
  | [] => none

/-- A greedy quantifier, if there is one. -/
def quantifier (xs : Bytes) : Option (Option (ℕ × Option ℕ) × Bytes) :=
  match xs with
  | c :: rest =>
    if c = byte '*' then greedy ((0, none), rest)
    else if c = byte '+' then greedy ((1, none), rest)
    else if c = byte '?' then greedy ((0, some 1), rest)
    else if c = leftBrace then bounds rest >>= greedy
    else some (none, xs)
  | [] => some (none, xs)
where
  greedy (q : (ℕ × Option ℕ) × Bytes) : Option (Option (ℕ × Option ℕ) × Bytes) :=
    if q.2.head? = some (byte '?') then none else some (some q.1, q.2)

def escape (xs : Bytes) : Option (Pattern × Bytes) :=
  match xs with
  | c :: rest =>
    if c = byte 'd' then some (.escaped .digit, rest)
    else if c = byte 's' then some (.escaped .space, rest)
    else if IsSyntax c then some (.char c, rest)
    else none
  | [] => none

mutual

def disjunction : ℕ → ℕ → Bytes → Option (Pattern × ℕ × Bytes)
  | 0, _, _ => none
  | fuel + 1, groups, xs => do
    let (r, groups, rest) ← alternative fuel groups xs
    if rest.head? = some (byte '|') then
      let (s, groups, rest) ← disjunction fuel groups rest.tail
      some (.alt r s, groups, rest)
    else some (r, groups, rest)
termination_by structural fuel => fuel

def alternative : ℕ → ℕ → Bytes → Option (Pattern × ℕ × Bytes)
  | 0, _, _ => none
  | fuel + 1, groups, xs =>
    if xs = [] ∨ xs.head? = some (byte '|') ∨ xs.head? = some (byte ')') then
      some (.empty, groups, xs)
    else do
      let (r, groups, rest) ← term fuel groups xs
      let (s, groups, rest) ← alternative fuel groups rest
      some (.seq r s, groups, rest)
termination_by structural fuel => fuel

def term : ℕ → ℕ → Bytes → Option (Pattern × ℕ × Bytes)
  | 0, _, _ => none
  | fuel + 1, groups, xs => do
    let (r, groups, rest) ← atom fuel groups xs
    match ← quantifier rest with
    | (some (m, n), rest) => some (.times r m n, groups, rest)
    | (none, rest) => some (r, groups, rest)
termination_by structural fuel => fuel

def atom : ℕ → ℕ → Bytes → Option (Pattern × ℕ × Bytes)
  | 0, _, _ => none
  | _, _, [] => none
  | fuel + 1, groups, c :: xs =>
    if c = byte '\\' then do
      let (r, rest) ← escape xs
      some (r, groups, rest)
    else if c = byte '(' ∧ xs.take 2 = str "?:" then do
      let (r, groups, rest) ← disjunction fuel groups (xs.drop 2)
      if rest.head? = some (byte ')') then some (r, groups, rest.tail) else none
    else if c = byte '(' then do
      let (r, groups', rest) ← disjunction fuel (groups + 1) xs
      if rest.head? = some (byte ')') then some (.group (groups + 1) r, groups', rest.tail) else none
    else if IsSyntax c then none
    else some (.char c, groups, xs)
termination_by structural fuel => fuel

end

/-- The readers call each other at most four times for one character. -/
def compile (pattern : Bytes) : Option Pattern :=
  match disjunction (4 * pattern.length + 4) 0 pattern with
  | some (r, _, []) => some r
  | _ => none

/-! ### Running a pattern -/

/-- What is left of the input, and what the groups have captured, the last capture first. -/
structure Cursor where
  rest : Bytes
  captures : List (ℕ × Bytes)

/-- One character of the input. -/
def Cursor.step (p : UInt8 → Bool) (x : Cursor) : List Cursor :=
  match x.rest with
  | c :: rest => if p c then [⟨rest, x.captures⟩] else []
  | [] => []

/-- The group has matched what lies between `x` and `y`. -/
def Cursor.capture (i : ℕ) (x y : Cursor) : Cursor :=
  ⟨y.rest, (i, x.rest.take (x.rest.length - y.rest.length)) :: y.captures⟩

def Cursor.forget (groups : List ℕ) (x : Cursor) : Cursor :=
  ⟨x.rest, x.captures.filter fun c => c.1 ∉ groups⟩

def Pattern.groups : Pattern → List ℕ
  | .seq r s => r.groups ++ s.groups
  | .alt r s => r.groups ++ s.groups
  | .group i r => i :: r.groups
  | .times r _ _ => r.groups
  | _ => []

/-- The rounds that a quantifier demands. -/
def required (step : Cursor → List Cursor) : ℕ → Cursor → List Cursor
  | 0, x => [x]
  | n + 1, x => (step x).flatMap (required step n)

/-- Up to `n` more rounds, none of them empty, and as many as possible first. -/
def optional (step : Cursor → List Cursor) : ℕ → Cursor → List Cursor
  | 0, x => [x]
  | n + 1, x => ((step x).filter fun y => y.rest.length < x.rest.length).flatMap (optional step n) ++ [x]

/-- All ways to match, in the order in which they are tried. -/
def run : Pattern → Cursor → List Cursor
  | .empty, x => [x]
  | .char c, x => x.step (· == c)
  | .escaped k, x => x.step k.contains
  | .seq r s, x => (run r x).flatMap (run s)
  | .alt r s, x => run r x ++ run s x
  | .group i r, x => (run r x).map (x.capture i)
  | .times r m n, x =>
    (required (fun y => run r (y.forget r.groups)) m x).flatMap fun y =>
      -- no more rounds than characters can be without an empty one
      optional (fun z => run r (z.forget r.groups)) (n.elim y.rest.length (· - m)) y

/-- The captures of the first match from the first place where there is one. -/
def search (r : Pattern) (s : Bytes) : Option (List (ℕ × Bytes)) :=
  s.tails.findSome? fun t => ((run r ⟨t, []⟩).head?).map Cursor.captures

/-- What a group has captured, and nothing if it took no part in the match. -/
def captured (captures : List (ℕ × Bytes)) (i : ℕ) : Bytes := (captures.lookup i).getD []

variable {r s : Pattern} {x y z : Cursor} {xs rest : Bytes} {captures : List (ℕ × Bytes)}

theorem capture_append (i : ℕ) (w rest : Bytes) (captures captures' : List (ℕ × Bytes)) :
    Cursor.capture i ⟨w ++ rest, captures⟩ ⟨rest, captures'⟩ = ⟨rest, (i, w) :: captures'⟩ := by
  simp [Cursor.capture]

/-! ### The way that is tried first -/

def first (r : Pattern) (x : Cursor) : Option Cursor := (run r x).head?

theorem first_empty (x : Cursor) : first .empty x = some x := rfl

theorem head?_flatMap {α β : Type} {l : List α} {f : α → List β} {a : α} {b : β}
    (h : l.head? = some a) (h' : (f a).head? = some b) : (l.flatMap f).head? = some b := by
  obtain ⟨l, rfl⟩ := List.head?_eq_some_iff.mp h
  rw [List.flatMap_cons, List.head?_append, h']
  rfl

theorem first_seq (h : first r x = some y) (h' : first s y = some z) :
    first (.seq r s) x = some z := head?_flatMap h h'

theorem first_alt_right (h : run r x = []) : first (.alt r s) x = first s x := by
  simp only [first, run, h, List.nil_append]

theorem first_group (i : ℕ) (h : first r x = some y) :
    first (.group i r) x = some (x.capture i y) := by
  rw [first] at h
  rw [first, run, List.head?_map, h]
  rfl

/-- The characters of a text one after another. -/
def Pattern.word : Bytes → Pattern
  | [] => .empty
  | c :: w => .seq (.char c) (.word w)

theorem first_word (w rest : Bytes) (captures : List (ℕ × Bytes)) :
    first (.word w) ⟨w ++ rest, captures⟩ = some ⟨rest, captures⟩ := by
  induction w with
  | nil => rfl
  | cons c w ih =>
    have hchar : first (.char c) ⟨c :: w ++ rest, captures⟩ = some ⟨w ++ rest, captures⟩ := by
      simp [first, run, Cursor.step]
    exact first_seq hchar ih

/-! ### Characters of a class -/

section CharacterClass

variable {p : UInt8 → Bool}

theorem step_eq_nil (h : ∀ c ∈ x.rest.head?, p c = false) : x.step p = [] := by
  obtain ⟨rest, captures⟩ := x
  cases rest with
  | nil => rfl
  | cons c rest => simp [Cursor.step, h c rfl]

theorem required_step {m : ℕ} (hxs : ∀ c ∈ xs, p c = true) (hm : m ≤ xs.length) :
    required (Cursor.step p) m ⟨xs ++ rest, captures⟩ = [⟨xs.drop m ++ rest, captures⟩] := by
  induction m generalizing xs with
  | zero => rfl
  | succ m ih =>
    obtain ⟨c, xs, rfl⟩ := List.exists_cons_of_length_pos (Nat.zero_lt_of_lt hm)
    obtain ⟨hc, hxs⟩ := List.forall_mem_cons.mp hxs
    have hstep : Cursor.step p ⟨c :: xs ++ rest, captures⟩ = [⟨xs ++ rest, captures⟩] := by
      simp [Cursor.step, hc]
    rw [required, hstep, List.flatMap_singleton, ih hxs (Nat.le_of_succ_le_succ hm), List.drop_succ_cons]

/-- As many characters as there are come first. -/
theorem head?_optional_step {n : ℕ} (hxs : ∀ c ∈ xs, p c = true)
    (hrest : ∀ c ∈ rest.head?, p c = false) (hn : xs.length ≤ n) :
    (optional (Cursor.step p) n ⟨xs ++ rest, captures⟩).head? = some ⟨rest, captures⟩ := by
  induction n generalizing xs with
  | zero =>
    obtain rfl := List.eq_nil_of_length_eq_zero (Nat.le_zero.mp hn)
    rfl
  | succ n ih =>
    cases xs with
    | nil =>
      have hstep : Cursor.step p ⟨rest, captures⟩ = [] := step_eq_nil hrest
      rw [List.nil_append, optional, hstep]
      rfl
    | cons c xs =>
      obtain ⟨hc, hxs⟩ := List.forall_mem_cons.mp hxs
      have hstep : Cursor.step p ⟨c :: xs ++ rest, captures⟩ = [⟨xs ++ rest, captures⟩] := by
        simp [Cursor.step, hc]
      have hshorter : [(⟨xs ++ rest, captures⟩ : Cursor)].filter
          (fun y => y.rest.length < (c :: xs ++ rest).length) = [⟨xs ++ rest, captures⟩] := by
        simp
      rw [optional, hstep, hshorter, List.flatMap_singleton, List.head?_append,
        ih hxs (Nat.le_of_succ_le_succ hn)]
      rfl

end CharacterClass

theorem run_escaped_forget (k : CharacterClass) :
    (fun y : Cursor => run (.escaped k) (y.forget (Pattern.escaped k).groups))
      = Cursor.step k.contains := by
  funext y
  simp [run, Cursor.forget, Pattern.groups]

/-- A repeated class takes all the characters of the class. -/
theorem first_times_escaped {k : CharacterClass} {m : ℕ} {n : Option ℕ}
    (hxs : ∀ c ∈ xs, k.contains c = true) (hrest : ∀ c ∈ rest.head?, k.contains c = false)
    (hm : m ≤ xs.length) (hn : ∀ l ∈ n, xs.length ≤ l) :
    first (.times (.escaped k) m n) ⟨xs ++ rest, captures⟩ = some ⟨rest, captures⟩ := by
  rw [first, run, run_escaped_forget, required_step hxs hm, List.flatMap_singleton]
  apply head?_optional_step fun c hc => hxs c (List.mem_of_mem_drop hc)
  · exact hrest
  · rw [List.length_drop]
    cases n with
    | none => simp
    | some l =>
      have hl := hn l rfl
      simp only [Option.elim]
      omega

/-! ### Searches -/

theorem search_of_first {t : Bytes} (h : first r ⟨t, []⟩ = some y) :
    search r t = some y.captures := by
  rw [first] at h
  cases t with
  | nil => simp [search, h]
  | cons c t => simp [search, h]

theorem search_eq_none {t : Bytes} (h : ∀ u, u <:+ t → run r ⟨u, []⟩ = []) : search r t = none := by
  rw [search, List.findSome?_eq_none_iff]
  intro u hu
  rw [h u ((List.mem_tails u t).mp hu)]
  rfl

/-! Without a match of its first part a pattern has none. -/

theorem run_seq_eq_nil (h : run r x = []) : run (.seq r s) x = [] := by
  rw [run, h, List.flatMap_nil]

theorem run_alt_eq_nil (h : run r x = []) (h' : run s x = []) : run (.alt r s) x = [] := by
  rw [run, h, h', List.append_nil]

theorem run_group_eq_nil (i : ℕ) (h : run r x = []) : run (.group i r) x = [] := by
  rw [run, h, List.map_nil]

theorem run_char_eq_nil {c : UInt8} (h : x.rest.head? ≠ some c) : run (.char c) x = [] := by
  apply step_eq_nil
  intro d hd
  rw [beq_eq_false_iff_ne]
  rintro rfl
  exact h hd

end RedisServer.EcmaScriptSearch
