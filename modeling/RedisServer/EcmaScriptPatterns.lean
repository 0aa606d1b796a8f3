import RedisServer.ByteStrings
import Mathlib.Algebra.Order.Ring.Int

/-!
# ECMAScript patterns

The grammar of patterns without bracket expressions, escapes, lookaheads and back
references, as one relation over its nonterminals, and the words that a pattern matches.
Libraries accept somewhat more than the standard asks for, so there are two dialects.
A derivable pattern has balanced parentheses. A character with a meaning in the syntax
is matched by the wildcard only, so a word that is matched stays so when such characters
are replaced by others.
-/

namespace RedisServer.EcmaScriptPatterns
open ByteStrings

/-- What a library takes for a pattern: that of the standard, or also one in which a closing
bracket or brace stands for itself when nothing is open, or an atom has several quantifiers. -/
inductive Dialect where
  | standard
  | lenient
  deriving DecidableEq

/-- The characters with a meaning in the syntax. -/
def IsSyntax (c : UInt8) : Prop := c ∈ str "^$\\.*+?()[]\x7b\x7d|"

def IsClosing (c : UInt8) : Prop := c ∈ str "]\x7d"

/-- The characters that stand for themselves. -/
def Stands (d : Dialect) (c : UInt8) : Prop := ¬ IsSyntax c ∨ d = .lenient ∧ IsClosing c

/-- The line terminators of one byte. -/
def IsLineTerminator (c : UInt8) : Prop := c = 10 ∨ c = 13

instance : DecidablePred IsSyntax := fun _ => inferInstanceAs (Decidable (_ ∈ _))

instance : DecidablePred IsClosing := fun _ => inferInstanceAs (Decidable (_ ∈ _))

instance (d : Dialect) : DecidablePred (Stands d) := fun _ => inferInstanceAs (Decidable (_ ∨ _))

instance : DecidablePred IsLineTerminator := fun _ => inferInstanceAs (Decidable (_ ∨ _))

def leftBrace : UInt8 := 123

def rightBrace : UInt8 := 125

inductive Regex where
  | empty
  | char (c : UInt8)
  | any
  | atStart
  | atEnd
  | seq (r s : Regex)
  | alt (r s : Regex)
  | times (r : Regex) (min : ℕ) (max : Option ℕ)

/-! ### The grammar -/

inductive QuantifierPrefix : Bytes → ℕ → Option ℕ → Prop
  | star : QuantifierPrefix [byte '*'] 0 none
  | plus : QuantifierPrefix [byte '+'] 1 none
  | optional : QuantifierPrefix [byte '?'] 0 (some 1)
  | exactly {n : ℕ} {ds : Bytes} : Numeral n ds →
      QuantifierPrefix (leftBrace :: (ds ++ [rightBrace])) n (some n)
  | atLeast {n : ℕ} {ds : Bytes} : Numeral n ds →
      QuantifierPrefix (leftBrace :: (ds ++ [byte ',', rightBrace])) n none
  | between {m n : ℕ} {ds es : Bytes} : Numeral m ds → Numeral n es → m ≤ n →
      QuantifierPrefix (leftBrace :: (ds ++ byte ',' :: (es ++ [rightBrace]))) m (some n)

/-- Whether a quantifier is greedy makes no difference to the words that are matched. -/
inductive Quantifier : Bytes → ℕ → Option ℕ → Prop
  | greedy {qs : Bytes} {m : ℕ} {n : Option ℕ} : QuantifierPrefix qs m n → Quantifier qs m n
  | lazy {qs : Bytes} {m : ℕ} {n : Option ℕ} : QuantifierPrefix qs m n →
      Quantifier (qs ++ [byte '?']) m n

/-- The quantifiers behind an atom. A `?` may be one of them or belong to the one in front of
it. -/
inductive Quantified (d : Dialect) (r : Regex) : Bytes → Regex → Prop
  | once {qs : Bytes} {m : ℕ} {n : Option ℕ} : Quantifier qs m n →
      Quantified d r qs (.times r m n)
  | again {qs qs' : Bytes} {s : Regex} {m : ℕ} {n : Option ℕ} : d = .lenient →
      Quantified d r qs s → Quantifier qs' m n → Quantified d r (qs ++ qs') (.times s m n)

inductive Nonterminal where
  | disjunction
  | alternative
  | term
  | atom

/-- `Derives d a xs r`: the nonterminal `a` derives `xs`, with the syntax tree `r`. -/
inductive Derives (d : Dialect) : Nonterminal → Bytes → Regex → Prop
  | alternative {xs : Bytes} {r : Regex} : Derives d .alternative xs r →
      Derives d .disjunction xs r
  | either {xs ys : Bytes} {r s : Regex} : Derives d .alternative xs r →
      Derives d .disjunction ys s → Derives d .disjunction (xs ++ byte '|' :: ys) (.alt r s)
  | nothing : Derives d .alternative [] .empty
  | term {xs ys : Bytes} {r s : Regex} : Derives d .term xs r → Derives d .alternative ys s →
      Derives d .alternative (xs ++ ys) (.seq r s)
  | start : Derives d .term [byte '^'] .atStart
  | finish : Derives d .term [byte '$'] .atEnd
  | atom {xs : Bytes} {r : Regex} : Derives d .atom xs r → Derives d .term xs r
  | quantified {xs qs : Bytes} {r s : Regex} : Derives d .atom xs r → Quantified d r qs s →
      Derives d .term (xs ++ qs) s
  | character {c : UInt8} : Stands d c → Derives d .atom [c] (.char c)
  | wildcard : Derives d .atom [byte '.'] .any
  | group {xs : Bytes} {r : Regex} : Derives d .disjunction xs r →
      Derives d .atom (byte '(' :: (xs ++ [byte ')'])) r

/-! ### The words that are matched -/

/-- `n` consecutive spans of a word, each with what is before and behind it. -/
def Iterated (P : Bytes → Bytes → Bytes → Prop) : ℕ → Bytes → Bytes → Bytes → Prop
  | 0, _, w, _ => w = []
  | n + 1, before, w, behind => ∃ u v, w = u ++ v ∧ P before u (v ++ behind) ∧
      Iterated P n (before ++ u) v behind

/-- The span `w` between `before` and `behind` is matched. -/
def Matches : Regex → Bytes → Bytes → Bytes → Prop
  | .empty, _, w, _ => w = []
  | .char c, _, w, _ => w = [c]
  | .any, _, w, _ => ∃ c, w = [c] ∧ ¬ IsLineTerminator c
  | .atStart, before, w, _ => w = [] ∧ before = []
  | .atEnd, _, w, behind => w = [] ∧ behind = []
  | .seq r s, before, w, behind => ∃ u v, w = u ++ v ∧ Matches r before u (v ++ behind) ∧
      Matches s (before ++ u) v behind
  | .alt r s, before, w, behind => Matches r before w behind ∨ Matches s before w behind
  | .times r m n, before, w, behind => ∃ k, m ≤ k ∧ (∀ l ∈ n, k ≤ l) ∧
      Iterated (Matches r) k before w behind

/-- A library that accepts `pattern` exactly when it can be derived, and tests whole
words with it. -/
def Follows (d : Dialect) (regex : Bytes → Option (Bytes → Bool)) (pattern : Bytes) : Prop :=
  match regex pattern with
  | none => ∀ r, ¬ Derives d .disjunction pattern r
  | some test => ∃ r, Derives d .disjunction pattern r ∧ ∀ w, test w = true ↔ Matches r [] w []

/-- A library that follows one of the dialects. -/
def FollowsEcmaScript (regex : Bytes → Option (Bytes → Bool)) (pattern : Bytes) : Prop :=
  ∃ d, Follows d regex pattern

variable {d : Dialect} {a : Nonterminal} {xs ys u v w : Bytes} {r s : Regex} {c : UInt8} {m : ℕ}
  {n : Option ℕ}

theorem not_stands (h : IsSyntax c) (hclosing : ¬ IsClosing c) : ¬ Stands d c := by
  rintro (hc | ⟨-, hc⟩)
  · exact hc h
  · exact hclosing hc

/-! ### Quantifiers -/

theorem QuantifierPrefix.head {qs : Bytes} (h : QuantifierPrefix qs m n) :
    ∃ c rest, qs = c :: rest ∧ ¬ Stands d c ∧ c ≠ byte '(' := by
  cases h <;> exact ⟨_, _, rfl, not_stands (by decide) (by decide), by decide⟩

theorem Quantifier.head {qs : Bytes} (h : Quantifier qs m n) :
    ∃ c rest, qs = c :: rest ∧ ¬ Stands d c ∧ c ≠ byte '(' := by
  cases h with
  | greedy hp => exact hp.head
  | lazy hp =>
    obtain ⟨c, rest, rfl, hc⟩ := hp.head
    exact ⟨c, rest ++ [byte '?'], rfl, hc⟩

theorem Quantified.head {qs : Bytes} (h : Quantified d r qs s) :
    ∃ c rest, qs = c :: rest ∧ ¬ Stands d c ∧ c ≠ byte '(' := by
  induction h with
  | once hq => exact hq.head
  | again _ _ _ ih =>
    obtain ⟨c, rest, rfl, hc⟩ := ih
    exact ⟨c, _, List.cons_append .., hc⟩

/-- The characters of quantifiers. -/
def IsQuantifying (c : UInt8) : Prop := c ∈ str "*+?,\x7b\x7d" ∨ isDigit c = true

instance : DecidablePred IsQuantifying := fun _ => inferInstanceAs (Decidable (_ ∨ _))

theorem QuantifierPrefix.quantifying {qs : Bytes} (h : QuantifierPrefix qs m n) :
    ∀ c ∈ qs, IsQuantifying c := by
  have hstar : IsQuantifying (byte '*') := by decide
  have hplus : IsQuantifying (byte '+') := by decide
  have hoptional : IsQuantifying (byte '?') := by decide
  have hcomma : IsQuantifying (byte ',') := by decide
  have hleft : IsQuantifying leftBrace := by decide
  have hright : IsQuantifying rightBrace := by decide
  have hdigits {n : ℕ} {ds : Bytes} (hn : Numeral n ds) : ∀ c ∈ ds, IsQuantifying c :=
    fun c hc => .inr (hn.digits c hc)
  cases h with
  | star => simpa using hstar
  | plus => simpa using hplus
  | optional => simpa using hoptional
  | exactly hn => simpa [or_imp, forall_and] using ⟨hleft, hdigits hn, hright⟩
  | atLeast hn => simpa [or_imp, forall_and] using ⟨hleft, hdigits hn, hcomma, hright⟩
  | between hm hn _ =>
    simpa [or_imp, forall_and] using ⟨hleft, hdigits hm, hcomma, hdigits hn, hright⟩

theorem Quantifier.quantifying {qs : Bytes} (h : Quantifier qs m n) :
    ∀ c ∈ qs, IsQuantifying c := by
  cases h with
  | greedy hp => exact hp.quantifying
  | lazy hp =>
    have hoptional : IsQuantifying (byte '?') := by decide
    simpa [or_imp, forall_and] using ⟨hp.quantifying, hoptional⟩

theorem Quantified.quantifying {qs : Bytes} (h : Quantified d r qs s) :
    ∀ c ∈ qs, IsQuantifying c := by
  induction h with
  | once hq => exact hq.quantifying
  | again _ _ hq ih => exact List.forall_mem_append.mpr ⟨ih, hq.quantifying⟩

/-! ### Characters that no pattern contains -/

/-- The characters that open a bracket expression or an escape. -/
def IsForeign (c : UInt8) : Prop := c ∈ str "[\\"

instance : DecidablePred IsForeign := fun _ => inferInstanceAs (Decidable (_ ∈ _))

theorem Derives.not_foreign (h : Derives d a xs r) : ∀ c ∈ xs, ¬ IsForeign c := by
  have hquantifying {c : UInt8} (hc : IsQuantifying c) : ¬ IsForeign c := by
    intro hf
    have hall : ∀ c ∈ str "[\\", ¬ IsQuantifying c := forall_mem_of_all (by decide)
    exact hall c hf hc
  have hor : ¬ IsForeign (byte '|') := by decide
  have hstart : ¬ IsForeign (byte '^') := by decide
  have hfinish : ¬ IsForeign (byte '$') := by decide
  have hany : ¬ IsForeign (byte '.') := by decide
  have hleft : ¬ IsForeign (byte '(') := by decide
  have hright : ¬ IsForeign (byte ')') := by decide
  induction h with
  | alternative _ ih => exact ih
  | either _ _ ih ih' => simpa [or_imp, forall_and] using ⟨ih, hor, ih'⟩
  | nothing => simp
  | term _ _ ih ih' => simpa [or_imp, forall_and] using ⟨ih, ih'⟩
  | start => simpa using hstart
  | finish => simpa using hfinish
  | atom _ ih => exact ih
  | quantified _ hq ih =>
    simpa [or_imp, forall_and] using ⟨ih, fun c hc => hquantifying (hq.quantifying c hc)⟩
  | @character c hc =>
    have hall : ∀ c ∈ str "[\\", IsSyntax c ∧ ¬ IsClosing c := forall_mem_of_all (by decide)
    have hforeign : ¬ IsForeign c := fun hf => not_stands (hall c hf).1 (hall c hf).2 hc
    simpa using hforeign
  | wildcard => simpa using hany
  | group _ ih => simpa [or_imp, forall_and] using ⟨hleft, ih, hright⟩

/-! ### Balanced parentheses -/

/-- Opening parentheses minus closing ones. -/
def depth (xs : Bytes) : ℤ := (xs.count (byte '(') : ℤ) - xs.count (byte ')')

@[simp] theorem depth_append (xs ys : Bytes) : depth (xs ++ ys) = depth xs + depth ys := by
  simp only [depth, List.count_append]
  omega

theorem depth_eq_zero (h : ∀ c ∈ xs, c ≠ byte '(' ∧ c ≠ byte ')') : depth xs = 0 := by
  have hopen : xs.count (byte '(') = 0 := List.count_eq_zero.mpr fun hc => (h _ hc).1 rfl
  have hclose : xs.count (byte ')') = 0 := List.count_eq_zero.mpr fun hc => (h _ hc).2 rfl
  simp [depth, hopen, hclose]

/-- No parenthesis is closed before it is opened, and all are closed. -/
structure Balanced (xs : Bytes) : Prop where
  nonneg : ∀ u v, xs = u ++ v → 0 ≤ depth u
  closed : depth xs = 0

namespace Balanced

theorem of_notMem (h : ∀ c ∈ xs, c ≠ byte '(' ∧ c ≠ byte ')') : Balanced xs where
  nonneg _ v huv := (depth_eq_zero fun c hc => h c (huv ▸ List.mem_append_left v hc)).ge
  closed := depth_eq_zero h

theorem append (hx : Balanced xs) (hy : Balanced ys) : Balanced (xs ++ ys) where
  nonneg u v huv := by
    rcases List.append_eq_append_iff.mp huv with ⟨t, rfl, -⟩ | ⟨t, rfl, -⟩
    · rw [depth_append, hx.closed, zero_add]
      exact hy.nonneg t v (by simpa using huv)
    · exact hx.nonneg u t rfl
  closed := by rw [depth_append, hx.closed, hy.closed, add_zero]

theorem group (hx : Balanced xs) : Balanced (byte '(' :: (xs ++ [byte ')'])) where
  nonneg u v huv := by
    cases u with
    | nil => exact le_rfl
    | cons c u =>
      obtain ⟨rfl, htail⟩ := List.cons.inj huv
      have hcons : depth (byte '(' :: u) = 1 + depth u := depth_append [byte '('] u
      rcases List.append_eq_append_iff.mp htail with ⟨t, rfl, ht⟩ | ⟨t, rfl, -⟩
      · -- the closing parenthesis is in `t` or behind it
        have htlen : t.length ≤ 1 := by
          have h := congrArg List.length ht
          simp only [List.length_append, List.length_singleton] at h
          omega
        have hcount : t.count (byte ')') ≤ 1 := List.count_le_length.trans htlen
        rw [hcons, depth_append, hx.closed]
        simp only [depth]
        omega
      · have h := hx.nonneg u t rfl
        omega
  closed := by
    have hcons : depth (byte '(' :: (xs ++ [byte ')'])) = 1 + depth (xs ++ [byte ')']) :=
      depth_append [byte '('] _
    have hlast : depth [byte ')'] = -1 := rfl
    rw [hcons, depth_append, hx.closed, hlast]
    rfl

end Balanced

theorem Derives.balanced (h : Derives d a xs r) : Balanced xs := by
  have hsingle {c : UInt8} (hc : c ≠ byte '(' ∧ c ≠ byte ')') : Balanced [c] :=
    .of_notMem (by simpa using hc)
  induction h with
  | alternative _ ih => exact ih
  | either _ _ ih ih' =>
    have h := ih.append ((hsingle (c := byte '|') (by decide)).append ih')
    simpa using h
  | nothing => exact .of_notMem (by simp)
  | term _ _ ih ih' => exact ih.append ih'
  | start => exact hsingle (by decide)
  | finish => exact hsingle (by decide)
  | atom _ ih => exact ih
  | quantified _ hq ih =>
    refine ih.append (.of_notMem fun c hc => ?_)
    have hc' := hq.quantifying c hc
    constructor
    · rintro rfl
      exact absurd hc' (by decide)
    · rintro rfl
      exact absurd hc' (by decide)
  | @character c hc =>
    apply hsingle
    constructor
    · rintro rfl
      exact not_stands (by decide) (by decide) hc
    · rintro rfl
      exact not_stands (by decide) (by decide) hc
  | wildcard => exact hsingle (by decide)
  | group _ ih => exact ih.group

/-- What a group contains ends at the first closing parenthesis when nothing is opened
before it. -/
theorem Balanced.eq_of_append {rest rest' : Bytes} (hx : Balanced xs) (hy : Balanced ys)
    (h : xs ++ byte ')' :: rest = ys ++ byte ')' :: rest') : xs = ys ∧ rest = rest' := by
  rcases List.append_eq_append_iff.mp h with ⟨t, rfl, ht⟩ | ⟨t, rfl, ht⟩
  · cases t with
    | nil => exact ⟨(List.append_nil xs).symm, (List.cons.inj ht).2⟩
    | cons c t =>
      obtain ⟨rfl, -⟩ := List.cons.inj ht
      have hneg := hy.nonneg (xs ++ [byte ')']) t (by simp)
      rw [depth_append, hx.closed] at hneg
      exact absurd hneg (by decide)
  · cases t with
    | nil => exact ⟨List.append_nil ys, (List.cons.inj ht).2.symm⟩
    | cons c t =>
      obtain ⟨rfl, -⟩ := List.cons.inj ht
      have hneg := hx.nonneg (ys ++ [byte ')']) t (by simp)
      rw [depth_append, hy.closed] at hneg
      exact absurd hneg (by decide)

/-! ### Patterns of ordinary characters -/

/-- A pattern of ordinary characters matches nothing but itself. -/
theorem Derives.matches_iff_eq (h : Derives d a xs r) (hxs : ∀ c ∈ xs, Stands d c)
    (before behind : Bytes) : Matches r before w behind ↔ w = xs := by
  induction h generalizing w before behind with
  | alternative _ ih => exact ih hxs before behind
  | either => exact absurd (hxs (byte '|') (by simp)) (not_stands (by decide) (by decide))
  | nothing => exact Iff.rfl
  | @term xs ys r s _ _ ih ih' =>
    have hleft (c : UInt8) (hc : c ∈ xs) : Stands d c := hxs c (List.mem_append_left _ hc)
    have hright (c : UInt8) (hc : c ∈ ys) : Stands d c := hxs c (List.mem_append_right _ hc)
    constructor
    · rintro ⟨u, v, rfl, hu, hv⟩
      rw [(ih hleft _ _).mp hu, (ih' hright _ _).mp hv]
    · rintro rfl
      exact ⟨xs, ys, rfl, (ih hleft _ _).mpr rfl, (ih' hright _ _).mpr rfl⟩
  | start => exact absurd (hxs (byte '^') (by simp)) (not_stands (by decide) (by decide))
  | finish => exact absurd (hxs (byte '$') (by simp)) (not_stands (by decide) (by decide))
  | atom _ ih => exact ih hxs before behind
  | quantified _ hq =>
    obtain ⟨c, rest, rfl, hc, -⟩ := hq.head
    exact absurd (hxs c (by simp)) hc
  | character => exact Iff.rfl
  | wildcard => exact absurd (hxs (byte '.') (by simp)) (not_stands (by decide) (by decide))
  | group => exact absurd (hxs (byte '(') (by simp)) (not_stands (by decide) (by decide))

/-- Ordinary characters form a pattern. -/
theorem derives_of_ordinary (hxs : ∀ c ∈ xs, Stands d c) : ∃ r, Derives d .alternative xs r := by
  induction xs with
  | nil => exact ⟨_, .nothing⟩
  | cons c xs ih =>
    obtain ⟨r, hr⟩ := ih fun e he => hxs e (List.mem_cons_of_mem c he)
    have hc : Derives d .term [c] (.char c) := .atom (.character (hxs c List.mem_cons_self))
    exact ⟨_, hc.term hr⟩

/-! ### A group and a wildcard -/

theorem Derives.alternative_of_notMem (h : Derives d .disjunction xs r) (hxs : byte '|' ∉ xs) :
    Derives d .alternative xs r := by
  cases h with
  | alternative h => exact h
  | either => exact absurd (by simp) hxs

theorem Derives.atom_ne_nil (h : Derives d .atom xs r) : ∃ c us, xs = c :: us := by
  cases h <;> exact ⟨_, _, rfl⟩

/-- A term that is no assertion starts with an atom. -/
theorem Derives.atom_of_term (h : Derives d .term xs r) (hstart : xs.head? ≠ some (byte '^'))
    (hfinish : xs.head? ≠ some (byte '$')) :
    ∃ c us qs s, xs = c :: (us ++ qs) ∧ Derives d .atom (c :: us) s ∧
      (qs = [] ∧ r = s ∨ Quantified d s qs r) := by
  cases h with
  | start => exact absurd rfl hstart
  | finish => exact absurd rfl hfinish
  | atom h =>
    obtain ⟨c, us, rfl⟩ := h.atom_ne_nil
    exact ⟨c, us, [], r, by simp, h, .inl ⟨rfl, rfl⟩⟩
  | @quantified us qs s _ h hq =>
    obtain ⟨c, us, rfl⟩ := h.atom_ne_nil
    exact ⟨c, us, qs, s, rfl, h, .inr hq⟩

/-- An alternative that starts with no assertion starts with an atom. -/
theorem Derives.atom_of_alternative (h : Derives d .alternative (c :: xs) r)
    (hc : c ≠ byte '^' ∧ c ≠ byte '$') :
    ∃ us qs ys s s' t, xs = us ++ (qs ++ ys) ∧ r = .seq s' t ∧ Derives d .atom (c :: us) s ∧
      (qs = [] ∧ s' = s ∨ Quantified d s qs s') ∧
      Derives d .alternative ys t := by
  generalize hb : c :: xs = b at h
  cases h with
  | nothing => cases hb
  | @term ts ys s' t hterm hrest =>
    have hhead : ts.head? ≠ some (byte '^') ∧ ts.head? ≠ some (byte '$') := by
      cases ts with
      | nil => simp
      | cons d ts =>
        obtain ⟨rfl, -⟩ := List.cons.inj hb
        simpa using hc
    obtain ⟨d, us, qs, s, rfl, hatom, hq⟩ := hterm.atom_of_term hhead.1 hhead.2
    obtain ⟨rfl, rfl⟩ := List.cons.inj hb
    exact ⟨us, qs, ys, s, s', t, List.append_assoc us qs ys, rfl, hatom, hq, hrest⟩

/-- The first character of an atom tells how it is derived. -/
theorem Derives.atom_cons (h : Derives d .atom (c :: xs) r) :
    Stands d c ∨ c = byte '.' ∧ xs = [] ∧ r = .any ∨
      c = byte '(' ∧ ∃ ys, xs = ys ++ [byte ')'] ∧ Derives d .disjunction ys r := by
  generalize hb : c :: xs = b at h
  cases h with
  | character hc =>
    obtain ⟨rfl, rfl⟩ := List.cons.inj hb
    exact .inl hc
  | wildcard =>
    obtain ⟨rfl, rfl⟩ := List.cons.inj hb
    exact .inr (.inl ⟨rfl, rfl, rfl⟩)
  | group hd =>
    obtain ⟨rfl, rfl⟩ := List.cons.inj hb
    exact .inr (.inr ⟨rfl, _, rfl, hd⟩)

/-- A group whose content is known to be balanced, with no quantifier behind it. -/
theorem Derives.group_cons (h : Derives d .alternative (byte '(' :: (xs ++ byte ')' :: ys)) r)
    (hxs : Balanced xs) (hys : ∀ c ∈ ys.head?, c = byte '(') :
    ∃ s t, r = .seq s t ∧ Derives d .disjunction xs s ∧ Derives d .alternative ys t := by
  obtain ⟨us, qs, zs, s, s', t, hb, rfl, hatom, hq, hrest⟩ := h.atom_of_alternative (by decide)
  rcases hatom.atom_cons with hc | ⟨hc, -⟩ | ⟨-, ds, rfl, hd⟩
  · exact absurd hc (not_stands (by decide) (by decide))
  · exact absurd hc (by decide)
  · obtain ⟨rfl, rfl⟩ := hxs.eq_of_append hd.balanced
      (show xs ++ byte ')' :: ys = ds ++ byte ')' :: (qs ++ zs) by simpa using hb)
    rcases hq with ⟨rfl, rfl⟩ | hq
    · exact ⟨s', t, rfl, hd, hrest⟩
    · obtain ⟨c, rest, rfl, -, hc⟩ := hq.head
      exact absurd (hys c rfl) hc

theorem iterated_any_iff {k : ℕ} {before behind : Bytes} :
    Iterated (Matches .any) k before w behind ↔ w.length = k ∧ ∀ c ∈ w, ¬ IsLineTerminator c := by
  induction k generalizing before w with
  | zero =>
    constructor
    · rintro rfl
      simp
    · rintro ⟨h, -⟩
      exact List.eq_nil_of_length_eq_zero h
  | succ k ih =>
    constructor
    · rintro ⟨u, v, rfl, ⟨c, rfl, hc⟩, hv⟩
      obtain ⟨hlen, hterm⟩ := ih.mp hv
      exact ⟨by simp [hlen], List.forall_mem_cons.mpr ⟨hc, hterm⟩⟩
    · rintro ⟨hlen, hterm⟩
      cases w with
      | nil => cases hlen
      | cons c v =>
        obtain ⟨hc, hv⟩ := List.forall_mem_cons.mp hterm
        exact ⟨[c], v, rfl, ⟨c, rfl, hc⟩, ih.mpr ⟨Nat.succ.inj hlen, hv⟩⟩

theorem Quantifier.eq_star (h : Quantifier [byte '*'] m n) : m = 0 ∧ n = none := by
  generalize hb : [byte '*'] = b at h
  cases h with
  | greedy hp =>
    cases hp with
    | star => exact ⟨rfl, rfl⟩
    | plus => exact absurd (List.head_eq_of_cons_eq hb) (by decide)
    | optional => exact absurd (List.head_eq_of_cons_eq hb) (by decide)
    | exactly => exact absurd (List.head_eq_of_cons_eq hb) (by decide)
    | atLeast => exact absurd (List.head_eq_of_cons_eq hb) (by decide)
    | between => exact absurd (List.head_eq_of_cons_eq hb) (by decide)
  | lazy hp =>
    obtain ⟨c, rest, rfl, -⟩ := hp.head (d := .standard)
    have hlength := congrArg List.length hb
    simp at hlength

theorem Quantified.eq_star (h : Quantified d r [byte '*'] s) : s = .times r 0 none := by
  generalize hb : [byte '*'] = b at h
  cases h with
  | once hq =>
    obtain ⟨rfl, rfl⟩ := (hb ▸ hq : Quantifier [byte '*'] _ _).eq_star
    rfl
  | again _ hq hq' =>
    -- two quantifiers have more than one character
    obtain ⟨c, rest, rfl, -⟩ := hq.head
    obtain ⟨c', rest', rfl, -⟩ := hq'.head (d := d)
    have hlength := congrArg List.length hb
    simp at hlength

theorem Derives.eq_empty (h : Derives d .alternative [] r) : r = .empty := by
  generalize hb : ([] : Bytes) = b at h
  cases h with
  | nothing => rfl
  | term hterm =>
    obtain ⟨rfl, -⟩ := List.append_eq_nil_iff.mp hb.symm
    obtain ⟨c, us, qs, s, hnil, -⟩ := hterm.atom_of_term (by simp) (by simp)
    cases hnil

/-- The wildcard repeated matches what has no line terminator. -/
theorem Derives.matches_star (h : Derives d .disjunction (str ".*") r) (before behind : Bytes) :
    Matches r before w behind ↔ ∀ c ∈ w, ¬ IsLineTerminator c := by
  have hbytes : str ".*" = [byte '.', byte '*'] := rfl
  rw [hbytes] at h
  obtain ⟨us, qs, ys, s, s', t, hb, rfl, hatom, hq, hrest⟩ :=
    (h.alternative_of_notMem (by decide)).atom_of_alternative (by decide)
  rcases hatom.atom_cons with hc | ⟨-, rfl, rfl⟩ | ⟨hc, -⟩
  · exact absurd hc (not_stands (by decide) (by decide))
  · rcases hq with ⟨rfl, -⟩ | hq
    · -- the quantifier would start a term of its own
      obtain rfl : [byte '*'] = ys := hb
      obtain ⟨us, qs, ys, s, s', t, -, -, hatom, -⟩ := hrest.atom_of_alternative (by decide)
      rcases hatom.atom_cons with hc | ⟨hc, -⟩ | ⟨hc, -⟩
      · exact absurd hc (not_stands (by decide) (by decide))
      · exact absurd hc (by decide)
      · exact absurd hc (by decide)
    · obtain ⟨c, rest, rfl, -⟩ := hq.head
      obtain ⟨rfl, hnil⟩ := List.cons.inj hb
      obtain ⟨rfl, rfl⟩ := List.append_eq_nil_iff.mp hnil.symm
      obtain rfl := hq.eq_star
      rw [hrest.eq_empty]
      constructor
      · rintro ⟨u, v, rfl, ⟨k, -, -, hu⟩, rfl⟩
        rw [List.append_nil]
        exact (iterated_any_iff.mp hu).2
      · intro hw
        exact ⟨w, [], (List.append_nil w).symm, ⟨w.length, Nat.zero_le _, by simp,
          iterated_any_iff.mpr ⟨rfl, hw⟩⟩, rfl⟩
  · exact absurd hc (by decide)

/-- A word of ordinary characters in parentheses and behind it anything. -/
def startingWith (xs : Bytes) : Bytes := str "(" ++ xs ++ str ")(.*)"

theorem derives_startingWith (hxs : ∀ c ∈ xs, Stands d c) :
    ∃ r, Derives d .disjunction (startingWith xs) r := by
  obtain ⟨r, hr⟩ := derives_of_ordinary hxs
  have hstar : Derives d .term (str ".*") (.times .any 0 none) :=
    .quantified .wildcard (.once (.greedy .star))
  have hrest : Derives d .term (str "(.*)") (.seq (.times .any 0 none) .empty) :=
    .atom (.group (.alternative (hstar.term .nothing)))
  have hword : Derives d .term (byte '(' :: (xs ++ [byte ')'])) r := .atom (.group (.alternative hr))
  have h := Derives.alternative (hword.term (hrest.term .nothing))
  have hbytes : startingWith xs = byte '(' :: (xs ++ [byte ')']) ++ (str "(.*)" ++ []) := by
    simp [startingWith, str, byte]
  exact ⟨_, hbytes ▸ h⟩

theorem Derives.matches_startingWith (h : Derives d .disjunction (startingWith xs) r)
    (hxs : ∀ c ∈ xs, Stands d c) (before behind : Bytes) : Matches r before w behind ↔
      ∃ v, w = xs ++ v ∧ ∀ c ∈ v, ¬ IsLineTerminator c := by
  have hparens (c : UInt8) (hc : c ∈ xs) : c ≠ byte '(' ∧ c ≠ byte ')' := by
    constructor
    · rintro rfl
      exact not_stands (by decide) (by decide) (hxs _ hc)
    · rintro rfl
      exact not_stands (by decide) (by decide) (hxs _ hc)
  have hbytes : startingWith xs = byte '(' :: (xs ++ byte ')' :: (byte '(' :: (str ".*" ++
      byte ')' :: []))) := by
    simp [startingWith, str, byte]
  have hor : byte '|' ∉ startingWith xs := by
    simp only [startingWith, List.mem_append, not_or]
    exact ⟨⟨by decide, fun hc => not_stands (by decide) (by decide) (hxs _ hc)⟩, by decide⟩
  have halt := h.alternative_of_notMem hor
  rw [hbytes] at halt
  obtain ⟨s, t, rfl, hs, ht⟩ := halt.group_cons (.of_notMem hparens) (by simp)
  obtain ⟨s', t', rfl, hs', ht'⟩ := ht.group_cons (.of_notMem (forall_mem_of_all (by decide)))
    (by simp)
  rw [ht'.eq_empty]
  constructor
  · rintro ⟨u, v, rfl, hu, v, _, rfl, hv, rfl⟩
    exact ⟨v, by rw [(hs.matches_iff_eq hxs _ _).mp hu, List.append_nil],
      (hs'.matches_star _ _).mp hv⟩
  · rintro ⟨v, rfl, hv⟩
    exact ⟨xs, v, rfl, (hs.matches_iff_eq hxs _ _).mpr rfl, v, [], (List.append_nil v).symm,
      (hs'.matches_star _ _).mpr hv, rfl⟩

/-! ### Replacing characters of a word -/

/-- Characters of the syntax become others, and none of them a line terminator. -/
structure Replacement (d : Dialect) (f : UInt8 → UInt8) : Prop where
  ordinary : ∀ c, Stands d c → f c = c
  syntactic : ∀ c, ¬ Stands d c → ¬ IsLineTerminator (f c)

/-- The tree stands for ordinary characters only. -/
def Ordinary (d : Dialect) : Regex → Prop
  | .char c => Stands d c
  | .seq r s => Ordinary d r ∧ Ordinary d s
  | .alt r s => Ordinary d r ∧ Ordinary d s
  | .times r _ _ => Ordinary d r
  | _ => True

theorem Quantified.ordinary {qs : Bytes} (h : Quantified d r qs s) (hr : Ordinary d r) :
    Ordinary d s := by
  induction h with
  | once => exact hr
  | again _ _ _ ih => exact ih

theorem Derives.ordinary (h : Derives d a xs r) : Ordinary d r := by
  induction h with
  | alternative _ ih => exact ih
  | either _ _ ih ih' => exact ⟨ih, ih'⟩
  | nothing => trivial
  | term _ _ ih ih' => exact ⟨ih, ih'⟩
  | start => trivial
  | finish => trivial
  | atom _ ih => exact ih
  | quantified _ hq ih => exact hq.ordinary ih
  | character hc => exact hc
  | wildcard => trivial
  | group _ ih => exact ih

theorem Iterated.map {P : Bytes → Bytes → Bytes → Prop} {f : UInt8 → UInt8}
    (hP : ∀ before w behind, P before w behind → P (before.map f) (w.map f) (behind.map f))
    {k : ℕ} {before behind : Bytes} (h : Iterated P k before w behind) :
    Iterated P k (before.map f) (w.map f) (behind.map f) := by
  induction k generalizing before w with
  | zero => exact congrArg (List.map f) h
  | succ k ih =>
    obtain ⟨u, v, rfl, hu, hv⟩ := h
    have hu' := hP _ _ _ hu
    have hv' := ih hv
    rw [List.map_append] at hu' hv'
    exact ⟨u.map f, v.map f, List.map_append, hu', hv'⟩

/-- Only the wildcard matches a character of the syntax, so another one does as well. -/
theorem Matches.map {f : UInt8 → UInt8} (hf : Replacement d f) (hr : Ordinary d r)
    {before behind : Bytes} (h : Matches r before w behind) :
    Matches r (before.map f) (w.map f) (behind.map f) := by
  induction r generalizing before w behind with
  | empty => exact congrArg (List.map f) h
  | char c =>
    obtain rfl : w = [c] := h
    exact congrArg (fun d => [d]) (hf.ordinary c hr)
  | any =>
    obtain ⟨c, rfl, hc⟩ := h
    refine ⟨f c, rfl, ?_⟩
    by_cases hstands : Stands d c
    · rwa [hf.ordinary c hstands]
    · exact hf.syntactic c hstands
  | atStart =>
    obtain ⟨rfl, rfl⟩ := h
    exact ⟨rfl, rfl⟩
  | atEnd =>
    obtain ⟨rfl, rfl⟩ := h
    exact ⟨rfl, rfl⟩
  | seq r s ih ih' =>
    obtain ⟨u, v, rfl, hu, hv⟩ := h
    have hu' := ih hr.1 hu
    have hv' := ih' hr.2 hv
    rw [List.map_append] at hu' hv'
    exact ⟨u.map f, v.map f, List.map_append, hu', hv'⟩
  | alt r s ih ih' => exact h.imp (ih hr.1) (ih' hr.2)
  | times r m n ih =>
    obtain ⟨k, hm, hn, hk⟩ := h
    have hstep (before w behind : Bytes) (hw : Matches r before w behind) :
        Matches r (before.map f) (w.map f) (behind.map f) := ih hr hw
    exact ⟨k, hm, hn, Iterated.map hstep hk⟩

/-! ### Libraries -/

namespace Follows

variable {regex : Bytes → Option (Bytes → Bool)} {pattern : Bytes} {test : Bytes → Bool}

theorem exists_derives (h : Follows d regex pattern) (htest : regex pattern = some test) :
    ∃ r, Derives d .disjunction pattern r ∧ ∀ w, test w = true ↔ Matches r [] w [] := by
  simpa only [Follows, htest] using h

theorem isSome_iff (h : Follows d regex pattern) :
    (∃ test, regex pattern = some test) ↔ ∃ r, Derives d .disjunction pattern r := by
  constructor
  · rintro ⟨test, htest⟩
    obtain ⟨r, hr, -⟩ := h.exists_derives htest
    exact ⟨r, hr⟩
  · rintro ⟨r, hr⟩
    cases htest : regex pattern with
    | none =>
      simp only [Follows, htest] at h
      exact absurd hr (h r)
    | some test => exact ⟨test, rfl⟩

/-- A pattern of ordinary characters is accepted and tests for equality. -/
theorem of_ordinary (h : Follows d regex pattern) (hp : ∀ c ∈ pattern, Stands d c) :
    ∃ test, regex pattern = some test ∧ ∀ w, test w = true ↔ w = pattern := by
  obtain ⟨r, hr⟩ := derives_of_ordinary hp
  obtain ⟨test, htest⟩ := h.isSome_iff.mpr ⟨r, .alternative hr⟩
  obtain ⟨r, hr, hmatches⟩ := h.exists_derives htest
  exact ⟨test, htest, fun w => (hmatches w).trans (hr.matches_iff_eq hp _ _)⟩

/-- A word in parentheses and behind it anything is accepted and tests for a prefix. -/
theorem of_startingWith {xs : Bytes} (h : Follows d regex (startingWith xs))
    (hxs : ∀ c ∈ xs, Stands d c) : ∃ test, regex (startingWith xs) = some test ∧
      ∀ w, test w = true ↔ ∃ v, w = xs ++ v ∧ ∀ c ∈ v, ¬ IsLineTerminator c := by
  obtain ⟨test, htest⟩ := h.isSome_iff.mpr (derives_startingWith hxs)
  obtain ⟨r, hr, hmatches⟩ := h.exists_derives htest
  exact ⟨test, htest, fun w => (hmatches w).trans (hr.matches_startingWith hxs _ _)⟩

/-- What is matched is matched with other characters in place of those of the syntax. -/
theorem map {f : UInt8 → UInt8} (h : Follows d regex pattern) (hf : Replacement d f)
    (htest : regex pattern = some test) {w : Bytes} (hw : test w = true) : test (w.map f) = true := by
  obtain ⟨r, hr, hmatches⟩ := h.exists_derives htest
  exact (hmatches _).mpr (((hmatches w).mp hw).map hf hr.ordinary)

end Follows

end RedisServer.EcmaScriptPatterns
