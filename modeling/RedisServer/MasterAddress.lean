import RedisServer.EcmaScriptSearch
import RedisServer.ServerState

/-!
# The address of the master

The address is taken from the argument of `--replicaof` with a regular expression. In its C++
literal the escape `\b` is a backspace character and no word boundary, so a dotted quad is found
only between two backspaces, and without a match the address stays as it was.
-/

namespace RedisServer.MasterAddress
open ByteStrings CxxStrings ServerState EcmaScriptSearch

/-- What a replica knows besides the fields that `INFO` reports. -/
structure ReplicaInfo extends ServerInfo where
  masterIp : Bytes
  masterPort : ℤ
  deriving DecidableEq

def ReplicaInfo.initial (masterReplid : Bytes) : ReplicaInfo where
  toServerInfo := .initial masterReplid
  masterIp := []
  masterPort := 0

def ReplicaInfo.updateRole (info : ReplicaInfo) (role : Bytes) : ReplicaInfo :=
  { info with role := role }

/-- The characters of the literal as the compiler sees them. -/
def addressPattern : Bytes :=
  str "(\x08(?:\\d\x7b1,3\x7d\\.)\x7b3\x7d\\d\x7b1,3\x7d\x08|localhost)\\s+(\\d\x7b1,5\x7d)"

def localhost : Bytes := str "127.0.0.1"

def getMasterIpPort (args : Bytes) (info : ReplicaInfo) : Except Exception ReplicaInfo :=
  match compile addressPattern with
  | none => .error .regexError
  | some pattern =>
    match search pattern args with
    | none => .ok info
    | some found => do
      let masterIp := if captured found 1 = str "localhost" then localhost else captured found 1
      let masterPort ← stoi (captured found 2)
      return { info with masterIp := masterIp, masterPort := masterPort }

/-! ### The pattern -/

/-- A number and a full stop, three times, and a number. -/
def quadPattern : Pattern :=
  .seq (.times (.seq (.times (.escaped .digit) 1 (some 3)) (.seq (.char (byte '.')) .empty)) 3 (some 3))
    (.seq (.times (.escaped .digit) 1 (some 3)) (.seq (.char 8) .empty))

def hostPattern : Pattern := .alt (.seq (.char 8) quadPattern) (.word (str "localhost"))

def portPattern : Pattern := .seq (.group 2 (.seq (.times (.escaped .digit) 1 (some 5)) .empty)) .empty

theorem compile_addressPattern : compile addressPattern
    = some (.seq (.group 1 hostPattern) (.seq (.times (.escaped .space) 1 none) portPattern)) := by
  decide +kernel

/-! ### The texts -/

/-- Between one and three digits. -/
structure Octet (ds : Bytes) : Prop where
  digits : ∀ d ∈ ds, isDigit d = true
  nonempty : 0 < ds.length
  short : ds.length ≤ 3

inductive DottedQuad : Bytes → Prop
  | mk {a b c d : Bytes} (ha : Octet a) (hb : Octet b) (hc : Octet c) (hd : Octet d) :
      DottedQuad (a ++ str "." ++ b ++ str "." ++ c ++ str "." ++ d)

structure Blanks (bs : Bytes) : Prop where
  space : ∀ b ∈ bs, isSpace b = true
  nonempty : 0 < bs.length

/-- The texts that stand for a host. -/
def HostText (host : Bytes) : Prop := DottedQuad host ∨ host = str "localhost"

/-- The address that a host has. -/
def addressOf (host : Bytes) : Bytes := if host = str "localhost" then localhost else host

def SetsAddress (info : ReplicaInfo) (host blanks : Bytes) (port : ℕ) : Prop :=
  getMasterIpPort (host ++ blanks ++ toDecimal port) info
    = .ok { info with masterIp := addressOf host, masterPort := port }

variable {info : ReplicaInfo} {host blanks : Bytes} {port : ℕ}

theorem length_toDecimal_le_iff {n k : ℕ} (hk : 0 < k) : (toDecimal n).length ≤ k ↔ n < 10 ^ k := by
  rw [toDecimal, List.length_map]
  exact Nat.length_toDigits_le_iff (by omega) hk

theorem DottedQuad.characters (h : DottedQuad host) : ∀ c ∈ host, isDigit c = true ∨ c = byte '.' := by
  obtain ⟨ha, hb, hc, hd⟩ := h
  intro x hx
  simp only [List.mem_append] at hx
  rcases hx with (((((hx | hx) | hx) | hx) | hx) | hx) | hx
  · exact .inl (ha.digits x hx)
  · exact .inr (List.mem_singleton.mp hx)
  · exact .inl (hb.digits x hx)
  · exact .inr (List.mem_singleton.mp hx)
  · exact .inl (hc.digits x hx)
  · exact .inr (List.mem_singleton.mp hx)
  · exact .inl (hd.digits x hx)

theorem DottedQuad.ne_localhost (h : DottedQuad host) : host ≠ str "localhost" := by
  rintro rfl
  have hl := h.characters (byte 'l') (by decide)
  exact absurd hl (by decide)

/-! ### A name is found -/

theorem first_hostPattern (rest : Bytes) :
    first hostPattern ⟨str "localhost" ++ rest, []⟩ = some ⟨rest, []⟩ := by
  have hquad : run (.seq (.char 8) quadPattern) ⟨str "localhost" ++ rest, []⟩ = [] := by
    apply run_seq_eq_nil
    apply run_char_eq_nil
    have hhead : (str "localhost" ++ rest).head? = some (byte 'l') := rfl
    rw [hhead]
    decide
  rw [hostPattern, first_alt_right hquad]
  exact first_word _ rest []

theorem first_portPattern {ds : Bytes} (hds : ∀ d ∈ ds, isDigit d = true) (hpos : 0 < ds.length)
    (hlen : ds.length ≤ 5) (captures : List (ℕ × Bytes)) :
    first portPattern ⟨ds, captures⟩ = some ⟨[], (2, ds) :: captures⟩ := by
  have hdigits : first (.times (.escaped .digit) 1 (some 5)) ⟨ds ++ [], captures⟩
      = some ⟨[], captures⟩ := first_times_escaped hds (by simp) hpos (by simpa using hlen)
  have hgroup := first_group 2 (first_seq hdigits (first_empty _))
  rw [capture_append, List.append_nil] at hgroup
  exact first_seq hgroup (first_empty _)

theorem search_localhost {ds : Bytes} (hblanks : Blanks blanks) (hds : ∀ d ∈ ds, isDigit d = true)
    (hpos : 0 < ds.length) (hlen : ds.length ≤ 5) :
    search (.seq (.group 1 hostPattern) (.seq (.times (.escaped .space) 1 none) portPattern))
      (str "localhost" ++ (blanks ++ ds)) = some [(2, ds), (1, str "localhost")] := by
  have hhost := first_group 1 (first_hostPattern (blanks ++ ds))
  rw [capture_append] at hhost
  have hport : ∀ c ∈ ds.head?, isSpace c = false := fun c hc =>
    isSpace_of_isDigit (hds c (List.mem_of_mem_head? hc))
  have hspaces : first (.times (.escaped .space) 1 none)
      ⟨blanks ++ ds, [(1, str "localhost")]⟩ = some ⟨ds, [(1, str "localhost")]⟩ :=
    first_times_escaped hblanks.space hport hblanks.nonempty (by simp)
  exact search_of_first (first_seq hhost (first_seq hspaces (first_portPattern hds hpos hlen _)))

/-! ### A dotted quad is not -/

/-- A match begins with a backspace or with the first letter of the name. -/
theorem run_addressPattern_eq_nil {s : Pattern} {u : Bytes} (hback : u.head? ≠ some 8)
    (hname : u.head? ≠ some (byte 'l')) : run (.seq (.group 1 hostPattern) s) ⟨u, []⟩ = [] := by
  apply run_seq_eq_nil
  apply run_group_eq_nil
  apply run_alt_eq_nil
  · exact run_seq_eq_nil (run_char_eq_nil hback)
  · exact run_seq_eq_nil (run_char_eq_nil hname)

theorem search_quad {s : Pattern} {ds : Bytes} (hhost : DottedQuad host) (hblanks : Blanks blanks)
    (hds : ∀ d ∈ ds, isDigit d = true) :
    search (.seq (.group 1 hostPattern) s) (host ++ blanks ++ ds) = none := by
  have hcharacter : ∀ c ∈ host ++ blanks ++ ds, isDigit c = true ∨ c = byte '.' ∨ isSpace c = true := by
    intro c hc
    simp only [List.mem_append] at hc
    rcases hc with (hc | hc) | hc
    · exact (hhost.characters c hc).imp_right .inl
    · exact .inr (.inr (hblanks.space c hc))
    · exact .inl (hds c hc)
  apply search_eq_none
  intro u hu
  apply run_addressPattern_eq_nil
  · intro hhead
    have h := hcharacter 8 (hu.mem (List.mem_of_mem_head? hhead))
    exact absurd h (by decide)
  · intro hhead
    have h := hcharacter (byte 'l') (hu.mem (List.mem_of_mem_head? hhead))
    exact absurd h (by decide)

/-! ### When the address is set -/

theorem setsAddress_localhost (info : ReplicaInfo) (hblanks : Blanks blanks) (hport : port ≤ 65535) :
    SetsAddress info (str "localhost") blanks port := by
  have hds := toDecimal_numeral port
  have hfound := search_localhost hblanks hds.digits (List.length_pos_iff.mpr hds.nonempty)
    ((length_toDecimal_le_iff (by omega)).mpr (by omega))
  have hstoi : stoi (toDecimal port) = .ok port := stoi_numeral hds (hport.trans (by decide))
  rw [SetsAddress, getMasterIpPort, compile_addressPattern, List.append_assoc]
  simp only [hfound]
  have hname : captured [(2, toDecimal port), (1, str "localhost")] 1 = str "localhost" := rfl
  have hnumber : captured [(2, toDecimal port), (1, str "localhost")] 2 = toDecimal port := rfl
  rw [hname, hnumber, hstoi]
  rfl

/-- Without a match nothing is set. -/
theorem getMasterIpPort_quad (info : ReplicaInfo) (hhost : DottedQuad host) (hblanks : Blanks blanks) :
    getMasterIpPort (host ++ blanks ++ toDecimal port) info = .ok info := by
  rw [getMasterIpPort, compile_addressPattern]
  simp only [search_quad hhost hblanks (toDecimal_numeral port).digits]

/-- The address is set for the name, and for a dotted quad only where it was set before. -/
theorem address_set_iff (info : ReplicaInfo) (hhost : HostText host) (hblanks : Blanks blanks)
    (hport : port ≤ 65535) : SetsAddress info host blanks port ↔
      host = str "localhost" ∨ (info.masterIp = host ∧ info.masterPort = port) := by
  rcases hhost with hquad | rfl
  · rw [SetsAddress, getMasterIpPort_quad info hquad hblanks, addressOf, if_neg hquad.ne_localhost]
    constructor
    · intro h
      have hinfo := Except.ok.inj h
      exact .inr ⟨congrArg ReplicaInfo.masterIp hinfo, congrArg ReplicaInfo.masterPort hinfo⟩
    · rintro (h | ⟨rfl, hmaster⟩)
      · exact absurd h hquad.ne_localhost
      · rw [← hmaster]
  · exact iff_of_true (setsAddress_localhost info hblanks hport) (.inl rfl)

theorem address_set_of_name : SetsAddress (.initial []) (str "localhost") (str " ") 6379 :=
  (address_set_iff (.initial []) (.inr rfl) ⟨forall_mem_of_all (by decide), by decide⟩
    (by decide)).mpr (.inl rfl)

/-- The address of a master that is given by number is never set. -/
theorem quad_not_set : ¬ ∀ (info : ReplicaInfo) (host blanks : Bytes) (port : ℕ), HostText host →
    Blanks blanks → 1 ≤ port → port ≤ 65535 → SetsAddress info host blanks port := by
  intro hall
  have hoctet {ds : Bytes} (h : ds.all (fun d => isDigit d) = true ∧ 0 < ds.length ∧ ds.length ≤ 3) :
      Octet ds := ⟨fun d hd => List.all_eq_true.mp h.1 d hd, h.2.1, h.2.2⟩
  have hquad : DottedQuad (str "10.0.0.1") :=
    .mk (a := str "10") (b := str "0") (c := str "0") (d := str "1") (hoctet (by decide))
      (hoctet (by decide)) (hoctet (by decide)) (hoctet (by decide))
  have hblanks : Blanks (str " ") := ⟨forall_mem_of_all (by decide), by decide⟩
  have hset := hall (.initial []) _ _ 6379 (.inl hquad) hblanks (by decide) (by decide)
  rw [SetsAddress, getMasterIpPort_quad _ hquad hblanks] at hset
  have hport : (0 : ℤ) = 6379 := congrArg ReplicaInfo.masterPort (Except.ok.inj hset)
  exact absurd hport (by decide)

end RedisServer.MasterAddress
