import RedisServer.FileStreams
import Mathlib.Control.Monad.Basic

/-!
# Programs that read a stream

A reader moves a stream, changes a state of its own and opens a frame for the locals of
every call. What an uninitialized local holds is given by an arbitrary function of the
number of frames opened before. What a reader consumes and delivers, on an input that holds
what it asks for, composes along the sequencing of readers, and so do the properties that it
never moves the stream backwards, that it leaves an end of it, that it leaves the state as
it is, and that it does not look beyond what it consumes.
-/

namespace RedisServer.StreamReaders
open ByteStrings FileStreams

structure ReaderState (σ : Type) where
  file : IFStream
  frames : ℕ
  state : σ

abbrev Reader (σ : Type) := StateM (ReaderState σ)

variable {σ φ α β : Type}

/-- One more frame. -/
def ReaderState.enter (s : ReaderState σ) : ReaderState σ := { s with frames := s.frames + 1 }

theorem ReaderState.enter_mk (file : IFStream) (n : ℕ) (s : σ) :
    (ReaderState.mk file n s).enter = ⟨file, n + 1, s⟩ := rfl

@[simp] theorem ReaderState.file_enter (s : ReaderState σ) : s.enter.file = s.file := rfl

@[simp] theorem ReaderState.state_enter (s : ReaderState σ) : s.enter.state = s.state := rfl

namespace Reader

/-- Open a frame. -/
def frame (locals : ℕ → φ) : Reader σ φ := fun s =>
  (locals s.frames, { s with frames := s.frames + 1 })

/-- Read `n` bytes over the bytes that `destination` holds. -/
def read (n : ℕ) (destination : Bytes) : Reader σ Bytes := fun s =>
  (overlay (s.file.read n).1 destination, { s with file := (s.file.read n).2 })

/-- Read one byte into a variable that holds `destination`. -/
def readByte (destination : UInt8) : Reader σ UInt8 := do
  let bytes ← read 1 [destination]
  pure (bytes.headD destination)

/-- Read an unsigned integer that is stored least significant byte first. -/
def readWord (destination : Bytes) : Reader σ ℕ := do
  let bytes ← read destination.length destination
  pure (littleEndian bytes)

/-- Change the state and leave the stream. -/
def update (f : σ → σ) : Reader σ Unit := fun s => ((), { s with state := f s.state })

theorem bind_apply (p : Reader σ α) (f : α → Reader σ β) (s : ReaderState σ) :
    (p >>= f) s = f (p s).1 (p s).2 := rfl

theorem frame_bind (locals : ℕ → φ) (f : φ → Reader σ β) (s : ReaderState σ) :
    (frame locals >>= f) s = f (locals s.frames) s.enter := rfl

/-- A failed read leaves the variable as it was. -/
theorem readByte_end (destination : UInt8) (n : ℕ) (s : σ) :
    readByte destination ⟨⟨[], false⟩, n, s⟩ = (destination, ⟨⟨[], true⟩, n, s⟩) := rfl

theorem readByte_of_fail (destination : UInt8) {s : ReaderState σ} (h : s.file.fail = true) :
    readByte destination s = (destination, s) := by
  obtain ⟨⟨rest, fail⟩, n, s⟩ := s
  subst h
  rfl

theorem readByte_bind_of_fail (destination : UInt8) (f : UInt8 → Reader σ β) {s : ReaderState σ}
    (h : s.file.fail = true) : (readByte destination >>= f) s = f destination s := by
  rw [bind_apply, readByte_of_fail destination h]

theorem readWord_of_fail (destination : Bytes) {s : ReaderState σ} (h : s.file.fail = true) :
    readWord destination s = (littleEndian destination, s) := by
  obtain ⟨⟨rest, fail⟩, n, s⟩ := s
  subst h
  rfl

/-- At the end the stream fails with the first byte that is asked for. -/
theorem readByte_bind_end (destination : UInt8) (f : UInt8 → Reader σ β) (n : ℕ) (s : σ) :
    (readByte destination >>= f) ⟨⟨[], false⟩, n, s⟩ = f destination ⟨⟨[], true⟩, n, s⟩ := rfl

theorem readByte_cons (destination b : UInt8) (rest : Bytes) (n : ℕ) (s : σ) :
    readByte destination ⟨⟨b :: rest, false⟩, n, s⟩ = (b, ⟨⟨rest, false⟩, n, s⟩) := by
  have hread : (IFStream.mk (b :: rest) false).read 1 = ([b], ⟨rest, false⟩) :=
    IFStream.read_append [b] rest
  have hbyte : readByte destination ⟨⟨b :: rest, false⟩, n, s⟩
      = ((overlay ((IFStream.mk (b :: rest) false).read 1).1 [destination]).headD destination,
        ⟨((IFStream.mk (b :: rest) false).read 1).2, n, s⟩) := rfl
  rw [hbyte, hread]
  rfl

theorem readByte_bind_cons (destination b : UInt8) (f : UInt8 → Reader σ β) (rest : Bytes) (n : ℕ)
    (s : σ) : (readByte destination >>= f) ⟨⟨b :: rest, false⟩, n, s⟩ = f b ⟨⟨rest, false⟩, n, s⟩ := by
  rw [bind_apply, readByte_cons]

end Reader

/-- From the state `s`, the reader consumes exactly `bytes`, whatever follows them and
whatever frames were opened before, delivers `a` and leaves the state `t`. -/
def Reads (p : Reader σ α) (bytes : Bytes) (s : σ) (a : α) (t : σ) : Prop :=
  ∀ rest n, ∃ m, p ⟨⟨bytes ++ rest, false⟩, n, s⟩ = (a, ⟨⟨rest, false⟩, m, t⟩)

namespace Reads

variable {p : Reader σ α} {f : α → Reader σ β} {xs ys : Bytes} {s t u : σ} {a : α} {b : β}

protected theorem pure (a : α) (s : σ) : Reads (pure a) [] s a s := fun _ n => ⟨n, rfl⟩

/-- What follows a reader runs where the reader has left the stream. -/
theorem bind_eq (hp : Reads p xs s a t) (f : α → Reader σ β) (rest : Bytes) (n : ℕ) :
    ∃ m, (p >>= f) ⟨⟨xs ++ rest, false⟩, n, s⟩ = f a ⟨⟨rest, false⟩, m, t⟩ := by
  obtain ⟨m, hm⟩ := hp rest n
  have h : (p >>= f) ⟨⟨xs ++ rest, false⟩, n, s⟩
      = f (p ⟨⟨xs ++ rest, false⟩, n, s⟩).1 (p ⟨⟨xs ++ rest, false⟩, n, s⟩).2 := rfl
  exact ⟨m, by rw [h, hm]⟩

protected theorem bind (hp : Reads p xs s a t) (hf : Reads (f a) ys t b u) :
    Reads (p >>= f) (xs ++ ys) s b u := by
  intro rest n
  obtain ⟨m, hm⟩ := hp.bind_eq f (ys ++ rest) n
  obtain ⟨k, hk⟩ := hf rest m
  refine ⟨k, ?_⟩
  rw [List.append_assoc, hm]
  exact hk

/-- Sequencing with a step that consumes the rest of what is there. -/
theorem bind_pure (hp : Reads p xs s a t) (hf : f a = pure b) : Reads (p >>= f) xs s b t := by
  have h := hp.bind (f := f) (hf ▸ Reads.pure b t)
  rwa [List.append_nil] at h

/-- A frame whose locals are written before they are read. -/
theorem frame {f : φ → Reader σ β} (locals : ℕ → φ) (h : ∀ l, Reads (f l) xs s b t) :
    Reads (Reader.frame locals >>= f) xs s b t := fun rest n => h (locals n) rest (n + 1)

theorem update_bind {f : Unit → Reader σ β} (g : σ → σ) (h : Reads (f ()) xs (g s) b t) :
    Reads (Reader.update g >>= f) xs s b t := fun rest n => h rest n

theorem read {n : ℕ} {destination : Bytes} (hx : xs.length = n) (hd : destination.length = n)
    (s : σ) : Reads (Reader.read n destination) xs s xs s := by
  intro rest k
  have hread := IFStream.read_append xs rest
  rw [hx] at hread
  refine ⟨k, ?_⟩
  simp only [Reader.read, hread, overlay_of_length_eq (hx.trans hd.symm)]

theorem readByte (destination x : UInt8) (s : σ) :
    Reads (Reader.readByte destination) [x] s x s := by
  have hread : Reads (Reader.read 1 [destination]) [x] s [x] s := Reads.read rfl rfl s
  exact hread.bind_pure rfl

theorem readByte_bind {f : UInt8 → Reader σ β} {x : UInt8} (destination : UInt8)
    (h : Reads (f x) xs s b t) : Reads (Reader.readByte destination >>= f) (x :: xs) s b t :=
  (Reads.readByte destination x s).bind h

theorem readWord {n v : ℕ} {destination : Bytes} (hv : v < 256 ^ n)
    (hd : destination.length = n) (s : σ) :
    Reads (Reader.readWord destination) (toLittleEndian n v) s v s :=
  (Reads.read ((length_toLittleEndian n v).trans hd.symm) rfl s).bind_pure
    (by rw [littleEndian_toLittleEndian hv])

end Reads

/-- From the state `s`, what is left of `p` once `bytes` are consumed is `q` in the state `t`. -/
def Continues (p : Reader σ α) (bytes : Bytes) (s : σ) (q : Reader σ α) (t : σ) : Prop :=
  ∀ rest n, ∃ m, p ⟨⟨bytes ++ rest, false⟩, n, s⟩ = q ⟨⟨rest, false⟩, m, t⟩

namespace Continues

variable {p q r : Reader σ α} {f : β → Reader σ α} {xs ys : Bytes} {s t u : σ} {b : β}

theorem trans (h : Continues p xs s q t) (h' : Continues q ys t r u) :
    Continues p (xs ++ ys) s r u := by
  intro rest n
  obtain ⟨m, hm⟩ := h (ys ++ rest) n
  obtain ⟨k, hk⟩ := h' rest m
  exact ⟨k, by rw [List.append_assoc, hm, hk]⟩

theorem of_reads {p : Reader σ β} (hp : Reads p xs s b t) (f : β → Reader σ α) :
    Continues (p >>= f) xs s (f b) t := hp.bind_eq f

theorem frame {f : φ → Reader σ α} (locals : ℕ → φ) (h : ∀ l, Continues (f l) xs s q t) :
    Continues (Reader.frame locals >>= f) xs s q t := fun rest n => h (locals n) rest (n + 1)

theorem readByte_bind {f : UInt8 → Reader σ α} {x : UInt8} (destination : UInt8)
    (h : Continues (f x) xs s q t) :
    Continues (Reader.readByte destination >>= f) (x :: xs) s q t :=
  (of_reads (Reads.readByte destination x s) f).trans h

end Continues

/-- A property of readers that is kept by their sequencing, by frames and by reads. -/
structure Composes (P : ∀ {α : Type}, Reader σ α → Prop) : Prop where
  pure {α : Type} (a : α) : P (pure a)
  bind {α β : Type} {p : Reader σ α} {f : α → Reader σ β} : P p → (∀ a, P (f a)) → P (p >>= f)
  frame {φ : Type} (locals : ℕ → φ) : P (Reader.frame locals)
  read (n : ℕ) (destination : Bytes) : P (Reader.read n destination)

namespace Composes

variable {P : ∀ {α : Type}, Reader σ α → Prop} (hP : Composes P) {p q : Reader σ α}
include hP

theorem readByte (destination : UInt8) : P (Reader.readByte destination) :=
  hP.bind (hP.read 1 _) fun _ => hP.pure _

theorem readWord (destination : Bytes) : P (Reader.readWord destination) :=
  hP.bind (hP.read _ _) fun _ => hP.pure _

omit hP in
theorem ite {c : Prop} [Decidable c] (hp : P p) (hq : P q) : P (if c then p else q) := by
  split
  · exact hp
  · exact hq

end Composes

/-- The reader leaves no more of the stream than it found. -/
def Advances (p : Reader σ α) : Prop := ∀ s, (p s).2.file.remaining ≤ s.file.remaining

namespace Advances

theorem composes : Composes (@Advances σ) where
  pure _ _ := le_rfl
  bind hp hf s := (hf _ _).trans (hp s)
  frame _ _ := le_rfl
  read n _ s := IFStream.remaining_read_le s.file n

theorem update (g : σ → σ) : Advances (Reader.update g) := fun _ => le_rfl

/-- A byte read from a good stream is one step towards its end. -/
theorem readByte_lt (destination : UInt8) {s : ReaderState σ} (h : s.file.fail = false) :
    (Reader.readByte destination s).2.file.remaining < s.file.remaining :=
  IFStream.remaining_read_lt (by omega) h

end Advances

/-- The reader leaves the state as it is. -/
def Inert (p : Reader σ α) : Prop := ∀ s, (p s).2.state = s.state

theorem Inert.composes : Composes (@Inert σ) where
  pure _ _ := rfl
  bind hp hf s := (hf _ _).trans (hp s)
  frame _ _ := rfl
  read _ _ _ := rfl

/-- What the reader leaves of the stream is an end of what it finds. -/
def Drops (p : Reader σ α) : Prop := ∀ s, (p s).2.file.rest <:+ s.file.rest

namespace Drops

theorem composes : Composes (@Drops σ) where
  pure _ _ := List.suffix_rfl
  bind hp hf s := (hf _ _).trans (hp s)
  frame _ _ := List.suffix_rfl
  read n _ s := by
    obtain ⟨⟨bytes, fail⟩, k, s⟩ := s
    cases fail with
    | true => exact List.suffix_rfl
    | false =>
      by_cases hn : n ≤ bytes.length
      · simpa [Reader.read, IFStream.read, hn] using List.drop_suffix n bytes
      · simp [Reader.read, IFStream.read, hn]

theorem update (g : σ → σ) : Drops (Reader.update g) := fun _ => List.suffix_rfl

end Drops

/-- More bytes at the end of the stream. -/
def ReaderState.append (s : ReaderState σ) (rest : Bytes) : ReaderState σ :=
  { s with file := { s.file with rest := s.file.rest ++ rest } }

/-- A reader that stays within the stream does the same however the stream goes on, and no
reader recovers a stream that has failed. -/
structure Local (p : Reader σ α) : Prop where
  fail : ∀ s, s.file.fail = true → (p s).2.file.fail = true
  append : ∀ s rest, (p s).2.file.fail = false → p (s.append rest) = ((p s).1, (p s).2.append rest)

namespace Local

protected theorem bind {p : Reader σ α} {f : α → Reader σ β} (hp : Local p)
    (hf : ∀ a, Local (f a)) : Local (p >>= f) where
  fail s h := (hf (p s).1).fail _ (hp.fail s h)
  append s rest h := by
    have hgood : (p s).2.file.fail = false := by
      by_contra hfail
      rw [Bool.not_eq_false] at hfail
      exact Bool.false_ne_true (h.symm.trans ((hf (p s).1).fail _ hfail))
    have hbind : (p >>= f) (s.append rest) = f (p (s.append rest)).1 (p (s.append rest)).2 := rfl
    rw [hbind, hp.append s rest hgood]
    exact (hf (p s).1).append (p s).2 rest h

protected theorem read (n : ℕ) (destination : Bytes) :
    Local (Reader.read (σ := σ) n destination) where
  fail s h := by
    obtain ⟨⟨bytes, fail⟩, k, s⟩ := s
    subst h
    rfl
  append s rest h := by
    obtain ⟨⟨bytes, fail⟩, k, s⟩ := s
    cases fail with
    | true => exact absurd h (by simp [Reader.read, IFStream.read])
    | false =>
      by_cases hn : n ≤ bytes.length
      · have hlong : n ≤ (bytes ++ rest).length := by
          rw [List.length_append]
          omega
        simp only [Reader.read, IFStream.read, ReaderState.append, Bool.false_eq_true, if_false,
          if_pos hn, if_pos hlong, List.take_append_of_le_length hn, List.drop_append_of_le_length hn]
      · exact absurd h (by simp [Reader.read, IFStream.read, hn])

theorem composes : Composes (@Local σ) where
  pure _ := ⟨fun _ h => h, fun _ _ _ => rfl⟩
  bind := Local.bind
  frame _ := ⟨fun _ h => h, fun _ _ _ => rfl⟩
  read := Local.read

theorem update (g : σ → σ) : Local (Reader.update g) := ⟨fun _ h => h, fun _ _ _ => rfl⟩

/-- What a reader consumes is not enough for it when it is cut off. -/
theorem fail_of_reads {p : Reader σ α} {xs ys : Bytes} {s t : σ} {a : α} (hp : Local p)
    (h : Reads p (xs ++ ys) s a t) (hy : ys ≠ []) (n : ℕ) :
    (p ⟨⟨xs, false⟩, n, s⟩).2.file.fail = true := by
  by_contra hgood
  rw [Bool.not_eq_true] at hgood
  have happend := hp.append _ ys hgood
  obtain ⟨m, hm⟩ := h [] n
  rw [List.append_nil] at hm
  have hrest := congrArg (fun r => r.2.file.rest) (happend.symm.trans hm)
  exact hy (List.append_eq_nil_iff.mp hrest).2

end Local

end RedisServer.StreamReaders
