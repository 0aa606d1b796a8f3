import RedisServer.StreamReaders

/-!
# What a reader pays for what it delivers

A byte of the stream is read at most once. So the occurrences of one byte value in what a
reader delivers, and in what it keeps in its state, come out of those that the stream had.
-/

namespace RedisServer.ReaderBudgets
open ByteStrings FileStreams StreamReaders

variable {σ φ α β : Type}

/-- The occurrences of `b` that are left in the stream, and the weight of the state. -/
def funds (b : UInt8) (weight : σ → ℕ) (s : ReaderState σ) : ℕ :=
  s.file.rest.count b + weight s.state

/-- Given `credit`, the reader can pay the price of what it delivers. -/
def Pays (b : UInt8) (weight : σ → ℕ) (credit : ℕ) (p : Reader σ α) (price : α → ℕ) : Prop :=
  ∀ s, price (p s).1 + funds b weight (p s).2 ≤ credit + funds b weight s

namespace Pays

variable {b : UInt8} {weight : σ → ℕ} {credit : ℕ} {p q : Reader σ α} {f : α → Reader σ β}
  {price : α → ℕ} {price' : β → ℕ}

protected theorem pure {a : α} (h : price a ≤ credit) :
    Pays b weight credit (pure a : Reader σ α) price := fun _ => Nat.add_le_add_right h _

protected theorem bind (hp : Pays b weight credit p price)
    (hf : ∀ a, Pays b weight (price a) (f a) price') : Pays b weight credit (p >>= f) price' :=
  fun s => (hf (p s).1 (p s).2).trans (hp s)

/-- Credit that is not used is kept. -/
theorem keep (hp : Pays b weight credit p price) (n : ℕ) :
    Pays b weight (n + credit) p fun a => n + price a := by
  intro s
  have h := hp s
  dsimp only
  omega

theorem ite {c : Prop} [Decidable c] (hp : Pays b weight credit p price)
    (hq : Pays b weight credit q price) : Pays b weight credit (if c then p else q) price := by
  split
  · exact hp
  · exact hq

theorem frame (locals : ℕ → φ) : Pays b weight 0 (Reader.frame (σ := σ) locals) fun _ => 0 :=
  fun s => le_refl (0 + funds b weight s)

/-- The destination has to be paid for as far as it may stay. -/
theorem read (n : ℕ) (destination : Bytes) : Pays b weight (destination.count b)
    (Reader.read (σ := σ) n destination) fun bytes => bytes.count b := by
  rintro ⟨⟨rest, fail⟩, frames, state⟩
  have hoverlay (got : Bytes) : (overlay got destination).count b
      ≤ got.count b + destination.count b := by
    rw [overlay, List.count_append]
    exact Nat.add_le_add_left ((List.drop_sublist _ _).count_le b) _
  simp only [Reader.read, funds, IFStream.read]
  split
  · have hempty := hoverlay []
    simp only [List.count_nil] at hempty ⊢
    omega
  split
  · have htake := hoverlay (rest.take n)
    have hsplit : rest.count b = (rest.take n).count b + (rest.drop n).count b := by
      rw [← List.count_append, List.take_append_drop]
    dsimp only
    omega
  · have hrest := hoverlay rest
    simp only [List.count_nil]
    omega

/-- A number is free whatever bytes it is made of. -/
theorem read_free (n : ℕ) (destination : Bytes) :
    Pays b weight 0 (Reader.read (σ := σ) n destination) fun _ => 0 := by
  rintro ⟨⟨rest, fail⟩, frames, state⟩
  have hdrop : (rest.drop n).count b ≤ rest.count b := (List.drop_sublist _ _).count_le b
  simp only [Reader.read, funds, IFStream.read]
  split
  · exact le_rfl
  split
  · dsimp only
    omega
  · simp only [List.count_nil]
    omega

theorem readByte (destination : UInt8) :
    Pays b weight 0 (Reader.readByte (σ := σ) destination) fun _ => 0 :=
  (read_free 1 [destination]).bind fun _ => .pure le_rfl

theorem readWord (destination : Bytes) :
    Pays b weight 0 (Reader.readWord (σ := σ) destination) fun _ => 0 :=
  (read_free _ destination).bind fun _ => .pure le_rfl

theorem update {g : σ → σ} (h : ∀ s, weight (g s) ≤ credit + weight s) :
    Pays b weight credit (Reader.update g) fun _ => 0 := by
  rintro ⟨file, frames, state⟩
  have hstate := h state
  simp only [Reader.update, funds]
  omega

end Pays

/-- An occurrence that is taken from the stream is gone. -/
theorem funds_cons (b x : UInt8) (weight : σ → ℕ) (rest : Bytes) (fail : Bool) (n : ℕ) (s : σ) :
    funds b weight ⟨⟨x :: rest, fail⟩, n, s⟩
      = (if x = b then 1 else 0) + funds b weight ⟨⟨rest, fail⟩, n, s⟩ := by
  simp only [funds, List.count_cons, beq_iff_eq]
  omega

end RedisServer.ReaderBudgets
