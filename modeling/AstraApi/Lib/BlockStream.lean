import Mathlib.Tactic

/-!
# Block-wise absorption

A compression function takes in a message block by block.  When the elements come
one at a time, those of the block under way are kept until it is full.
-/

namespace AstraApi.BlockStream

open List

variable {σ α : Type*} (size : ℕ) (compress : σ → List α → σ)

/-- The first `count` blocks taken in one after the other. -/
def absorbBlocks : ℕ → σ → List α → σ
  | 0, state, _ => state
  | count + 1, state, message =>
    absorbBlocks count (compress state (message.take size)) (message.drop size)

/-- The state after the full blocks, and the elements of the block under way. -/
structure Stream (σ α : Type*) where
  state : σ
  pending : List α

def push (stream : Stream σ α) (x : α) : Stream σ α :=
  if stream.pending.length + 1 = size then ⟨compress stream.state (stream.pending ++ [x]), []⟩
  else ⟨stream.state, stream.pending ++ [x]⟩

def absorb (stream : Stream σ α) (message : List α) : Stream σ α :=
  message.foldl (push size compress) stream

theorem absorb_append (stream : Stream σ α) (message more : List α) :
    absorb size compress stream (message ++ more) =
      absorb size compress (absorb size compress stream message) more :=
  foldl_append

/-- Elements that do not fill the block. -/
theorem absorb_short (state : σ) (pending : List α) {message : List α}
    (hshort : pending.length + message.length < size) :
    absorb size compress ⟨state, pending⟩ message = ⟨state, pending ++ message⟩ := by
  induction message generalizing pending with
  | nil => rw [append_nil]; rfl
  | cons x message ih =>
    rw [length_cons] at hshort
    have hpush : push size compress ⟨state, pending⟩ x = ⟨state, pending ++ [x]⟩ :=
      if_neg (show ¬ pending.length + 1 = size by omega)
    have hnext : (pending ++ [x]).length + message.length < size := by
      rw [length_append, length_singleton]
      omega
    calc absorb size compress ⟨state, pending⟩ (x :: message)
        = absorb size compress (push size compress ⟨state, pending⟩ x) message := rfl
      _ = ⟨state, (pending ++ [x]) ++ message⟩ := by rw [hpush, ih _ hnext]
      _ = ⟨state, pending ++ x :: message⟩ := by rw [append_assoc, singleton_append]

theorem absorb_block (state : σ) {block : List α} (hpos : 0 < size)
    (hblock : block.length = size) :
    absorb size compress ⟨state, []⟩ block = ⟨compress state block, []⟩ := by
  obtain ⟨front, x, rfl⟩ : ∃ front x, block = front ++ [x] := by
    have hne : block ≠ [] := ne_nil_of_length_pos (hblock.symm ▸ hpos)
    exact ⟨block.dropLast, block.getLast hne, (dropLast_append_getLast hne).symm⟩
  rw [length_append, length_singleton] at hblock
  rw [absorb_append, absorb_short _ _ _ [] (by rw [length_nil]; omega)]
  exact if_pos hblock

/-- However the elements come, the full blocks have been taken in. -/
theorem absorb_eq (hpos : 0 < size) (state : σ) (message : List α) :
    absorb size compress ⟨state, []⟩ message =
      ⟨absorbBlocks size compress (message.length / size) state message,
        message.drop (message.length / size * size)⟩ := by
  generalize hcount : message.length / size = count
  induction count generalizing state message with
  | zero =>
    have hshort : message.length < size := (Nat.div_eq_zero_iff_lt hpos).mp hcount
    rw [absorb_short _ _ _ [] (by rw [length_nil]; omega), Nat.zero_mul]
    rfl
  | succ count ih =>
    have hfull : size ≤ message.length := by
      rw [← Nat.div_pos_iff.trans (and_iff_right hpos)]
      omega
    have hblock : (message.take size).length = size := length_take_of_le hfull
    have hrest : (message.drop size).length / size = count := by
      rw [length_drop]
      exact Nat.succ_inj.mp ((Nat.div_eq_sub_div hpos hfull).symm.trans hcount)
    calc absorb size compress ⟨state, []⟩ message
        = absorb size compress ⟨state, []⟩ (message.take size ++ message.drop size) := by
          rw [take_append_drop]
      _ = absorb size compress ⟨compress state (message.take size), []⟩ (message.drop size) := by
          rw [absorb_append, absorb_block _ _ _ hpos hblock]
      _ = ⟨absorbBlocks size compress count (compress state (message.take size))
            (message.drop size), (message.drop size).drop (count * size)⟩ := ih _ _ hrest
      _ = ⟨absorbBlocks size compress (count + 1) state message,
            message.drop ((count + 1) * size)⟩ := by
          rw [absorbBlocks, drop_drop, Nat.succ_mul, Nat.add_comm]

end AstraApi.BlockStream
