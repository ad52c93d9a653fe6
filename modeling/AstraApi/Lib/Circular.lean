import Mathlib.Tactic

/-!
# Circular storage

A fixed array of cells used as a ring: the live elements start at an absolute
position, taken modulo the number of cells, and may continue at the front of
the array.  Writing behind the live elements and moving them to the front are
done with at most two block copies each.
-/

namespace AstraApi.Circular

open List

variable {α : Type*}

variable {cells data : List α} {offset count start : ℕ}

def blit (cells : List α) (offset : ℕ) (data : List α) : List α :=
  cells.take offset ++ data ++ cells.drop (offset + data.length)

def window (cells : List α) (start count : ℕ) : List α :=
  (cells.rotate start).take count

/-- Write `data` at the absolute position `pos`, wrapping at the end. -/
def ringWrite (cells : List α) (pos : ℕ) (data : List α) : List α :=
  let index := pos % cells.length
  let toEnd := cells.length - index
  if data.length ≤ toEnd then blit cells index data
  else blit (blit cells index (data.take toEnd)) 0 (data.drop toEnd)

/-- Move a wrapped window of `count` elements to the front of the array.  The
smaller of the two parts is set aside. -/
def linearize (cells : List α) (start count : ℕ) : List α :=
  let head := start % cells.length
  let first := cells.length - head
  let tail := (start + count) % cells.length
  if tail ≤ first then blit (blit cells 0 (cells.drop head)) first (cells.take tail)
  else blit (blit cells first (cells.take tail)) 0 (cells.drop head)

theorem length_blit (hroom : offset + data.length ≤ cells.length) :
    (blit cells offset data).length = cells.length := by
  simp only [blit, length_append, length_take, length_drop]
  omega

/-- The cells behind the copy are those that were there. -/
theorem drop_blit (hroom : offset ≤ cells.length)
    (hbehind : offset + data.length ≤ count) :
    (blit cells offset data).drop count = cells.drop count := by
  have hfront : (cells.take offset ++ data).length = offset + data.length := by
    rw [length_append, length_take, min_eq_left hroom]
  rw [blit, drop_append, drop_of_length_le (hfront.trans_le hbehind), nil_append,
    hfront, drop_drop, Nat.add_sub_cancel' hbehind]

theorem blit_append (front cells data : List α) :
    blit (front ++ cells) front.length data = front ++ data ++ cells.drop data.length := by
  rw [blit, take_left, drop_append, drop_of_length_le (Nat.le_add_right _ _),
    nil_append, Nat.add_sub_cancel_left]

/-- The cells in front of the copy are those that were there. -/
theorem take_drop_blit_before (hroom : offset ≤ cells.length) (hbefore : start + count ≤ offset) :
    ((blit cells offset data).drop start).take count = (cells.drop start).take count := by
  have hlength : (cells.take offset).length = offset := by
    rw [length_take, min_eq_left hroom]
  rw [take_drop, take_drop, blit, append_assoc,
    take_append_of_le_length (hbefore.trans_eq hlength.symm), take_take,
    min_eq_left hbefore]

theorem take_drop_blit (hroom : offset ≤ cells.length) :
    ((blit cells offset data).drop offset).take data.length = data := by
  rw [blit, append_assoc, drop_left' (by simpa using hroom), take_left]

theorem length_window (hcount : count ≤ cells.length) :
    (window cells start count).length = count := by
  simpa [window] using hcount

theorem rotate_eq_mod (cells : List α) (start : ℕ) :
    cells.rotate start =
      cells.drop (start % cells.length) ++ cells.take (start % cells.length) := by
  rcases Nat.eq_zero_or_pos cells.length with hzero | hpos
  · obtain rfl := length_eq_zero_iff.mp hzero
    simp
  · rw [← rotate_mod, rotate_eq_drop_append_take (Nat.mod_lt _ hpos).le]

theorem length_ringWrite (pos : ℕ) (hpos : 0 < cells.length)
    (hroom : data.length ≤ cells.length) :
    (ringWrite cells pos data).length = cells.length := by
  have hindex := Nat.mod_lt pos hpos
  simp only [ringWrite]
  split
  · exact length_blit (by omega)
  · have hinner : (blit cells (pos % cells.length)
        (data.take (cells.length - pos % cells.length))).length = cells.length :=
      length_blit (by simp only [length_take]; omega)
    rw [length_blit, hinner]
    simp only [length_drop]
    omega

/-- Seen from the written position, the data comes first and the other cells
keep their order. -/
theorem rotate_ringWrite (pos : ℕ) (hpos : 0 < cells.length)
    (hroom : data.length ≤ cells.length) :
    (ringWrite cells pos data).rotate pos = data ++ (cells.rotate pos).drop data.length := by
  have hindex := Nat.mod_lt pos hpos
  rw [rotate_eq_mod, length_ringWrite _ hpos hroom, rotate_eq_mod]
  generalize hw : pos % cells.length = w at hindex
  have htake : (cells.take w).length = w := by simp; omega
  simp only [ringWrite, hw]
  split
  · rename_i hfits
    have hdrop : (cells.drop w).length = cells.length - w := by simp
    rw [blit, append_assoc, drop_left' htake, take_left' htake,
      drop_append_of_le_length (by omega), drop_drop, append_assoc]
  · rename_i hwraps
    have hfirst : (data.take (cells.length - w)).length = cells.length - w := by simp; omega
    have hinner : blit cells w (data.take (cells.length - w)) =
        cells.take w ++ data.take (cells.length - w) := by
      rw [blit, hfirst, drop_of_length_le (by omega), append_nil]
    have hrest : (data.drop (cells.length - w)).length ≤ w := by simp; omega
    have houter : blit (cells.take w ++ data.take (cells.length - w)) 0
        (data.drop (cells.length - w)) = (data.drop (cells.length - w) ++
            (cells.take w).drop (data.drop (cells.length - w)).length) ++
              data.take (cells.length - w) := by
      rw [blit, take_zero, nil_append, Nat.zero_add,
        drop_append_of_le_length (htake.symm ▸ hrest), append_assoc]
    rw [hinner, houter]
    have hfront : (data.drop (cells.length - w) ++
        (cells.take w).drop (data.drop (cells.length - w)).length).length = w := by
      simp only [length_append, length_drop, length_take] at hrest ⊢
      omega
    rw [drop_left' hfront, take_left' hfront, ← append_assoc, take_append_drop]
    have hskip : (cells.drop w).drop data.length = [] :=
      drop_of_length_le (by simp only [length_drop]; omega)
    rw [drop_append, hskip, nil_append, length_drop, length_drop]

theorem window_ringWrite (hpos : 0 < cells.length)
    (hroom : count + data.length ≤ cells.length) :
    window (ringWrite cells (start + count) data) start (count + data.length) =
      window cells start count ++ data := by
  have hdata : data.length ≤ cells.length := by omega
  have hlength := length_ringWrite (start + count) hpos hdata
  have hrotate := rotate_ringWrite (start + count) hpos hdata
  rw [← rotate_rotate, ← rotate_rotate] at hrotate
  unfold window
  generalize ringWrite cells (start + count) data = written at hlength hrotate ⊢
  have hwritten : (written.rotate start).length = cells.length := by
    rw [length_rotate, hlength]
  have hcells : (cells.rotate start).length = cells.length := length_rotate ..
  generalize written.rotate start = left at hrotate hwritten ⊢
  rw [rotate_eq_drop_append_take (by omega), rotate_eq_drop_append_take (by omega),
    drop_append_of_le_length (by simp; omega), ← append_assoc] at hrotate
  obtain ⟨hdrop, htake⟩ := append_inj' hrotate (by simp; omega)
  rw [take_add, htake, hdrop, take_left]

theorem drop_window (skip : ℕ) (hskip : skip ≤ count)
    (hcount : count ≤ cells.length) :
    (window cells start count).drop skip = window cells (start + skip) (count - skip) := by
  unfold window
  rw [← rotate_rotate]
  have hlength : (cells.rotate start).length = cells.length := length_rotate ..
  generalize cells.rotate start = cells' at hlength ⊢
  rw [rotate_eq_drop_append_take (by omega), drop_take,
    take_append_of_le_length (by rw [length_drop]; omega)]

theorem window_of_lt
    (hcount : count ≤ cells.length) (hlt : start % cells.length < (start + count) % cells.length) :
    start % cells.length + count ≤ cells.length ∧
      window cells start count = (cells.drop (start % cells.length)).take count := by
  have hpos : 0 < cells.length := by
    by_contra hzero
    obtain rfl : count = 0 := by omega
    simp at hlt
  have hindex := Nat.mod_lt start hpos
  have hfits : start % cells.length + count < cells.length := by
    by_contra hge
    have hmod : (start + count) % cells.length = start % cells.length + count - cells.length := by
      rw [← Nat.mod_add_mod, Nat.mod_eq_sub_mod (by omega), Nat.mod_eq_of_lt (by omega)]
    omega
  refine ⟨hfits.le, ?_⟩
  rw [window, rotate_eq_mod, take_append_of_le_length (by simp; omega)]

theorem window_of_not_lt (hpos : 0 < count)
    (hcount : count ≤ cells.length)
    (hwraps : ¬ start % cells.length < (start + count) % cells.length) :
    start % cells.length + count = cells.length + (start + count) % cells.length ∧
      window cells start count = cells.drop (start % cells.length) ++
        cells.take ((start + count) % cells.length) := by
  have hindex := Nat.mod_lt start (show 0 < cells.length by omega)
  have hwrap : (start + count) % cells.length = start % cells.length + count - cells.length ∧
      cells.length ≤ start % cells.length + count := by
    have hmod : (start + count) % cells.length =
        (start % cells.length + count) % cells.length := (Nat.mod_add_mod ..).symm
    by_cases hge : cells.length ≤ start % cells.length + count
    · refine ⟨?_, hge⟩
      rw [hmod, Nat.mod_eq_sub_mod hge, Nat.mod_eq_of_lt (by omega)]
    · have hsame : (start % cells.length + count) % cells.length =
          start % cells.length + count := Nat.mod_eq_of_lt (by omega)
      omega
  refine ⟨by omega, ?_⟩
  rw [window, rotate_eq_mod, take_append, take_of_length_le (by simp; omega), take_take]
  congr 2
  simp only [length_drop]
  omega

/-- Moving a wrapped window to the front. -/
theorem take_linearize (hpos : 0 < count)
    (hcount : count ≤ cells.length)
    (hwraps : ¬ start % cells.length < (start + count) % cells.length) :
    (linearize cells start count).length = cells.length ∧
      (linearize cells start count).take count = window cells start count := by
  obtain ⟨hsum, hwindow⟩ := window_of_not_lt hpos hcount hwraps
  have hindex := Nat.mod_lt start (show 0 < cells.length by omega)
  rw [hwindow]
  simp only [linearize]
  generalize hh : start % cells.length = head at *
  generalize ht : (start + count) % cells.length = tail at *
  have hfirst : (cells.drop head).length = cells.length - head := by simp
  have hfront : (cells.take tail).length = tail := by simp; omega
  split
  · rename_i hsmall
    have hmove : blit cells 0 (cells.drop head) =
        cells.drop head ++ cells.drop (cells.length - head) := by
      rw [blit, take_zero, nil_append, Nat.zero_add, hfirst]
    rw [hmove, blit, hfront, take_left' hfirst, append_assoc]
    refine ⟨?_, ?_⟩
    · simp only [length_append, length_drop, length_take]
      omega
    · rw [← append_assoc, take_left']
      rw [length_append, hfirst, hfront]
      omega
  · rename_i hlarge
    have hmove : (blit cells (cells.length - head) (cells.take tail)).drop
        (cells.length - head) = cells.take tail ++ cells.drop (cells.length - head + tail) := by
      rw [blit, hfront, append_assoc, drop_left' (by simp)]
    have hlength : (blit cells (cells.length - head) (cells.take tail)).length =
        cells.length := length_blit (by omega)
    refine ⟨?_, ?_⟩
    · rw [length_blit (by omega), hlength]
    · rw [blit, take_zero, nil_append, Nat.zero_add, hfirst, hmove, ← append_assoc, take_left']
      rw [length_append, hfirst, hfront]
      omega

end AstraApi.Circular
