import AstraApi.Lib.Bytes
import AstraApi.Lib.Circular
import AstraApi.Lib.Doubling

/-!
# The WebSocket ring buffer

`WsRingBuffer` keeps the bytes received and not yet parsed in a circular buffer
whose capacity is a power of two and doubles on demand up to a limit.  Its
operations are those of a byte queue: `contents` is the queue, `append` adds at
its end, `consume` removes from its front, and `readableContiguous` changes the
layout only.
-/

namespace AstraApi.WebSocket

open List
open Circular Doubling

variable {ring : WsRingBuffer} {data : Bytes}

structure WsRingBuffer where
  buffer : Bytes
  capacity : ℕ
  maxCapacity : ℕ
  readPos : ℕ := 0
  writePos : ℕ := 0

namespace WsRingBuffer

def defaultCapacity : ℕ := 128 * 1024
def maximumCapacity : ℕ := 16 * 1024 * 1024

def create (initialCapacity maxCapacity : ℕ) : WsRingBuffer :=
  let capacity := min (doubleUntil initialCapacity 1 initialCapacity) maxCapacity
  { buffer := List.replicate capacity 0, capacity := capacity, maxCapacity := maxCapacity }

def readable (ring : WsRingBuffer) : ℕ := ring.writePos - ring.readPos

def available (ring : WsRingBuffer) : ℕ := ring.capacity - ring.readable

/-- The position in the buffer of an absolute position. -/
def index (ring : WsRingBuffer) (pos : ℕ) : ℕ := pos &&& (ring.capacity - 1)

/-- The readable bytes as `grow` copies them. -/
def copyOut (ring : WsRingBuffer) : Bytes :=
  let readIdx := ring.index ring.readPos
  let first := ring.capacity - readIdx
  if ring.readable ≤ first then (ring.buffer.drop readIdx).take ring.readable
  else ring.buffer.drop readIdx ++ ring.buffer.take (ring.readable - first)

/-- `none` when the maximum capacity would be exceeded. -/
def grow (ring : WsRingBuffer) (required : ℕ) : Option WsRingBuffer :=
  let needed := ring.readable + required
  let newCap := doubleUntil needed ring.capacity needed
  if ring.maxCapacity < newCap then none
  else if newCap ≤ ring.capacity then some ring
  else
    some
      { ring with
        buffer := ring.copyOut ++ List.replicate (newCap - ring.readable) 0
        capacity := newCap
        readPos := 0
        writePos := ring.readable }

/-- The copy into the buffer, with two `memcpy` when the data wraps. -/
def write (ring : WsRingBuffer) (data : Bytes) : WsRingBuffer :=
  let writeIdx := ring.index ring.writePos
  let toEnd := ring.capacity - writeIdx
  let buffer :=
    if data.length ≤ toEnd then blit ring.buffer writeIdx data
    else blit (blit ring.buffer writeIdx (data.take toEnd)) 0 (data.drop toEnd)
  { ring with buffer := buffer, writePos := ring.writePos + data.length }

/-- `none` when the caller has to apply backpressure; the ring is then
unchanged. -/
def append (ring : WsRingBuffer) (data : Bytes) : Option WsRingBuffer :=
  if data = [] then some ring
  else
    (if ring.available < data.length then ring.grow data.length else some ring).map
      fun ring => ring.write data

/-- The offset of a contiguous view of all readable bytes, `none` when there
are none.  Wrapped data is first moved to the front of the buffer. -/
def readableContiguous (ring : WsRingBuffer) : WsRingBuffer × Option ℕ :=
  if ring.readPos = ring.writePos then (ring, none)
  else
    let readIdx := ring.index ring.readPos
    let writeIdx := ring.index ring.writePos
    if readIdx < writeIdx then (ring, some readIdx)
    else
      let first := ring.capacity - readIdx
      let buffer :=
        if writeIdx ≤ first then
          blit (blit ring.buffer 0 (ring.buffer.drop readIdx)) first (ring.buffer.take writeIdx)
        else
          blit (blit ring.buffer first (ring.buffer.take writeIdx)) 0 (ring.buffer.drop readIdx)
      ({ ring with buffer := buffer, readPos := 0, writePos := ring.readable }, some 0)

/-- In-place changes made through the contiguous view. -/
def overwrite (ring : WsRingBuffer) (offset : ℕ) (data : Bytes) : WsRingBuffer :=
  { ring with buffer := blit ring.buffer offset data }

def consume (ring : WsRingBuffer) (count : ℕ) : WsRingBuffer :=
  if ring.readPos + count = ring.writePos then { ring with readPos := 0, writePos := 0 }
  else { ring with readPos := ring.readPos + count }

def contents (ring : WsRingBuffer) : Bytes :=
  window ring.buffer ring.readPos ring.readable

/-- The representation invariant. -/
structure Valid (ring : WsRingBuffer) : Prop where
  power : ∃ k, ring.capacity = 2 ^ k
  maxPower : ∃ m, ring.maxCapacity = 2 ^ m
  length_buffer : ring.buffer.length = ring.capacity
  ordered : ring.readPos ≤ ring.writePos
  bounded : ring.readable ≤ ring.capacity
  limited : ring.capacity ≤ ring.maxCapacity

/-! ## Positions -/

theorem index_eq_mod (hvalid : ring.Valid) (pos : ℕ) :
    ring.index pos = pos % ring.buffer.length := by
  obtain ⟨k, hk⟩ := hvalid.power
  rw [index, hvalid.length_buffer, hk, Nat.and_two_pow_sub_one_eq_mod]

theorem capacity_pos (hvalid : ring.Valid) : 0 < ring.capacity := by
  obtain ⟨k, hk⟩ := hvalid.power
  rw [hk]
  exact Nat.two_pow_pos k

theorem readPos_add_readable (hvalid : ring.Valid) :
    ring.readPos + ring.readable = ring.writePos := by
  have hordered := hvalid.ordered
  unfold readable
  omega

theorem readable_le_length (hvalid : ring.Valid) :
    ring.readable ≤ ring.buffer.length :=
  hvalid.length_buffer ▸ hvalid.bounded

theorem length_contents (hvalid : ring.Valid) :
    ring.contents.length = ring.readable :=
  length_window (readable_le_length hvalid)

/-! ## Append -/

theorem write_spec (hvalid : ring.Valid)
    (hroom : ring.readable + data.length ≤ ring.capacity) :
    (ring.write data).Valid ∧ (ring.write data).contents = ring.contents ++ data := by
  have hpos : 0 < ring.buffer.length := hvalid.length_buffer ▸ capacity_pos hvalid
  have hbuffer : (ring.write data).buffer = ringWrite ring.buffer ring.writePos data := by
    simp [write, ringWrite, index_eq_mod hvalid, hvalid.length_buffer]
  have hreadable : (ring.write data).readable = ring.readable + data.length := by
    have hordered := hvalid.ordered
    simp only [write, readable]
    omega
  have hfits : ring.readable + data.length ≤ ring.buffer.length :=
    hvalid.length_buffer ▸ hroom
  refine ⟨⟨hvalid.power, hvalid.maxPower, ?_, ?_, ?_, hvalid.limited⟩, ?_⟩
  · rw [hbuffer, length_ringWrite _ hpos (by omega)]
    exact hvalid.length_buffer
  · have hordered := hvalid.ordered
    simp only [write]
    omega
  · rw [hreadable]
    exact hroom
  · rw [contents, hreadable, hbuffer, ← readPos_add_readable hvalid]
    exact window_ringWrite hpos hfits

theorem copyOut_eq_contents (hvalid : ring.Valid) :
    ring.copyOut = ring.contents := by
  have hpos := capacity_pos hvalid
  have hreadable := readable_le_length hvalid
  simp only [copyOut, index_eq_mod hvalid, contents, window, rotate_eq_mod, ← hvalid.length_buffer]
  split
  · rw [take_append_of_le_length]
    simp only [length_drop]
    omega
  · rename_i hwraps
    have hfirst : (ring.buffer.drop (ring.readPos % ring.buffer.length)).length ≤
        ring.readable := by
      rw [length_drop]
      omega
    rw [take_append, take_of_length_le hfirst, take_take, length_drop, min_eq_left (by omega)]

/-- A buffer that was filled from the start again. -/
theorem relocated_spec (hvalid : ring.Valid) {newCap : ℕ}
    (hpower : ∃ k, newCap = 2 ^ k) (hroom : ring.readable ≤ newCap)
    (hlimit : newCap ≤ ring.maxCapacity) :
    let moved : WsRingBuffer :=
      { ring with
        buffer := ring.copyOut ++ List.replicate (newCap - ring.readable) 0
        capacity := newCap
        readPos := 0
        writePos := ring.readable }
    moved.Valid ∧ moved.contents = ring.contents := by
  intro moved
  have hcopy : ring.copyOut.length = ring.readable := by
    rw [copyOut_eq_contents hvalid, length_contents hvalid]
  have hreadable : moved.readable = ring.readable := Nat.sub_zero _
  constructor
  · refine ⟨hpower, hvalid.maxPower, ?_, Nat.zero_le _, ?_, hlimit⟩
    · simp only [moved, length_append, length_replicate, hcopy]
      omega
    · exact hroom
  · rw [contents, hreadable, window, rotate_zero, take_left' hcopy, copyOut_eq_contents hvalid]

theorem grow_spec {ring' : WsRingBuffer} (hvalid : ring.Valid) {required : ℕ}
    (hgrow : ring.grow required = some ring') :
    ring'.Valid ∧ ring'.contents = ring.contents ∧ ring'.maxCapacity = ring.maxCapacity ∧
      ring'.readable = ring.readable ∧ ring.readable + required ≤ ring'.capacity := by
  obtain ⟨k, hk⟩ := hvalid.power
  have henough : ring.readable + required ≤
      doubleUntil (ring.readable + required) ring.capacity (ring.readable + required) :=
    le_doubleUntil (capacity_pos hvalid) (by omega)
  simp only [grow] at hgrow
  split at hgrow
  · simp at hgrow
  · rename_i hlimit
    split at hgrow
    · obtain rfl : ring = ring' := by simpa using hgrow
      exact ⟨hvalid, rfl, rfl, rfl, by omega⟩
    · obtain rfl := Option.some.inj hgrow
      have hpower : ∃ k', doubleUntil (ring.readable + required) ring.capacity
          (ring.readable + required) = 2 ^ k' := by
        rw [hk]
        exact doubleUntil_power _ k _
      have hmoved := relocated_spec hvalid hpower (by omega) (by omega)
      exact ⟨hmoved.1, hmoved.2, rfl, Nat.sub_zero _, henough⟩

theorem append_spec {ring' : WsRingBuffer} (hvalid : ring.Valid)
    (happend : ring.append data = some ring') :
    ring'.Valid ∧ ring'.contents = ring.contents ++ data ∧
      ring'.maxCapacity = ring.maxCapacity := by
  unfold append at happend
  split at happend
  · rename_i hempty
    obtain rfl : ring = ring' := by simpa using happend
    exact ⟨hvalid, by simp [hempty], rfl⟩
  · obtain ⟨grown, hgrown, rfl⟩ := Option.map_eq_some_iff.mp happend
    split at hgrown
    · obtain ⟨hvalid', hcontents, hmax, hreadable, hroom⟩ := grow_spec hvalid hgrown
      have hfits : grown.readable + data.length ≤ grown.capacity := by omega
      obtain ⟨hwritten, hadded⟩ := write_spec hvalid' hfits
      exact ⟨hwritten, by rw [hadded, hcontents], hmax⟩
    · rename_i havailable
      obtain rfl : ring = grown := by simpa using hgrown
      have hbounded := hvalid.bounded
      have hroom : ring.readable + data.length ≤ ring.capacity := by
        unfold available at havailable
        omega
      obtain ⟨hwritten, hadded⟩ := write_spec hvalid hroom
      exact ⟨hwritten, hadded, rfl⟩

/-- `append` succeeds as long as the queue stays within the maximum. -/
theorem append_isSome (hvalid : ring.Valid)
    (hlimit : ring.contents.length + data.length ≤ ring.maxCapacity) :
    (ring.append data).isSome := by
  obtain ⟨k, hk⟩ := hvalid.power
  obtain ⟨m, hm⟩ := hvalid.maxPower
  have hcapacity := hvalid.limited
  rw [length_contents hvalid] at hlimit
  unfold append
  split
  · rfl
  · split
    · have hle : doubleUntil (ring.readable + data.length) ring.capacity
          (ring.readable + data.length) ≤ ring.maxCapacity := by
        rw [hm] at hlimit
        rw [hk, hm] at hcapacity
        rw [hk, hm]
        exact doubleUntil_le _ hlimit hcapacity
      simp only [grow, if_neg (Nat.not_lt.mpr hle)]
      split <;> rfl
    · rfl

/-! ## The contiguous view -/

/-- All readable bytes lie in one block from `offset` on. -/
structure Shows (ring : WsRingBuffer) (offset : ℕ) : Prop where
  index : ring.readPos % ring.buffer.length = offset
  fits : offset + ring.readable ≤ ring.buffer.length

theorem Shows.contents_eq {offset : ℕ} (hshows : ring.Shows offset) :
    ring.contents = (ring.buffer.drop offset).take ring.readable := by
  have hfits := hshows.fits
  rw [contents, window, rotate_eq_mod, hshows.index, take_append_of_le_length]
  rw [length_drop]
  omega

/-- The contiguous view shows the whole queue and changes the layout only. -/
theorem readableContiguous_spec {ring' : WsRingBuffer} {view : Option ℕ}
    (hvalid : ring.Valid) (hview : ring.readableContiguous = (ring', view)) :
    ring'.Valid ∧ ring'.contents = ring.contents ∧ ring'.maxCapacity = ring.maxCapacity ∧
      (view = none → ring.contents = []) ∧ ∀ offset, view = some offset → ring'.Shows offset := by
  have hreadable := readable_le_length hvalid
  have hwrite := readPos_add_readable hvalid
  simp only [readableContiguous] at hview
  split at hview
  · rename_i hempty
    obtain ⟨rfl, rfl⟩ := Prod.mk.inj hview
    refine ⟨hvalid, rfl, rfl, ?_, by simp⟩
    intro _
    have hzero : ring.readable = 0 := by omega
    simp [contents, window, hzero]
  · rename_i hnonempty
    have hpos : 0 < ring.readable := by omega
    rw [index_eq_mod hvalid, index_eq_mod hvalid, ← hwrite] at hview
    split at hview
    · rename_i hlt
      obtain ⟨rfl, rfl⟩ := Prod.mk.inj hview
      refine ⟨hvalid, rfl, rfl, by simp, ?_⟩
      intro offset hoffset
      obtain rfl := Option.some.inj hoffset
      exact ⟨rfl, (window_of_lt hreadable hlt).1⟩
    · rename_i hwraps
      obtain ⟨rfl, rfl⟩ := Prod.mk.inj hview
      obtain ⟨hlength, htake⟩ := take_linearize hpos hreadable hwraps
      simp only [linearize] at hlength htake
      rw [hvalid.length_buffer] at *
      have hbounded := hvalid.bounded
      refine ⟨⟨hvalid.power, hvalid.maxPower, hlength, Nat.zero_le _, ?_, hvalid.limited⟩,
        ?_, rfl, by simp, ?_⟩
      · simpa [readable] using hbounded
      · rw [contents, contents, ← htake]
        simp [window, readable]
      · intro offset hoffset
        obtain rfl := Option.some.inj hoffset
        refine ⟨Nat.zero_mod _, ?_⟩
        simp only [hlength]
        simpa [readable] using hbounded

/-- Changes through the view replace the queue by bytes of the same number. -/
theorem overwrite_spec {offset : ℕ} (hvalid : ring.Valid)
    (hshows : ring.Shows offset) (hlength : data.length = ring.readable) :
    (ring.overwrite offset data).Valid ∧ (ring.overwrite offset data).contents = data := by
  have hfits := hshows.fits
  have hbuffer : (ring.overwrite offset data).buffer.length = ring.buffer.length :=
    length_blit (by omega)
  have hshows' : (ring.overwrite offset data).Shows offset := by
    refine ⟨?_, ?_⟩
    · rw [hbuffer]
      exact hshows.index
    · rw [hbuffer]
      exact hfits
  refine ⟨⟨hvalid.power, hvalid.maxPower, hbuffer.trans hvalid.length_buffer, hvalid.ordered,
    hvalid.bounded, hvalid.limited⟩, ?_⟩
  have hoffset : (ring.buffer.take offset).length = offset := by
    rw [length_take]
    omega
  rw [hshows'.contents_eq]
  simp only [overwrite, blit]
  rw [append_assoc, drop_left' hoffset]
  exact take_left' hlength

theorem consume_spec (hvalid : ring.Valid) {count : ℕ}
    (hcount : count ≤ ring.contents.length) :
    (ring.consume count).Valid ∧ (ring.consume count).contents = ring.contents.drop count := by
  have hwrite := readPos_add_readable hvalid
  have hbounded := hvalid.bounded
  have hlength := readable_le_length hvalid
  rw [length_contents hvalid] at hcount
  unfold consume
  split
  · rename_i hall
    obtain rfl : count = ring.readable := by omega
    refine ⟨⟨hvalid.power, hvalid.maxPower, hvalid.length_buffer, le_rfl, by simp [readable],
      hvalid.limited⟩, ?_⟩
    simp [contents, window, readable]
  · refine ⟨⟨hvalid.power, hvalid.maxPower, hvalid.length_buffer, ?_, ?_, hvalid.limited⟩, ?_⟩
    · simp only
      omega
    · simp only [readable] at *
      omega
    · have hless : ({ ring with readPos := ring.readPos + count } : WsRingBuffer).readable =
          ring.readable - count := by
        simp only [readable]
        omega
      rw [contents, hless]
      exact (drop_window _ hcount hlength).symm

theorem create_valid {k m : ℕ} (hle : k ≤ m) :
    (create (2 ^ k) (2 ^ m)).Valid ∧ (create (2 ^ k) (2 ^ m)).contents = [] ∧
      (create (2 ^ k) (2 ^ m)).maxCapacity = 2 ^ m := by
  have hpow : 2 ^ k ≤ 2 ^ m := Nat.pow_le_pow_right (by norm_num) hle
  have hround : doubleUntil (2 ^ k) 1 (2 ^ k) = 2 ^ k := by
    have hone : 2 ^ 0 ≤ 2 ^ k := Nat.pow_le_pow_right (by norm_num) (Nat.zero_le k)
    have hupper := doubleUntil_le (2 ^ k) (le_refl (2 ^ k)) hone
    have hlower : 2 ^ k ≤ doubleUntil (2 ^ k) 1 (2 ^ k) :=
      le_doubleUntil Nat.one_pos (by omega)
    rw [pow_zero] at hupper
    omega
  have hcapacity : (create (2 ^ k) (2 ^ m)).capacity = 2 ^ k := by
    simp [create, hround, min_eq_left hpow]
  refine ⟨⟨⟨k, hcapacity⟩, ⟨m, rfl⟩, ?_, le_rfl, ?_, ?_⟩, ?_, rfl⟩
  · simp [create]
  · simp [create, readable]
  · rw [hcapacity]
    exact hpow
  · simp [create, contents, window, readable]

/-- The ring of a new connection. -/
theorem create_default :
    (create defaultCapacity maximumCapacity).Valid ∧
      (create defaultCapacity maximumCapacity).contents = [] ∧
      (create defaultCapacity maximumCapacity).maxCapacity = maximumCapacity := by
  have hdefault : defaultCapacity = 2 ^ 17 := by decide
  have hmaximum : maximumCapacity = 2 ^ 24 := by decide
  exact create_valid (show 17 ≤ 24 by norm_num)

end WsRingBuffer

end AstraApi.WebSocket
